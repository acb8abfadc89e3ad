import NyxDb.Lib.Related
import NyxDb.Storage.SchemaFile
import NyxDb.Wal.Hash

/-!
# The records of the write-ahead log

A record is a payload followed by its checksum.  The writer forms the payload of each kind of
record, the reader takes records off the front of the file until one is damaged or cut short.
`readAll_of_logHolds` is the round trip: a log of records that fit their length fields is read back
with every record at the offset at which it was written.
-/

namespace NyxDb

open ByteParser List

/-- What a record says.  `schema` of rows is what the record itself tells of the columns. -/
inductive WalBody where
  | insert (schema : Schema) (rows : List Row)
  | createTable (schema : Schema)
  | delete (rowIndices : List Nat)
  | update (rowIndices : List Nat) (schema : Schema) (rows : List Row)
  | segmentFlush (sealedRowCount : Nat)
  deriving DecidableEq, Repr

structure WalRecord where
  byteOffset : Nat
  tableName : Bytes
  body : WalBody
  deriving DecidableEq, Repr

def walTypeInsert : UInt8 := 1
def walTypeCreate : UInt8 := 2
def walTypeDelete : UInt8 := 3
def walTypeUpdate : UInt8 := 4
def walTypeSegmentFlush : UInt8 := 5

/-! ## Writing -/

/-- The type as which a value of a column is written: anything but the other six types is a
string. -/
def walType (t : TypeId) : TypeId :=
  if t = .invalid then .varchar else t

/-- A value of a row: a byte that tells NULL, and the value as the alternative of its column. -/
def walValueBytes (t : TypeId) (v : Value) : Except Error Bytes :=
  if v.isNull then .ok [1]
  else if v.type = walType t then .ok (0 :: valueBytes v)
  else .error .badVariantAccess

/-- All values of a row.  A value past the columns is written only if it is NULL. -/
def walRowBytes : Schema → Row → Except Error Bytes
  | _, [] => .ok []
  | [], v :: row => do
      if v.isNull then do
        let rest ← walRowBytes [] row
        return 1 :: rest
      else .error .outOfBounds
  | c :: cs, v :: row => do
      let first ← walValueBytes c.type v
      let rest ← walRowBytes cs row
      return first ++ rest

/-- The rows of a record, after their number and a description of the columns. -/
def walRowsBytes (schema : Schema) (rows : List Row) : Except Error Bytes := do
  let rowBytes ← rows.mapM (walRowBytes schema)
  return leBytes 4 rows.length ++ (leBytes 2 schema.length ++
    (schema.flatMap (fun c => c.type.toByte :: leBytes 2 c.maxLen.toNat) ++ rowBytes.flatten))

def walIdsBytes (ids : List Nat) : Bytes :=
  leBytes 8 ids.length ++ ids.flatMap (leBytes 8)

/-- The payload of a record of a type: the name of the table and the rest. -/
def walPayload (type : UInt8) (table rest : Bytes) : Bytes :=
  [type] ++ (leBytes 2 table.length ++ table ++ rest)

def insertPayload (table : Bytes) (schema : Schema) (rows : List Row) : Except Error Bytes := do
  let body ← walRowsBytes schema rows
  return walPayload walTypeInsert table body

def createTablePayload (table : Bytes) (schema : Schema) : Bytes :=
  walPayload walTypeCreate table (leBytes 2 schema.length ++ schema.flatMap columnBytes)

def deletePayload (table : Bytes) (rowIndices : List Nat) : Bytes :=
  walPayload walTypeDelete table (walIdsBytes rowIndices)

def updatePayload (table : Bytes) (oldIndices : List Nat) (schema : Schema) (newRows : List Row) :
    Except Error Bytes := do
  let body ← walRowsBytes schema newRows
  return walPayload walTypeUpdate table (walIdsBytes oldIndices ++ body)

def segmentFlushPayload (table : Bytes) (sealedRowCount : Nat) : Bytes :=
  walPayload walTypeSegmentFlush table (leBytes 8 sealedRowCount)

/-- The bytes that are appended to the log. -/
def recordBytes (payload : Bytes) : Bytes :=
  payload ++ leBytes 8 (xxhash64 payload).toNat

/-! ## Reading -/

def readWalValue (c : Column) : ByteParser Value := do
  let null ← byte
  if null != 0 then pure .null else readPayload (walType c.type)

/-- A column as the records of rows describe it. -/
def readWalColumn : ByteParser Column := do
  let t ← byte
  let maxLen ← nat 2
  pure ⟨[], TypeId.ofByte t, false, UInt16.ofNat maxLen, none⟩

def readWalRows : ByteParser (Schema × List Row) := do
  let rowCount ← nat 4
  let colCount ← nat 2
  let schema ← times colCount readWalColumn
  let rows ← times rowCount (each readWalValue schema)
  pure (schema, rows)

def readWalIds : ByteParser (List Nat) := do
  let count ← nat 8
  times count (nat 8)

def readWalSchema : ByteParser Schema := do
  let colCount ← nat 2
  times colCount (readColumn fun b => b != 0)

def readWalBody (type : UInt8) : ByteParser WalBody :=
  if type = walTypeInsert then do
    let (schema, rows) ← readWalRows
    pure (.insert schema rows)
  else if type = walTypeCreate then do
    let schema ← readWalSchema
    pure (.createTable schema)
  else if type = walTypeDelete then do
    let ids ← readWalIds
    pure (.delete ids)
  else if type = walTypeUpdate then do
    let ids ← readWalIds
    let (schema, rows) ← readWalRows
    pure (.update ids schema rows)
  else if type = walTypeSegmentFlush then do
    let count ← nat 8
    pure (.segmentFlush count)
  else fail

def readWalPayload : ByteParser (Bytes × WalBody) := do
  let type ← byte
  let name ← counted 2
  let body ← readWalBody type
  pure (name, body)

/-- One record, whose checksum has to be right. -/
def readWalRecord : ByteParser (Bytes × WalBody) := fun bs =>
  match readWalPayload bs with
  | none => none
  | some (rec, rest) =>
    match nat 8 rest with
    | none => none
    | some (stored, rest') =>
      if stored = (xxhash64 (bs.take (bs.length - rest.length))).toNat then some (rec, rest')
      else none

/-- The records from the offset `pos` on, up to the first that cannot be read. -/
def readRecords : Nat → Nat → Bytes → List WalRecord
  | 0, _, _ => []
  | fuel + 1, pos, bs =>
    match readWalRecord bs with
    | none => []
    | some ((name, body), rest) =>
      ⟨pos, name, body⟩ :: readRecords fuel (pos + (bs.length - rest.length)) rest

/-- The bytes of `NWAL`. -/
def walMagic : Bytes := [0x4E, 0x57, 0x41, 0x4C]

def walVersion : Nat := 1

def walHeaderSize : Nat := 6

def walHeader : Bytes :=
  walMagic ++ leBytes 2 walVersion

def readAll (bs : Bytes) : Except Error (List WalRecord) :=
  if bs.length < walHeaderSize then .error .walNoHeader
  else if bs.take 4 ≠ walMagic then .error .walBadMagic
  else .ok (readRecords bs.length walHeaderSize (bs.drop walHeaderSize))

/-! ## Round trip -/

/-- What a record of rows keeps of a schema. -/
def logSchema (schema : Schema) : Schema :=
  schema.map fun c => ⟨[], c.type, false, c.maxLen, none⟩

variable {bs name payload : Bytes} {schema : Schema} {rows : List Row} {ids : List Nat}
  {recs : List WalRecord}

theorem reads_walValue {c : Column} {v : Value} (h : walValueBytes c.type v = .ok bs)
    (hfits : v.fits = true) : Reads (readWalValue c) bs v := by
  unfold walValueBytes at h
  cases hnull : v.isNull with
  | true =>
    rw [hnull] at h
    cases h
    obtain rfl : v = .null := by
      cases v with
      | null => rfl
      | _ => cases hnull
    exact (reads_byte 1).bind (reads_pure Value.null)
  | false =>
    rw [hnull] at h
    by_cases ht : v.type = walType c.type
    · rw [if_pos ht] at h
      cases h
      show Reads (readPayload (walType c.type)) (valueBytes v) v
      rw [← ht]
      exact reads_payload hnull hfits
    · rw [if_neg ht] at h
      cases h

theorem reads_walRow : ∀ {row} {bs},
    walRowBytes schema row = .ok bs → row.length = schema.length →
      (∀ v ∈ row, Value.fits v = true) →
      Reads (each readWalValue (logSchema schema)) bs row := by
  induction schema with
  | nil =>
    intro row bs h hlen _
    obtain rfl := length_eq_zero_iff.mp hlen
    cases h
    exact reads_pure []
  | cons c cs ih =>
    intro row bs h hlen hfits
    cases row with
    | nil => cases hlen
    | cons v row =>
      obtain ⟨_, hv, h⟩ := except_bind_eq_ok.mp h
      obtain ⟨_, hrow, h⟩ := except_bind_eq_ok.mp h
      cases h
      have hrest := ih hrow (Nat.succ.inj hlen) fun x hx =>
        hfits x (mem_cons_of_mem _ hx)
      have hfirst := reads_walValue (c := ⟨[], c.type, false, c.maxLen, none⟩) hv
        (hfits v mem_cons_self)
      exact hfirst.bind hrest.map

theorem reads_walColumns (schema : Schema) : Reads (times schema.length readWalColumn)
      (schema.flatMap fun c => c.type.toByte :: leBytes 2 c.maxLen.toNat) (logSchema schema) := by
  have hone : ∀ c : Column, Reads readWalColumn (c.type.toByte :: leBytes 2 c.maxLen.toNat)
      ⟨[], c.type, false, c.maxLen, none⟩ := by
    intro c
    have hlen : c.maxLen.toNat < 256 ^ 2 := c.maxLen.toNat_lt
    have hlast := (reads_nat hlen).map (f := fun maxLen =>
      (⟨[], TypeId.ofByte c.type.toByte, false, UInt16.ofNat maxLen, none⟩ : Column))
    simp only [TypeId.ofByte_toByte, UInt16.ofNat_toNat] at hlast
    refine (reads_byte c.type.toByte).bind ?_
    rwa [TypeId.ofByte_toByte]
  have h : Reads (times (logSchema schema).length readWalColumn)
      (schema.map fun c => c.type.toByte :: leBytes 2 c.maxLen.toNat).flatten (logSchema schema) :=
    reads_times_of_forall₂ (forall₂_map_left_iff.mpr (forall₂_map_right_iff.mpr
      (forall₂_same.mpr fun c _ => hone c)))
  rwa [logSchema, length_map] at h

/-- Rows whose number and whose parts fit their fields. -/
structure RowsFit (schema : Schema) (rows : List Row) : Prop where
  columns : schema.length < 2 ^ 16
  count : rows.length < 2 ^ 32
  widths : ∀ row ∈ rows, row.length = schema.length
  values : ∀ row ∈ rows, ∀ v ∈ row, Value.fits v = true

instance (schema : Schema) (rows : List Row) : Decidable (RowsFit schema rows) :=
  decidable_of_iff (schema.length < 2 ^ 16 ∧ rows.length < 2 ^ 32 ∧
      (∀ row ∈ rows, row.length = schema.length) ∧ ∀ row ∈ rows, ∀ v ∈ row, Value.fits v = true)
    ⟨fun ⟨columns, count, widths, values⟩ => ⟨columns, count, widths, values⟩,
      fun h => ⟨h.columns, h.count, h.widths, h.values⟩⟩

theorem reads_walRows (h : walRowsBytes schema rows = .ok bs) (hfits : RowsFit schema rows) :
    Reads readWalRows bs (logSchema schema, rows) := by
  rw [walRowsBytes, except_bind_eq_ok] at h
  obtain ⟨bss, hrows, h⟩ := h
  cases h
  have hall : Forall₂ (fun row bs => Reads (each readWalValue (logSchema schema)) bs row)
      rows bss :=
    forall₂_imp_mem (forall₂_of_mapM hrows) fun row hrow _ _ hr =>
      reads_walRow hr (hfits.widths row hrow) (hfits.values row hrow)
  have hcount : rows.length < 256 ^ 4 := hfits.count
  have hcols : schema.length < 256 ^ 2 := hfits.columns
  refine (reads_nat hcount).bind ((reads_nat hcols).bind ((reads_walColumns schema).bind ?_))
  exact (reads_times_of_forall₂ hall).map

/-- The payload is read as a record of the table. -/
def Encodes (payload name : Bytes) (body : WalBody) : Prop :=
  Reads readWalPayload payload (name, body)

theorem encodes_of_body {type : UInt8} {body : WalBody} (hname : name.length < 2 ^ 16)
    (hbody : Reads (readWalBody type) bs body) : Encodes (walPayload type name bs) name body := by
  have hlen : name.length < 256 ^ 2 := hname
  exact (reads_byte type).bind ((reads_counted hlen).bind hbody.map)

theorem encodes_insert (h : insertPayload name schema rows = .ok payload)
    (hname : name.length < 2 ^ 16) (hfits : RowsFit schema rows) :
    Encodes payload name (.insert (logSchema schema) rows) := by
  obtain ⟨_, hrows, h⟩ := except_bind_eq_ok.mp h
  cases h
  exact encodes_of_body hname (reads_walRows hrows hfits).map

theorem encodes_createTable (hname : name.length < 2 ^ 16) (hfits : Schema.fits schema = true) :
    Encodes (createTablePayload name schema) name (.createTable schema) := by
  unfold Schema.fits at hfits
  rw [Bool.and_eq_true, decide_eq_true_eq, all_eq_true] at hfits
  obtain ⟨hlen, hcols⟩ := hfits
  have hlen' : schema.length < 256 ^ 2 := hlen
  have hread : Reads readWalSchema (leBytes 2 schema.length ++ schema.flatMap columnBytes) schema :=
    (reads_nat hlen').bind
      (reads_times fun c hc => reads_column (by decide) (by decide) (hcols c hc))
  exact encodes_of_body hname hread.map

theorem reads_walIds (hlen : ids.length < 2 ^ 64) (hids : ∀ i ∈ ids, i < 2 ^ 64) :
    Reads readWalIds (walIdsBytes ids) ids := by
  have hlen' : ids.length < 256 ^ 8 := hlen
  refine (reads_nat hlen').bind (reads_times fun i hi => ?_)
  have hi' : i < 256 ^ 8 := hids i hi
  exact reads_nat hi'

theorem encodes_delete (hname : name.length < 2 ^ 16) (hlen : ids.length < 2 ^ 64)
    (hids : ∀ i ∈ ids, i < 2 ^ 64) : Encodes (deletePayload name ids) name (.delete ids) :=
  encodes_of_body hname (reads_walIds hlen hids).map

theorem encodes_update (h : updatePayload name ids schema rows = .ok payload)
    (hname : name.length < 2 ^ 16) (hlen : ids.length < 2 ^ 64) (hids : ∀ i ∈ ids, i < 2 ^ 64)
    (hfits : RowsFit schema rows) : Encodes payload name (.update ids (logSchema schema) rows) := by
  obtain ⟨_, hrows, h⟩ := except_bind_eq_ok.mp h
  cases h
  exact encodes_of_body hname ((reads_walIds hlen hids).bind (reads_walRows hrows hfits).map)

theorem encodes_segmentFlush {count : Nat} (hname : name.length < 2 ^ 16)
    (hcount : count < 2 ^ 64) :
    Encodes (segmentFlushPayload name count) name (.segmentFlush count) := by
  have hcount' : count < 256 ^ 8 := hcount
  exact encodes_of_body hname (reads_nat hcount').map

/-- The checksum of a record is found to be right. -/
theorem reads_walRecord {body : WalBody} (h : Encodes payload name body) :
    Reads readWalRecord (recordBytes payload) (name, body) := by
  intro rest
  have hsum : (xxhash64 payload).toNat < 256 ^ 8 := (xxhash64 payload).toNat_lt
  have hread := reads_nat hsum rest
  have htaken : (payload ++ (leBytes 8 (xxhash64 payload).toNat ++ rest)).take
      ((payload ++ (leBytes 8 (xxhash64 payload).toNat ++ rest)).length -
        (leBytes 8 (xxhash64 payload).toNat ++ rest).length) = payload := by
    rw [length_append, Nat.add_sub_cancel, take_left]
  unfold readWalRecord recordBytes
  rw [append_assoc, h]
  simp [hread]

/-- The file holds the records, each at its offset. -/
inductive LogHolds : Bytes → List WalRecord → Prop where
  | empty : LogHolds walHeader []
  | append {bs payload name : Bytes} {body : WalBody} {recs : List WalRecord} :
      LogHolds bs recs → Encodes payload name body →
      LogHolds (bs ++ recordBytes payload) (recs ++ [⟨bs.length, name, body⟩])

theorem LogHolds.offset (h : LogHolds bs recs) : recs.length + walHeaderSize ≤ bs.length ∧
      ∀ r ∈ recs, walHeaderSize ≤ r.byteOffset ∧ r.byteOffset < bs.length := by
  induction h with
  | empty => exact ⟨Nat.le_refl _, by simp⟩
  | @append bs payload name body recs _ _ ih =>
    obtain ⟨_, hoff⟩ := ih
    have hrec : 0 < (recordBytes payload).length := by
      rw [recordBytes, length_append, length_leBytes]
      omega
    rw [length_append, length_append, length_singleton]
    refine ⟨by omega, forall_mem_concat (fun r hr => ?_) ?_⟩
    · have := hoff r hr
      omega
    · show walHeaderSize ≤ bs.length ∧ bs.length < _
      omega

/-- Reading past the records that are there. -/
theorem LogHolds.readRecords (h : LogHolds bs recs) :
    ∃ body, bs = walHeader ++ body ∧ ∀ fuel rest, recs.length ≤ fuel →
      readRecords fuel walHeaderSize (body ++ rest) =
        recs ++ readRecords (fuel - recs.length) bs.length rest := by
  induction h with
  | empty => exact ⟨[], rfl, fun _ _ _ => rfl⟩
  | @append bs payload name b recs _ henc ih =>
    obtain ⟨body, hbs, hread⟩ := ih
    refine ⟨body ++ recordBytes payload, by rw [hbs, append_assoc], fun fuel rest hfuel => ?_⟩
    rw [length_append, length_singleton] at hfuel ⊢
    obtain ⟨n, hn⟩ : ∃ n, fuel - recs.length = n + 1 := ⟨fuel - recs.length - 1, by omega⟩
    have hrest : fuel - (recs.length + 1) = n := by omega
    rw [append_assoc, hread fuel _ (by omega), hn, NyxDb.readRecords, reads_walRecord henc rest]
    simp [hrest]

theorem readRecords_nil (fuel pos : Nat) : readRecords fuel pos [] = [] := by
  cases fuel <;> rfl

theorem readAll_append (bs : Bytes) : readAll (walHeader ++ bs) =
      .ok (readRecords (walHeader ++ bs).length walHeaderSize bs) := by
  show Except.ok (readRecords _ _ ((walHeader ++ bs).drop walHeader.length)) = _
  rw [drop_left]

/-- **Round trip of the log.** -/
theorem readAll_of_logHolds (h : LogHolds bs recs) : readAll bs = .ok recs := by
  obtain ⟨_, _⟩ := h.offset
  obtain ⟨body, rfl, hread⟩ := h.readRecords
  have hall := hread (walHeader ++ body).length [] (by omega)
  rw [append_nil, readRecords_nil, append_nil] at hall
  rw [readAll_append, hall]

end NyxDb
