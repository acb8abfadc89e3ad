import NyxDb.Server.ShardClient

/-!
# Answers on their way

A session sends the answer to a statement as a frame with the columns, one frame for each column
with its values and a frame that ends it.  The length of the name of a column is one byte, that of a
string two, the number of columns two.  An answer is read back by the client of a shard as it was if
all these fit (`result_transport_iff`).
-/

namespace NyxDb.Server

open Replication (frameHeaderSize)
open List ShardClient

/-! ## Sending -/

namespace Session

/-- The bytes of a value of a column; a value of another type makes the session throw. -/
def encodeValue (t : TypeId) (v : Value) : Option Bytes :=
  if t = .invalid then some []
  else if v.type = t then some (valueBytes v)
  else none

def encodeCell (t : TypeId) (v : Value) : Option Bytes :=
  if v.isNull then some [1] else (encodeValue t v).map (0 :: ·)

def columnMeta (col : Column) : Bytes :=
  UInt8.ofNat col.name.length :: (col.name ++ [col.type.toByte, if col.nullable then 1 else 0])

def metaPayload (schema : Schema) : Bytes :=
  leBytes 2 schema.length ++ schema.flatMap columnMeta

def colPayload (rowCount colIdx : Nat) (cells : List Bytes) : Bytes :=
  leBytes 2 colIdx ++ (leBytes 8 rowCount ++ cells.flatten)

/-- The payloads for the columns from a number on. -/
def colPayloads (rowCount : Nat) : Nat → List (Column × List Value) → Option (List Bytes)
  | _, [] => some []
  | colIdx, (col, vals) :: rest => do
      let cells ← vals.mapM (encodeCell col.type)
      let payloads ← colPayloads rowCount (colIdx + 1) rest
      pure (colPayload rowCount colIdx cells :: payloads)

/-- The frames of an answer: type and payload. -/
def resultFrames (r : ExecuteResult) : Option (List (FrameType × Bytes)) := do
  let cols ← colPayloads r.rowCount 0 (r.schema.zip r.columns)
  pure ((.resultMeta, metaPayload r.schema) ::
    (cols.map (FrameType.resultCol, ·) ++ [(.resultEnd, leBytes 8 r.rowsAffected)]))

/-- The bytes `send_result_` gives to the transport, one string for each frame. -/
def sendResult (queryId : Nat) (r : ExecuteResult) : Option (List Bytes) :=
  (resultFrames r).map fun frames =>
    frames.map fun (type, payload) => streamSend (frameBytes type queryId payload)

end Session

/-! ## Answers of a node -/

/-- The answers a node gives: every column has a name, a type and as many values as there are rows,
each `NULL` or of that type, and the numbers are of 64 bits. -/
structure ExecuteResult.Regular (r : ExecuteResult) : Prop where
  columns_length : r.columns.length = r.schema.length
  rows : ∀ vals ∈ r.columns, vals.length = r.rowCount
  typed : ∀ x ∈ r.schema.zip r.columns, x.1.type ≠ .invalid ∧
    ∀ v ∈ x.2, v.isNull = false → v.type = x.1.type
  rowCount_lt : r.rowCount < 2 ^ 64
  rowsAffected_lt : r.rowsAffected < 2 ^ 64

/-- No length is larger than its field. -/
structure ExecuteResult.FieldsFit (r : ExecuteResult) : Prop where
  columns : r.schema.length < 2 ^ 16
  names : ∀ col ∈ r.schema, col.name.length < 2 ^ 8
  strings : ∀ vals ∈ r.columns, ∀ v ∈ vals, v.fits = true

/-- The bytes of a value in the frame of its column, and the byte that says whether it is `NULL`. -/
def cellSize : Value → Nat
  | .null => 1
  | .bool _ => 2
  | .int32 _ => 5
  | .date _ => 5
  | .int64 _ => 9
  | .double _ => 9
  | .timestamp _ => 9
  | .string s => 3 + s.length

/-- No frame of the answer has `2 ^ 32` bytes or more: neither the one with the names of the columns
nor one with the values of a column. -/
structure ExecuteResult.FramesFit (r : ExecuteResult) : Prop where
  names : frameHeaderSize + 2 + (r.schema.map fun col => col.name.length + 3).sum < 2 ^ 32
  values : ∀ vals ∈ r.columns, frameHeaderSize + 10 + (vals.map cellSize).sum < 2 ^ 32

/-- The same names, types and nullability of the columns, the same values and the same number of
rows. -/
def SameResult (r r' : ExecuteResult) : Prop :=
  r'.schema.map (fun c => (c.name, c.type, c.nullable)) =
      r.schema.map (fun c => (c.name, c.type, c.nullable)) ∧
    r'.columns = r.columns ∧ r'.rowsAffected = r.rowsAffected

/-- A client connection whose frame handler is set. -/
def idleClient : Receiver Bool (FrameType × Nat × Payload) where
  state := true
  buf := []
  turns := 0
  log := []

/-! ## Reading the columns -/

/-- A column as the client keeps it. -/
def wireColumn (c : Column) : Column where
  name := c.name
  type := c.type
  nullable := c.nullable
  maxLen := 255
  default := none

open Session

/-- Columns whose names fit their byte are read back. -/
theorem decodeColumns_flatMap (schema : Schema) (h : ∀ c ∈ schema, c.name.length < 2 ^ 8) :
    decodeColumns schema.length (schema.flatMap columnMeta) = schema.map wireColumn := by
  induction schema with
  | nil => rfl
  | cons c schema ih =>
    have hnlen : (UInt8.ofNat c.name.length).toNat = c.name.length :=
      Nat.mod_eq_of_lt (h c mem_cons_self)
    rw [length_cons, flatMap_cons, columnMeta, cons_append, decodeColumns, hnlen, if_neg (by simp),
      append_assoc, drop_left, take_left, map_cons, ← ih fun c hc => h c (mem_cons_of_mem _ hc)]
    cases hn : c.nullable <;> simp [wireColumn, hn]

/-- Whatever the bytes are, there are at most as many columns as the number says, with names of less
than `2 ^ 8` bytes. -/
theorem decodeColumns_bounds (n : Nat) (bs : Bytes) :
    (decodeColumns n bs).length ≤ n ∧ ∀ c ∈ decodeColumns n bs, c.name.length < 2 ^ 8 := by
  induction n generalizing bs with
  | zero => exact ⟨Nat.le_refl 0, nofun⟩
  | succ n ih =>
    have hnone : ([] : Schema).length ≤ n + 1 ∧ ∀ c ∈ ([] : Schema), c.name.length < 2 ^ 8 :=
      ⟨Nat.zero_le _, nofun⟩
    cases bs with
    | nil => exact hnone
    | cons nlen bs =>
      rw [decodeColumns]
      split
      · exact hnone
      · split
        · rename_i tid nullable rest _
          refine ⟨Nat.succ_le_succ (ih rest).1, ?_⟩
          intro c hc
          rcases mem_cons.mp hc with rfl | hc
          · have hbyte := nlen.toNat_lt
            simp only [length_take]
            omega
          · exact (ih rest).2 c hc
        · exact hnone

/-! ## Reading the values -/

/-- The bytes of a value of a column. -/
def cellBytes (v : Value) : Bytes :=
  if v.isNull then [1] else 0 :: valueBytes v

variable {vals : List Value} {c : Collected} {frames : List (FrameType × Bytes)} {r : ExecuteResult}
  {cols : List (Column × List Value)}

/-- A session can send the values of its columns. -/
theorem mapM_encodeCell {t : TypeId} (ht : t ≠ .invalid)
    (h : ∀ v ∈ vals, v.isNull = false → v.type = t) :
    vals.mapM (encodeCell t) = some (vals.map cellBytes) := by
  induction vals with
  | nil => rfl
  | cons v vals ih =>
    have hcell : encodeCell t v = some (cellBytes v) := by
      unfold encodeCell cellBytes
      cases hnull : v.isNull with
      | true => rfl
      | false =>
        rw [if_neg Bool.false_ne_true, if_neg Bool.false_ne_true, encodeValue, if_neg ht,
          if_pos (h v mem_cons_self hnull)]
        rfl
    rw [mapM_cons, hcell, ih fun v hv => h v (mem_cons_of_mem _ hv)]
    rfl

/-- Values that fit are read back. -/
theorem decodeValues_cells {t : TypeId} (h : ∀ v ∈ vals, v.isNull = false → v.type = t)
    (hfits : ∀ v ∈ vals, v.fits = true) :
    decodeValues t vals.length (vals.map cellBytes).flatten = vals := by
  induction vals with
  | nil => rfl
  | cons v vals ih =>
    have htail := ih (fun v hv => h v (mem_cons_of_mem _ hv))
      fun v hv => hfits v (mem_cons_of_mem _ hv)
    rw [map_cons, cellBytes]
    cases hnull : v.isNull with
    | true =>
      have hv : v = .null := by
        cases v with
        | null => rfl
        | _ => cases hnull
      subst hv
      show Value.null :: decodeValues t vals.length (vals.map cellBytes).flatten = _
      rw [htail]
    | false =>
      have hread := reads_payload hnull (hfits v mem_cons_self) (vals.map cellBytes).flatten
      rw [h v mem_cons_self hnull] at hread
      have hvalue : decodeColValue t (valueBytes v ++ (vals.map cellBytes).flatten) =
          (v, (vals.map cellBytes).flatten) := by
        rw [decodeColValue, hread]
      show (decodeColValue t (valueBytes v ++ (vals.map cellBytes).flatten)).1 ::
        decodeValues t vals.length
          (decodeColValue t (valueBytes v ++ (vals.map cellBytes).flatten)).2 = _
      rw [hvalue, htail]

theorem decodeColValue_fits (t : TypeId) (bs : Bytes) : (decodeColValue t bs).1.fits = true := by
  unfold decodeColValue
  split
  · rename_i h
    exact (returns_payload t _ _ _ h).2
  · rfl

/-- Whatever the bytes are, the values fit. -/
theorem decodeValues_fits (t : TypeId) (n : Nat) (bs : Bytes) :
    ∀ v ∈ decodeValues t n bs, v.fits = true := by
  induction n generalizing bs with
  | zero => exact nofun
  | succ n ih =>
    cases bs with
    | nil => exact nofun
    | cons isNull bs =>
      rw [decodeValues]
      split
      · rw [forall_mem_cons]
        exact ⟨rfl, ih bs⟩
      · rw [forall_mem_cons]
        exact ⟨decodeColValue_fits t bs, ih _⟩

/-! ## Collecting the answer -/

/-- What the client has collected fits, whatever has come in. -/
structure ShardClient.Collected.Sendable (c : Collected) : Prop where
  columns : c.result.schema.length < 2 ^ 16
  names : ∀ col ∈ c.result.schema, col.name.length < 2 ^ 8
  strings : ∀ vals ∈ c.result.columns, ∀ v ∈ vals, v.fits = true

theorem sendable_empty : Collected.empty.Sendable where
  columns := by decide
  names := nofun
  strings := nofun

theorem sendable_onResultMeta (h : c.Sendable) (p : Bytes) : (onResultMeta c p).Sendable := by
  unfold onResultMeta
  split
  · exact h
  · obtain ⟨hcount, hnames⟩ := decodeColumns_bounds (leNat (p.take 2)) (p.drop 2)
    have hlt := leNat_lt (p.take 2)
    rw [length_take, Nat.min_eq_left (by omega)] at hlt
    refine ⟨Nat.lt_of_le_of_lt hcount hlt, hnames, ?_⟩
    intro vals hvals v hv
    rw [eq_of_mem_replicate hvals] at hv
    cases hv

theorem sendable_onResultCol (h : c.Sendable) (p : Bytes) : (onResultCol c p).Sendable := by
  unfold onResultCol
  split
  · exact h
  · dsimp only
    split
    · exact h
    · refine ⟨h.columns, h.names, ?_⟩
      intro vals hvals v hv
      obtain ⟨i, hi, rfl⟩ := mem_iff_getElem.mp hvals
      rw [length_modify] at hi
      rw [getElem_modify] at hv
      split at hv
      · rcases mem_append.mp hv with hv | hv
        · exact h.strings _ (getElem_mem hi) v hv
        · exact decodeValues_fits _ _ _ v hv
      · exact h.strings _ (getElem_mem hi) v hv

/-- No answer that a client gives has a field that does not fit. -/
theorem sendable_of_collect {addr : Bytes} (h : c.Sendable) (hr : collect addr c frames = .ok r) :
    r.FieldsFit := by
  induction frames generalizing c with
  | nil => cases hr
  | cons x frames ih =>
    obtain ⟨_, p⟩ := x
    rw [collect] at hr
    split at hr
    · cases hr
    · split at hr
      · exact ih (sendable_onResultMeta h p) hr
      · split at hr
        · exact ih (sendable_onResultCol h p) hr
        · split at hr
          · cases hr
            split <;> exact { h with }
          · exact ih h hr

/-- The payloads of columns whose values can be sent. -/
def payloadsFrom (rowCount : Nat) : Nat → List (Column × List Value) → List Bytes
  | _, [] => []
  | colIdx, (_, vals) :: rest =>
    colPayload rowCount colIdx (vals.map cellBytes) :: payloadsFrom rowCount (colIdx + 1) rest

theorem colPayloads_typed {rowCount : Nat}
    (h : ∀ x ∈ cols, x.1.type ≠ .invalid ∧ ∀ v ∈ x.2, v.isNull = false → v.type = x.1.type)
    (colIdx : Nat) :
    colPayloads rowCount colIdx cols = some (payloadsFrom rowCount colIdx cols) := by
  induction cols generalizing colIdx with
  | nil => rfl
  | cons x cols ih =>
    obtain ⟨htype, hvals⟩ := h _ mem_cons_self
    rw [colPayloads, mapM_encodeCell htype hvals, ih (fun x hx => h x (mem_cons_of_mem _ hx))]
    rfl

/-- The frame of a column fills the column. -/
theorem onResultCol_colPayload {front back : Schema} {col : Column} {done todo : List (List Value)}
    (hmeta : c.gotMeta = true) (hschema : c.result.schema = front ++ wireColumn col :: back)
    (hcolumns : c.result.columns = done ++ [] :: todo) (hdone : done.length = front.length)
    (hidx : done.length < 2 ^ 16) (hrows : vals.length < 2 ^ 64)
    (htyped : ∀ v ∈ vals, v.isNull = false → v.type = col.type)
    (hfits : ∀ v ∈ vals, v.fits = true) :
    onResultCol c (colPayload vals.length done.length (vals.map cellBytes)) =
      { c with result := { c.result with columns := done ++ vals :: todo } } := by
  generalize hp : colPayload vals.length done.length (vals.map cellBytes) = p
  have hlen : ¬ p.length < 10 := by
    rw [← hp, colPayload, length_append, length_append, length_leBytes, length_leBytes]
    omega
  have hcolIdx : leNat (p.take 2) = done.length := by
    rw [← hp, colPayload, take_left' (length_leBytes _ _), leNat_leBytes_of_lt hidx]
  have hafter : p.drop 2 = leBytes 8 vals.length ++ (vals.map cellBytes).flatten := by
    rw [← hp, colPayload, drop_left' (length_leBytes _ _)]
  have hrowCount : leNat ((p.drop 2).take 8) = vals.length := by
    rw [hafter, take_left' (length_leBytes _ _), leNat_leBytes_of_lt hrows]
  have hcells : p.drop 10 = (vals.map cellBytes).flatten := by
    rw [show 10 = 2 + 8 from rfl, ← drop_drop, hafter, drop_left' (length_leBytes _ _)]
  have hcol : c.result.schema[done.length]? = some (wireColumn col) := by
    rw [hschema, hdone, getElem?_append_right (Nat.le_refl _), Nat.sub_self]
    rfl
  have hnot : ¬ ((!c.gotMeta) = true ∨ p.length < 10) := by
    rw [hmeta]
    simpa using hlen
  rw [onResultCol, if_neg hnot, hcolIdx, hrowCount, hcells]
  simp only [hcol, wireColumn, decodeValues_cells htyped hfits, hcolumns]
  rw [modify_eq_take_cons_drop (by simp)]
  simp

/-- The frames of the columns fill the columns, one after the other. -/
theorem collect_columns (addr : Bytes) {rowsAffected : Nat} (hrows : rowsAffected < 2 ^ 64)
    {rowCount : Nat} (hcount : rowCount < 2 ^ 64) (hcols : ∀ x ∈ cols, x.2.length = rowCount ∧
      (∀ v ∈ x.2, v.isNull = false → v.type = x.1.type) ∧ ∀ v ∈ x.2, v.fits = true) (front : Schema)
    (done : List (List Value)) (hmeta : c.gotMeta = true)
    (hschema : c.result.schema = front ++ cols.map fun x => wireColumn x.1)
    (hcolumns : c.result.columns = done ++ replicate cols.length [])
    (hdone : done.length = front.length) (hidx : done.length + cols.length < 2 ^ 16) :
    collect addr c ((payloadsFrom rowCount done.length cols).map (FrameType.resultCol, ·) ++
        [(.resultEnd, leBytes 8 rowsAffected)]) =
      .ok { schema := c.result.schema, columns := done ++ cols.map Prod.snd,
            rowsAffected := rowsAffected } := by
  -- The columns `done` have come in; those of `cols` are still empty.
  induction cols generalizing c front done with
  | nil =>
    have hlen : 8 ≤ (leBytes 8 rowsAffected).length := by rw [length_leBytes]
    rw [payloadsFrom, map_nil, map_nil]
    show Except.ok (if 8 ≤ (leBytes 8 rowsAffected).length then (⟨c.result.schema,
      c.result.columns, leNat ((leBytes 8 rowsAffected).take 8)⟩ : ExecuteResult)
      else c.result) = _
    rw [if_pos hlen, take_of_length_le (by rw [length_leBytes]), leNat_leBytes_of_lt hrows,
      hcolumns, length_nil, replicate_zero, append_nil]
  | cons x cols ih =>
    obtain ⟨col, vals⟩ := x
    obtain ⟨hlen, htyped, hfits⟩ := hcols _ mem_cons_self
    subst hlen
    rw [length_cons] at hidx
    show collect addr (onResultCol c (colPayload vals.length done.length (vals.map cellBytes))) _
      = _
    rw [onResultCol_colPayload hmeta hschema hcolumns hdone (by omega) hcount htyped hfits]
    have hschema' : c.result.schema =
        (front ++ [wireColumn col]) ++ cols.map fun x => wireColumn x.1 := by
      rw [hschema, append_assoc]
      rfl
    have hcolumns' : done ++ vals :: replicate cols.length [] =
        (done ++ [vals]) ++ replicate cols.length [] := by
      rw [append_assoc]
      rfl
    have hdone' : (done ++ [vals]).length = (front ++ [wireColumn col]).length := by
      simp [hdone]
    have hidx' : (done ++ [vals]).length + cols.length < 2 ^ 16 := by
      rw [length_append, length_singleton]
      omega
    have hrest := ih (c := ⟨⟨c.result.schema, done ++ vals :: replicate cols.length [],
      c.result.rowsAffected⟩, c.gotMeta⟩) (fun x hx => hcols x (mem_cons_of_mem _ hx))
      (front ++ [wireColumn col]) (done ++ [vals]) hmeta hschema' hcolumns' hdone' hidx'
    rw [length_append, append_assoc] at hrest
    exact hrest

theorem onResultMeta_metaPayload {schema : Schema} (hlen : schema.length < 2 ^ 16)
    (hnames : ∀ c ∈ schema, c.name.length < 2 ^ 8) (c : Collected) :
    onResultMeta c (metaPayload schema) =
      ⟨⟨schema.map wireColumn, replicate schema.length [], c.result.rowsAffected⟩, true⟩ := by
  have hshort : ¬ (metaPayload schema).length < 2 := by
    rw [metaPayload, length_append, length_leBytes]
    omega
  have hncols : leNat ((metaPayload schema).take 2) = schema.length := by
    rw [metaPayload, take_left' (length_leBytes _ _), leNat_leBytes_of_lt hlen]
  have hcols : (metaPayload schema).drop 2 = schema.flatMap columnMeta := by
    rw [metaPayload, drop_left' (length_leBytes _ _)]
  rw [onResultMeta, if_neg hshort, hncols, hcols]
  simp [decodeColumns_flatMap schema hnames]

/-- A session can send the answers of its node. -/
theorem resultFrames_regular (hr : r.Regular) :
    resultFrames r = some ((.resultMeta, metaPayload r.schema) ::
      ((payloadsFrom r.rowCount 0 (r.schema.zip r.columns)).map (FrameType.resultCol, ·) ++
        [(.resultEnd, leBytes 8 r.rowsAffected)])) := by
  rw [resultFrames, colPayloads_typed hr.typed]
  rfl

theorem length_cellBytes (v : Value) : (cellBytes v).length = cellSize v := by
  cases v <;> simp [cellBytes, cellSize, Value.isNull, valueBytes, length_leBytes]
  omega

theorem length_metaPayload (schema : Schema) :
    (metaPayload schema).length = 2 + (schema.map fun col => col.name.length + 3).sum := by
  have hcolumn : ∀ col, (columnMeta col).length = col.name.length + 3 := by
    intro col
    simp [columnMeta]
  simp only [metaPayload, length_append, length_leBytes, length_flatMap, hcolumn]

theorem length_of_mem_payloadsFrom {rowCount colIdx : Nat} {p : Bytes}
    (hp : p ∈ payloadsFrom rowCount colIdx cols) :
    ∃ x ∈ cols, p.length = 10 + (x.2.map cellSize).sum := by
  induction cols generalizing colIdx with
  | nil => cases hp
  | cons x cols ih =>
    rcases mem_cons.mp hp with rfl | hp
    · refine ⟨x, mem_cons_self, ?_⟩
      rw [colPayload, length_append, length_append, length_leBytes, length_leBytes, length_flatten,
        map_map, ← Nat.add_assoc]
      exact congrArg (fun f => 2 + 8 + (x.2.map f).sum) (funext length_cellBytes)
    · obtain ⟨y, hy, hlen⟩ := ih hp
      exact ⟨y, mem_cons_of_mem _ hy, hlen⟩

/-- The sizes of the answer are those of its frames. -/
theorem ExecuteResult.FramesFit.lengths (h : r.FramesFit) (hr : r.Regular)
    (hframes : resultFrames r = some frames) :
    ∀ x ∈ frames, frameHeaderSize + x.2.length < 2 ^ 32 := by
  rw [resultFrames_regular hr, Option.some.injEq] at hframes
  subst hframes
  intro x hx
  rcases mem_cons.mp hx with rfl | hx
  · rw [length_metaPayload, ← Nat.add_assoc]
    exact h.names
  rcases mem_append.mp hx with hx | hx
  · obtain ⟨p, hp, rfl⟩ := mem_map.mp hx
    obtain ⟨y, hy, hlen⟩ := length_of_mem_payloadsFrom hp
    rw [hlen, ← Nat.add_assoc]
    exact h.values y.2 (of_mem_zip hy).2
  · rw [mem_singleton.mp hx, length_leBytes]
    decide

/-- **An answer that fits is read back.** -/
theorem execute_resultFrames (hr : r.Regular) (hfits : r.FieldsFit) (addr : Bytes)
    (hframes : resultFrames r = some frames) :
    execute addr frames = .ok ⟨r.schema.map wireColumn, r.columns, r.rowsAffected⟩ := by
  rw [resultFrames_regular hr, Option.some.injEq] at hframes
  subst hframes
  have hfst : (r.schema.zip r.columns).map Prod.fst = r.schema :=
    map_fst_zip hr.columns_length.ge
  have hsnd : (r.schema.zip r.columns).map Prod.snd = r.columns :=
    map_snd_zip hr.columns_length.le
  have hcount : (r.schema.zip r.columns).length = r.schema.length := by
    rw [← length_map Prod.fst, hfst]
  have hcolumn : ∀ x ∈ r.schema.zip r.columns, x.2 ∈ r.columns := by
    intro x hx
    rw [← hsnd]
    exact mem_map_of_mem hx
  show collect addr (onResultMeta .empty (metaPayload r.schema)) _ = _
  rw [onResultMeta_metaPayload hfits.columns hfits.names]
  have hcollect := collect_columns addr hr.rowsAffected_lt hr.rowCount_lt
    (fun x hx => ⟨hr.rows _ (hcolumn x hx), (hr.typed x hx).2, hfits.strings _ (hcolumn x hx)⟩)
    (c := ⟨⟨r.schema.map wireColumn, replicate r.schema.length [],
      Collected.empty.result.rowsAffected⟩, true⟩) [] [] rfl
    (by rw [nil_append, ← hfst, map_map, hfst]; rfl) (by rw [hcount]; rfl) rfl
    (by rw [hcount]; simpa using hfits.columns)
  rw [hsnd] at hcollect
  exact hcollect

/-- The bytes that are sent for some frames. -/
def sentBytes (queryId : Nat) (frames : List (FrameType × Bytes)) : Bytes :=
  (frames.map fun (type, payload) => streamSend (frameBytes type queryId payload)).flatten

/-- Frames of less than `2 ^ 32` bytes are received as they were sent. -/
theorem observations_sent (queryId : Nat)
    (h : ∀ x ∈ frames, frameHeaderSize + x.2.length < 2 ^ 32) :
    Framed (sentBytes queryId frames) ∧
      callsOf (fun onFrame _ => onFrame) (fun onFrame _ => onFrame) true
        (framesOf (sentBytes queryId frames)).1 =
        frames.map fun (type, payload) => (type, queryId % 2 ^ 32, payload) := by
  induction frames with
  | nil =>
    have hshort : ([] : Bytes).length < frameHeaderSize := by decide
    refine ⟨framed_of_short hshort, ?_⟩
    rfl
  | cons x frames ih =>
    obtain ⟨type, payload⟩ := x
    obtain ⟨hframed, hcalls⟩ := ih fun x hx => h x (mem_cons_of_mem _ hx)
    have hlt : frameHeaderSize + payload.length < 2 ^ 32 := h _ mem_cons_self
    have hmod : (frameHeaderSize + payload.length) % 2 ^ 32 = frameHeaderSize + payload.length :=
      Nat.mod_eq_of_lt hlt
    have hheader : frameHeaderSize ≤ (frameHeaderSize + payload.length) % 2 ^ 32 := by
      rw [hmod]
      exact Nat.le_add_right _ _
    rw [sentBytes, map_cons, flatten_cons]
    refine ⟨framed_streamSend_append type queryId hheader hframed, ?_⟩
    rw [framesOf_streamSend_append type queryId hheader, callsOf, observations, if_pos rfl,
      payload_streamSend, hmod, Nat.add_sub_cancel_left, take_length, map_cons,
      ← hcalls]
    rfl

/-! ## Answers on their way -/

/-- The bytes of the answer arrive in these pieces, and `execute` returns the answer. -/
def RoundTrips (past : Nat → Nat → UInt8) (addr : Bytes) (r : ExecuteResult)
    (chunks : List Bytes) : Prop :=
  ∃ n q r', (∀ fuel, n ≤ fuel →
      Receiver.receiveAll past QuicClient.react fuel idleClient chunks = some q) ∧
    execute addr (q.calls.map fun (type, _, payload) => (type, payload)) = .ok r' ∧
    SameResult r r'

/-- What the client connection passes to `execute`. -/
theorem calls_sent (past : Nat → Nat → UInt8) (queryId : Nat)
    (h : ∀ x ∈ frames, frameHeaderSize + x.2.length < 2 ^ 32) {chunks : List Bytes}
    (hchunks : chunks.flatten = sentBytes queryId frames) :
    ∃ n q, (∀ fuel, n ≤ fuel →
        Receiver.receiveAll past QuicClient.react fuel idleClient chunks = some q) ∧
      q.calls.map (fun (type, _, payload) => (type, payload)) = frames := by
  obtain ⟨hframed, hcalls⟩ := observations_sent queryId h
  rw [← hchunks] at hframed hcalls
  obtain ⟨n, q, hrun, hseen⟩ := follows_quicClient.stream past idleClient rfl chunks hframed
  refine ⟨n, q, hrun, ?_⟩
  have hq : q.calls = frames.map fun (type, payload) => (type, queryId % 2 ^ 32, payload) :=
    hseen.trans hcalls
  rw [hq, map_map]
  exact map_id' frames

theorem ExecuteResult.FieldsFit.of_same {r' : ExecuteResult} (hsame : SameResult r r')
    (h : r'.FieldsFit) :
    r.FieldsFit where
  columns := by
    have hlen := congrArg length hsame.1
    rw [length_map, length_map] at hlen
    exact hlen ▸ h.columns
  names := by
    intro col hcol
    have hmem : (col.name, col.type, col.nullable) ∈
        r'.schema.map fun c => (c.name, c.type, c.nullable) := by
      rw [hsame.1]
      exact mem_map_of_mem hcol
    obtain ⟨col', hcol', heq⟩ := mem_map.mp hmem
    have hname : col'.name = col.name := congrArg Prod.fst heq
    exact hname ▸ h.names col' hcol'
  strings := hsame.2.1 ▸ h.strings

/-- **Answers on their way**: a session can send every answer of its node; in whatever pieces it
arrives, the client gives it back only if every length fits its field, and if no frame has
`2 ^ 32` bytes that is enough. -/
theorem result_transport_iff (past : Nat → Nat → UInt8) (addr : Bytes) (queryId : Nat)
    (r : ExecuteResult) (hr : r.Regular) :
    ∃ frames, Session.sendResult queryId r = some frames ∧
      ∀ chunks : List Bytes, chunks.flatten = frames.flatten →
        (RoundTrips past addr r chunks → r.FieldsFit) ∧
        (r.FramesFit → (RoundTrips past addr r chunks ↔ r.FieldsFit)) := by
  obtain ⟨frames, hframes⟩ : ∃ frames, Session.resultFrames r = some frames :=
    ⟨_, resultFrames_regular hr⟩
  refine ⟨_, by rw [Session.sendResult, hframes]; rfl, ?_⟩
  intro chunks hchunks
  have hneeds : RoundTrips past addr r chunks → r.FieldsFit := by
    rintro ⟨n, q, _, -, hexecute, hsame⟩
    exact ExecuteResult.FieldsFit.of_same hsame (sendable_of_collect sendable_empty hexecute)
  refine ⟨hneeds, fun hsize => ⟨hneeds, fun hfits => ?_⟩⟩
  obtain ⟨n, q, hrun, hqueue⟩ := calls_sent past queryId (hsize.lengths hr hframes) hchunks
  refine ⟨n, q, ⟨r.schema.map wireColumn, r.columns, r.rowsAffected⟩, hrun, ?_, ?_, rfl, rfl⟩
  · rw [hqueue]
    exact execute_resultFrames hr hfits addr hframes
  · rw [map_map]
    rfl

/-- An answer with three rows. -/
def smallAnswer : ExecuteResult where
  schema := [⟨ascii "id", .int32, false, 0, none⟩, ⟨ascii "name", .varchar, true, 16, none⟩,
    ⟨ascii "seen", .timestamp, true, 0, none⟩]
  columns := [[.int32 7, .int32 8, .int32 9], [.string (ascii "a"), .null, .string []],
    [.null, .timestamp 5, .timestamp 6]]
  rowsAffected := 3

theorem regular_smallAnswer : smallAnswer.Regular where
  columns_length := rfl
  rows := by decide
  typed := by decide
  rowCount_lt := by decide
  rowsAffected_lt := by decide

theorem result_transport_small : ∃ frames, Session.sendResult 1 smallAnswer = some frames ∧
      ∀ chunks : List Bytes, chunks.flatten = frames.flatten →
        RoundTrips (fun _ _ => 0) [] smallAnswer chunks := by
  obtain ⟨frames, hsend, hall⟩ :=
    result_transport_iff (fun _ _ => 0) [] 1 smallAnswer regular_smallAnswer
  refine ⟨frames, hsend, fun chunks hchunks => ?_⟩
  have hframes : smallAnswer.FramesFit := ⟨by decide, by decide⟩
  exact ((hall chunks hchunks).2 hframes).mpr ⟨by decide, by decide, by decide⟩

/-- The answer to a statement that gives its column a name of `2 ^ 8` bytes. -/
def longAlias : ExecuteResult where
  schema := [⟨replicate 256 97, .int32, false, 0, none⟩]
  columns := [[]]
  rowsAffected := 0

/-- The client reads a column without a name, of another type; and whatever comes in, it never gives
back this answer. -/
theorem longAlias_lost :
    ((Session.resultFrames longAlias).bind fun frames => (execute [] frames).toOption) =
        some ⟨[⟨[], .invalid, true, 255, none⟩], [[]], 0⟩ ∧
      ∀ addr frames r', execute addr frames = .ok r' → ¬ SameResult longAlias r' := by
  constructor
  · decide +kernel
  · intro addr frames r' hexecute hsame
    have hfits := ExecuteResult.FieldsFit.of_same hsame
      (sendable_of_collect sendable_empty hexecute)
    have hname := hfits.names _ (mem_singleton.mpr rfl)
    rw [length_replicate] at hname
    omega

end NyxDb.Server
