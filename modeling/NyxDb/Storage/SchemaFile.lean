import NyxDb.Lib.Except
import NyxDb.Lib.Parser
import NyxDb.Storage.Error

/-!
# The bytes of values, columns and `schema.bin`

Defaults of columns and values of rows are written in the same way, and a column is written in
`schema.bin` as in the log record of its table.  `readSchema_schemaBytes` is the round trip; it
holds for schemas whose parts fit their length fields and which have no `DEFAULT NULL`, since
that default is written as an `INT32` without a value.
-/

namespace NyxDb

open ByteParser

/-- The bytes of a value after its tag. -/
def valueBytes : Value → Bytes
  | .null => []
  | .int32 v => leBytes 4 v.toNat
  | .int64 v => leBytes 8 v.toNat
  | .double v => leBytes 8 v.toNat
  | .string s => leBytes 2 s.length ++ s
  | .bool b => [if b then 1 else 0]
  | .date v => leBytes 4 v.toNat
  | .timestamp v => leBytes 8 v.toNat

/-- Read a value of a type. -/
def readPayload : TypeId → ByteParser Value
  | .int32 => do
      let n ← nat 4
      pure (.int32 (BitVec.ofNat 32 n))
  | .int64 => do
      let n ← nat 8
      pure (.int64 (BitVec.ofNat 64 n))
  | .double => do
      let n ← nat 8
      pure (.double (BitVec.ofNat 64 n))
  | .varchar => do
      let s ← counted 2
      pure (.string s)
  | .bool => do
      let b ← byte
      pure (.bool (b != 0))
  | .date => do
      let n ← nat 4
      pure (.date (BitVec.ofNat 32 n))
  | .timestamp => do
      let n ← nat 8
      pure (.timestamp (BitVec.ofNat 64 n))
  | .invalid => fail

/-- A string that fits its length field. -/
def Value.fits : Value → Bool
  | .string s => decide (s.length < 2 ^ 16)
  | _ => true

theorem reads_payload {v : Value} (hnull : v.isNull = false) (hfits : v.fits = true) :
    Reads (readPayload v.type) (valueBytes v) v := by
  have h32 (x : BitVec 32) : Reads (nat 4) (leBytes 4 x.toNat) x.toNat := reads_nat x.isLt
  have h64 (x : BitVec 64) : Reads (nat 8) (leBytes 8 x.toNat) x.toNat := reads_nat x.isLt
  cases v with
  | null => cases hnull
  | int32 x =>
    have h := (h32 x).map (f := fun n => Value.int32 (BitVec.ofNat 32 n))
    rwa [BitVec.ofNat_toNat] at h
  | int64 x =>
    have h := (h64 x).map (f := fun n => Value.int64 (BitVec.ofNat 64 n))
    rwa [BitVec.ofNat_toNat] at h
  | double x =>
    have h := (h64 x).map (f := fun n => Value.double (BitVec.ofNat 64 n))
    rwa [BitVec.ofNat_toNat] at h
  | string s =>
    have hs : s.length < 256 ^ 2 := of_decide_eq_true hfits
    exact (reads_counted hs).map
  | bool b =>
    have h := (reads_byte (if b then 1 else 0)).map (f := fun x => Value.bool (x != 0))
    cases b <;> exact h
  | date x =>
    have h := (h32 x).map (f := fun n => Value.date (BitVec.ofNat 32 n))
    rwa [BitVec.ofNat_toNat] at h
  | timestamp x =>
    have h := (h64 x).map (f := fun n => Value.timestamp (BitVec.ofNat 64 n))
    rwa [BitVec.ofNat_toNat] at h

/-- A value that is read is not NULL and fits its field. -/
theorem returns_payload (t : TypeId) :
    Returns (readPayload t) (fun v => v.isNull = false ∧ v.fits = true) := by
  cases t with
  | invalid =>
    intro bs v rest h
    cases h
  | varchar => exact (returns_counted 2).map fun s hs => ⟨rfl, decide_eq_true hs⟩
  | bool =>
    intro bs v rest h
    obtain ⟨b, -, rfl⟩ := map_eq_some h
    exact ⟨rfl, rfl⟩
  | _ => exact (returns_nat _).map fun n _ => ⟨rfl, rfl⟩

theorem steady_payload (t : TypeId) : Steady (readPayload t) := by
  cases t with
  | invalid => exact steady_fail
  | varchar => exact (steady_counted 2).map
  | bool => exact steady_byte.map
  | _ => exact (steady_nat _).map

/-! ## Columns -/

/-- The type written for a default value; NULL gets the tag of `INT32`. -/
def defaultTag (v : Value) : TypeId :=
  if v.isNull then .int32 else v.type

def appendDefault (v : Value) : Bytes :=
  (defaultTag v).toByte :: valueBytes v

def readDefault : ByteParser Value := do
  let t ← byte
  readPayload (TypeId.ofByte t)

/-- The bytes of a column after its name. -/
def defaultBytes : Option Value → Bytes
  | none => [0]
  | some v => 1 :: appendDefault v

def readDefaultField : ByteParser (Option Value) := do
  let hasDefault ← byte
  if hasDefault != 0 then do
    let v ← readDefault
    pure (some v)
  else pure none

def columnBytes (c : Column) : Bytes :=
  [c.type.toByte] ++ ([if c.nullable then 1 else 0] ++ (leBytes 2 c.maxLen.toNat ++
    (leBytes 2 c.name.length ++ c.name ++ defaultBytes c.default)))

/-- Read a column; the file and the log test the byte for `nullable` differently. -/
def readColumn (nullableFlag : UInt8 → Bool) : ByteParser Column := do
  let t ← byte
  let n ← byte
  let maxLen ← nat 2
  let name ← counted 2
  let default ← readDefaultField
  pure ⟨name, TypeId.ofByte t, nullableFlag n, UInt16.ofNat maxLen, default⟩

/-- The name and the default of a column fit their fields. -/
def Column.fits (c : Column) : Bool :=
  decide (c.name.length < 2 ^ 16) &&
    match c.default with
    | none => true
    | some v => !v.isNull && v.fits

theorem reads_defaultField {c : Column} (hfits : c.fits = true) :
    Reads readDefaultField (defaultBytes c.default) c.default := by
  unfold Column.fits at hfits
  cases hd : c.default with
  | none => exact (reads_byte 0).bind (reads_pure none)
  | some v =>
    rw [hd] at hfits
    simp only [Bool.and_eq_true, Bool.not_eq_true', decide_eq_true_eq] at hfits
    obtain ⟨_, hnull, hv⟩ := hfits
    have hpayload := reads_payload hnull hv
    have hdefault : Reads readDefault (appendDefault v) v := by
      have htag : appendDefault v = [v.type.toByte] ++ valueBytes v := by
        simp [appendDefault, defaultTag, hnull]
      rw [htag]
      refine (reads_byte v.type.toByte).bind ?_
      rwa [TypeId.ofByte_toByte]
    exact (reads_byte 1).bind hdefault.map

theorem reads_column {flag : UInt8 → Bool} (h0 : flag 0 = false) (h1 : flag 1 = true)
    {c : Column} (hfits : c.fits = true) : Reads (readColumn flag) (columnBytes c) c := by
  have hname : c.name.length < 256 ^ 2 := by
    exact of_decide_eq_true (Bool.and_eq_true_iff.mp hfits).1
  have hlen : c.maxLen.toNat < 256 ^ 2 := c.maxLen.toNat_lt
  have hcol : Column.mk c.name (TypeId.ofByte c.type.toByte) (flag (if c.nullable then 1 else 0))
      (UInt16.ofNat c.maxLen.toNat) c.default = c := by
    obtain ⟨-, -, nullable, -, -⟩ := c
    cases nullable <;> simp [h0, h1]
  have hlast := (reads_defaultField hfits).map (f := fun d => Column.mk c.name
    (TypeId.ofByte c.type.toByte) (flag (if c.nullable then 1 else 0))
    (UInt16.ofNat c.maxLen.toNat) d)
  rw [hcol] at hlast
  refine (reads_byte _).bind ((reads_byte _).bind ((reads_nat hlen).bind ?_))
  exact (reads_counted hname).bind hlast

/-- A column that is read fits its fields; in particular it has no `DEFAULT NULL`. -/
theorem returns_column (flag : UInt8 → Bool) :
    Returns (readColumn flag) (fun c => c.fits = true) := by
  have hdefault : Returns readDefaultField
      (fun d => ∀ v, d = some v → v.isNull = false ∧ v.fits = true) := by
    refine returns_byte.bind fun b _ => ?_
    split
    · refine (returns_byte.bind fun t _ => returns_payload _).map fun v hv x hx => ?_
      rwa [Option.some.inj hx] at hv
    · exact returns_pure fun v hv => by cases hv
  refine returns_byte.bind fun t _ => returns_byte.bind fun n _ =>
    (returns_nat 2).bind fun maxLen _ =>
    (returns_counted 2).bind fun name hname => hdefault.map fun d hd => ?_
  have hlen : name.length < 65536 := hname
  cases d with
  | none => simp [Column.fits, hlen]
  | some v => simp [Column.fits, hlen, hd v rfl]

theorem steady_column (flag : UInt8 → Bool) : Steady (readColumn flag) := by
  have hdefault : Steady readDefaultField := by
    refine steady_byte.bind fun b => ?_
    split
    · exact (steady_byte.bind fun t => steady_payload _).map
    · exact steady_pure none
  exact steady_byte.bind fun t => steady_byte.bind fun n => (steady_nat 2).bind fun maxLen =>
    (steady_counted 2).bind fun name => hdefault.map

/-! ## The schema file -/

/-- The bytes of `NYX3`. -/
def schemaMagic : Bytes := [0x4E, 0x59, 0x58, 0x33]

def schemaBytes (schema : Schema) : Bytes :=
  schemaMagic ++ leBytes 4 schema.length ++ schema.flatMap columnBytes

/-- Where the bytes of a column end too early. -/
def columnShortRead (bs : Bytes) : Error :=
  match take 6 bs with
  | none => .schemaShortRead "column header"
  | some (header, bs) =>
    match take (leNat (header.drop 4)) bs with
    | none => .schemaShortRead "column name"
    | some (_, []) => .schemaShortRead "has_default"
    | some (_, _ :: _) => .schemaShortRead "default value"

def readColumns : Nat → Bytes → Except Error Schema
  | 0, _ => .ok []
  | n + 1, bs =>
    match readColumn (fun b => b &&& 1 != 0) bs with
    | none => .error (columnShortRead bs)
    | some (c, rest) => do
        let cs ← readColumns n rest
        return c :: cs

def readSchema (bs : Bytes) : Except Error Schema :=
  match take 8 bs with
  | none => .error (.schemaShortRead "header")
  | some (header, rest) =>
    if header.take 4 ≠ schemaMagic then .error .schemaBadMagic
    else readColumns (leNat (header.drop 4)) rest

/-- All columns fit, and so does their number. -/
def Schema.fits (schema : Schema) : Bool :=
  decide (schema.length < 2 ^ 16) && schema.all Column.fits

variable {schema : Schema}

theorem readColumns_columnBytes (hfits : ∀ c ∈ schema, c.fits = true) :
    readColumns schema.length (schema.flatMap columnBytes) = .ok schema := by
  induction schema with
  | nil => rfl
  | cons c schema ih =>
    have hcol : Reads (readColumn fun b => b &&& 1 != 0) (columnBytes c) c :=
      reads_column (by decide) (by decide) (hfits c List.mem_cons_self)
    have hread := hcol (schema.flatMap columnBytes)
    rw [List.flatMap_cons, List.length_cons, readColumns, hread]
    simp only [ih fun x hx => hfits x (List.mem_cons_of_mem _ hx)]
    rfl

/-- Whatever is read has the number of columns asked for, and they fit their fields. -/
theorem fits_of_readColumns {n : Nat} {bs : Bytes}
    (h : readColumns n bs = .ok schema) : schema.length = n ∧ ∀ c ∈ schema, c.fits = true := by
  induction n generalizing bs schema with
  | zero =>
    cases h
    simp
  | succ n ih =>
    rw [readColumns] at h
    split at h
    · cases h
    · rename_i c rest hc
      obtain ⟨_, hcs, hs⟩ := except_bind_eq_ok.1 h
      cases hs
      obtain ⟨hlen, hall⟩ := ih hcs
      exact ⟨congrArg (· + 1) hlen, List.forall_mem_cons.mpr ⟨returns_column _ _ _ _ hc, hall⟩⟩

/-- The header of the file leaves the columns, as many as four bytes can say. -/
theorem readSchema_eq_readColumns (schema : Schema) : readSchema (schemaBytes schema) =
      readColumns (schema.length % 256 ^ 4) (schema.flatMap columnBytes) := by
  have htake := reads_take (schemaMagic ++ leBytes 4 schema.length) (schema.flatMap columnBytes)
  have h8 : (schemaMagic ++ leBytes 4 schema.length).length = 8 := by
    rfl
  have hdrop : (schemaMagic ++ leBytes 4 schema.length).drop 4 = leBytes 4 schema.length := rfl
  have htakeMagic : (schemaMagic ++ leBytes 4 schema.length).take 4 = schemaMagic := rfl
  rw [h8] at htake
  unfold readSchema schemaBytes
  rw [htake]
  simp only [hdrop, leNat_leBytes]
  rw [if_neg (not_not.mpr htakeMagic)]

/-- **Round trip of `schema.bin`.** -/
theorem readSchema_of_fits (hlen : schema.length < 2 ^ 32) (hcols : ∀ c ∈ schema, c.fits = true) :
    readSchema (schemaBytes schema) = .ok schema := by
  rw [readSchema_eq_readColumns, Nat.mod_eq_of_lt (show schema.length < 256 ^ 4 from hlen),
    readColumns_columnBytes hcols]

theorem readSchema_schemaBytes (hfits : Schema.fits schema = true) :
    readSchema (schemaBytes schema) = .ok schema := by
  unfold Schema.fits at hfits
  rw [Bool.and_eq_true, decide_eq_true_eq, List.all_eq_true] at hfits
  obtain ⟨hlen, hcols⟩ := hfits
  exact readSchema_of_fits (by omega) hcols

end NyxDb
