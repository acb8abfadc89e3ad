import NyxDb.Wal.Record

/-!
# How far the reader of the log came

The reader counts the bytes it has used, field by field.  A record that is complete counts in
full; of a record that is cut short or damaged the fields that could be read count, since the
position is not set back to its start.
-/

namespace NyxDb

/-- The place of the reader in the file. -/
structure Cursor where
  pos : Nat
  rest : Bytes
  deriving DecidableEq, Repr

/-- A reader of fields: when a field cannot be read, the position stays after the fields before
it. -/
abbrev FieldReader (α : Type) : Type := OptionT (StateM Cursor) α

namespace FieldReader

variable {α β : Type}

/-- `read_exact` and the count of its bytes. -/
def field (n : Nat) : FieldReader Bytes := fun c =>
  if n ≤ c.rest.length then (some (c.rest.take n), ⟨c.pos + n, c.rest.drop n⟩) else (none, c)

def natField (n : Nat) : FieldReader Nat := do
  let bs ← field n
  pure (leNat bs)

def byteField : FieldReader UInt8 := do
  let bs ← field 1
  pure (bs.getD 0 0)

/-- The type of a record is counted only if it is one. -/
def typeField : FieldReader UInt8 := fun c =>
  match c.rest with
  | [] => (none, c)
  | b :: rest =>
    if b = walTypeInsert ∨ b = walTypeCreate ∨ b = walTypeDelete ∨ b = walTypeUpdate ∨
        b = walTypeSegmentFlush then (some b, ⟨c.pos + 1, rest⟩)
    else (none, c)

def times (n : Nat) (p : FieldReader α) : FieldReader (List α) :=
  match n with
  | 0 => pure []
  | n + 1 => do
      let a ← p
      let as ← times n p
      pure (a :: as)

def each (p : β → FieldReader Unit) : List β → FieldReader Unit
  | [] => pure ()
  | b :: bs => do
      p b
      each p bs

end FieldReader

open FieldReader

/-! ## The fields of a record -/

/-- A string after its length. -/
def stringFields : FieldReader Unit := do
  let n ← natField 2
  let _ ← field n
  pure ()

/-- The value of a default.  A type that is none ends the record. -/
def defaultFields : TypeId → FieldReader Unit
  | .int32 | .date => do
      let _ ← field 4
      pure ()
  | .int64 | .double | .timestamp => do
      let _ ← field 8
      pure ()
  | .bool => do
      let _ ← field 1
      pure ()
  | .varchar => stringFields
  | .invalid => OptionT.fail

/-- A value of a row. -/
def rowValueFields (t : TypeId) : FieldReader Unit := do
  let null ← byteField
  if null != 0 then pure () else defaultFields (walType t)

/-- A column of a `CREATE TABLE`; its first six bytes are one field. -/
def schemaColumnFields : FieldReader Unit := do
  let header ← field 6
  let _ ← field (leNat (header.drop 4))
  let hasDefault ← byteField
  if hasDefault != 0 then do
    let t ← byteField
    defaultFields (TypeId.ofByte t)
  else pure ()

def rowsFields : FieldReader Unit := do
  let counts ← field 6
  let types ← FieldReader.times (leNat (counts.drop 4)) do
    let header ← field 3
    pure (TypeId.ofByte (header.getD 0 0))
  let _ ← FieldReader.times (leNat (counts.take 4)) (FieldReader.each rowValueFields types)
  pure ()

def idsFields : FieldReader Unit := do
  let count ← natField 8
  let _ ← FieldReader.times count (field 8)
  pure ()

def bodyFields (type : UInt8) : FieldReader Unit :=
  if type = walTypeCreate then do
    let count ← natField 2
    let _ ← FieldReader.times count schemaColumnFields
    pure ()
  else if type = walTypeDelete then idsFields
  else if type = walTypeUpdate then do
    idsFields
    rowsFields
  else if type = walTypeSegmentFlush then do
    let _ ← field 8
    pure ()
  else rowsFields

/-- All fields of a record, with the checksum. -/
def recordFields : FieldReader Unit := do
  let type ← typeField
  stringFields
  bodyFields type
  let _ ← field 8
  pure ()

/-- The bytes of a record that cannot be read that count as used. -/
def fieldsRead (bs : Bytes) : Nat :=
  (recordFields ⟨0, bs⟩).2.pos

/-- The bytes that `read_all` has used of what follows the header. -/
def consumedFrom : Nat → Bytes → Nat
  | 0, _ => 0
  | fuel + 1, bs =>
    match readWalRecord bs with
    | none => fieldsRead bs
    | some (_, rest) => bs.length - rest.length + consumedFrom fuel rest

def bytesConsumed (bs : Bytes) : Nat :=
  consumedFrom bs.length (bs.drop walHeaderSize)

end NyxDb
