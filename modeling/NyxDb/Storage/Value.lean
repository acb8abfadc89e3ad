import NyxDb.Lib.Bytes

/-!
# Values, types and schemas

The data model shared by column files, the write-ahead log and the indexes.  Integers are kept
at their machine width; a `DOUBLE` is its bit pattern, compared as the hardware compares it.
-/

namespace NyxDb

/-- The column types.  A byte that is none of the seven types behaves like `invalid`. -/
inductive TypeId where
  | invalid
  | int32
  | int64
  | double
  | varchar
  | bool
  | date
  | timestamp
  deriving DecidableEq, Repr

namespace TypeId

/-- The byte that stands for a type in files. -/
def toByte : TypeId → UInt8
  | invalid => 0
  | int32 => 1
  | int64 => 2
  | double => 3
  | varchar => 4
  | bool => 5
  | date => 6
  | timestamp => 7

/-- The type a byte of a file stands for. -/
def ofByte (b : UInt8) : TypeId :=
  if b = 1 then int32
  else if b = 2 then int64
  else if b = 3 then double
  else if b = 4 then varchar
  else if b = 5 then bool
  else if b = 6 then date
  else if b = 7 then timestamp
  else invalid

@[simp] theorem ofByte_toByte (t : TypeId) : ofByte t.toByte = t := by
  cases t <;> rfl

end TypeId

/-- The bytes a value of a type takes in a page; `0` marks a type without values. -/
def typeSize (t : TypeId) (maxLen : UInt16) : Nat :=
  match t with
  | .int32 => 4
  | .int64 => 8
  | .double => 8
  | .varchar => if 0 < maxLen.toNat then maxLen.toNat + 2 else 0
  | .bool => 1
  | .date => 4
  | .timestamp => 8
  | .invalid => 0

/-- A value of a row. -/
inductive Value where
  | null
  | int32 (v : BitVec 32)
  | int64 (v : BitVec 64)
  | double (bits : BitVec 64)
  | string (s : Bytes)
  | bool (b : Bool)
  | date (days : BitVec 32)
  | timestamp (micros : BitVec 64)
  deriving DecidableEq, Repr

def Value.isNull : Value → Bool
  | .null => true
  | _ => false

/-- The type whose values are made with the same constructor; `null` belongs to none. -/
def Value.type : Value → TypeId
  | .null => .invalid
  | .int32 _ => .int32
  | .int64 _ => .int64
  | .double _ => .double
  | .string _ => .varchar
  | .bool _ => .bool
  | .date _ => .date
  | .timestamp _ => .timestamp

/-- The order of doubles other than NaN: the magnitude, negated when the sign bit is set.  The
two zeros get the same number. -/
def f64Rank (bits : BitVec 64) : Int :=
  if 2 ^ 63 ≤ bits.toNat then -((bits.toNat : Int) - 2 ^ 63) else bits.toNat

/-- The exponent is all ones and the fraction is not zero. -/
def f64IsNaN (bits : BitVec 64) : Bool :=
  decide (0x7FF0000000000000 < bits.toNat % 2 ^ 63)

/-- The `<` of doubles: false as soon as one side is NaN. -/
def f64Lt (a b : BitVec 64) : Bool :=
  !f64IsNaN a && !f64IsNaN b && decide (f64Rank a < f64Rank b)

/-- A column of a schema. -/
structure Column where
  name : Bytes
  type : TypeId
  nullable : Bool
  maxLen : UInt16
  default : Option Value
  deriving DecidableEq, Repr

abbrev Schema : Type := List Column

abbrev Row : Type := List Value

end NyxDb
