import NyxDb.Sql.Ast
import Mathlib.Data.List.Lex

/-!
# Shard maps

A sharded table is cut into ranges of one of its columns.  A partition has a bound that its values
are below, or it is the one for `MAXVALUE`; the partitions are tried in the order of the map.
`shardForValue` gives the partition of a value and `prunePartitions` those a comparison with a
literal may concern.
-/

namespace NyxDb

open Sql List

structure PartitionDef where
  name : Bytes
  isMaxvalue : Bool
  upperBound : Value
  nodeAddr : Bytes
  deriving DecidableEq, Repr

structure ShardMap where
  partitionCol : Bytes
  partitionColIdx : UInt8
  partitions : List PartitionDef
  deriving DecidableEq, Repr

/-- The comparison of two doubles; one that is not a number is equal to every other. -/
def compareDoubles (a b : BitVec 64) : Ordering :=
  if f64Lt a b then .lt else if f64Lt b a then .gt else .eq

/-- `std::get` of the second value as the alternative of the first throws when they differ. -/
def compareValues : Value → Value → Except Error Ordering
  | .null, _ => .ok .eq
  | .int32 a, .int32 b => .ok (compare a.toInt b.toInt)
  | .int64 a, .int64 b => .ok (compare a.toInt b.toInt)
  | .double a, .double b => .ok (compareDoubles a b)
  | .string a, .string b =>
    .ok (compare (a.map fun c => (c.toNat : Int)) (b.map fun c => (c.toNat : Int)))
  | .bool a, .bool b => .ok (compare a.toNat b.toNat)
  | .date a, .date b => .ok (compare a.toInt b.toInt)
  | .timestamp a, .timestamp b => .ok (compare a.toInt b.toInt)
  | _, _ => .error .badVariantAccess

/-- The first partition, from the index `i` on, that takes the value. -/
def placeFrom (v : Value) : Nat → List PartitionDef → Except Error (Option Nat)
  | _, [] => .ok none
  | i, p :: ps =>
    if p.isMaxvalue then .ok (some i)
    else if v.isNull then placeFrom v (i + 1) ps
    else do
      if (← compareValues v p.upperBound) = .lt then pure (some i) else placeFrom v (i + 1) ps

/-- The partition of a value; one that no partition takes goes to the last. -/
def shardForValue (m : ShardMap) (v : Value) : Except Error Nat := do
  pure ((← placeFrom v 0 m.partitions).getD (m.partitions.length - 1))

/-- Whether a partition between two bounds may have rows for which `op literal` is true. -/
def keepsPartition (op : BinaryOpKind) (literal : Value) (prevUpper : Option Value)
    (upper : Value) : Except Error Bool :=
  match op with
  | .eq => do
      let lowerOk ←
        match prevUpper with
        | none => pure true
        | some u => do pure ((← compareValues u literal) ≠ .gt)
      let upperOk := (← compareValues literal upper) = .lt
      pure (lowerOk && upperOk)
  | .lt | .le =>
    match prevUpper with
    | none => pure true
    | some u => do pure ((← compareValues u literal) = .lt)
  | .gt | .ge => do pure ((← compareValues upper literal) = .gt)
  | _ => pure true

def pruneFrom (op : BinaryOpKind) (literal : Value) :
    Nat → Option Value → List PartitionDef → Except Error (List Nat)
  | _, _, [] => .ok []
  | i, prevUpper, p :: ps =>
    if p.isMaxvalue then .ok [i]
    else do
      let keep ← keepsPartition op literal prevUpper p.upperBound
      let rest ← pruneFrom op literal (i + 1) (some p.upperBound) ps
      pure (if keep then i :: rest else rest)

def prunePartitions (m : ShardMap) (predicateColIdx : UInt8) (op : BinaryOpKind) (literal : Value) :
    Except Error (List Nat) :=
  let all := range m.partitions.length
  if predicateColIdx ≠ m.partitionColIdx then .ok all
  else do
    let out ← pruneFrom op literal 0 none m.partitions
    pure (if out = [] then all else out)

/-! ## The order of the values -/

/-- The types whose values are in a linear order: neither truth values nor doubles. -/
def TypeId.ranked : TypeId → Bool
  | .int32 | .int64 | .varchar | .date | .timestamp => true
  | _ => false

/-- What a value of such a type is compared by. -/
def Value.rank : Value → List Int
  | .int32 a => [a.toInt]
  | .int64 a => [a.toInt]
  | .string a => a.map fun c => (c.toNat : Int)
  | .date a => [a.toInt]
  | .timestamp a => [a.toInt]
  | _ => []

/-- The comparison of ranks is the lexicographic order. -/
theorem compare_rank_lt_iff (a b : List Int) : compare a b = .lt ↔ a < b := by
  induction a generalizing b with
  | nil => cases b <;> simp [List.compare_nil_cons]
  | cons x xs ih =>
    cases b with
    | nil => simp [List.compare_cons_nil]
    | cons y ys =>
      rw [cons_lt_cons_iff, ← ih]
      rcases lt_trichotomy x y with h | h | h
      · simp [compare_lt_iff_lt.2 h, h]
      · simp [h]
      · simp [compare_gt_iff_gt.2 h, h.not_gt, h.ne']

theorem compare_rank_gt_iff (a b : List Int) : compare a b = .gt ↔ b < a := by
  rw [← compare_rank_lt_iff, Std.OrientedOrd.eq_swap (a := a)]
  cases compare b a <;> simp

variable {v : Value}

/-- Values of the same type are compared by their ranks. -/
theorem compareValues_eq {w : Value} (hv : v.type.ranked = true) (hw : w.type = v.type) :
    compareValues v w = .ok (compare v.rank w.rank) := by
  cases v <;> cases w <;> simp_all [Value.type, TypeId.ranked, compareValues, Value.rank]

/-- A value is compared with another of its type only. -/
theorem compareValues_error {w : Value} (hv : v.type.ranked = true) (hw : w.type ≠ v.type) :
    compareValues v w = .error .badVariantAccess := by
  cases v <;> cases w <;> simp_all [Value.type, TypeId.ranked, compareValues]

/-! ## The partition of a value -/

/-- A bound the value is not below. -/
def PartitionDef.below (p : PartitionDef) (v : Value) : Bool :=
  !p.isMaxvalue && decide (p.upperBound.type = v.type) && decide (p.upperBound.rank ≤ v.rank)

theorem PartitionDef.below_iff {p : PartitionDef} : p.below v = true ↔
      p.isMaxvalue = false ∧ p.upperBound.type = v.type ∧ p.upperBound.rank ≤ v.rank := by
  simp [PartitionDef.below, and_assoc]

theorem isNull_of_ranked (hv : v.type.ranked = true) : v.isNull = false := by
  cases v <;> first | rfl | cases hv

/-- The value goes to the first partition whose bound it is below.  A bound of another type ends
the search with an exception. -/
theorem placeFrom_eq (hv : v.type.ranked = true) (i : Nat) (ps : List PartitionDef) :
    placeFrom v i ps =
      match ps.dropWhile (·.below v) with
      | [] => .ok none
      | p :: _ =>
        if p.isMaxvalue = true ∨ p.upperBound.type = v.type then
          .ok (some (i + (ps.takeWhile (·.below v)).length))
        else .error .badVariantAccess := by
  induction ps generalizing i with
  | nil => rfl
  | cons p ps ih =>
    rw [placeFrom]
    by_cases hmax : p.isMaxvalue = true
    · have hbelow : p.below v = false := by simp [PartitionDef.below, hmax]
      simp [hmax, hbelow]
    rw [if_neg hmax, isNull_of_ranked hv]
    by_cases htype : p.upperBound.type = v.type
    · rw [compareValues_eq hv htype]
      show (if compare v.rank p.upperBound.rank = .lt then _ else _) = _
      by_cases hle : p.upperBound.rank ≤ v.rank
      · -- The bound is passed.
        have hbelow : p.below v = true := by simp [PartitionDef.below, hmax, htype, hle]
        have hne : ¬ compare v.rank p.upperBound.rank = .lt := by
          rw [compare_rank_lt_iff]
          exact not_lt.2 hle
        rw [if_neg hne, ih]
        simp [hbelow, length_cons, Nat.add_assoc, Nat.add_comm 1]
      · have hbelow : p.below v = false := by simp [PartitionDef.below, hle]
        have hlt : compare v.rank p.upperBound.rank = .lt :=
          (compare_rank_lt_iff _ _).2 (not_le.1 hle)
        rw [if_pos hlt]
        simp [hbelow, htype]
        rfl
    · have hbelow : p.below v = false := by simp [PartitionDef.below, htype]
      rw [compareValues_error hv htype]
      simp [hbelow, htype, hmax]
      rfl

end NyxDb
