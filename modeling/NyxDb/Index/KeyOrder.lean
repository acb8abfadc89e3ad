import NyxDb.Index.Key

/-!
# The order of key tuples

The tuples of a key layout are ordered component by component, with `NULL` below every value.  The
comparison of their encoded keys is this order, as long as no key column is a `VARCHAR(0)`: such a
column has no room for the length of its string, and the comparison takes the tag and the first
byte of the next column for that length.
-/

namespace NyxDb

open List

/-- `NULL` is below every value, integers are ordered by value, strings by their bytes and then by
their lengths. -/
def compareComponents : Value → Value → Ordering
  | .null, .null => .eq
  | .null, _ => .lt
  | _, .null => .gt
  | .int32 x, .int32 y => compare x.toInt y.toInt
  | .date x, .date y => compare x.toInt y.toInt
  | .int64 x, .int64 y => compare x.toInt y.toInt
  | .timestamp x, .timestamp y => compare x.toInt y.toInt
  | .string x, .string y => compare (x.map UInt8.toNat) (y.map UInt8.toNat)
  | _, _ => .eq

/-- The lexicographic order of two tuples of the same length. -/
def compareTuples : List Value → List Value → Ordering
  | v :: vs, w :: ws => (compareComponents v w).then (compareTuples vs ws)
  | _, _ => .eq

/-- The components of a key column: `NULL` or a value of its type, strings no longer than the column
is wide. -/
inductive IndexColSpec.Takes (s : IndexColSpec) : Value → Prop
  | null : s.Takes .null
  | int32 (x) : s.type = .int32 → s.Takes (.int32 x)
  | date (x) : s.type = .date → s.Takes (.date x)
  | int64 (x) : s.type = .int64 → s.Takes (.int64 x)
  | timestamp (x) : s.type = .timestamp → s.Takes (.timestamp x)
  | string (x) : s.type = .varchar → x.length ≤ s.maxLen.toNat → s.Takes (.string x)

/-- The tuples of a key layout. -/
abbrev KeyTuple (specs : List IndexColSpec) (vs : List Value) : Prop :=
  Forall₂ IndexColSpec.Takes specs vs

variable {s : IndexColSpec} {specs : List IndexColSpec} {v w : Value} {vs ws : List Value}

theorem compare_bytes (x y : Bytes) :
    compare (x.map fun b => (b.toNat : Int)) (y.map fun b => (b.toNat : Int)) =
      compare (x.map UInt8.toNat) (y.map UInt8.toNat) := by
  induction x generalizing y with
  | nil => cases y <;> rfl
  | cons a x ih =>
    cases y with
    | nil => rfl
    | cons b y =>
      have hbyte : compare (a.toNat : Int) b.toNat = compare a.toNat b.toNat := by
        simp [Int.compare_eq_ite_le, Nat.compare_eq_ite_le]
      simp [hbyte, ih]

theorem compare_rank_null (hw : s.Takes w) :
    compare [0] (fieldRank s w) = compareComponents .null w := by
  obtain ⟨t, m⟩ := s
  cases hw with
  | null => cases t <;> rfl
  | string x ht hlen =>
    cases ht
    rfl
  | _ x ht =>
    cases ht
    rfl

/-- The rank of a component is a list of numbers in its order. -/
theorem compare_fieldRank (hv : s.Takes v) (hw : s.Takes w) :
    compare (fieldRank s v) (fieldRank s w) = compareComponents v w := by
  cases hv with
  | null =>
    exact compare_rank_null hw
  | string x ht hx =>
    obtain ⟨t, m⟩ := s
    cases ht
    cases hw with
    | null => rfl
    | string y _ hy =>
      change compare (1 :: (x.take m.toNat).map _) (1 :: (y.take m.toNat).map _) = _
      rw [take_of_length_le hx, take_of_length_le hy]
      exact compare_bytes x y
    | _ y ht => cases ht
  | _ x ht =>
    obtain ⟨t, m⟩ := s
    cases ht
    cases hw with
    | null => rfl
    | string y ht => cases ht
    | _ y ht => first | cases ht; done | exact compare_tagged _ _

theorem compareComponents_eq_iff (hv : s.Takes v) (hw : s.Takes w) :
    compareComponents v w = .eq ↔ v = w := by
  cases hv with
  | null => cases hw <;> simp [compareComponents]
  | string x ht hx =>
    cases hw with
    | null => simp [compareComponents]
    | string y _ hy =>
      have hinj : Function.Injective (map UInt8.toNat) :=
        map_injective_iff.mpr fun _ _ => UInt8.toNat_inj.mp
      simp [compareComponents, hinj.eq_iff]
    | _ y ht' => rw [ht] at ht'; cases ht'
  | _ x ht =>
    cases hw with
    | null => simp [compareComponents]
    | string y ht' => rw [ht] at ht'; cases ht'
    | _ y ht' => first
      | rw [ht] at ht'; cases ht'; done
      | simp [compareComponents, BitVec.toInt_inj]

theorem compare_keyRank (hv : KeyTuple specs vs) (hw : KeyTuple specs ws) :
    compare (keyRank specs vs) (keyRank specs ws) = compareTuples vs ws := by
  induction hv generalizing ws with
  | nil =>
    cases hw
    rfl
  | cons hv _ ih =>
    cases hw with
    | cons hw hws =>
      simp [keyRank, tail_cons, List.compare_cons_cons, compareTuples, compare_fieldRank hv hw,
        ih hws]

theorem compareTuples_eq_iff (hv : KeyTuple specs vs) (hw : KeyTuple specs ws) :
    compareTuples vs ws = .eq ↔ vs = ws := by
  induction hv generalizing ws with
  | nil =>
    cases hw
    simp [compareTuples]
  | cons hv _ ih =>
    cases hw with
    | cons hw hws =>
      rw [compareTuples, Ordering.then_eq_eq, compareComponents_eq_iff hv hw, ih hws,
        cons.injEq]

theorem typed_of_takes (hv : s.Takes v) : v.isNull = true ∨ v.type = s.type := by
  cases hv with
  | null => exact .inl rfl
  | string x ht => exact .inr ht.symm
  | _ x ht => exact .inr ht.symm

/-- Every tuple has a key, and no component of it is a NaN. -/
theorem encodeKey_of_keyTuple (hv : KeyTuple specs vs) :
    (∃ k, encodeKey specs vs = .ok k) ∧ keyNaNFree specs vs = true := by
  refine ⟨encodeKey_ok (hv.imp fun _ _ => typed_of_takes), ?_⟩
  induction hv with
  | nil => rfl
  | cons hv _ ih =>
    simp only [keyNaNFree, headD_cons, tail_cons, ih, Bool.and_true]
    cases hv <;> simp

/-- The encoded keys of the tuples of a layout. -/
def TupleKey (specs : List IndexColSpec) (k : Bytes) : Prop :=
  ∃ vs, KeyTuple specs vs ∧ encodeKey specs vs = .ok k

/-- **Key order.**  In a layout without `VARCHAR(0)` every tuple has a key, the comparison of two
keys is the order of their tuples, and so it is a total preorder that takes no two tuples for
equal. -/
theorem key_order (specs : List IndexColSpec) (hsized : WidthsPos specs) :
    (∀ vs, KeyTuple specs vs → ∃ k, encodeKey specs vs = .ok k) ∧
    (∀ vs ws a b, KeyTuple specs vs → KeyTuple specs ws → encodeKey specs vs = .ok a →
      encodeKey specs ws = .ok b → compareKeys specs a b = compareTuples vs ws ∧
        (compareKeys specs a b = .eq ↔ vs = ws)) ∧
    BPlus.OrderOn (TupleKey specs) (keyLe specs) := by
  refine ⟨fun vs hv => (encodeKey_of_keyTuple hv).1, ?_, ?_⟩
  · intro vs ws a b hv hw ha hb
    have hcompare := compareKeys_encodeKey hsized ha hb (encodeKey_of_keyTuple hv).2
      (encodeKey_of_keyTuple hw).2 [] []
    rw [append_nil, append_nil, compare_keyRank hv hw] at hcompare
    rw [hcompare]
    exact ⟨rfl, compareTuples_eq_iff hv hw⟩
  · have hgood : ∀ {k}, TupleKey specs k → GoodKey specs k := fun ⟨vs, hv, hk⟩ =>
      ⟨vs, hk, (encodeKey_of_keyTuple hv).2⟩
    have horder := keyLe_orderOn hsized
    exact ⟨fun ha hb hc => horder.trans (hgood ha) (hgood hb) (hgood hc),
      fun ha hb => horder.total (hgood ha) (hgood hb)⟩

/-- The tuples `(-1, 'ab')` and `(-1, NULL)` of an `INT` and a `VARCHAR(3)` column. -/
theorem key_order_intAndString : WidthsPos [⟨.int32, 0⟩, ⟨.varchar, 3⟩] ∧
      ∃ a b, encodeKey [⟨.int32, 0⟩, ⟨.varchar, 3⟩] [.int32 (-1), .string [97, 98]] = .ok a ∧
        encodeKey [⟨.int32, 0⟩, ⟨.varchar, 3⟩] [.int32 (-1), .null] = .ok b ∧
        compareKeys [⟨.int32, 0⟩, ⟨.varchar, 3⟩] a b = .gt := by
  have hsized : WidthsPos [⟨.int32, 0⟩, ⟨.varchar, 3⟩] := by decide
  refine ⟨hsized, _, _, rfl, rfl, ?_⟩
  have hstring : KeyTuple [⟨.int32, 0⟩, ⟨.varchar, 3⟩] [.int32 (-1), .string [97, 98]] :=
    .cons (.int32 _ rfl) (.cons (.string _ rfl (by decide)) .nil)
  have hnull : KeyTuple [⟨.int32, 0⟩, ⟨.varchar, 3⟩] [.int32 (-1), .null] :=
    .cons (.int32 _ rfl) (.cons .null .nil)
  exact ((key_order _ hsized).2.1 _ _ _ _ hstring hnull rfl rfl).1

/-- After an empty string of a `VARCHAR(0)` column the number `1` comes after `65536`: the length of
the string is taken to be `257` in one key and `1` in the other. -/
theorem key_order_varcharZero : ¬ ∀ specs vs ws a b, KeyTuple specs vs → KeyTuple specs ws →
    encodeKey specs vs = .ok a → encodeKey specs ws = .ok b →
      compareKeys specs a b = compareTuples vs ws := by
  intro h
  have hkey : ∀ x, KeyTuple [⟨.varchar, 0⟩, ⟨.int32, 0⟩] [.string [], .int32 x] := fun x =>
    .cons (.string _ rfl (by decide)) (.cons (.int32 _ rfl) .nil)
  have hwrong := h _ _ _ _ _ (hkey 1) (hkey 65536) rfl rfl
  revert hwrong
  decide

end NyxDb
