import NyxDb.Lib.Except
import NyxDb.Storage.Error
import NyxDb.Lib.BPlusTree

/-!
# Index keys

An index key is the concatenation of one field per key column: a tag byte (`0` for NULL, `1`
otherwise) and the value in the width of the column, zero-padded.  `compareKeys` compares two
encoded keys field by field.

The main result is that on the keys of rows without NaN the comparison of the encoded bytes is
a linear preorder (`keyLe_orderOn`): it is the lexicographic order of `keyRank`.
-/

namespace NyxDb

open List

/-- One key column of an index. -/
structure IndexColSpec where
  type : TypeId
  maxLen : UInt16
  deriving DecidableEq, Repr

namespace IndexColSpec

/-- The width of the value of a key column. -/
def width (s : IndexColSpec) : Nat :=
  typeSize s.type s.maxLen

end IndexColSpec

/-- The bytes of a key: a tag byte and a value for every column. -/
def computeKeySize (cols : List IndexColSpec) : Nat :=
  (cols.map fun c => 1 + c.width).sum

/-- `std::get` of a value as the alternative of a key column, written into its width. -/
def encodeField (s : IndexColSpec) (v : Value) : Except Error Bytes :=
  match s.type, v with
  | .int32, .int32 x => .ok (leBytes 4 x.toNat)
  | .date, .date x => .ok (leBytes 4 x.toNat)
  | .int64, .int64 x => .ok (leBytes 8 x.toNat)
  | .timestamp, .timestamp x => .ok (leBytes 8 x.toNat)
  | .double, .double x => .ok (leBytes 8 x.toNat)
  | .varchar, .string str =>
    let len := min str.length s.maxLen.toNat
    .ok ((leBytes 2 len ++ str.take len ++ replicate (s.maxLen.toNat - len) 0).take s.width)
  | .bool, _ => .ok [0]
  | .invalid, _ => .ok []
  | _, _ => .error .badVariantAccess

/-- Encode the values of the key columns; a missing value counts as NULL. -/
def encodeKey : List IndexColSpec → List Value → Except Error Bytes
  | [], _ => .ok []
  | s :: specs, vals =>
    let v := vals.headD .null
    if v.isNull then do
      let rest ← encodeKey specs vals.tail
      return 0 :: replicate s.width 0 ++ rest
    else do
      let field ← encodeField s v
      let rest ← encodeKey specs vals.tail
      return 1 :: field ++ rest

/-- `std::memcmp` of two byte strings of the same length. -/
def memcmp : Bytes → Bytes → Ordering
  | a :: as, b :: bs => if a < b then .lt else if b < a then .gt else memcmp as bs
  | _, _ => .eq

def readI32 (a : Bytes) : Int :=
  (BitVec.ofNat 32 (leNat (a.take 4))).toInt

def readI64 (a : Bytes) : Int :=
  (BitVec.ofNat 64 (leNat (a.take 8))).toInt

def readF64 (a : Bytes) : BitVec 64 :=
  BitVec.ofNat 64 (leNat (a.take 8))

/-- Compare the values of two fields that are not NULL. -/
def compareFields (t : TypeId) (a b : Bytes) : Ordering :=
  match t with
  | .int32 | .date => compare (readI32 a) (readI32 b)
  | .int64 | .timestamp => compare (readI64 a) (readI64 b)
  | .double =>
    if f64Lt (readF64 a) (readF64 b) then .lt
    else if f64Lt (readF64 b) (readF64 a) then .gt
    else .eq
  | .varchar =>
    let la := leNat (a.take 2)
    let lb := leNat (b.take 2)
    match memcmp ((a.drop 2).take (min la lb)) ((b.drop 2).take (min la lb)) with
    | .eq => compare la lb
    | c => c
  | .bool | .invalid => .eq

/-- Compare two encoded keys. -/
def compareKeys : List IndexColSpec → Bytes → Bytes → Ordering
  | [], _, _ => .eq
  | s :: specs, a, b =>
    let an := a.headD 0
    let bn := b.headD 0
    if an ≠ bn then (if an < bn then .lt else .gt)
    else if an = 0 then compareKeys specs (a.tail.drop s.width) (b.tail.drop s.width)
    else
      match compareFields s.type a.tail b.tail with
      | .eq => compareKeys specs (a.tail.drop s.width) (b.tail.drop s.width)
      | c => c

/-- Whether a component of an encoded key is NULL. -/
def keyHasNull : List IndexColSpec → Bytes → Bool
  | [], _ => false
  | s :: specs, a => a.headD 0 == 0 || keyHasNull specs (a.tail.drop s.width)

/-- The comparison does not put `a` after `b`. -/
def keyLe (specs : List IndexColSpec) (a b : Bytes) : Prop :=
  compareKeys specs a b ≠ .gt

instance (specs : List IndexColSpec) (a b : Bytes) : Decidable (keyLe specs a b) :=
  inferInstanceAs (Decidable (_ ≠ _))

/-! ## The order of keys -/

/-- What a component of a key is compared by. -/
def fieldRank (s : IndexColSpec) (v : Value) : List Int :=
  match s.type, v with
  | _, .null => [0]
  | .int32, .int32 x => [1, x.toInt]
  | .date, .date x => [1, x.toInt]
  | .int64, .int64 x => [1, x.toInt]
  | .timestamp, .timestamp x => [1, x.toInt]
  | .double, .double x => [1, f64Rank x]
  | .varchar, .string str => 1 :: (str.take s.maxLen.toNat).map fun b => (b.toNat : Int)
  | _, _ => [1]

/-- What a key is compared by. -/
def keyRank : List IndexColSpec → List Value → List (List Int)
  | [], _ => []
  | s :: specs, vals => fieldRank s (vals.headD .null) :: keyRank specs vals.tail

/-- No `DOUBLE` component of the key is NaN. -/
def keyNaNFree : List IndexColSpec → List Value → Bool
  | [], _ => true
  | s :: specs, vals =>
    (match s.type, vals.headD .null with
      | .double, .double x => !f64IsNaN x
      | _, _ => true) && keyNaNFree specs vals.tail

/-- The column can hold the length of a string: `VARCHAR(0)` has no width at all, and the two
bytes of its length would overwrite what follows. -/
def IndexColSpec.Sized (s : IndexColSpec) : Prop :=
  s.type = .varchar → 0 < s.maxLen.toNat

instance (s : IndexColSpec) : Decidable s.Sized :=
  inferInstanceAs (Decidable (_ → _))

def WidthsPos (specs : List IndexColSpec) : Prop :=
  ∀ s ∈ specs, s.Sized

instance (specs : List IndexColSpec) : Decidable (WidthsPos specs) :=
  inferInstanceAs (Decidable (∀ s ∈ specs, s.Sized))

/-- `memcmp` on the common length and then the lengths is the lexicographic order of bytes. -/
theorem memcmp_take_min (x y : Bytes) :
    (match memcmp (x.take (min x.length y.length)) (y.take (min x.length y.length)) with
      | .eq => compare x.length y.length
      | c => c) =
      compare (x.map fun b => (b.toNat : Int)) (y.map fun b => (b.toNat : Int)) := by
  induction x generalizing y with
  | nil =>
    cases y with
    | nil => rfl
    | cons b bs =>
      simp [memcmp, List.compare_nil_cons, Nat.compare_eq_lt]
  | cons a as ih =>
    cases y with
    | nil => simp [memcmp, List.compare_cons_nil, Nat.compare_eq_gt]
    | cons b bs =>
      rw [map_cons, map_cons, List.compare_cons_cons, ← ih bs]
      have hmin : min (a :: as).length (b :: bs).length = min as.length bs.length + 1 := by
        simp only [length_cons]
        omega
      have hlen : compare (a :: as).length (b :: bs).length = compare as.length bs.length := by
        simp [Nat.compare_eq_ite_lt]
      rw [hmin, hlen, take_succ_cons, take_succ_cons, memcmp]
      rcases lt_trichotomy a.toNat b.toNat with h | h | h
      · have hab : a < b := UInt8.lt_iff_toNat_lt.mpr h
        have hc : compare (a.toNat : Int) b.toNat = .lt := compare_lt_iff_lt.mpr (by omega)
        simp [hab, hc]
      · have hab : a = b := UInt8.toNat_inj.mp h
        simp [hab]
      · have hba : b < a := UInt8.lt_iff_toNat_lt.mpr h
        have hab : ¬ a < b := by
          rw [UInt8.lt_iff_toNat_lt]
          omega
        have hc : compare (a.toNat : Int) b.toNat = .gt := compare_gt_iff_gt.mpr (by omega)
        simp [hab, hba, hc]

theorem readI32_leBytes (x : BitVec 32) (r : Bytes) :
    readI32 (leBytes 4 x.toNat ++ r) = x.toInt := by
  have hx : x.toNat < 256 ^ 4 := x.isLt
  rw [readI32, take_left' (length_leBytes 4 _), leNat_leBytes_of_lt hx, BitVec.ofNat_toNat,
    BitVec.setWidth_eq]

theorem readF64_leBytes (x : BitVec 64) (r : Bytes) : readF64 (leBytes 8 x.toNat ++ r) = x := by
  have hx : x.toNat < 256 ^ 8 := x.isLt
  rw [readF64, take_left' (length_leBytes 8 _), leNat_leBytes_of_lt hx, BitVec.ofNat_toNat,
    BitVec.setWidth_eq]

theorem readI64_leBytes (x : BitVec 64) (r : Bytes) :
    readI64 (leBytes 8 x.toNat ++ r) = x.toInt := by
  have h := congrArg BitVec.toInt (readF64_leBytes x r)
  exact h

variable {s : IndexColSpec} {a b : Bytes} {v : Value} {specs : List IndexColSpec}

/-- The bytes of a `VARCHAR` component start with the kept length and the kept bytes. -/
theorem encodeField_varchar (hw : 0 < s.maxLen.toNat) (ht : s.type = .varchar) (str : Bytes) :
    ∃ pad, encodeField s (.string str) =
        .ok (leBytes 2 (str.take s.maxLen.toNat).length ++ str.take s.maxLen.toNat ++ pad) ∧
      pad.length = s.maxLen.toNat - (str.take s.maxLen.toNat).length := by
  have hlen : (str.take s.maxLen.toNat).length = min str.length s.maxLen.toNat := by
    rw [length_take, Nat.min_comm]
  have htake : str.take (min str.length s.maxLen.toNat) = str.take s.maxLen.toNat := by
    rw [take_eq_take_iff]
    omega
  refine ⟨replicate (s.maxLen.toNat - min str.length s.maxLen.toNat) 0, ?_, ?_⟩
  · simp only [encodeField, ht, hlen, htake]
    rw [take_of_length_le]
    simp only [length_append, length_leBytes, hlen, length_replicate,
      IndexColSpec.width, ht, typeSize, hw, if_true]
    omega
  · rw [length_replicate, hlen]

/-- The two bytes of a length are followed by the string they count. -/
theorem varchar_read (str pad r : Bytes) (hlen : str.length < 256 ^ 2) :
    leNat ((leBytes 2 str.length ++ str ++ pad ++ r).take 2) = str.length ∧
      ∀ m ≤ str.length, ((leBytes 2 str.length ++ str ++ pad ++ r).drop 2).take m = str.take m := by
  have happ : leBytes 2 str.length ++ str ++ pad ++ r =
      leBytes 2 str.length ++ (str ++ (pad ++ r)) := by simp
  rw [happ]
  constructor
  · rw [take_left' (length_leBytes 2 _), leNat_leBytes_of_lt hlen]
  · intro m hm
    rw [drop_left' (length_leBytes 2 _), take_append_of_le_length hm]

theorem compare_tagged (a b : Int) : compare [1, a] [1, b] = compare a b := by
  rw [List.compare_cons_cons, List.compare_cons_cons]
  cases compare a b <;> rfl

theorem compareFields_doubles {x y : BitVec 64} (hx : f64IsNaN x = false)
    (hy : f64IsNaN y = false) (ra rb : Bytes) :
    compareFields .double (leBytes 8 x.toNat ++ ra) (leBytes 8 y.toNat ++ rb) =
      compare (f64Rank x) (f64Rank y) := by
  simp only [compareFields, readF64_leBytes, f64Lt, hx, hy, Bool.not_false, Bool.true_and,
    decide_eq_true_eq]
  rcases lt_trichotomy (f64Rank x) (f64Rank y) with h | h | h
  · simp [h, compare_lt_iff_lt.mpr h]
  · simp [h]
  · simp [h, not_lt_of_gt h, compare_gt_iff_gt.mpr h]

theorem compareFields_strings {x y : Bytes} (hx : x.length < 256 ^ 2) (hy : y.length < 256 ^ 2)
    (pa pb ra rb : Bytes) :
    compareFields .varchar (leBytes 2 x.length ++ x ++ pa ++ ra)
        (leBytes 2 y.length ++ y ++ pb ++ rb) =
      compare (x.map fun b => (b.toNat : Int)) (y.map fun b => (b.toNat : Int)) := by
  obtain ⟨hla, hta⟩ := varchar_read x pa ra hx
  obtain ⟨hlb, htb⟩ := varchar_read y pb rb hy
  rw [← memcmp_take_min]
  simp only [compareFields, hla, hlb, hta _ (Nat.min_le_left _ _), htb _ (Nat.min_le_right _ _)]

theorem compareFields_varchar {m : UInt16} (hm : 0 < m.toNat) {x y : Bytes}
    (ha : encodeField ⟨.varchar, m⟩ (.string x) = .ok a)
    (hb : encodeField ⟨.varchar, m⟩ (.string y) = .ok b) (ra rb : Bytes) :
    compareFields .varchar (a ++ ra) (b ++ rb) =
      compare (fieldRank ⟨.varchar, m⟩ (.string x)) (fieldRank ⟨.varchar, m⟩ (.string y)) := by
  have hbound : ∀ u : Bytes, (u.take m.toNat).length < 256 ^ 2 := by
    intro u
    have := m.toNat_lt
    rw [length_take]
    omega
  obtain ⟨_, hea, _⟩ := encodeField_varchar (s := ⟨.varchar, m⟩) hm rfl x
  obtain ⟨_, heb, _⟩ := encodeField_varchar (s := ⟨.varchar, m⟩) hm rfl y
  rw [← Except.ok.inj (hea.symm.trans ha), ← Except.ok.inj (heb.symm.trans hb)]
  simp only [compareFields_strings (hbound x) (hbound y), fieldRank]
  rfl

/-- Comparing the bytes of two components that are not NULL compares their ranks. -/
theorem compareFields_encodeField (hpos : s.Sized) {w : Value} (hv : v.isNull = false)
    (hw : w.isNull = false) (ha : encodeField s v = .ok a) (hb : encodeField s w = .ok b)
    (hvn : keyNaNFree [s] [v]) (hwn : keyNaNFree [s] [w]) (ra rb : Bytes) :
    compareFields s.type (a ++ ra) (b ++ rb) = compare (fieldRank s v) (fieldRank s w) := by
  obtain ⟨t, m⟩ := s
  cases t with
  | int32 | date =>
    cases v <;> cases ha
    cases w <;> cases hb
    change compare (readI32 _) (readI32 _) = compare [1, BitVec.toInt _] [1, BitVec.toInt _]
    rw [readI32_leBytes, readI32_leBytes, compare_tagged]
  | int64 | timestamp =>
    cases v <;> cases ha
    cases w <;> cases hb
    change compare (readI64 _) (readI64 _) = compare [1, BitVec.toInt _] [1, BitVec.toInt _]
    rw [readI64_leBytes, readI64_leBytes, compare_tagged]
  | double =>
    cases v with
    | double x =>
      cases w with
      | double y =>
        have hx : f64IsNaN x = false := by simpa [keyNaNFree] using hvn
        have hy : f64IsNaN y = false := by simpa [keyNaNFree] using hwn
        rw [← Except.ok.inj ha, ← Except.ok.inj hb]
        change _ = compare [1, f64Rank x] [1, f64Rank y]
        rw [compare_tagged]
        exact compareFields_doubles hx hy ra rb
      | _ => cases hb
    | _ => cases ha
  | varchar =>
    cases v with
    | string str =>
      cases w with
      | string str' =>
        exact compareFields_varchar (hpos rfl) ha hb ra rb
      | _ => cases hb
    | _ => cases ha
  -- Fields of these types compare as equal, whatever their bytes.
  | bool | invalid =>
    have hrank : ∀ t, t = .bool ∨ t = .invalid → ∀ u : Value, u.isNull = false →
        fieldRank ⟨t, m⟩ u = [1] := by
      rintro _ (rfl | rfl) u hu <;> cases u <;> first | rfl | cases hu
    rw [hrank _ (by simp) v hv, hrank _ (by simp) w hw]
    rfl

theorem encodeField_length (hpos : s.Sized) (ha : encodeField s v = .ok a) :
    a.length = s.width := by
  obtain ⟨t, m⟩ := s
  cases t with
  | varchar =>
    cases v with
    | string str =>
      have hm : 0 < m.toNat := hpos rfl
      obtain ⟨_, hea, hpad⟩ := encodeField_varchar (s := ⟨.varchar, m⟩) hm rfl str
      rw [← Except.ok.inj (hea.symm.trans ha)]
      have hle := length_take_le m.toNat str
      simp only [length_append, length_leBytes, hpad, IndexColSpec.width, typeSize, hm, if_true]
      omega
    | _ => cases ha
  | bool | invalid =>
    rw [← Except.ok.inj ha]
    rfl
  | _ =>
    cases v <;> first
      | cases ha; done
      | (rw [← Except.ok.inj ha]; exact length_leBytes _ _)

/-- The first component of an encoded key and the rest of it. -/
theorem encodeKey_cons (hpos : s.Sized) {vs : List Value} (ha : encodeKey (s :: specs) vs = .ok a) :
    ∃ tag field rest, a = tag :: (field ++ rest) ∧ field.length = s.width ∧
      encodeKey specs vs.tail = .ok rest ∧
      (((vs.headD .null).isNull = true ∧ tag = 0) ∨ ((vs.headD .null).isNull = false ∧ tag = 1 ∧
          encodeField s (vs.headD .null) = .ok field)) := by
  unfold encodeKey at ha
  cases hnull : (vs.headD .null).isNull <;> simp only [hnull] at ha
  · obtain ⟨field, hfield, ha⟩ := except_bind_eq_ok.1 ha
    obtain ⟨rest, hrest, ha⟩ := except_bind_eq_ok.1 ha
    refine ⟨1, field, rest, (Except.ok.inj ha).symm, encodeField_length hpos hfield, hrest, ?_⟩
    exact Or.inr ⟨rfl, rfl, hfield⟩
  · obtain ⟨rest, hrest, ha⟩ := except_bind_eq_ok.1 ha
    refine ⟨0, replicate s.width 0, rest, (Except.ok.inj ha).symm, by simp, hrest, ?_⟩
    exact Or.inl ⟨rfl, rfl⟩

theorem encodeField_ok (h : v.type = s.type) :
    ∃ bs, encodeField s v = .ok bs := by
  obtain ⟨t, m⟩ := s
  cases v <;> cases h <;> exact ⟨_, rfl⟩

/-- Values of the types of the key columns have a key. -/
theorem encodeKey_ok
    (h : Forall₂ (fun s v => Value.isNull v = true ∨ v.type = s.type) specs vs) :
    ∃ key, encodeKey specs vs = .ok key := by
  induction h with
  | nil => exact ⟨[], rfl⟩
  | @cons s v specs vs hv _ ih =>
    obtain ⟨_, hrest⟩ := ih
    unfold encodeKey
    simp only [headD_cons, tail_cons, hrest]
    cases hnull : v.isNull with
    | true => exact ⟨_, rfl⟩
    | false =>
      rw [hnull] at hv
      obtain ⟨_, hbs⟩ := encodeField_ok (hv.resolve_left Bool.false_ne_true)
      rw [hbs]
      exact ⟨_, rfl⟩

theorem fieldRank_null (hv : v.isNull = true) : fieldRank s v = [0] := by
  cases v with
  | null =>
    obtain ⟨t, m⟩ := s
    cases t <;> rfl
  | _ => cases hv

theorem fieldRank_notNull (hv : v.isNull = false) : ∃ r, fieldRank s v = 1 :: r := by
  obtain ⟨t, m⟩ := s
  cases t <;> cases v <;> first | cases hv; done | exact ⟨_, rfl⟩

/-- **The comparison of encoded keys** is the lexicographic order of their ranks, whatever bytes
follow the keys. -/
theorem compareKeys_encodeKey :
    {specs : List IndexColSpec} → WidthsPos specs → {vs ws : List Value} → {a b : Bytes} →
      encodeKey specs vs = .ok a → encodeKey specs ws = .ok b → keyNaNFree specs vs →
      keyNaNFree specs ws → (ra rb : Bytes) →
      compareKeys specs (a ++ ra) (b ++ rb) = compare (keyRank specs vs) (keyRank specs ws)
  | [], _, _, _, _, _, _, _, _, _, _, _ => rfl
  | s :: specs, hpos, vs, ws, a, b, ha, hb, hvn, hwn, ra, rb => by
    have hs : s.Sized := hpos s mem_cons_self
    obtain ⟨ta, fa, resta, rfl, hfa, hra, hta⟩ := encodeKey_cons hs ha
    obtain ⟨tb, fb, restb, rfl, hfb, hrb, htb⟩ := encodeKey_cons hs hb
    simp only [keyNaNFree, Bool.and_eq_true] at hvn hwn
    have ih := compareKeys_encodeKey (fun t ht => hpos t (mem_cons_of_mem _ ht))
      hra hrb hvn.2 hwn.2 ra rb
    have hdropa : ((ta :: (fa ++ resta) ++ ra).tail.drop s.width) = resta ++ ra := by
      simp only [cons_append, tail_cons, append_assoc]
      rw [drop_left' hfa]
    have hdropb : ((tb :: (fb ++ restb) ++ rb).tail.drop s.width) = restb ++ rb := by
      simp only [cons_append, tail_cons, append_assoc]
      rw [drop_left' hfb]
    rw [compareKeys, keyRank, keyRank, List.compare_cons_cons, ← ih, hdropa, hdropb]
    simp only [cons_append, headD_cons, tail_cons, append_assoc]
    rcases hta with ⟨hna, rfl⟩ | ⟨hna, rfl, hea⟩ <;> rcases htb with ⟨hnb, rfl⟩ | ⟨hnb, rfl, heb⟩
    · rw [fieldRank_null hna, fieldRank_null hnb]
      rfl
    · obtain ⟨r, hr⟩ := fieldRank_notNull (s := s) hnb
      rw [fieldRank_null hna, hr]
      rfl
    · obtain ⟨r, hr⟩ := fieldRank_notNull (s := s) hna
      rw [fieldRank_null hnb, hr]
      rfl
    · have hfield := compareFields_encodeField hs hna hnb hea heb
        (by simpa [keyNaNFree] using hvn.1) (by simpa [keyNaNFree] using hwn.1)
      rw [hfield]
      cases compare (fieldRank s (vs.headD Value.null)) (fieldRank s (ws.headD Value.null)) <;> rfl

/-- The keys the order is about: encodings of values without NaN. -/
def GoodKey (specs : List IndexColSpec) (k : Bytes) : Prop :=
  ∃ vs, encodeKey specs vs = .ok k ∧ keyNaNFree specs vs = true

variable (hpos : WidthsPos specs)
include hpos

/-- On good keys `compareKeys` compares the ranks of the values. -/
theorem keyLe_iff {vs ws : List Value} (ha : encodeKey specs vs = .ok a)
    (hb : encodeKey specs ws = .ok b) (hvn : keyNaNFree specs vs) (hwn : keyNaNFree specs ws) :
    keyLe specs a b ↔ (compare (keyRank specs vs) (keyRank specs ws)).isLE := by
  have h := compareKeys_encodeKey hpos ha hb hvn hwn [] []
  rw [append_nil, append_nil] at h
  rw [keyLe, h]
  cases compare (keyRank specs vs) (keyRank specs ws) <;> simp

/-- Two good keys compare equal when neither is put after the other. -/
theorem compareKeys_eq_iff (ha : GoodKey specs a) (hb : GoodKey specs b) :
    compareKeys specs a b = .eq ↔ keyLe specs a b ∧ keyLe specs b a := by
  obtain ⟨va, ha, hna⟩ := ha
  obtain ⟨vb, hb, hnb⟩ := hb
  have h := compareKeys_encodeKey hpos ha hb hna hnb [] []
  rw [append_nil, append_nil] at h
  rw [keyLe_iff hpos ha hb hna hnb, keyLe_iff hpos hb ha hnb hna, h,
    Std.OrientedOrd.eq_swap (a := keyRank specs vb)]
  cases compare (keyRank specs va) (keyRank specs vb) <;> simp

/-- **The comparison of keys is a total preorder** on the keys without NaN. -/
theorem keyLe_orderOn : BPlus.OrderOn (GoodKey specs) (keyLe specs) where
  trans := by
    rintro a b c ⟨va, ha, hna⟩ ⟨vb, hb, hnb⟩ ⟨_, hc, hnc⟩ hab hbc
    rw [keyLe_iff hpos ha hb hna hnb] at hab
    rw [keyLe_iff hpos hb hc hnb hnc] at hbc
    rw [keyLe_iff hpos ha hc hna hnc]
    exact Std.TransCmp.isLE_trans hab hbc
  total := by
    rintro a b ⟨va, ha, hna⟩ ⟨vb, hb, hnb⟩
    rw [keyLe_iff hpos ha hb hna hnb, keyLe_iff hpos hb ha hnb hna,
      Std.OrientedOrd.eq_swap (a := keyRank specs vb)]
    cases compare (keyRank specs va) (keyRank specs vb) <;> simp

end NyxDb
