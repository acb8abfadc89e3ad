import Mathlib.Data.List.ReduceOption
import Mathlib.Data.List.Perm.Basic
import Mathlib.Data.List.Induction
import Mathlib.Data.List.Nodup
import Mathlib.Data.Nat.Find
import Mathlib.Data.Nat.ModEq

/-!
# Tables with open addressing

An entry is stored in the first empty slot after the slot of its hash, around the end of the table
if need be.  A search starts at the slot of a hash and ends at an empty slot.  As long as there is
one it ends, and it meets every entry with that hash (`build_walk`).
-/

namespace NyxDb.OpenTable

open List

variable {α : Type}

def entry (t : List (Option α)) (slot : Nat) : Option α :=
  (t[slot]?).join

/-- The entries from a slot up to the next empty slot, and that slot; nothing if there is none in
the given number of turns. -/
def walk (t : List (Option α)) : Nat → Nat → Option (List α × Nat)
  | 0, _ => none
  | fuel + 1, slot =>
    match entry t slot with
    | none => some ([], slot)
    | some a => do
        let (as, stop) ← walk t fuel ((slot + 1) % t.length)
        return (a :: as, stop)

def insert (t : List (Option α)) (hash : Nat) (a : α) : Option (List (Option α)) := do
  let (_, slot) ← walk t t.length (hash % t.length)
  return t.set slot (some a)

def build (hash : α → Nat) (size : Nat) (as : List α) : Option (List (Option α)) :=
  as.foldlM (fun t a => insert t (hash a) a) (replicate size none)

variable {t : List (Option α)} {hash : α → Nat} {slot d fuel : Nat}

/-- The slots from `slot` on are taken up to the distance `d`. -/
def TakenUpTo (t : List (Option α)) (slot d : Nat) : Prop :=
  ∀ i < d, (entry t ((slot + i) % t.length)).isSome = true

/-- The entries are where a search for them finds them. -/
def Probed (hash : α → Nat) (t : List (Option α)) : Prop :=
  ∀ (j : Nat) (a : α), t[j]? = some (some a) →
    ∃ d, j = (hash a % t.length + d) % t.length ∧ TakenUpTo t (hash a % t.length) d

theorem walk_eq (hslot : slot < t.length) (htaken : TakenUpTo t slot d)
    (hfree : entry t ((slot + d) % t.length) = none) (hd : d < fuel) :
    walk t fuel slot = some ((range d).filterMap fun i => entry t ((slot + i) % t.length),
      (slot + d) % t.length) := by
  induction d generalizing slot fuel with
  | zero =>
    obtain ⟨fuel, rfl⟩ := Nat.exists_eq_succ_of_ne_zero (Nat.ne_of_gt hd)
    rw [Nat.add_zero, Nat.mod_eq_of_lt hslot] at hfree ⊢
    rw [walk, hfree]
    rfl
  | succ d ih =>
    obtain ⟨fuel, rfl⟩ := Nat.exists_eq_succ_of_ne_zero (show fuel ≠ 0 by omega)
    have hshift : ∀ i, ((slot + 1) % t.length + i) % t.length = (slot + (i + 1)) % t.length := by
      intro i
      rw [Nat.mod_add_mod, Nat.add_assoc, Nat.add_comm 1 i]
    have hhere := htaken 0 (Nat.succ_pos d)
    rw [Nat.add_zero, Nat.mod_eq_of_lt hslot] at hhere
    obtain ⟨a, ha⟩ := Option.isSome_iff_exists.1 hhere
    have hrest := ih (Nat.mod_lt (slot + 1) (Nat.zero_lt_of_lt hslot))
      (fun i hi => by rw [hshift]; exact htaken (i + 1) (by omega)) (by rw [hshift]; exact hfree)
      (Nat.lt_of_succ_lt_succ hd)
    rw [walk]
    rw [hrest]
    have hzero : (slot + 0) % t.length = slot := Nat.mod_eq_of_lt hslot
    rw [range_succ_eq_map, filterMap_cons, filterMap_map, hzero, ha]
    simp only [hshift]
    rfl

/-- With an empty slot there is a first one from any slot on. -/
theorem exists_takenUpTo (hslot : slot < t.length) (hnone : none ∈ t) :
    ∃ d < t.length, TakenUpTo t slot d ∧ entry t ((slot + d) % t.length) = none := by
  obtain ⟨j, hj, hget⟩ := getElem_of_mem hnone
  have hfree : ∃ d, entry t ((slot + d) % t.length) = none := by
    refine ⟨j + t.length - slot, ?_⟩
    rw [Nat.add_sub_cancel' (by omega), Nat.add_mod_right, Nat.mod_eq_of_lt hj]
    simp [entry, hj, hget]
  refine ⟨Nat.find hfree, ?_, ?_, Nat.find_spec hfree⟩
  · by_contra hle
    have hlt : Nat.find hfree - t.length < Nat.find hfree := by omega
    refine Nat.find_min hfree hlt ?_
    have hspec := Nat.find_spec hfree
    have hback : slot + Nat.find hfree = slot + (Nat.find hfree - t.length) + t.length := by omega
    rwa [hback, Nat.add_mod_right] at hspec
  · intro i hi
    exact Option.isSome_iff_ne_none.2 (Nat.find_min hfree hi)

theorem entry_eq_some {a : α} {j : Nat} : entry t j = some a ↔ t[j]? = some (some a) := by
  unfold entry
  rw [Option.join_eq_some_iff]

theorem reduceOption_eq (t : List (Option α)) :
    t.reduceOption = (range t.length).filterMap (entry t) := by
  have hmap : (range t.length).map (entry t) = t := by
    refine ext_getElem (by simp) fun i hi hi' => ?_
    simp [entry, hi']
  conv_lhs => rw [← hmap, reduceOption, filterMap_map]
  rfl

/-- What is read off two lists of slots, if they have the same slots that matter. -/
theorem perm_filterMap {β : Type} {g : Nat → Option β} {l l' : List Nat} (hl : l.Nodup)
    (hl' : l'.Nodup) (h : ∀ j b, g j = some b → (j ∈ l ↔ j ∈ l')) :
    (l.filterMap g).Perm (l'.filterMap g) := by
  have hskip : ∀ l : List Nat, l.filterMap g = (l.filter fun j => (g j).isSome).filterMap g := by
    intro l
    rw [filterMap_filter]
    refine filterMap_congr fun j _ => ?_
    cases g j <;> rfl
  rw [hskip l, hskip l']
  refine ((perm_ext_iff_of_nodup (hl.filter _) (hl'.filter _)).2 fun j => ?_).filterMap g
  rw [mem_filter, mem_filter]
  refine and_congr_left fun hj => ?_
  obtain ⟨b, hb⟩ := Option.isSome_iff_exists.1 hj
  exact h j b hb

/-- The search from the slot of a hash ends, and meets all entries with that hash. -/
theorem walk_probed (hp : Probed hash t) (hnone : none ∈ t) (h : Nat) :
    ∃ as d, walk t t.length (h % t.length) = some (as, (h % t.length + d) % t.length) ∧
      TakenUpTo t (h % t.length) d ∧ entry t ((h % t.length + d) % t.length) = none ∧
      ∀ p : α → Bool, (∀ a, p a = true → hash a = h) →
        (as.filter p).Perm (t.reduceOption.filter p) := by
  have hpos : 0 < t.length := length_pos_of_mem hnone
  obtain ⟨d, hd, htaken, hfree⟩ := exists_takenUpTo (Nat.mod_lt h hpos) hnone
  refine ⟨_, d, walk_eq (Nat.mod_lt h hpos) htaken hfree hd, htaken, hfree, fun p hph => ?_⟩
  -- Both sides are read off slots: those before the empty one, and all.
  have hmet : ((range d).filterMap fun i => entry t ((h % t.length + i) % t.length)) =
      ((range d).map fun i => (h % t.length + i) % t.length).filterMap (entry t) := by
    rw [filterMap_map]
    rfl
  rw [reduceOption_eq, hmet, filter_filterMap, filter_filterMap]
  refine perm_filterMap ?_ nodup_range fun j a hj => ?_
  · refine Nodup.map_on (fun i hi k hk heq => ?_) nodup_range
    rw [mem_range] at hi hk
    have hcongr : i % t.length = k % t.length := Nat.ModEq.add_left_cancel' _ heq
    rwa [Nat.mod_eq_of_lt (by omega), Nat.mod_eq_of_lt (by omega)] at hcongr
  · obtain ⟨ha, hpa⟩ := Option.filter_eq_some_iff.1 hj
    obtain ⟨i, hji, hbefore⟩ := hp j a (entry_eq_some.1 ha)
    rw [hph a hpa] at hji hbefore
    have hi : i < d := by
      by_contra hle
      rcases Nat.eq_or_lt_of_le (Nat.le_of_not_lt hle) with rfl | hlt
      · rw [← hji, ha] at hfree
        cases hfree
      · have hsome := hbefore d hlt
        rw [hfree] at hsome
        cases hsome
    refine iff_of_true (mem_map.2 ⟨i, mem_range.2 hi, hji.symm⟩) ?_
    rw [hji]
    exact mem_range.2 (Nat.mod_lt _ hpos)

/-! ## Building a table -/

theorem entry_set {j : Nat} (hslot : slot < t.length) (a : α) :
    entry (t.set slot (some a)) j = if j = slot then some a else entry t j := by
  unfold entry
  by_cases hj : j = slot
  · simp [hj, hslot]
  · simp [hj, Ne.symm hj]

/-- An entry is added in the first empty slot from that of its hash on. -/
theorem Probed.set (hp : Probed hash t) (a : α) (htaken : TakenUpTo t (hash a % t.length) d)
    (hslot : (hash a % t.length + d) % t.length < t.length) :
    Probed hash (t.set ((hash a % t.length + d) % t.length) (some a)) := by
  have hkept : ∀ {slot i}, TakenUpTo t slot i →
      TakenUpTo (t.set ((hash a % t.length + d) % t.length) (some a)) slot i := by
    intro slot i h k hk
    rw [length_set, entry_set hslot]
    split
    · rfl
    · exact h k hk
  intro j b hj
  rw [← entry_eq_some, entry_set hslot] at hj
  rw [length_set]
  split at hj
  case isTrue heq =>
    cases hj
    exact ⟨d, heq, hkept htaken⟩
  case isFalse =>
    obtain ⟨i, hji, hbefore⟩ := hp j b (entry_eq_some.1 hj)
    exact ⟨i, hji, hkept hbefore⟩

theorem reduceOption_set (a : α) (hslot : slot < t.length) (hfree : entry t slot = none) :
    (t.set slot (some a)).reduceOption.Perm (a :: t.reduceOption) := by
  have hget : t[slot] = none := by
    simpa [entry, hslot] using hfree
  have hsplit : t = t.take slot ++ none :: t.drop (slot + 1) := by
    rw [← hget, getElem_cons_drop, take_append_drop]
  conv_rhs => rw [hsplit]
  rw [set_eq_take_append_cons_drop, if_pos hslot, reduceOption_append,
    reduceOption_append, reduceOption_cons_of_some, reduceOption_cons_of_none]
  exact perm_middle

theorem insert_spec (hp : Probed hash t) (hnone : none ∈ t) (a : α) :
    ∃ t', insert t (hash a) a = some t' ∧ t'.length = t.length ∧ Probed hash t' ∧
      t'.reduceOption.Perm (a :: t.reduceOption) := by
  obtain ⟨_, d, hwalk, htaken, hfree, -⟩ := walk_probed hp hnone (hash a)
  have hslot := Nat.mod_lt (hash a % t.length + d) (length_pos_of_mem hnone)
  refine ⟨_, ?_, length_set, hp.set a htaken hslot, reduceOption_set a hslot hfree⟩
  rw [insert, hwalk]
  rfl

theorem build_spec (hash : α → Nat) (as : List α) {size : Nat} (hsize : as.length < size) :
    ∃ t, build hash size as = some t ∧ t.length = size ∧ Probed hash t ∧
      t.reduceOption.Perm as := by
  induction as using reverseRecOn with
  | nil =>
    refine ⟨_, rfl, length_replicate, ?_, ?_⟩
    · intro j a hj
      cases eq_of_mem_replicate (mem_of_getElem? hj)
    · rw [reduceOption_replicate_none]
  | append_singleton as a ih =>
    rw [length_append] at hsize
    obtain ⟨t, hbuild, hlen, hp, hperm⟩ := ih (by omega)
    have hnone : none ∈ t := by
      rw [← reduceOption_length_lt_iff, hperm.length_eq]
      omega
    obtain ⟨t', hinsert, hlen', hp', hperm'⟩ := insert_spec hp hnone a
    refine ⟨t', ?_, hlen'.trans hlen, hp', ?_⟩
    · rw [build, foldlM_append, ← build, hbuild]
      simp [hinsert]
    · exact hperm'.trans ((hperm.cons a).trans (perm_append_singleton a as).symm)

/-- A table with room for one more entry than it gets: every search ends, and meets the entries
with its hash. -/
theorem build_walk (hash : α → Nat) (as : List α) {size : Nat} (hsize : as.length < size) :
    ∃ t, build hash size as = some t ∧
      ∀ h, ∃ es stop, walk t t.length (h % t.length) = some (es, stop) ∧
        ∀ p : α → Bool, (∀ a, p a = true → hash a = h) → (es.filter p).Perm (as.filter p) := by
  obtain ⟨t, hbuild, hlen, hp, hperm⟩ := build_spec hash as hsize
  have hnone : none ∈ t := by
    rw [← reduceOption_length_lt_iff, hperm.length_eq, hlen]
    exact hsize
  refine ⟨t, hbuild, fun h => ?_⟩
  obtain ⟨es, d, hwalk, -, -, hmet⟩ := walk_probed hp hnone h
  exact ⟨es, _, hwalk, fun p hph => (hmet p hph).trans (hperm.filter p)⟩

end NyxDb.OpenTable
