import NyxDb.Lib.Except
import NyxDb.Sql.Binder

/-!
# Pruning against placement

Whether the partition a value is placed in is among those a comparison on the partition column
leaves.  Both functions walk over the partitions up to the one for `MAXVALUE`.  The placement asks
for the first bound above the value, the pruning looks at each partition between its own bound and
the one before it.
-/

namespace NyxDb

open Sql List PartitionDef

/-- The shard maps that come from the binder: of a `CREATE TABLE`, then with partitions added. -/
inductive Built : ShardMap → Prop
  | create {stmt : CreateTableStmt} {b : BoundCreateTable} {m : ShardMap} :
      bindCreateTable stmt = .ok b → b.shardMap = some m → Built m
  | alter {cat : CatalogView} {stmt : AlterAddPartitionStmt} {b : BoundAlterAddPartition}
      {m : ShardMap} :
      Built m → cat.shardMapOf stmt.tableName = some m → bindAlterAddPartition cat stmt = .ok b →
      Built b.updatedShardMap

variable {ps post pre : List PartitionDef} {p q : PartitionDef} {m : ShardMap}
  {defs : List PartitionDefAst}

theorem bindPartitions_ne_nil {col : Column} (hdefs : defs ≠ [])
    (h : bindPartitions col defs = .ok ps) : ps ≠ [] := by
  obtain ⟨_, _, rfl⟩ := exists_cons_of_ne_nil hdefs
  rw [bindPartitions, except_bind_eq_ok] at h
  obtain ⟨p, -, h⟩ := h
  split_ifs at h
  · cases h
  · rw [except_bind_eq_ok] at h
    obtain ⟨_, -, h⟩ := h
    cases h
    exact cons_ne_nil _ _

theorem bindShardMap_ne_nil {schema : Schema} {pcol : Bytes}
    (h : bindShardMap schema pcol defs = .ok m) : m.partitions ≠ [] := by
  unfold bindShardMap at h
  dsimp only at h
  split_ifs at h with _ hdefs
  · cases h
  · cases h
  · rw [except_bind_eq_ok] at h
    obtain ⟨_, hps, h⟩ := h
    cases h
    exact bindPartitions_ne_nil hdefs hps

/-- A table that is created sharded has a partition. -/
theorem bindCreateTable_ne_nil {stmt : CreateTableStmt} {b : BoundCreateTable}
    (h : bindCreateTable stmt = .ok b) (hm : b.shardMap = some m) : m.partitions ≠ [] := by
  unfold bindCreateTable at h
  simp only [except_bind_eq_ok] at h
  obtain ⟨-, -, -, -, _, -, h⟩ := h
  cases hcol : stmt.partitionCol with
  | none =>
    rw [hcol] at h
    cases h
    cases hm
  | some pcol =>
    rw [hcol] at h
    simp only [except_bind_eq_ok] at h
    obtain ⟨_, hm', _, ⟨rfl⟩, h⟩ := h
    cases h
    cases hm
    exact bindShardMap_ne_nil hm'

theorem Built.ne_nil (h : Built m) : m.partitions ≠ [] := by
  cases h with
  | create hb hm => exact bindCreateTable_ne_nil hb hm
  | alter _ _ hb =>
    unfold bindAlterAddPartition at hb
    split at hb
    · cases hb
    · split at hb
      · cases hb
      · split at hb
        · cases hb
        · obtain ⟨_, -, hb⟩ := except_bind_eq_ok.mp hb
          cases hb
          simp [insertPartition]

/-! ## The walk over the partitions -/

/-- The bound before a partition that comes after the partitions `pre`. -/
def prevUpper (pre : List PartitionDef) : Option Value :=
  pre.getLast?.map (·.upperBound)

@[simp]
theorem prevUpper_concat (pre : List PartitionDef) (p : PartitionDef) :
    prevUpper (pre ++ [p]) = some p.upperBound := by
  simp [prevUpper]

/-- A walk comes to every partition with no `MAXVALUE` before it. -/
def Walked (ps pre : List PartitionDef) (p : PartitionDef) (post : List PartitionDef) : Prop :=
  ps = pre ++ p :: post ∧ ∀ q ∈ pre, q.isMaxvalue = false

theorem Walked.mem (h : Walked ps pre p post) : p ∈ ps := by
  rw [h.1]
  exact mem_append_right _ mem_cons_self

theorem walked_nil : ¬ Walked [] pre p post :=
  fun h => by simpa using h.1

theorem walked_cons : Walked (q :: ps) pre p post ↔ (pre = [] ∧ q = p ∧ ps = post) ∨
        ∃ pre', pre = q :: pre' ∧ q.isMaxvalue = false ∧ Walked ps pre' p post := by
  cases pre with
  | nil => simp [Walked]
  | cons x xs =>
    simp only [Walked, cons_append, cons.injEq, mem_cons, forall_eq_or_imp]
    constructor
    · rintro ⟨⟨rfl, h⟩, hx, hxs⟩
      exact .inr ⟨xs, ⟨rfl, rfl⟩, hx, h, hxs⟩
    · rintro (⟨h, -⟩ | ⟨pre', ⟨rfl, rfl⟩, hq, h, hpre⟩)
      · cases h
      · exact ⟨⟨rfl, h⟩, hq, hpre⟩

variable {op : BinaryOpKind} {c : Value}

/-- The pruning of the partitions `ps` after `pre` leaves those whose turn said so. -/
theorem mem_pruneFrom (pre : List PartitionDef) {out : List Nat}
    (h : pruneFrom op c pre.length (prevUpper pre) ps = .ok out) (j : Nat) :
    j ∈ out ↔ ∃ mid p post, Walked ps mid p post ∧ j = pre.length + mid.length ∧
      (p.isMaxvalue = true ∨
        keepsPartition op c (prevUpper (pre ++ mid)) p.upperBound = .ok true) := by
  induction ps generalizing pre out with
  | nil =>
    cases h
    simp [walked_nil]
  | cons q ps ih =>
    rw [pruneFrom] at h
    by_cases hmax : q.isMaxvalue = true
    · rw [if_pos hmax] at h
      cases h
      simp [walked_cons, hmax]
    rw [if_neg hmax, except_bind_eq_ok] at h
    obtain ⟨keep, hkeep, h⟩ := h
    rw [except_bind_eq_ok] at h
    obtain ⟨rest, hrest, h⟩ := h
    have hpre : pre.length + 1 = (pre ++ [q]).length := by simp
    rw [hpre, ← prevUpper_concat pre q] at hrest
    have hmem := ih (pre ++ [q]) hrest
    simp only [Bool.not_eq_true] at hmax
    have hout : j ∈ out ↔ (keep = true ∧ j = pre.length) ∨ j ∈ rest := by
      cases h
      cases keep <;> simp
    rw [hout, hmem]
    constructor
    · rintro (⟨rfl, rfl⟩ | ⟨mid, p, post, hw, hj, hp⟩)
      · exact ⟨[], q, ps, walked_cons.2 (.inl ⟨rfl, rfl, rfl⟩), rfl, .inr (by simpa using hkeep)⟩
      · refine ⟨q :: mid, p, post, walked_cons.2 (.inr ⟨mid, rfl, hmax, hw⟩), ?_, by simpa using hp⟩
        rw [hj, length_append, length_cons, length_cons, length_nil]
        omega
    · rintro ⟨mid, p, post, hw, hj, hp⟩
      rcases walked_cons.1 hw with ⟨rfl, rfl, rfl⟩ | ⟨mid', rfl, -, hw'⟩
      · -- The turn of the first of them.
        rw [hmax, append_nil, hkeep] at hp
        exact .inl ⟨by simpa using hp, hj⟩
      · refine .inr ⟨mid', p, post, hw', ?_, by simpa using hp⟩
        rw [hj, length_append, length_cons, length_cons, length_nil]
        omega

/-- The pruning ends without an exception when no turn throws one. -/
theorem pruneFrom_isOk (op : BinaryOpKind) (c : Value) (pre ps : List PartitionDef) :
    (∃ out, pruneFrom op c pre.length (prevUpper pre) ps = .ok out) ↔
      ∀ mid p post, Walked ps mid p post → p.isMaxvalue = false →
        ∃ keep, keepsPartition op c (prevUpper (pre ++ mid)) p.upperBound = .ok keep := by
  induction ps generalizing pre with
  | nil => simp [pruneFrom, walked_nil]
  | cons q ps ih =>
    rw [pruneFrom]
    by_cases hmax : q.isMaxvalue = true
    · simp only [hmax, if_true, Except.ok.injEq, exists_eq', walked_cons, true_iff]
      rintro mid p post (⟨-, rfl, -⟩ | ⟨-, -, hq, -⟩) hp
      · rw [hmax] at hp
        cases hp
      · cases hq
    rw [if_neg hmax]
    have hpre : pre.length + 1 = (pre ++ [q]).length := by simp
    simp only [Bool.not_eq_true] at hmax
    constructor
    · rintro ⟨out, h⟩ mid p post hw hp
      rw [except_bind_eq_ok] at h
      obtain ⟨keep, hkeep, h⟩ := h
      rw [except_bind_eq_ok] at h
      obtain ⟨rest, hrest, -⟩ := h
      rcases walked_cons.1 hw with ⟨rfl, rfl, rfl⟩ | ⟨mid', rfl, -, hw'⟩
      · exact ⟨keep, by simpa using hkeep⟩
      · rw [hpre, ← prevUpper_concat pre q] at hrest
        simpa using (ih (pre ++ [q])).1 ⟨rest, hrest⟩ mid' p post hw' hp
    · intro h
      obtain ⟨keep, hkeep⟩ := h [] q ps (walked_cons.2 (.inl ⟨rfl, rfl, rfl⟩)) hmax
      obtain ⟨rest, hrest⟩ := (ih (pre ++ [q])).2 fun mid p post hw hp => by
        simpa using h (q :: mid) p post (walked_cons.2 (.inr ⟨mid, rfl, hmax, hw⟩)) hp
      rw [append_nil] at hkeep
      rw [← hpre, prevUpper_concat] at hrest
      rw [hkeep, hrest]
      exact ⟨_, rfl⟩

/-! ## One turn of the pruning -/

/-- The bounds a turn looks at can be compared with the literal. -/
def Comparable (op : BinaryOpKind) (c : Value) (prev : Option Value) (upper : Value) : Prop :=
  match op with
  | .eq => (∀ u ∈ prev, u = .null ∨ u.type = c.type) ∧ upper.type = c.type
  | .lt | .le => ∀ u ∈ prev, u = .null ∨ u.type = c.type
  | .gt | .ge => upper = .null ∨ upper.type = c.type
  | _ => True

section

variable (hc : c.type.ranked = true)
include hc

section

variable (w : Value)

theorem compareValues_isOk : (∃ o, compareValues w c = .ok o) ↔ w = .null ∨ w.type = c.type := by
  by_cases hw : w.type = c.type
  · have hok := compareValues_eq (hw ▸ hc) hw.symm
    simp [hok, hw]
  · cases w <;> cases c <;> simp_all [compareValues, Value.type, TypeId.ranked]

/-- A bound is above the literal when it has the literal's type; `NULL` is not. -/
theorem compareValues_eq_gt : compareValues w c = .ok .gt ↔ w.type = c.type ∧ c.rank < w.rank := by
  by_cases hw : w.type = c.type
  · rw [compareValues_eq (hw ▸ hc) hw.symm, Except.ok.injEq, compare_rank_gt_iff]
    simp [hw]
  · cases w <;> cases c <;> simp_all [compareValues, Value.type, TypeId.ranked]

theorem compareValues_eq_lt : compareValues w c = .ok .lt ↔ w.type = c.type ∧ w.rank < c.rank := by
  by_cases hw : w.type = c.type
  · rw [compareValues_eq (hw ▸ hc) hw.symm, Except.ok.injEq, compare_rank_lt_iff]
    simp [hw]
  · cases w <;> cases c <;> simp_all [compareValues, Value.type, TypeId.ranked]

theorem compareValues_isOk_left : (∃ o, compareValues c w = .ok o) ↔ w.type = c.type := by
  by_cases hw : w.type = c.type
  · simp [compareValues_eq hc hw, hw]
  · simp [compareValues_error hc hw, hw]

end

/-- A turn throws exactly when one of its comparisons does. -/
theorem keepsPartition_isOk (prev : Option Value) (upper : Value) :
    (∃ keep, keepsPartition op c prev upper = .ok keep) ↔ Comparable op c prev upper := by
  have hupper := compareValues_isOk hc upper
  have hlit := compareValues_isOk_left hc upper
  unfold keepsPartition Comparable
  cases op with
  | eq =>
    cases prev with
    | none =>
      simp only [← hlit, except_pure, except_ok_bind]
      cases compareValues c upper <;> simp [except_ok_bind, except_error_bind]
    | some u =>
      simp only [Option.mem_some_iff, forall_eq', ← compareValues_isOk hc, ← hlit, except_pure]
      cases compareValues u c <;> cases compareValues c upper <;>
        simp [except_ok_bind, except_error_bind]
  | lt | le =>
    cases prev with
    | none => simp [except_pure]
    | some u =>
      simp only [Option.mem_some_iff, forall_eq', ← compareValues_isOk hc, except_pure]
      cases compareValues u c <;> simp [except_ok_bind, except_error_bind]
  | gt | ge =>
    simp only [← hupper, except_pure]
    cases compareValues upper c <;> simp [except_ok_bind, except_error_bind]
  | ne | add | sub | mul | div => simp [except_pure]

/-- `<` and `<=` leave a partition when the bound before it is below the literal. -/
theorem keepsPartition_le (hop : op = .lt ∨ op = .le)
    (prev : Option Value) (upper : Value) :
    keepsPartition op c prev upper = .ok true ↔ ∀ u ∈ prev, u.type = c.type ∧ u.rank < c.rank := by
  have hbound (u : Value) : (do Except.ok (decide ((← compareValues u c) = .lt))) = Except.ok true ↔
        u.type = c.type ∧ u.rank < c.rank := by
    rw [← compareValues_eq_lt hc]
    cases compareValues u c <;> simp [except_ok_bind, except_error_bind]
  unfold keepsPartition
  rcases hop with rfl | rfl <;> cases prev <;> simp only [except_pure, hbound] <;> simp

/-- `>` and `>=` leave a partition whose bound is above the literal. -/
theorem keepsPartition_ge (hop : op = .gt ∨ op = .ge)
    (prev : Option Value) (upper : Value) :
    keepsPartition op c prev upper = .ok true ↔ upper.type = c.type ∧ c.rank < upper.rank := by
  rw [← compareValues_eq_gt hc]
  unfold keepsPartition
  rcases hop with rfl | rfl <;> simp only [except_pure] <;>
    cases compareValues upper c <;> simp [except_ok_bind, except_error_bind]

/-- `=` leaves a partition when the literal is between the two bounds. -/
theorem keepsPartition_eq {prev : Option Value} {upper : Value}
    (hprev : ∀ u ∈ prev, u.type = c.type ∧ u.rank ≤ c.rank) (htype : upper.type = c.type)
    (hlt : c.rank < upper.rank) : keepsPartition .eq c prev upper = .ok true := by
  have hupper : compareValues c upper = .ok .lt := by
    rw [compareValues_eq hc htype, (compare_rank_lt_iff _ _).2 hlt]
  unfold keepsPartition
  cases prev with
  | none => simp [hupper, except_pure, except_ok_bind]
  | some u =>
    obtain ⟨hu, hle⟩ := hprev u rfl
    have hgt : compare u.rank c.rank ≠ .gt := by
      rw [ne_eq, compare_rank_gt_iff]
      exact not_lt.2 hle
    simp [compareValues_eq (hu ▸ hc) hu.symm, hupper, hgt, except_pure, except_ok_bind]

theorem lt_of_keepsPartition_eq {prev : Option Value} {upper : Value}
    (h : keepsPartition .eq c prev upper = .ok true) : c.rank < upper.rank := by
  have hcmp : compareValues c upper = .ok .lt := by
    unfold keepsPartition at h
    cases prev with
    | none =>
      simp only [except_pure, except_bind_eq_ok] at h
      simp_all
    | some u =>
      simp only [except_pure, except_bind_eq_ok] at h
      obtain ⟨_, -, _, -, o, _, h⟩ := h
      simp_all
  obtain htype := (compareValues_isOk_left hc upper).1 ⟨_, hcmp⟩
  rwa [compareValues_eq hc htype, Except.ok.injEq, compare_rank_lt_iff] at hcmp

end

/-! ## The partition of a value -/

/-- The value is in the partition `p` after `pre`: past all the bounds before it, and below its own
unless it is the last. -/
def Placed (ps : List PartitionDef) (v : Value) (pre : List PartitionDef) (p : PartitionDef)
    (post : List PartitionDef) : Prop :=
  ps = pre ++ p :: post ∧ (∀ q ∈ pre, q.below v = true) ∧ (p.below v = true → post = [])

theorem exists_placed (hne : ps ≠ []) (v : Value) : ∃ pre p post, Placed ps v pre p post := by
  cases hd : ps.dropWhile (·.below v) with
  | nil =>
    have hall := dropWhile_eq_nil_iff.1 hd
    refine ⟨ps.dropLast, ps.getLast hne, [], (dropLast_append_getLast hne).symm, ?_, fun _ => rfl⟩
    intro q hq
    exact hall q (dropLast_subset _ hq)
  | cons p post =>
    refine ⟨ps.takeWhile (·.below v), p, post, ?_, ?_, ?_⟩
    · rw [← hd, takeWhile_append_dropWhile]
    · intro q hq
      exact mem_takeWhile_imp (p := fun x : PartitionDef => x.below v) hq
    · intro hp
      have hnot := head?_dropWhile_not (fun q : PartitionDef => q.below v) ps
      rw [hd] at hnot
      simp [hp] at hnot

variable {v : Value} {m : ShardMap}

theorem Placed.walked (h : Placed ps v pre p post) : Walked ps pre p post :=
  ⟨h.1, fun q hq => (below_iff.1 (h.2.1 q hq)).1⟩

/-- The value's partition is found unless its bound is of another type. -/
theorem shardForValue_eq (hv : v.type.ranked = true) (h : Placed m.partitions v pre p post) :
    shardForValue m v =
      if p.isMaxvalue = true ∨ p.upperBound.type = v.type then .ok pre.length
      else .error .badVariantAccess := by
  obtain ⟨hps, hpre, hlast⟩ := h
  unfold shardForValue
  rw [placeFrom_eq hv, hps, dropWhile_append_of_pos hpre]
  by_cases hp : p.below v = true
  · -- Past every bound: the last partition.
    obtain rfl := hlast hp
    have htype := (below_iff.1 hp).2.1
    simp [hp, htype, except_pure, except_ok_bind]
  · rw [takeWhile_append_of_pos hpre]
    simp only [dropWhile_cons, takeWhile_cons, hp]
    by_cases hmet : p.isMaxvalue = true ∨ p.upperBound.type = v.type
    · simp [hmet, except_pure, except_ok_bind]
    · simp [hmet]

/-! ## What is left after the pruning -/

/-- The turn of the partition `p` after `pre` leaves it. -/
def Leaves (op : BinaryOpKind) (c : Value) (pre : List PartitionDef) (p : PartitionDef) : Prop :=
  p.isMaxvalue = true ∨ keepsPartition op c (prevUpper pre) p.upperBound = .ok true

/-- No turn leaves its partition. -/
def NothingLeft (m : ShardMap) (op : BinaryOpKind) (c : Value) : Prop :=
  ∀ pre p post, Walked m.partitions pre p post → ¬ Leaves op c pre p

theorem prunePartitions_isOk (hc : c.type.ranked = true) :
    (∃ out, prunePartitions m m.partitionColIdx op c = .ok out) ↔
      ∀ pre p post, Walked m.partitions pre p post → p.isMaxvalue = false →
        Comparable op c (prevUpper pre) p.upperBound := by
  have hwalk := pruneFrom_isOk op c [] m.partitions
  simp only [nil_append, keepsPartition_isOk hc] at hwalk
  rw [← hwalk]
  unfold prunePartitions
  simp only [ne_eq, not_true_eq_false, if_false, except_bind_eq_ok, except_pure]
  exact ⟨fun ⟨_, out, h, _⟩ => ⟨out, h⟩, fun ⟨out, h⟩ => ⟨_, out, h, rfl⟩⟩

/-- When no turn leaves its partition, all are left. -/
theorem mem_prunePartitions {out : List Nat}
    (h : prunePartitions m m.partitionColIdx op c = .ok out) (hw : Walked m.partitions pre p post) :
    pre.length ∈ out ↔ Leaves op c pre p ∨ NothingLeft m op c := by
  unfold prunePartitions at h
  simp only [ne_eq, not_true_eq_false, if_false, except_bind_eq_ok, except_pure] at h
  obtain ⟨left, hleft, h⟩ := h
  have hmem := mem_pruneFrom [] hleft
  simp only [length_nil, Nat.zero_add, nil_append] at hmem
  by_cases hnil : left = []
  · -- Nothing is left: the range of all indices.
    rw [if_pos hnil] at h
    cases h
    have hnone : NothingLeft m op c := by
      intro pre' p' post' hw' hleaves
      have := (hmem pre'.length).2 ⟨pre', p', post', hw', rfl, hleaves⟩
      rw [hnil] at this
      cases this
    have hlt : pre.length < m.partitions.length := by
      rw [hw.1]
      simp
    simp only [mem_range, hlt, true_iff]
    exact .inr hnone
  · rw [if_neg hnil] at h
    cases h
    have hsome : ¬ NothingLeft m op c := by
      intro hnone
      obtain ⟨j, hj⟩ := exists_mem_of_ne_nil _ hnil
      obtain ⟨mid, q, rest, hw', -, hleaves⟩ := (hmem j).1 hj
      exact hnone mid q rest hw' hleaves
    rw [hmem, or_iff_left hsome]
    constructor
    · rintro ⟨mid, q, rest, hw', hlen, hleaves⟩
      -- The partition at an index is one.
      obtain ⟨rfl, hcons⟩ := append_inj (hw.1.symm.trans hw'.1) hlen
      cases hcons
      exact hleaves
    · intro hleaves
      exact ⟨pre, p, post, hw, rfl, hleaves⟩

/-- The comparison `v op c` of two values of one type. -/
def compares : BinaryOpKind → Value → Value → Bool
  | .lt, v, c => decide (v.rank < c.rank)
  | .le, v, c => decide (v.rank ≤ c.rank)
  | .eq, v, c => decide (v.rank = c.rank)
  | .ge, v, c => decide (c.rank ≤ v.rank)
  | .gt, v, c => decide (c.rank < v.rank)
  | .ne, v, c => decide (v.rank ≠ c.rank)
  | _, _, _ => false

/-- When a comparison with the literal does not lose a value. -/
structure Prunable (m : ShardMap) (op : BinaryOpKind) (v c : Value) : Prop where
  /-- The bound that ends the search has the type of the value. -/
  met : ∀ pre p post, Placed m.partitions v pre p post →
    p.isMaxvalue = true ∨ p.upperBound.type = v.type
  /-- So has every bound that is compared with the literal, or it is `NULL`. -/
  compared : ∀ pre p post, Walked m.partitions pre p post → p.isMaxvalue = false →
    Comparable op c (prevUpper pre) p.upperBound
  /-- For `<=` the literal is not the bound just before the value's partition. -/
  boundary : op = .le → ∀ pre p post, Placed m.partitions v pre p post → p.isMaxvalue = false →
    ∀ u ∈ prevUpper pre, u.rank ≠ c.rank
  /-- For `>` and `>=` and a value past all bounds: no bound is above the literal unless the last
  one is. -/
  last : op = .gt ∨ op = .ge → ∀ pre p, Placed m.partitions v pre p [] → p.below v = true →
    p.upperBound.rank ≤ c.rank → ∀ q ∈ m.partitions, q.upperBound.rank ≤ c.rank

/-- The partition of `v` is among those `op c` leaves. -/
def Kept (m : ShardMap) (op : BinaryOpKind) (v c : Value) : Prop :=
  ∃ i out, shardForValue m v = .ok i ∧ prunePartitions m m.partitionColIdx op c = .ok out ∧ i ∈ out

section Kept

variable {pre post : List PartitionDef} {p : PartitionDef}

theorem prevUpper_below (hpre : ∀ q ∈ pre, q.below v = true) {u : Value} (hu : u ∈ prevUpper pre) :
    u.type = v.type ∧ u.rank ≤ v.rank := by
  unfold prevUpper at hu
  rw [Option.mem_map] at hu
  obtain ⟨q, hq, rfl⟩ := hu
  exact (below_iff.1 (hpre q (mem_of_mem_getLast? hq))).2

theorem below_of_placed {ps : List PartitionDef} (h : Placed ps v pre p post)
    (hp : p.below v = true) : ∀ q ∈ ps, q.below v = true := by
  obtain ⟨rfl, hpre, hlast⟩ := h
  obtain rfl := hlast hp
  intro q hq
  rcases mem_append.1 hq with hq | hq
  · exact hpre q hq
  · rwa [mem_singleton.1 hq]

theorem walked_of_below {ps : List PartitionDef} (hall : ∀ q ∈ ps, q.below v = true)
    (hq : q ∈ ps) : ∃ pre' post', Walked ps pre' q post' := by
  obtain ⟨pre', post', rfl⟩ := append_of_mem hq
  refine ⟨pre', post', rfl, fun x hx => ?_⟩
  exact (below_iff.1 (hall x (mem_append_left _ hx))).1

section

variable (hc : c.type.ranked = true)
include hc

section

variable (htype : c.type = v.type)
include htype

/-- `<` leaves the partition of every value it is true of. -/
theorem leaves_lt
    (hop : v.rank < c.rank) (hpre : ∀ q ∈ pre, q.below v = true) : Leaves .lt c pre p := by
  right
  apply (keepsPartition_le hc (.inl rfl) _ _).2
  intro u hu
  obtain ⟨hu, hle⟩ := prevUpper_below hpre hu
  exact ⟨hu.trans htype.symm, lt_of_le_of_lt hle hop⟩

/-- A value below the bound of its partition is lost to `<=` only. -/
theorem leaves_of_not_below
    (hop : compares op v c = true) (hle : op ≠ .le) (hpre : ∀ q ∈ pre, q.below v = true)
    (hmet : p.isMaxvalue = true ∨ p.upperBound.type = v.type) (hbelow : p.below v = false) :
    Leaves op c pre p := by
  rcases hmet with hmax | hmet
  · exact .inl hmax
  by_cases hmax : p.isMaxvalue = true
  · exact .inl hmax
  have hlt : v.rank < p.upperBound.rank := by
    by_contra hnot
    have := below_iff.2 ⟨by simpa using hmax, hmet, not_lt.1 hnot⟩
    rw [hbelow] at this
    cases this
  have hmet : p.upperBound.type = c.type := hmet.trans htype.symm
  cases op with
  | eq =>
    have hvc : v.rank = c.rank := by simpa [compares] using hop
    right
    apply keepsPartition_eq hc _ hmet (by rwa [← hvc])
    intro u hu
    rw [htype, ← hvc]
    exact prevUpper_below hpre hu
  | lt => exact leaves_lt hc htype (by simpa [compares] using hop) hpre
  | gt =>
    have hvc : c.rank < v.rank := by simpa [compares] using hop
    exact .inr ((keepsPartition_ge hc (.inl rfl) _ _).2 ⟨hmet, hvc.trans hlt⟩)
  | ge =>
    have hvc : c.rank ≤ v.rank := by simpa [compares] using hop
    exact .inr ((keepsPartition_ge hc (.inr rfl) _ _).2 ⟨hmet, lt_of_le_of_lt hvc hlt⟩)
  | le => exact absurd rfl hle
  | ne => exact .inr rfl
  | add | sub | mul | div => cases hop

/-- The first partition is left by `<=`, and the value's own unless the literal is the bound
before it. -/
theorem left_le_iff (hop : v.rank ≤ c.rank) (hplaced : Placed m.partitions v pre p post) :
    (Leaves .le c pre p ∨ NothingLeft m .le c) ↔
      (p.isMaxvalue = false → ∀ u ∈ prevUpper pre, u.rank ≠ c.rank) := by
  have hfirst : ¬ NothingLeft m .le c := by
    intro hnone
    obtain ⟨q, qs, hqs⟩ := exists_cons_of_ne_nil (ne_nil_of_mem hplaced.walked.mem)
    exact hnone [] q qs ⟨hqs, by simp⟩ (.inr rfl)
  rw [or_iff_left hfirst, Leaves, keepsPartition_le hc (.inr rfl)]
  constructor
  · rintro (hmax | hlt) hnot u hu
    · rw [hmax] at hnot
      cases hnot
    · exact (hlt u hu).2.ne
  · intro h
    by_cases hmax : p.isMaxvalue = true
    · exact .inl hmax
    · right
      intro u hu
      obtain ⟨hut, hule⟩ := prevUpper_below hplaced.2.1 hu
      exact ⟨hut.trans htype.symm, lt_of_le_of_ne (hule.trans hop) (h (by simpa using hmax) u hu)⟩

/-- A value past all bounds is kept by `>` and `>=` when the last bound is above the literal, or
none is. -/
theorem left_ge_iff (hop : op = .gt ∨ op = .ge) (hplaced : Placed m.partitions v pre p post)
    (hbelow : p.below v = true) :
    (Leaves op c pre p ∨ NothingLeft m op c) ↔
      (p.upperBound.rank ≤ c.rank → ∀ q ∈ m.partitions, q.upperBound.rank ≤ c.rank) := by
  have hall := below_of_placed hplaced hbelow
  have hleaves (pre' : List PartitionDef) {q : PartitionDef} (hq : q ∈ m.partitions) :
      Leaves op c pre' q ↔ c.rank < q.upperBound.rank := by
    obtain ⟨hmax, hqt, -⟩ := below_iff.1 (hall q hq)
    simp [Leaves, hmax, keepsPartition_ge hc hop, hqt, htype]
  rw [hleaves pre hplaced.walked.mem]
  constructor
  · rintro (hlt | hnone) hle q hq
    · exact absurd hlt (not_lt.2 hle)
    · obtain ⟨pre', post', hw⟩ := walked_of_below hall hq
      exact not_lt.1 fun hlt => hnone pre' q post' hw ((hleaves pre' hq).2 hlt)
  · intro h
    rcases lt_or_ge c.rank p.upperBound.rank with hlt | hle
    · exact .inl hlt
    · right
      intro pre' q post' hw hq
      exact absurd ((hleaves pre' hw.mem).1 hq) (not_lt.2 (h hle q hw.mem))

end

theorem left_eq (hop : v.rank = c.rank)
    (hplaced : Placed m.partitions v pre p post) (hbelow : p.below v = true)
    (pre' : List PartitionDef) {post' : List PartitionDef}
    (hw : Walked m.partitions pre' q post') : ¬ Leaves .eq c pre' q := by
  obtain ⟨hmax, -, hle⟩ := below_iff.1 (below_of_placed hplaced hbelow q hw.mem)
  rintro (h | h)
  · rw [hmax] at h
    cases h
  · exact absurd (lt_of_keepsPartition_eq hc h) (not_lt.2 (hop ▸ hle))

/-- The partition of the value is left, given where it is. -/
theorem left_iff (htype : c.type = v.type)
    (hop : compares op v c = true) (hplaced : Placed m.partitions v pre p post)
    (hmet : p.isMaxvalue = true ∨ p.upperBound.type = v.type) :
    (Leaves op c pre p ∨ NothingLeft m op c) ↔
      (op = .le → p.isMaxvalue = false → ∀ u ∈ prevUpper pre, u.rank ≠ c.rank) ∧
        (op = .gt ∨ op = .ge → p.below v = true → p.upperBound.rank ≤ c.rank →
          ∀ q ∈ m.partitions, q.upperBound.rank ≤ c.rank) := by
  by_cases hle : op = .le
  · subst hle
    rw [left_le_iff hc htype (by simpa [compares] using hop) hplaced]
    simp
  by_cases hbelow : p.below v = true
  · by_cases hge : op = .gt ∨ op = .ge
    · rw [left_ge_iff hc htype hge hplaced hbelow]
      simp [hle, hge, hbelow]
    simp only [hle, hge, false_implies, and_self, iff_true]
    cases op with
    | eq =>
      right
      intro pre' q post' hw
      exact left_eq hc (by simpa [compares] using hop) hplaced hbelow pre' hw
    | lt => exact .inl (leaves_lt hc htype (by simpa [compares] using hop) hplaced.2.1)
    | ne => exact .inl (.inr rfl)
    | le | gt | ge => simp at hle hge
    | add | sub | mul | div => cases hop
  · have hleaves := leaves_of_not_below hc htype hop hle hplaced.2.1 hmet (by simpa using hbelow)
    simp [hleaves, hle, hbelow]

end

end Kept

/-- The value is kept exactly under the condition, for every map with a partition. -/
theorem kept_iff (hne : m.partitions ≠ []) (hv : v.type.ranked = true) (htype : c.type = v.type)
    (hop : compares op v c = true) : Kept m op v c ↔ Prunable m op v c := by
  have hc : c.type.ranked = true := htype ▸ hv
  constructor
  · rintro ⟨i, out, hi, hout, hmem⟩
    have hmet {pre p post} (h : Placed m.partitions v pre p post) :
        (p.isMaxvalue = true ∨ p.upperBound.type = v.type) ∧ i = pre.length := by
      rw [shardForValue_eq hv h] at hi
      split_ifs at hi with hmet
      cases hi
      exact ⟨hmet, rfl⟩
    constructor
    · intro pre p post h
      exact (hmet h).1
    · exact (prunePartitions_isOk hc).1 ⟨out, hout⟩
    · intro hle pre p post h
      obtain ⟨hm, rfl⟩ := hmet h
      have hleft := (mem_prunePartitions hout h.walked).1 hmem
      exact ((left_iff hc htype hop h hm).1 hleft).1 hle
    · intro hge pre p h
      obtain ⟨hm, rfl⟩ := hmet h
      have hleft := (mem_prunePartitions hout h.walked).1 hmem
      exact ((left_iff hc htype hop h hm).1 hleft).2 hge
  · intro h
    obtain ⟨pre, p, post, hplaced⟩ := exists_placed hne v
    have hmet := h.met pre p post hplaced
    obtain ⟨out, hout⟩ := (prunePartitions_isOk hc).2 h.compared
    refine ⟨pre.length, out, ?_, hout, ?_⟩
    · rw [shardForValue_eq hv hplaced, if_pos hmet]
    · apply (mem_prunePartitions hout hplaced.walked).2
      apply (left_iff hc htype hop hplaced hmet).2
      constructor
      · intro hle
        exact h.boundary hle pre p post hplaced
      · intro hge hbelow
        obtain rfl := hplaced.2.2 hbelow
        exact h.last hge pre p hplaced hbelow

/-- Pruning is sound for the maps of the binder exactly under the condition. -/
theorem prune_keeps_iff (hm : Built m) (hv : v.type.ranked = true) (htype : c.type = v.type)
    (hop : compares op v c = true) : Kept m op v c ↔ Prunable m op v c :=
  kept_iff hm.ne_nil hv htype hop

/-! ## A map with bounds that the code is used with -/

/-- The shard map of the text of a `CREATE TABLE`. -/
def shardMapOfSql (sql : Bytes) : Option ShardMap :=
  match parseSql sql with
  | .ok (.createTable stmt :: _) => (bindCreateTable stmt).toOption.bind (·.shardMap)
  | _ => none

theorem built_of_sql (sql : Bytes) (h : shardMapOfSql sql = some m) : Built m := by
  unfold shardMapOfSql at h
  split at h
  · rename_i stmt _ _
    rw [Option.bind_eq_some_iff] at h
    obtain ⟨b, hb, hm⟩ := h
    cases hbind : bindCreateTable stmt with
    | error e =>
      rw [hbind] at hb
      cases hb
    | ok b' =>
      rw [hbind] at hb
      cases hb
      exact .create hbind hm
  · cases h

/-- Three ranges of a column `id`, below 10, below 20 and the others. -/
def threeRanges : ShardMap :=
  ⟨ascii "id", 0, [⟨ascii "p0", false, .int32 10, ascii "h:1"⟩,
    ⟨ascii "p1", false, .int32 20, ascii "h:2"⟩,
    ⟨ascii "p2", true, .null, ascii "h:3"⟩]⟩

theorem built_threeRanges : Built threeRanges :=
  built_of_sql (ascii "CREATE TABLE t (id INT NOT NULL) PARTITION BY RANGE (id) (" ++
      ascii "PARTITION p0 VALUES LESS THAN (10) ON 'h:1', " ++
      ascii "PARTITION p1 VALUES LESS THAN (20) ON 'h:2', " ++
      ascii "PARTITION p2 VALUES LESS THAN (MAXVALUE) ON 'h:3')")
    (by decide +kernel)

theorem prune_keeps_below : compares .lt (.int32 9) (.int32 10) = true ∧
      Prunable threeRanges .lt (.int32 9) (.int32 10) := by
  have hkept : Kept threeRanges .lt (.int32 9) (.int32 10) :=
    ⟨0, [0, 2], by decide, by decide, by decide⟩
  exact ⟨by decide, (prune_keeps_iff built_threeRanges (by decide) (by decide) (by decide)).1 hkept⟩

/-- `id <= 10` is true of 10, which is in the second partition; the first and the last are left. -/
theorem prune_loses_boundary :
    ¬ ∀ (m : ShardMap) (op : BinaryOpKind) (v c : Value), Built m → v.type.ranked = true →
      c.type = v.type → compares op v c = true → Kept m op v c := by
  intro h
  obtain ⟨i, _, hi, hout, hmem⟩ :=
    h threeRanges .le (.int32 10) (.int32 10) built_threeRanges rfl rfl (by decide)
  have hplace : shardForValue threeRanges (.int32 10) = .ok 1 := by decide
  have hprune : prunePartitions threeRanges 0 .le (.int32 10) = .ok [0, 2] := by decide
  cases hplace.symm.trans hi
  cases hprune.symm.trans hout
  exact absurd hmem (by decide)

end NyxDb
