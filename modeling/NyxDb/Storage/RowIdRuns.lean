import NyxDb.Storage.RowIds

/-!
# Row ids over the life of a table

A table is used by the actions below, in any order and whether they fail or not.  In every run
that reopens the table only while the ranges of its segments leave no gap, the row id that a scan
reports is the id under which the row can be deleted and looked up.  A vacuum followed by a seal
leaves a gap; the run of `reopen_after_vacuum_misresolves` reopens such a table.
-/

namespace NyxDb.Table

open TableScan

/-- What is done to a table. -/
inductive Action where
  | insert (rows : List Row)
  | update (old : List Nat) (rows : List Row)
  | delete (gids : List Nat)
  | flush
  | truncate (rows : Nat)
  | sealBuffer
  | vacuum
  | merge (threshold : Nat)
  | reopen
  deriving DecidableEq, Repr

/-- The table after the action, also if it returned an error; `none` if the table could not be
opened again. -/
def Action.run (a : Action) (t : Table) : Option Table :=
  match a with
  | .insert rows => some (exec (insertMany rows) t).2
  | .update old rows => some (exec (updateRows old rows) t).2
  | .delete gids => some (exec (markDeleted gids) t).2
  | .flush => some (exec Table.flush t).2
  | .truncate rows => some (exec (Table.truncate rows) t).2
  | .sealBuffer => some (exec flushWriteBuffer t).2
  | .vacuum => some (exec vacuumTable t).2
  | .merge threshold => some (exec (maybeMergeTable threshold) t).2
  | .reopen => (openDir t.dir).toOption

/-- The bitmap has a bit for every row, unless it is empty. -/
def Covered (p : Part) : Prop :=
  p.deleted = [] ∨ p.localRowCount ≤ 8 * p.deleted.length

instance (p : Part) : Decidable (Covered p) :=
  inferInstanceAs (Decidable (_ ∨ _))

/-- When an action may be taken: a table is reopened only while its segments leave no gap, and the
bitmaps that a vacuum or a visit of the merge worker reads have a bit for every row. -/
def Action.Allowed (a : Action) (t : Table) : Prop :=
  match a with
  | .vacuum => ∀ s ∈ t.segments, Covered (segmentPart s)
  | .merge _ => ∀ p ∈ parts t, Covered p
  | .reopen => Contiguous 0 (t.segments.map Segment.info)
  | _ => True

instance (a : Action) (t : Table) : Decidable (a.Allowed t) := by
  cases a <;> unfold Action.Allowed <;> infer_instance

/-- The table after a run. -/
def runActions : List Action → Table → Option Table
  | [], t => some t
  | a :: as, t => (a.run t).bind (runActions as)

/-- Every action of the run is allowed where it is taken. -/
def AllAllowed : List Action → Table → Prop
  | [], _ => True
  | a :: as, t => a.Allowed t ∧ ∀ t' ∈ a.run t, AllAllowed as t'

instance decidableAllAllowed : (as : List Action) → (t : Table) → Decidable (AllAllowed as t)
  | [], _ => isTrue trivial
  | a :: as, t =>
    have := decidableAllAllowed as
    inferInstanceAs (Decidable (a.Allowed t ∧ ∀ t' ∈ a.run t, AllAllowed as t'))

/-- Every action keeps the invariant of the ids. -/
theorem IdsOk.run {t t' : Table} (h : IdsOk t) {a : Action} (hallowed : a.Allowed t)
    (hrun : a.run t = some t') : IdsOk t' := by
  cases a with
  | reopen =>
    cases hopen : openDir t.dir with
    | error e => simp [Action.run, hopen, Except.toOption] at hrun
    | ok t₁ =>
      simp only [Action.run, hopen, Except.toOption, Option.some.injEq] at hrun
      subst hrun
      exact h.reopened hallowed hopen
  | insert rows => cases hrun; exact maintains_insertMany rows t h
  | update old rows => cases hrun; exact maintains_updateRows old rows t h
  | delete gids => cases hrun; exact maintains_of_preserves (preserves_markDeleted gids) t h
  | flush => cases hrun; exact maintains_of_preserves preserves_flush t h
  | truncate rows => cases hrun; exact maintains_of_preserves (preserves_truncate rows) t h
  | sealBuffer => cases hrun; exact maintains_flushWriteBuffer t h
  | vacuum => cases hrun; exact maintains_vacuumTable t h
  | merge threshold =>
    cases hrun
    exact maybeMergeTable_keeps h (maintains_flushWriteBuffer t h) maintains_vacuumTable
      (maintains_mergeSegments threshold)

theorem IdsOk.runActions {as : List Action} {t t' : Table} (h : IdsOk t)
    (hallowed : AllAllowed as t) (hrun : runActions as t = some t') : IdsOk t' := by
  induction as generalizing t with
  | nil =>
    cases hrun
    exact h
  | cons a as ih =>
    obtain ⟨t₁, hstep, hrest⟩ := Option.bind_eq_some_iff.mp hrun
    exact ih (h.run hallowed.1 hstep) (hallowed.2 t₁ hstep) hrest

theorem create_idsOk {schema : Schema} {threshold : Nat} {t : Table}
    (h : create schema threshold = .ok t) : IdsOk t := by
  obtain ⟨-, _, -, rfl⟩ := create_eq_ok h
  exact ⟨⟨.nil, by simp⟩, rfl, rfl⟩

/-- **Row ids name rows.**  After every allowed run from a new table the ranges of the segments
are sorted, disjoint and below the write buffer, the ids of a scan are base plus local id, part by
part, and such an id is resolved to that row by `isRowDeleted` and `markDeleted`. -/
theorem runActions_rowIds (schema : Schema) (threshold : Nat) (as : List Action) {t₀ t : Table}
    (hcreate : create schema threshold = .ok t₀) (hallowed : AllAllowed as t₀)
    (hrun : runActions as t₀ = some t) :
    RangesBelow (t.segments.map Segment.info) t.wbBaseRowId ∧
      (∀ rows, scan t = .ok rows → rows.map Prod.fst =
        (parts t).flatMap fun p => (liveIds p).map (p.baseRowId + ·)) ∧
      ∀ k l p, (parts t)[k]? = some p → l < p.localRowCount →
        Resolves t (p.baseRowId + l) k l := by
  have h := (create_idsOk hcreate).runActions hallowed hrun
  exact ⟨h.ranges, fun rows hscan => scan_ids hscan, fun k l p hp hl => h.ranged.resolves hp hl⟩

/-- A table with one nullable INT32 column `a`. -/
def oneColumn : Schema := [⟨[97], .int32, true, 0, none⟩]

/-- Rows of one number each. -/
def intRows (vs : List (BitVec 32)) : List Row :=
  vs.map fun v => [.int32 v]

/-- The ids after a seal, a deletion, a reopening and an insertion. -/
theorem runActions_rowIds_oneColumn : ∃ t₀ t, create oneColumn 65536 = .ok t₀ ∧
      runActions [.insert [[.int32 1], [.int32 2]], .sealBuffer, .delete [1], .reopen,
        .insert [[.int32 3]]] t₀ = some t ∧
      RangesBelow (t.segments.map Segment.info) t.wbBaseRowId ∧ Resolves t 1 0 1 ∧
      Resolves t 2 1 0 := by
  refine ⟨_, _, rfl, rfl, ?_⟩
  obtain ⟨hranges, _, hids⟩ := runActions_rowIds oneColumn 65536 [.insert [[.int32 1], [.int32 2]],
    .sealBuffer, .delete [1], .reopen, .insert [[.int32 3]]] rfl (by decide) rfl
  exact ⟨hranges, hids 0 1 _ rfl (by decide), hids 1 0 _ rfl (by decide)⟩

/-- A vacuum keeps the base of the write buffer, so that the next seal leaves a gap; opening the
table closes it for the write buffer only.  The last row has id 2, which now belongs to the write
buffer: deleting row 2 does nothing. -/
theorem reopen_after_vacuum_misresolves : ∃ t₀ t, create oneColumn 65536 = .ok t₀ ∧
      runActions [.insert [[.int32 1], [.int32 2]], .delete [0], .sealBuffer, .vacuum,
        .insert [[.int32 3]], .sealBuffer, .reopen] t₀ = some t ∧
      ¬ RangesBelow (t.segments.map Segment.info) t.wbBaseRowId ∧
      scan t = .ok [(0, [.int32 2]), (2, [.int32 3])] ∧
      scan (exec (markDeleted [2]) t).2 = scan t := by
  refine ⟨_, _, rfl, rfl, ?_, ?_, ?_⟩
  · decide
  · rfl
  · rfl

end NyxDb.Table
