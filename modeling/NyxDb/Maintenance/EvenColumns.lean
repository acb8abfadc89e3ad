import NyxDb.Maintenance.Rewrite

/-!
# Columns of equal length

A scan reads every column of a part up to the number of rows of the part.  Where a column is
shorter, the loop over its pages takes nothing from the last page and never ends.  The columns stay
equally long as long as no statement appends to one column a row that another column refuses; an
`UPDATE` that sets a `NOT NULL` column to `NULL` does so.
-/

namespace NyxDb.Table

open List Table.Action

/-- The table holds rows, whichever they are. -/
def Stored (t : Table) : Prop :=
  ∃ segs wb dur, Holds t segs wb dur

/-- The columns of the write buffer have the same number of rows, and so have those of each
segment. -/
def EvenColumns (t : Table) : Prop :=
  (∀ c ∈ t.wbColumns, c.rowCount = t.wbRowCount) ∧
    ∀ s ∈ t.segments, ∀ c ∈ s.columns, c.rowCount = s.info.rowCount

variable {t : Table} {segs : List (List Row)} {wb rows : List Row} {dur : Nat}

theorem rowCount_of_full {schema : Schema} {cols : List ColumnFile} {n : Nat}
    (h : EachColumn schema cols (Full rows n)) : ∀ c ∈ cols, c.rowCount = rows.length := by
  intro c hc
  obtain ⟨i, hi⟩ := getElem?_of_mem hc
  have hlt : i < schema.length := h.length ▸ (lt_of_getElem? hi)
  obtain ⟨_, hcol, -, d, hst, -⟩ := h.get (getElem?_eq_getElem hlt)
  cases hi.symm.trans hcol
  rw [hst.rowCount, length_columnOf]

theorem Stored.evenColumns (h : Stored t) : EvenColumns t := by
  obtain ⟨_, _, _, hheld⟩ := h
  refine ⟨?_, fun s hs => ?_⟩
  · rw [hheld.wbRowCount]
    exact rowCount_of_full hheld.buffer
  · obtain ⟨i, hi⟩ := getElem?_of_mem hs
    obtain ⟨_, -, hseg⟩ := forall₂_left hheld.segments hi
    rw [hseg.count]
    exact rowCount_of_full hseg.full

/-! ## What the actions keep -/

theorem Stored.flushWriteBuffer : Maintains Stored flushWriteBuffer := by
  rintro t ⟨segs, wb, dur, h⟩
  by_cases hwb : wb = []
  · subst hwb
    rw [h.exec_seal_nil]
    exact ⟨segs, [], dur, h⟩
  · exact ⟨_, _, _, h.afterSeal hwb⟩

theorem Stored.maybeFlush : Maintains Stored maybeFlush := by
  refine maintains_get_bind fun t h => ?_
  split
  · exact Stored.flushWriteBuffer t h
  · exact h

/-- The rows are refused before anything is appended, or every column takes its values. -/
def Appendable (t : Table) (rows : List Row) : Prop :=
  (∃ row ∈ rows, row.length ≠ t.schema.length) ∨ ∀ row ∈ rows, Conforms t.schema row

instance (t : Table) (rows : List Row) : Decidable (Appendable t rows) :=
  inferInstanceAs (Decidable (_ ∨ _))

theorem Stored.insertMany (h : Stored t) (hrows : Appendable t rows) :
    Stored (exec (insertMany rows) t).2 := by
  obtain ⟨segs, wb, dur, hheld⟩ := h
  have hself : Stored t := ⟨segs, wb, dur, hheld⟩
  by_cases hne : rows = []
  · subst hne
    exact hself
  rcases hrows with ⟨row, hrow, hlen⟩ | hconf
  · obtain ⟨first, rest, rfl⟩ := exists_cons_of_ne_nil hne
    rw [Table.insertMany, exec_get_bind]
    cases hfind : (first :: rest).find? fun row => decide (row.length ≠ t.wbColumns.length) with
    | none =>
      have hall := find?_eq_none.mp hfind row hrow
      rw [hheld.buffer.length] at hall
      exact absurd hlen (by simpa using hall)
    | some bad => exact hself
  · obtain ⟨_, hheld', hexec⟩ := hheld.exec_insertMany hne hconf
    rw [hexec, exec_bind_pure_snd]
    exact Stored.maybeFlush _ ⟨segs, _, dur, hheld'⟩

theorem Stored.swapSegments (h : Holds t segs wb dur) {n base count : Nat} {sd : SegmentDir}
    {seg : Segment} (hr : Rewrites t segs n sd ⟨t.nextSegmentId, base, count⟩ seg rows) :
    Stored (exec (swapSegments n sd base count) t).2 := by
  rw [exec_swapSegments, hr.opens]
  split
  · exact ⟨segs, wb, dur, { h with }⟩
  · exact ⟨_, wb, dur, h.replacedBy hr.holds hr.conforms n⟩

/-- The rows are counted only where the bitmap has a bit for each. -/
theorem covered_of_deadCount {bm : Bytes} {n k : Nat} (h : deadCount bm n = .ok k) :
    bm = [] ∨ n ≤ 8 * bm.length := by
  obtain ⟨_, hbits, -⟩ := except_bind_eq_ok.1 h
  by_contra hcov
  obtain ⟨hne, -⟩ := not_or.mp hcov
  obtain ⟨b, -, hbit⟩ := forall₂_left (forall₂_of_mapM hbits)
    (getElem?_range (show n - 1 < n by omega))
  rw [bitAt, if_neg (by simpa using hne), if_neg (by omega)] at hbit
  cases hbit

theorem Stored.vacuumTable : Maintains Stored vacuumTable := by
  rintro t ⟨segs, wb, dur, h⟩
  have hself : Stored t := ⟨segs, wb, dur, h⟩
  cases hdead : t.segments.mapM fun s => deadCount s.deleted s.info.rowCount with
  | error e =>
    -- a bitmap is too short: nothing is done
    rw [Table.vacuumTable, exec_get_bind]
    split
    · exact hself
    · rw [hdead]
      exact hself
  | ok dead =>
    have hcov : SegmentsCovered t := by
      intro s hs
      obtain ⟨i, hi⟩ := getElem?_of_mem hs
      obtain ⟨k, -, hk⟩ := forall₂_left (forall₂_of_mapM hdead) hi
      exact covered_of_deadCount hk
    rcases h.vacuumTable hcov with ⟨-, hrun⟩ | ⟨-, _, _, _, _, hrun, hr, -⟩
    · rw [exec, hrun]
      exact hself
    · rw [exec, hrun]
      exact Stored.swapSegments h hr

theorem Stored.mergeSegments (k : Nat) : Maintains Stored (mergeSegments k) := by
  rintro t ⟨segs, wb, dur, h⟩
  have hself : Stored t := ⟨segs, wb, dur, h⟩
  by_cases hlen : t.segments.length < k
  · rw [Table.mergeSegments, exec_get_bind, if_pos hlen]
    exact hself
  by_cases hk : 2 ≤ k
  · obtain ⟨_, _, _, _, _, hrun, hr, -⟩ := h.mergeSegments hk (by omega)
    rw [exec, hrun]
    exact Stored.swapSegments h hr
  · rw [Table.mergeSegments, exec_get_bind, if_neg hlen,
      show k / 2 = 0 by omega]
    exact hself

/-! ## Statements -/

/-- The table after a statement or a visit of the merge worker, also if it returned an error. -/
def Action.step (t : Table) (a : Action) : Table :=
  (a.run t).getD t

/-- Recovery is not a statement: it opens a table and cuts its columns to the same length. -/
def Action.IsStatement : Action → Prop
  | .truncate _ => False
  | .reopen => False
  | _ => True

/-- No column refuses what another column was given. -/
def Action.AppendsWhole (t : Table) : Action → Prop
  | .insert rows => Appendable t rows
  | .update _ rows => Appendable t rows
  | a => a.IsStatement

instance : DecidablePred IsStatement
  | .truncate _ | .reopen => isFalse id
  | .insert _ | .update _ _ | .delete _ | .flush | .sealBuffer | .vacuum | .merge _ =>
    isTrue trivial

instance (t : Table) : DecidablePred (AppendsWhole t)
  | .insert rows | .update _ rows => inferInstanceAs (Decidable (Appendable t rows))
  | .truncate _ | .reopen => isFalse id
  | .delete _ | .flush | .sealBuffer | .vacuum | .merge _ => isTrue trivial

theorem Stored.step (h : Stored t) {a : Action} (ha : a.AppendsWhole t) : Stored (a.step t) := by
  cases a with
  | insert rows => exact h.insertMany ha
  | update old rows =>
    obtain ⟨segs, wb, dur, hheld⟩ := h
    have hmarked : Stored (t.marked old) := ⟨segs, wb, dur, hheld.marked old⟩
    have hrows : Appendable (t.marked old) rows := by
      unfold Appendable
      rw [schema_marked]
      exact ha
    show Stored (exec (updateRows old rows) t).2
    rw [snd_updateRows]
    exact hmarked.insertMany hrows
  | delete gids =>
    obtain ⟨segs, wb, dur, hheld⟩ := h
    exact ⟨segs, wb, dur, hheld.afterDelete gids⟩
  | flush =>
    obtain ⟨segs, wb, dur, hheld⟩ := h
    exact ⟨segs, wb, _, hheld.afterFlush⟩
  | truncate rows => exact ha.elim
  | sealBuffer => exact Stored.flushWriteBuffer t h
  | vacuum => exact Stored.vacuumTable t h
  | merge threshold =>
    exact maybeMergeTable_keeps h (Stored.flushWriteBuffer t h) Stored.vacuumTable
      (Stored.mergeSegments threshold)
  | reopen => exact ha.elim

/-- A nullable INT32 column `a` and a column `b` that is not. -/
def twoColumns : Schema := [⟨[97], .int32, true, 0, none⟩, ⟨[98], .int32, false, 0, none⟩]

end NyxDb.Table
