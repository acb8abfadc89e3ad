import NyxDb.Catalog.Upkeep
import NyxDb.Maintenance.CrashAtomic

/-!
# Seals and merges are neutral

A seal turns the write buffer into a segment and a merge turns the oldest segments into one.
Nothing a reader can ask the table changes, as long as the seal finds no other bits in the directory
of the new segment than those of the write buffer.
-/

namespace NyxDb.Table

open List TableScan

variable {t t' : Table} {segs segs' : List (List Row)} {wb wb' : List Row} {dur dur' gid l : Nat}

/-- A reader finds the same rows under the same ids, the same rows are deleted, and the ids of the
segments are still without a gap. -/
structure Neutral (t t' : Table) : Prop where
  scan : scan t' = scan t
  isRowDeleted : ∀ gid < t.rowCount, t'.isRowDeleted gid = t.isRowDeleted gid
  inSync : InSync t'

/-! ## Ids -/

theorem InSync.isRowDeleted (hsync : InSync t) {k : Nat} {p : Part}
    (hp : (TableScan.parts t)[k]? = some p) (hl : l < p.localRowCount) :
    t.isRowDeleted (p.baseRowId + l) = Bitmap.test p.deleted l :=
  (hsync.ranged.resolves hp hl).isRowDeleted.trans (rowBit_part hp l)

/-- Every id that was given is of a row of some part. -/
theorem InSync.exists_part (hsync : InSync t) (hgid : gid < t.rowCount) :
    ∃ (k : Nat) (p : Part) (l : Nat), (TableScan.parts t)[k]? = some p ∧
      l < p.localRowCount ∧ gid = p.baseRowId + l := by
  rcases Nat.lt_or_ge gid t.wbBaseRowId with hlt | _
  · rw [hsync.2] at hlt
    obtain ⟨k, s, l, hs, hl, rfl⟩ := hsync.1.exists_segment (Nat.zero_le gid) (by omega)
    exact ⟨k, _, l, part_of_segment hs, hl, rfl⟩
  · refine ⟨_, _, gid - t.wbBaseRowId, part_of_buffer t, ?_, ?_⟩
    · show _ < t.wbRowCount
      unfold rowCount at hgid
      omega
    · show gid = t.wbBaseRowId + _
      omega

/-- The deleted rows are those that a scan leaves out. -/
theorem InSync.isRowDeleted_iff (hsync : InSync t) {rows : List (Nat × Row)}
    (hscan : scan t = .ok rows) (hgid : gid < t.rowCount) :
    t.isRowDeleted gid = true ↔ gid ∉ rows.map Prod.fst := by
  rw [scan_ids hscan, mem_flatMap]
  constructor
  · rintro hdead ⟨p, hmem, hlive⟩
    obtain ⟨k, hp⟩ := getElem?_of_mem hmem
    obtain ⟨l, hl, rfl⟩ := mem_map.mp hlive
    rw [liveIds, mem_filter, mem_range] at hl
    rw [hsync.isRowDeleted hp hl.1] at hdead
    simp [hdead] at hl
  · intro hnot
    obtain ⟨k, p, l, hp, hl, rfl⟩ := hsync.exists_part hgid
    rw [hsync.isRowDeleted hp hl]
    by_contra hlive
    have hmem : l ∈ liveIds p := by
      simp [liveIds, hl, eq_false_of_ne_true hlive]
    exact hnot ⟨p, mem_of_getElem? hp, mem_map_of_mem hmem⟩

/-- Two tables with one ledger answer alike. -/
theorem neutral_of_ledger (h : Holds t segs wb dur) (hsync : InSync t)
    (h' : Holds t' segs' wb' dur') (hsync' : InSync t')
    (hledger : ledger t' segs' wb' = ledger t segs wb) : Neutral t t' := by
  have hscan := h.scan_ledger hsync
  have hscan' := h'.scan_ledger hsync'
  rw [hledger] at hscan'
  refine ⟨hscan'.trans hscan.symm, fun gid hgid => ?_, hsync'⟩
  have hgid' : gid < t'.rowCount := by
    rw [← h'.length_ledger hsync', hledger, h.length_ledger hsync]
    exact hgid
  rw [Bool.eq_iff_iff, hsync'.isRowDeleted_iff hscan' hgid', hsync.isRowDeleted_iff hscan hgid]

theorem InSync.neutral (hsync : InSync t) : Neutral t t :=
  ⟨rfl, fun _ _ => rfl, hsync⟩

/-! ## The operations -/

/-- The new segment gets the bits of the rows of the write buffer. -/
def SealsOwnBits (t : Table) : Prop :=
  ∀ l < t.wbRowCount, Bitmap.test (t.sealedDir.deleted.getD []) l = Bitmap.test t.wbDeleted l

instance (t : Table) : Decidable (SealsOwnBits t) :=
  Nat.decidableBallLT _ _

theorem Holds.neutral_seal (h : Holds t segs wb dur) (hsync : InSync t) :
    Neutral t (exec flushWriteBuffer t).2 ↔ SealsOwnBits t := by
  have hcount := h.wbRowCount
  by_cases hwb : wb = []
  · subst hwb
    rw [h.exec_seal_nil, SealsOwnBits, hcount]
    exact ⟨nofun, fun _ => hsync.neutral⟩
  · obtain ⟨cols, seg, cols', hrun, hinfo, hbits, hcount', hheld⟩ := h.exec_seal hwb
    have hsegs : ((t.withColumns cols).sealed seg cols').segments = t.segments ++ [seg] := rfl
    have hsync' : InSync ((t.withColumns cols).sealed seg cols') := by
      refine hsync.appended hsegs hinfo ?_
      rw [← hcount']
      rfl
    rw [hrun]
    constructor
    · intro hneutral l hl
      -- the row was in the write buffer and is now in the last segment
      have hlast : (TableScan.parts ((t.withColumns cols).sealed seg cols'))[t.segments.length]? =
          some (segmentPart seg) :=
        part_of_segment (by rw [hsegs, getElem?_concat_length])
      have hnew := hsync'.isRowDeleted hlast (l := l) (by
        show l < seg.info.rowCount
        rw [hinfo, ← hcount]
        exact hl)
      have hold := hsync.isRowDeleted (part_of_buffer t) hl
      have hsame := hneutral.isRowDeleted (t.wbBaseRowId + l) (Nat.add_lt_add_left hl _)
      rw [← hbits]
      change Table.isRowDeleted _ (seg.info.baseRowId + l) = Bitmap.test seg.deleted l at hnew
      rw [hinfo] at hnew
      exact hnew.symm.trans (hsame.trans hold)
    · intro hown
      refine neutral_of_ledger h hsync hheld hsync' ?_
      rw [h.ledger_sealed, h.ledger_buffer, hbits]
      congr 1
      refine Ledger.flagged_congr fun l _ hl => hown l ?_
      omega

theorem Holds.neutral_merge (h : Holds t segs wb dur) (hsync : InSync t) {k : Nat} (hk : 2 ≤ k) :
    Neutral t (exec (Table.mergeSegments k) t).2 := by
  rcases Nat.lt_or_ge t.segments.length k with hlt | hlen
  · rw [Table.mergeSegments, exec_get_bind, if_pos hlt]
    exact hsync.neutral
  · obtain ⟨_, _, _, hrun, hopen, hheld, hsync', hledger⟩ := h.ledger_merged hsync hk hlen
    rw [hrun, exec_attempt, exec_swapSegments, hopen]
    split
    · -- the directory of the next id is in the way
      exact ⟨rfl, fun _ _ => rfl, hsync⟩
    · exact neutral_of_ledger h hsync hheld hsync' hledger

/-- **A seal and a merge are neutral** exactly when the seal finds the bits of the write buffer. -/
theorem seal_merge_neutral (h : Holds t segs wb dur) (hsync : InSync t) :
    Neutral t (exec flushWriteBuffer t).2 ∧
      (∀ k, 2 ≤ k → Neutral t (exec (Table.mergeSegments k) t).2) ↔
      SealsOwnBits t := by
  rw [h.neutral_seal hsync]
  exact and_iff_left fun k hk => h.neutral_merge hsync hk

/-- Two segments, the first with a deletion, and two rows in the write buffer, one of them
deleted. -/
theorem seal_merge_neutral_twoSegments : ∃ t₀ t, create oneColumn 65536 = .ok t₀ ∧
    runActions [.insert [[.int32 1], [.int32 2]], .delete [1], .sealBuffer, .insert [[.int32 3]],
      .sealBuffer, .insert [[.int32 4], [.int32 5]], .delete [3]] t₀ = some t ∧
    Neutral t (exec flushWriteBuffer t).2 ∧ ∀ k, 2 ≤ k →
      Neutral t (exec (mergeSegments k) t).2 := by
  refine ⟨_, _, rfl, rfl, ?_⟩
  have h₁ := (holds_oneColumn rfl).afterInsert [[.int32 1], [.int32 2]] (by decide) (by decide)
  have h₂ := (h₁.afterDelete [1]).afterSeal (by decide)
  have h₃ := (h₂.afterInsert [[.int32 3]] (by decide) (by decide)).afterSeal (by decide)
  have h₄ := (h₃.afterInsert [[.int32 4], [.int32 5]] (by decide) (by decide)).afterDelete [3]
  exact (seal_merge_neutral h₄ ⟨by decide, rfl⟩).mpr (by decide)

/-- A merge of the first segment, whose only row is deleted, is interrupted before the manifest is
written; one of six rows is dead, which is too few for the worker to vacuum first.  The reopened
table is in order, but its next seal takes the bit of the merge for one of the row 6, which has the
id 5. -/
theorem seal_finds_merged_bits : ∃ t₀ t, create oneColumn 65536 = .ok t₀ ∧
    runActions [.insert (intRows [1]), .delete [0], .sealBuffer, .insert (intRows [2, 3, 4, 5]),
      .sealBuffer, .insert (intRows [6]), .flush] t₀ = some t ∧
    t.deadRowStats = .ok ⟨1, 6⟩ ∧
    ∃ d ∈ Maintenance.crashDirs (.merge 2) t, ∃ t', openDir d = .ok t' ∧ InSync t' ∧
      scan t' = .ok ([1, 2, 3, 4, 5].zip (intRows [2, 3, 4, 5, 6])) ∧
      t'.isRowDeleted 5 = false ∧
      scan (exec flushWriteBuffer t').2 = .ok ([1, 2, 3, 4].zip (intRows [2, 3, 4, 5])) ∧
      (exec flushWriteBuffer t').2.isRowDeleted 5 = true := by
  refine ⟨_, _, rfl, rfl, rfl, _, mem_of_getElem? (i := 1) rfl, _, rfl, ⟨by decide, rfl⟩, ?_⟩
  exact ⟨rfl, rfl, rfl, rfl⟩

end NyxDb.Table
