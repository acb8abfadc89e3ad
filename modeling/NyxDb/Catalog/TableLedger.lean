import NyxDb.Catalog.Invariant
import NyxDb.Lib.Ledger

/-!
# A table as a ledger

As long as no vacuum renumbers the rows, a table is a ledger of all rows it ever received: the id
of a row is its position, inserting adds entries and deleting sets flags.  `ledger` reads the
ledger off the segments, the write buffer and their bitmaps; a scan returns its live entries
(`Holds.scan_ledger`).
-/

namespace NyxDb.Table

open List Ledger TableScan Segment

variable {t t' : Table} {segs : List (List Row)} {wb : List Row} {dur : Nat}

/-- All rows of the table with their deletions. -/
def ledger (t : Table) (segs : List (List Row)) (wb : List Row) : Ledger Row :=
  blocks (rowBit t) 0 (segs ++ [wb])

/-- No bit is set behind the rows of the write buffer. -/
def Fresh (t : Table) (wb : List Row) : Prop :=
  ∀ l, wb.length ≤ l → rowBit t t.segments.length l = false

/-! ## Positions -/

variable {k l : Nat} {rows : List Row}

theorem Contiguous.base {infos : List SegmentMeta} {start : Nat} (h : Contiguous start infos)
    {m : SegmentMeta} (hm : infos[k]? = some m) :
    m.baseRowId = start + totalRows (infos.take k) := by
  induction infos generalizing start k with
  | nil => cases hm
  | cons m' ms ih =>
    cases k with
    | zero =>
      cases hm
      exact h.1
    | succ k =>
      rw [ih h.2 (by simpa using hm)]
      simp [totalRows, Nat.add_assoc]

section

variable (h : Holds t segs wb dur)
include h

/-- The segments that come first have as many rows as their numbers say. -/
theorem Holds.totalRows_take (k : Nat) :
    totalRows ((t.segments.map info).take k) = (segs.take k).flatten.length := by
  rw [totalRows, ← map_take, map_map, length_flatten,
    forall₂_map_eq (forall₂_take k h.segments) fun s rows hs => hs.count.symm]
  rfl

theorem Holds.length_segments : t.segments.length = segs.length :=
  h.segments.length_eq

/-- The base of a part is the number of rows before it. -/
theorem Holds.base_part (hsync : InSync t) {p : Part}
    (hp : (TableScan.parts t)[k]? = some p) : p.baseRowId = before (segs ++ [wb]) k := by
  have hlen := h.length_segments
  have htake := h.totalRows_take k
  rcases part_cases hp with ⟨s, hs, rfl⟩ | ⟨rfl, rfl⟩
  · have hlt := lt_of_getElem? hs
    have hbase : s.info.baseRowId = 0 + totalRows ((t.segments.map info).take k) := by
      apply hsync.1.base
      rw [getElem?_map, hs]
      rfl
    change s.info.baseRowId = _
    rw [hbase, Nat.zero_add, htake, before, take_append_of_le_length (by omega)]
  · change t.wbBaseRowId = _
    rw [← length_map (f := info), take_length] at htake
    rw [hsync.2, htake, before, length_map, hlen, take_left, take_length]

/-- The rows of a part and the part belong together. -/
theorem Holds.part_of_rows (hrows : (segs ++ [wb])[k]? = some rows) :
    ∃ p, (TableScan.parts t)[k]? = some p ∧ p.localRowCount = rows.length := by
  obtain ⟨hlen, hparts⟩ := forall₂_iff_get.mp h.parts
  obtain ⟨hk, rfl⟩ := List.getElem?_eq_some_iff.mp hrows
  have hk' : k < (TableScan.parts t).length := hlen ▸ hk
  exact ⟨_, getElem?_eq_getElem hk', (hparts k hk' hk).count⟩

end

/-! ## Scans -/

theorem zipIdx_eq_map_range (rows : List Row) :
    rows.zipIdx = (range rows.length).map fun l => (rows.getD l [], l) := by
  refine ext_getElem (by simp) fun l hl _ => ?_
  have hl' : l < rows.length := by simpa using hl
  simp [getD_eq_getElem?_getD, getElem?_eq_getElem hl']

theorem partRows_eq_liveFrom {p : Part} (hcount : p.localRowCount = rows.length) :
    partRows p rows =
      liveFrom p.baseRowId (flagged (fun l => Bitmap.test p.deleted l) 0 rows) := by
  have hlive := liveFrom_flagged p.baseRowId (fun l => Bitmap.test p.deleted l) 0 rows
  rw [Nat.add_zero] at hlive
  rw [hlive, zipIdx_eq_map_range, filter_map, map_map, partRows, liveIds, hcount]
  rfl

/-- **A scan returns the live entries of the ledger.** -/
theorem Holds.scan_ledger (h : Holds t segs wb dur) (hsync : InSync t) :
    TableScan.scan t = .ok (ledger t segs wb).live := by
  rw [h.scan]
  refine congrArg Except.ok (Eq.symm (liveFrom_blocks ?_ ?_))
  · rw [length_zipWith, h.parts.length_eq, Nat.min_self]
  · intro k rows part hrows hpart
    obtain ⟨p, hp, hcount⟩ := h.part_of_rows hrows
    rw [getElem?_zipWith, hp, hrows] at hpart
    cases hpart
    have hflags : flagged (rowBit t (0 + k)) 0 rows =
        flagged (fun l => Bitmap.test p.deleted l) 0 rows :=
      flagged_congr fun l _ _ => by rw [Nat.zero_add, rowBit_part hp]
    rw [partRows_eq_liveFrom hcount, h.base_part hsync hp, Nat.zero_add, hflags]

theorem Holds.length_ledger (h : Holds t segs wb dur) (hsync : InSync t) :
    (ledger t segs wb).length = t.rowCount := by
  have htake := h.totalRows_take t.segments.length
  rw [← length_map (f := info), take_length, length_map, h.length_segments,
    take_length] at htake
  rw [ledger, length_blocks, flatten_append, length_append, h.rowCount, hsync.2,
    htake, flatten_singleton]

/-! ## Same rows, same deletions -/

theorem ledger_congr (hbits : SameBits t t') (segs : List (List Row)) (wb : List Row) :
    ledger t' segs wb = ledger t segs wb :=
  blocks_congr fun _ _ _ _ _ => hbits _ _

theorem Fresh.congr (hfresh : Fresh t wb) (hids : SameIds t t') (hbits : SameBits t t') :
    Fresh t' wb := by
  intro l hl
  rw [hids.length, hbits]
  exact hfresh l hl

/-! ## Deletions -/

/-- Every id below the write buffer is of a row of a segment. -/
theorem Contiguous.exists_segment {ss : List Segment} {start gid : Nat}
    (h : Contiguous start (ss.map info)) (hlow : start ≤ gid)
    (hlt : gid < start + totalRows (ss.map info)) :
    ∃ (k : Nat) (s : Segment) (l : Nat), ss[k]? = some s ∧ l < s.info.rowCount ∧
      gid = s.info.baseRowId + l := by
  induction ss generalizing start with
  | nil =>
    simp [totalRows] at hlt
    omega
  | cons s ss ih =>
    obtain ⟨_, hrest⟩ := h
    by_cases hin : gid < start + s.info.rowCount
    · exact ⟨0, s, gid - start, rfl, by omega, by omega⟩
    · have hlt' : gid < start + s.info.rowCount + totalRows (ss.map info) := by
        simp only [map_cons, totalRows, sum_cons] at hlt
        unfold totalRows
        omega
      obtain ⟨k, s', l, hs', hl, hgid⟩ := ih hrest (by omega) hlt'
      exact ⟨k + 1, s', l, by simpa using hs', hl, hgid⟩

theorem InSync.ranged (hsync : InSync t) : Ranged t := by
  have hranges := hsync.1.rangesBelow.1
  rw [Nat.zero_add, ← hsync.2] at hranges
  exact hranges

/-- Marking sets the bits of the rows with these ids. -/
theorem Holds.hitsAt_eq (h : Holds t segs wb dur) (hsync : InSync t)
    {gids : List Nat} (hrows : (segs ++ [wb])[k]? = some rows) (hl : l < rows.length) :
    hitsAt t t.wbRowCount gids k l = decide (before (segs ++ [wb]) k + l ∈ gids) := by
  obtain ⟨p, hp, hcount⟩ := h.part_of_rows hrows
  rw [← h.base_part hsync hp]
  refine hitsAt_eq_of hp (hcount ▸ hl) fun s hs hl => hsync.ranged.mem_idsOfSegment_of hs hl ?_
  intro gid hlt hseg heq
  -- an id below the write buffer lies in exactly one segment, the one the search finds
  obtain ⟨k', s', _, hs', hl', rfl⟩ := hsync.1.exists_segment (Nat.zero_le gid) (by
    rw [Nat.zero_add, ← hsync.2]
    exact hlt)
  obtain rfl : k' = k := (hsync.ranged.segmentOf hs' hl').symm.trans hseg
  obtain rfl : s' = s := Option.some.inj (hs'.symm.trans hs)
  unfold subU64 at heq
  rw [if_pos (Nat.le_add_right _ _), Nat.add_sub_cancel_left] at heq
  rw [heq]

/-- **Deleting** removes the entries with these ids. -/
theorem Holds.ledger_marked (h : Holds t segs wb dur) (hsync : InSync t)
    (gids : List Nat) : ledger (t.marked gids) segs wb = (ledger t segs wb).kill gids := by
  refine (killFrom_blocks fun k rows l hrows hl => ?_).symm
  rw [rowBit_marked, Nat.zero_add, Nat.zero_add, h.hitsAt_eq hsync hrows hl]

theorem Fresh.marked (hfresh : Fresh t wb) (h : Holds t segs wb dur) (gids : List Nat) :
    Fresh (t.marked gids) wb := by
  intro l hl
  have hhits : hitsAt t t.wbRowCount gids t.segments.length l = false := by
    unfold hitsAt
    rw [if_neg (Nat.lt_irrefl _), h.wbRowCount, decide_eq_false (Nat.not_lt.mpr hl),
      Bool.false_and, Bool.and_false]
  rw [(sameIds_marked t gids).length, rowBit_marked, hfresh l hl, hhits]
  rfl

/-! ## Insertions -/

/-- **Inserting** adds entries. -/
theorem Holds.ledger_append (h : Holds t segs wb dur) (hfresh : Fresh t wb)
    (cols : List ColumnFile) (rows : List Row) :
    ledger (t.withColumns cols) segs (wb ++ rows) = (ledger t segs wb).add rows := by
  rw [ledger_congr (sameBits_withColumns t cols)]
  refine blocks_add (fun l hl => ?_) rows
  rw [← h.length_segments]
  exact hfresh l hl

theorem Fresh.append (hfresh : Fresh t wb) (cols : List ColumnFile) (rows : List Row) :
    Fresh (t.withColumns cols) (wb ++ rows) := by
  intro l hl
  rw [sameBits_withColumns t cols]
  apply hfresh
  rw [length_append] at hl
  omega

theorem fresh_of_deleted_nil (hnil : t.wbDeleted = []) (wb : List Row) : Fresh t wb := by
  intro l _
  rw [rowBit_buffer, hnil, Bitmap.test_nil]

/-- With another segment at the end, the bits of the others are what they were. -/
theorem rowBit_concat {seg : Segment} (hsegs : t'.segments = t.segments ++ [seg])
    (hk : k < t.segments.length) (l : Nat) : rowBit t' k l = rowBit t k l := by
  have hold := getElem?_eq_getElem hk
  rw [rowBit_segment hold]
  apply rowBit_segment
  rw [hsegs, getElem?_append_left hk, hold]

section

variable {wb' : List Row} (h : Holds t segs wb' dur)
include h

/-- The ledger of a table, with the write buffer apart. -/
theorem Holds.ledger_buffer (wb : List Row) : ledger t segs wb = blocks (rowBit t) 0 segs ++
      flagged (fun l => Bitmap.test t.wbDeleted l) 0 wb := by
  unfold ledger
  rw [blocks_append, Nat.zero_add, ← h.length_segments]
  congr 1
  exact flagged_congr fun l _ _ => rowBit_buffer t l

/-- The rows of the write buffer have the bits of the segment they come to. -/
theorem Holds.ledger_concat {seg : Segment} (hsegs : t'.segments = t.segments ++ [seg])
    (wb : List Row) : ledger t' (segs ++ [wb]) [] = blocks (rowBit t) 0 segs ++
      flagged (fun l => Bitmap.test seg.deleted l) 0 wb := by
  have hlen := h.length_segments
  unfold ledger
  rw [blocks_append, blocks_append, Nat.zero_add, flagged, append_nil]
  congr 1
  · apply blocks_congr
    intro j _ l hj _
    rw [Nat.zero_add]
    exact rowBit_concat hsegs (hlen ▸ (lt_of_getElem? hj)) l
  · apply flagged_congr
    intro l _ _
    apply rowBit_segment
    rw [hsegs, ← hlen, getElem?_concat_length]

/-- A seal moves the entries of the write buffer to a segment. -/
theorem SealedTo.ledger (hsealed : SealedTo t wb t') :
    Table.ledger t' (segs ++ [wb]) [] = Table.ledger t segs wb := by
  obtain ⟨_, hsegs, hdel, _⟩ := hsealed.segments
  rw [h.ledger_concat hsegs, hdel, h.ledger_buffer]

end

theorem Holds.ledger_sealed (h : Holds t segs wb dur) (cols cols' : List ColumnFile)
    (seg : Segment) : ledger ((t.withColumns cols).sealed seg cols') (segs ++ [wb]) [] =
      blocks (rowBit t) 0 segs ++ flagged (fun l => Bitmap.test seg.deleted l) 0 wb :=
  h.ledger_concat rfl wb

end NyxDb.Table
