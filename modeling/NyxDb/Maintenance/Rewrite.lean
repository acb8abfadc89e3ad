import NyxDb.Catalog.TableLedger
import NyxDb.Storage.RowIdRuns

/-!
# What a vacuum and a merge write

The new segment holds the rows that were copied, and the table with the new segment in the place
of the old ones has the same ledger after a merge, and the same live rows after a vacuum.
-/

namespace NyxDb.Table

open List Bitmap Ledger ColumnFile TableScan Segment

variable {t : Table} {segs : List (List Row)} {wb : List Row} {dur : Nat}

/-! ## Copying columns -/

variable {vals : List Value} {dst : ColumnFile} {bm : Bytes} {n i : Nat} {s seg : Segment}
  {schema : Schema} {kepts : List (List Row)} {ss snaps : List Segment}

theorem exec_appendAll {col : ColumnFile} {d news : List Value} (h : Stores col vals d)
    (hacc : ∀ v ∈ news, accepts col.spec v = true) :
    ∃ col' d', exec (appendBulk news) col = (.ok (), col') ∧
      col'.spec = col.spec ∧ Stores col' (vals ++ news) d' := by
  obtain ⟨col', d', hspec, -, hst, hexec⟩ := exec_appendBulk news h
  have hall : news.all (accepts col.spec) = true := all_eq_true.mpr hacc
  rw [if_pos hall] at hexec
  rw [takeWhile_eq_self_iff.mpr hacc] at hst
  exact ⟨col', d', hexec, hspec, hst⟩

theorem exec_copyColumn {src : ColumnFile} {ds : List Value} (hsrc : Stores src vals ds) :
    exec (copyColumn src) dst = exec (appendBulk vals) dst := by
  obtain ⟨_, hscan, rfl⟩ := hsrc.scan
  unfold copyColumn
  rw [hscan]
  rfl

/-- A bit of a bitmap that has one for every row. -/
theorem bitAt_of_covered {r : Nat} (hcov : bm = [] ∨ n ≤ 8 * bm.length) (hr : r < n) :
    bitAt bm r = .ok (test bm r) := by
  unfold bitAt
  rcases hcov with rfl | _
  · rw [if_pos isEmpty_nil, test_nil]
  · have hin : r / 8 < bm.length := by omega
    rw [if_neg, if_pos hin]
    intro hempty
    rw [isEmpty_iff.mp hempty] at hin
    exact absurd hin (Nat.not_lt_zero _)

theorem exec_copyLive (hcov : bm = [] ∨ n ≤ 8 * bm.length) (hlen : i + vals.length ≤ n)
    (dst : ColumnFile) :
    exec (forEach (vals.zipIdx i) fun (v, r) => do
      let deleted ← ofExcept (bitAt bm r)
      if deleted then pure () else appendValue v) dst =
    exec (appendBulk
      (((vals.zipIdx i).filter fun x => !test bm x.2).map Prod.fst)) dst := by
  induction vals generalizing i dst with
  | nil => rfl
  | cons v vals ih =>
    rw [length_cons] at hlen
    have hrest := fun dst => ih (i := i + 1) (by omega) dst
    have hone : ∀ dst, exec (do
        let deleted ← ofExcept (bitAt bm i)
        if deleted then pure () else appendValue v : Op ColumnFile Unit) dst =
        exec (if test bm i then pure () else appendValue v) dst := by
      intro dst
      rw [bitAt_of_covered hcov (by omega)]
      rfl
    rw [zipIdx_cons, exec_forEach_cons, exec_bind]
    rw [hone]
    cases hbit : test bm i with
    | true =>
      rw [filter_cons_of_neg (by simp [hbit]), ← hrest]
      rfl
    | false =>
      rw [filter_cons_of_pos (by simp [hbit]), map_cons, appendBulk,
        exec_forEach_cons, exec_bind, if_neg Bool.false_ne_true]
      rcases exec (appendValue v) dst with ⟨_ | _, dst'⟩
      · rfl
      · exact hrest dst'

theorem exec_copyColumnFiltered {src : ColumnFile} {ds : List Value} (hsrc : Stores src vals ds)
    (hcov : bm = [] ∨ vals.length ≤ 8 * bm.length) :
    exec (copyColumnFiltered src bm vals.length) dst = exec (appendBulk
      ((vals.zipIdx.filter fun x => !test bm x.2).map Prod.fst)) dst := by
  obtain ⟨_, hscan, rfl⟩ := hsrc.scan
  unfold copyColumnFiltered
  rw [hscan, exec_bind_ok (exec_ofExcept _ _), take_length]
  exact exec_copyLive hcov (by omega) dst

/-! ## Copying segments -/

/-- The copy of a segment takes the rows `kept` over. -/
def Copies (schema : Schema) (copy : Segment → ColumnFile → Op ColumnFile Unit) (s : Segment)
    (kept : List Row) : Prop :=
  ∃ rows, SegmentHolds schema s rows ∧ ∀ i c src dst vals d, schema[i]? = some c →
    Stores src (columnOf i rows) (columnOf i rows) → Stores dst vals d → dst.spec = c.spec →
    ∃ dst' d', exec (copy s src) dst = (.ok (), dst') ∧ dst'.spec = dst.spec ∧
      Stores dst' (vals ++ columnOf i kept) d'

theorem copies_all {rows : List Row} (h : SegmentHolds schema s rows)
    (hconf : ∀ row ∈ rows, Conforms schema row) :
    Copies schema (fun _ src => copyColumn src) s rows := by
  refine ⟨rows, h, fun i c src dst vals d hc hsrc hdst hspec => ?_⟩
  rw [exec_copyColumn hsrc]
  apply exec_appendAll hdst
  rw [hspec]
  exact all_eq_true.mp (all_accepts_columnOf hconf hc)

/-- The rows that are not deleted. -/
def liveOf (bm : Bytes) (rows : List Row) : List Row :=
  (rows.zipIdx.filter fun x => !test bm x.2).map Prod.fst

theorem columnOf_liveOf (i : Nat) (bm : Bytes) (rows : List Row) : columnOf i (liveOf bm rows) =
      ((columnOf i rows).zipIdx.filter fun x => !test bm x.2).map Prod.fst := by
  unfold columnOf liveOf
  rw [zipIdx_map, filter_map, map_map, map_map]
  rfl

theorem liveOf_subset (bm : Bytes) (rows : List Row) : liveOf bm rows ⊆ rows := by
  intro row hrow
  obtain ⟨x, hx, rfl⟩ := mem_map.mp hrow
  exact fst_mem_of_mem_zipIdx (mem_of_mem_filter hx)

theorem copies_live {rows : List Row} (h : SegmentHolds schema s rows)
    (hconf : ∀ row ∈ rows, Conforms schema row)
    (hcov : s.deleted = [] ∨ rows.length ≤ 8 * s.deleted.length) :
    Copies schema (fun s src => copyColumnFiltered src s.deleted s.info.rowCount) s
      (liveOf s.deleted rows) := by
  refine ⟨rows, h, fun i c src dst vals d hc hsrc hdst hspec => ?_⟩
  have hlen : (columnOf i rows).length = s.info.rowCount := by
    rw [length_columnOf, h.count]
  have hcopy : exec (copyColumnFiltered src s.deleted (columnOf i rows).length) dst = _ :=
    exec_copyColumnFiltered hsrc (by
      rw [length_columnOf]
      exact hcov)
  rw [hlen, ← columnOf_liveOf] at hcopy
  rw [hcopy]
  apply exec_appendAll hdst
  rw [hspec]
  apply all_eq_true.mp
  exact all_accepts_columnOf (fun row hrow => hconf row (liveOf_subset _ _ hrow)) hc

theorem exec_copySegments {copy : Segment → ColumnFile → Op ColumnFile Unit}
    (h : Forall₂ (Copies schema copy) ss kepts) {c : Column} (hc : schema[i]? = some c)
    {d : List Value} (hdst : Stores dst vals d) (hspec : dst.spec = c.spec) :
    ∃ dst' d', exec (forEach ss fun s => do
        let src ← ofExcept
          (openFile ((s.columns[i]?.map file).getD ⟨c.spec, []⟩))
        copy s src) dst = (.ok (), dst') ∧ dst'.spec = dst.spec ∧
      Stores dst' (vals ++ columnOf i kepts.flatten) d' := by
  induction h generalizing dst vals d with
  | nil => exact ⟨dst, d, rfl, rfl, by simpa [columnOf] using hdst⟩
  | @cons s kept ss kepts hs _ ih =>
    obtain ⟨_, hheld, hcopy⟩ := hs
    obtain ⟨col, hcol, -, hst⟩ := hheld.columns.get hc
    obtain ⟨src, hopen, -, hsrc⟩ := openFile_stores hst
    obtain ⟨dst₁, _, hexec₁, hspec₁, hst₁⟩ := hcopy i c src dst vals d hc hsrc hdst hspec
    obtain ⟨dst₂, d₂, hexec₂, hspec₂, hst₂⟩ := ih hst₁ (hspec₁.trans hspec)
    refine ⟨dst₂, d₂, ?_, hspec₂.trans hspec₁, ?_⟩
    · rw [exec_forEach_cons, hcol]
      have hone : exec (do
          let src ← ofExcept (openFile
            ((Option.map file (some col)).getD ⟨c.spec, []⟩))
          copy s src) dst = (.ok (), dst₁) := by
        show exec (ofExcept (openFile col.file) >>= copy s) dst = _
        rw [hopen]
        exact hexec₁
      rw [exec_bind_ok hone]
      exact hexec₂
    · rw [flatten_cons, columnOf, map_append, ← append_assoc]
      exact hst₂

/-- **A column of the new segment** holds the values of the rows that were copied. -/
theorem mergedColumn_holds {copy : Segment → ColumnFile → Op ColumnFile Unit}
    (h : Forall₂ (Copies schema copy) ss kepts) (hcap : ∀ c ∈ schema, 0 < c.spec.capacity)
    {c : Column} (hc : schema[i]? = some c) :
    ∃ col, mergedColumn copy ss c i = .ok col ∧ col.spec = c.spec ∧
      Stores col (columnOf i kepts.flatten) (columnOf i kepts.flatten) := by
  obtain ⟨dst, hcreate, hspec, hst⟩ :=
    create_stores (hcap c (mem_of_getElem? hc))
  obtain ⟨_, _, hexec₁, hspec₁, hst₁⟩ := exec_copySegments h hc hst hspec
  obtain ⟨dst₂, hexec₂, hspec₂, hst₂, -⟩ := exec_flush hst₁
  refine ⟨dst₂, ?_, hspec₂.trans (hspec₁.trans hspec), hst₂⟩
  unfold mergedColumn
  rw [hcreate, except_ok_bind]
  dsimp only
  rw [exec_bind_ok hexec₁, hexec₂]

theorem mergedColumns_hold {copy : Segment → ColumnFile → Op ColumnFile Unit}
    (h : Forall₂ (Copies schema copy) ss kepts) (hcap : ∀ c ∈ schema, 0 < c.spec.capacity) :
    ∃ cols, mergedColumns copy ss schema = .ok cols ∧ Written schema cols kepts.flatten := by
  have hmap : ∃ cols, mergedColumns copy ss schema = .ok cols ∧
      cols.length = schema.zipIdx.length ∧ ∀ i x col, schema.zipIdx[i]? = some x →
        cols[i]? = some col → col.spec = x.1.spec ∧
          Stores col (columnOf i kepts.flatten) (columnOf i kepts.flatten) := by
    refine mapM_ok_at fun i x hx => ?_
    rw [getElem?_zipIdx, Nat.zero_add] at hx
    obtain ⟨c, hc, rfl⟩ := Option.map_eq_some_iff.mp hx
    exact mergedColumn_holds h hcap hc
  obtain ⟨cols, hcols, hlen, hall⟩ := hmap
  refine ⟨cols, hcols, ?_, fun {i c col} hc hcol => ?_⟩
  · rw [hlen, length_zipIdx]
  · refine hall i (c, i) col ?_ hcol
    rw [getElem?_zipIdx, hc, Nat.zero_add]
    rfl

/-! ## The table with the new segment -/

/-- The live rows of a table, without their ids. -/
def exposed (t : Table) : Except Error (List Row) :=
  (scan t).map (map Prod.snd)

theorem Holds.exposed (h : Holds t segs wb dur) : exposed t = .ok (ledger t segs wb).values := by
  have hparts : ∀ ps (rows : List (List Row)) (k : Nat),
      (∀ j p, ps[j]? = some p → ∀ l, rowBit t (k + j) l = test p.deleted l) →
      Forall₂ (PartHolds t.schema) ps rows →
      (zipWith partRows ps rows).flatten.map Prod.snd =
        (blocks (rowBit t) k rows).values := by
    intro ps rows k hbits hheld
    induction hheld generalizing k with
    | nil => rfl
    | @cons p r ps rows hp _ ih =>
      have hflags : flagged (fun l => test p.deleted l) 0 r =
          flagged (rowBit t k) 0 r :=
        flagged_congr fun l _ _ => (hbits 0 p rfl l).symm
      rw [zipWith_cons_cons, flatten_cons, map_append, blocks,
        values_append, partRows_eq_liveFrom hp.count, snd_liveFrom, hflags,
        ih (k + 1)]
      intro j q hq l
      rw [Nat.add_assoc, Nat.add_comm 1]
      exact hbits (j + 1) q (by simpa using hq) l
  unfold Table.exposed
  rw [h.scan]
  refine congrArg Except.ok (hparts _ _ 0 (fun j p hp l => ?_) h.parts)
  rw [Nat.zero_add, rowBit_part hp]

theorem Holds.replacedBy (h : Holds t segs wb dur) {rows : List Row}
    (hseg : SegmentHolds t.schema seg rows) (hconf : ∀ row ∈ rows, Conforms t.schema row)
    (n : Nat) :
    Holds (t.replacedBy n seg) (rows :: segs.drop n) wb dur :=
  { h with
    segments := .cons hseg (forall₂_drop n h.segments)
    conforms := forall_mem_cons.2 ⟨hconf, fun rows' hmem => h.conforms rows'
      (((drop_sublist n segs).append_right [wb]).subset hmem)⟩ }

theorem Dirs.replacedBy (h : Dirs t) (hid : seg.info.id = t.nextSegmentId) (n : Nat) :
    Dirs (t.replacedBy n seg) where
  schema := h.schema
  manifest := rfl
  settled := h.settled
  ids := (Named.replace ⟨h.ids, h.fresh⟩ hid n).1
  fresh := (Named.replace ⟨h.ids, h.fresh⟩ hid n).2
  apart := by
    intro x hx s hs
    have hx' := mem_of_mem_filter hx
    rcases mem_cons.mp hs with rfl | hs
    · rw [hid]
      simpa using (mem_filter.mp hx').2
    · exact h.apart x (mem_of_mem_filter hx') s (mem_of_mem_drop hs)

theorem ledger_replacedBy (h : Holds t segs wb dur) (hn : n ≤ segs.length) (seg : Segment)
    (rows : List Row) :
    ledger (t.replacedBy n seg) (rows :: segs.drop n) wb =
      flagged (fun l => test seg.deleted l) 0 rows ++
        blocks (rowBit t) n (segs.drop n ++ [wb]) := by
  have hlen : (t.segments.map deleted).length = segs.length := by
    rw [length_map, h.length_segments]
  have hbits : (t.replacedBy n seg).bitmaps = seg.deleted :: t.bitmaps.drop n := by
    unfold bitmaps
    show (seg :: t.segments.drop n).map deleted ++ [t.wbDeleted] = _
    rw [map_cons, map_drop, drop_append_of_le_length (by omega), cons_append]
  unfold ledger
  rw [cons_append, blocks]
  have hfirst : flagged (rowBit (t.replacedBy n seg) 0) 0 rows =
      flagged (fun l => test seg.deleted l) 0 rows := flagged_congr fun _ _ _ => rfl
  have hrest : blocks (rowBit (t.replacedBy n seg)) 1 (segs.drop n ++ [wb]) =
      blocks (rowBit t) n (segs.drop n ++ [wb]) := by
    apply blocks_congr
    intro j xs l _ _
    rw [rowBit_eq, rowBit_eq, hbits, Nat.add_comm 1, getD_cons_succ]
    rw [getD_eq_getElem?_getD, getD_eq_getElem?_getD, getElem?_drop]
  rw [hfirst, hrest]

/-- The ledger, with the segments to be replaced apart. -/
theorem ledger_split (t : Table) (segs : List (List Row)) (wb : List Row) (hn : n ≤ segs.length) :
    ledger t segs wb = blocks (rowBit t) 0 (segs.take n) ++
      blocks (rowBit t) n (segs.drop n ++ [wb]) := by
  unfold ledger
  rw [← take_append_drop n segs, append_assoc, blocks_append_blocks,
    Nat.zero_add, length_take_of_le hn, take_append_drop]

/-- A segment that can take the place of the first `n`: it opens from the directory `sd`, and what
is left of its rows is what is left of theirs. -/
structure Rewrites (t : Table) (segs : List (List Row)) (n : Nat) (sd : SegmentDir)
    (info : SegmentMeta) (seg : Segment) (rows : List Row) : Prop where
  opens : Segment.openDir sd t.schema info = .ok seg
  holds : SegmentHolds t.schema seg rows
  info_eq : seg.info = info
  conforms : ∀ row ∈ rows, Conforms t.schema row
  le : n ≤ segs.length
  values : (flagged (fun l => test seg.deleted l) 0 rows).values =
    (blocks (rowBit t) 0 (segs.take n)).values

/-- **Nothing is lost or gained** by the new segment. -/
theorem Rewrites.values_replacedBy {sd : SegmentDir} {info : SegmentMeta} {rows : List Row}
    (hr : Rewrites t segs n sd info seg rows) (h : Holds t segs wb dur) :
    (ledger (t.replacedBy n seg) (rows :: segs.drop n) wb).values = (ledger t segs wb).values := by
  rw [ledger_replacedBy h hr.le, ledger_split t segs wb hr.le, values_append,
    values_append, hr.values]

/-- Segments as they were at some time: they have the rows of the first segments of the table, and
the bits of these rows are still the same. -/
structure Snapshot (t : Table) (segs : List (List Row)) (snaps : List Segment) : Prop where
  held : Forall₂ (SegmentHolds t.schema) snaps (segs.take snaps.length)
  bits : ∀ (j : Nat) (s : Segment), snaps[j]? = some s →
    ∀ l < s.info.rowCount, rowBit t j l = test s.deleted l

theorem Snapshot.le (h : Snapshot t segs snaps) : snaps.length ≤ segs.length := by
  have hlen := h.held.length_eq
  rw [length_take] at hlen
  omega

theorem Snapshot.total (h : Snapshot t segs snaps) :
    (snaps.map fun s => s.info.rowCount).sum = (segs.take snaps.length).flatten.length := by
  rw [length_flatten, forall₂_map_eq h.held fun s rows hs => hs.count.symm]

theorem Holds.snapshot (h : Holds t segs wb dur) (hn : n ≤ t.segments.length) :
    Snapshot t segs (t.segments.take n) where
  held := by
    rw [length_take_of_le hn]
    exact forall₂_take n h.segments
  bits := by
    intro j s hs l _
    have hj := lt_of_getElem? hs
    rw [length_take] at hj
    rw [getElem?_take_of_lt (by omega)] at hs
    exact rowBit_segment hs l

/-! ## Merging -/

/-- The deletion flags of consecutive segments, one after the other. -/
def deadFlags (ss : List Segment) : List Bool :=
  ss.flatMap fun s => (range s.info.rowCount).map s.isDeleted

theorem deadFlags_clear (h : ∀ s ∈ ss, s.deleted = []) : ∀ b ∈ deadFlags ss, b = false := by
  intro b hb
  obtain ⟨s, hs, hb⟩ := mem_flatMap.mp hb
  obtain ⟨l, -, rfl⟩ := mem_map.mp hb
  rw [isDeleted, h s hs, test_nil]

theorem test_mergeDeletedBitmaps (ss : List Segment) (i : Nat) :
    test (mergeDeletedBitmaps ss) i = (deadFlags ss).getD i false := by
  have hlen : (deadFlags ss).length = (ss.map fun s => s.info.rowCount).sum := by simp [deadFlags]
  unfold mergeDeletedBitmaps
  dsimp only
  split
  · next hnone =>
    -- either no flag is set or there is none
    rw [test_nil]
    rcases (Bool.or_eq_true _ _).mp hnone with hall | hzero
    · have hclear := deadFlags_clear fun s hs =>
        isEmpty_iff.mp (all_eq_true.mp hall s hs)
      rw [getD_eq_getElem?_getD]
      cases hget : (deadFlags ss)[i]? with
      | none => rfl
      | some b => exact (hclear b (mem_of_getElem? hget)).symm
    · rw [beq_iff_eq] at hzero
      rw [length_eq_zero_iff.mp (hlen.trans hzero)]
      rfl
  · have hbound : ∀ j ∈ (range (ss.map fun s => s.info.rowCount).sum).filter
        (fun j => (deadFlags ss).getD j false),
        j / 8 < (replicate (bytesFor (ss.map fun s => s.info.rowCount).sum)
          (0 : UInt8)).length := by
      intro j hj
      rw [length_replicate]
      exact div_lt_bytesFor (mem_range.mp (mem_of_mem_filter hj))
    have hzero : ∀ n, test (replicate n 0) i = false := by
      intro n
      have hresize := test_resize [] n i
      rwa [test_nil] at hresize
    show test (setAll _ ((range _).filter
      fun j => (deadFlags ss).getD j false)) i = _
    rw [test_setAll hbound, hzero, Bool.false_or, Bool.eq_iff_iff]
    rw [decide_eq_true_iff, mem_filter, mem_range, and_iff_right_iff_imp]
    intro hdead
    by_contra hge
    rw [getD_eq_getElem?_getD, getElem?_eq_none (by omega)] at hdead
    cases hdead

theorem deadFlags_getD {xss : List (List Row)} (h : Forall₂ (SegmentHolds schema) ss xss)
    {j l : Nat} (hs : ss[j]? = some s) (hl : l < s.info.rowCount) :
    (deadFlags ss).getD (before xss j + l) false = s.isDeleted l := by
  induction h generalizing j with
  | nil => cases hs
  | @cons s₀ rows ss xss hs₀ _ ih =>
    have hfirst : ((range s₀.info.rowCount).map s₀.isDeleted).length = rows.length := by
      rw [length_map, length_range, hs₀.count]
    show (((range s₀.info.rowCount).map s₀.isDeleted) ++ deadFlags ss).getD _ false = _
    rw [getD_eq_getElem?_getD]
    cases j with
    | zero =>
      cases hs
      have hl' : l < rows.length := hs₀.count ▸ hl
      rw [show before (rows :: xss) 0 + l = l from Nat.zero_add l,
        getElem?_append_left (by omega), getElem?_map, getElem?_range hl]
      rfl
    | succ j =>
      rw [before_cons_succ, getElem?_append_right (by omega), hfirst,
        show rows.length + before xss j + l - rows.length = before xss j + l by
          omega, ← getD_eq_getElem?_getD]
      exact ih (by simpa using hs)

/-- The bits of the merged segment are those of the segments. -/
theorem Snapshot.ledger_merged (h : Snapshot t segs snaps) :
    flagged (fun l => test (mergeDeletedBitmaps snaps) l) 0 (segs.take snaps.length).flatten =
      blocks (rowBit t) 0 (segs.take snaps.length) := by
  apply flagged_flatten
  intro j rows l hrows hl
  obtain ⟨hlen, hget⟩ := forall₂_iff_get.mp h.held
  obtain ⟨hj, rfl⟩ := List.getElem?_eq_some_iff.mp hrows
  have hj' : j < snaps.length := hlen ▸ hj
  have hs : snaps[j]? = some snaps[j] := getElem?_eq_getElem hj'
  have hcount := (hget j hj' hj).count
  rw [test_mergeDeletedBitmaps, Nat.zero_add, Nat.zero_add,
    deadFlags_getD h.held hs (hcount ▸ hl), h.bits j _ hs l (hcount ▸ hl)]
  rfl

/-! ## Vacuuming -/

theorem deadCount_of_covered (hcov : bm = [] ∨ n ≤ 8 * bm.length) :
    deadCount bm n = .ok ((range n).countP fun l => test bm l) := by
  have hbits : (range n).mapM (bitAt bm) = .ok ((range n).map (test bm)) :=
    mapM_eq_ok fun l hl => bitAt_of_covered hcov (mem_range.mp hl)
  unfold deadCount
  rw [hbits]
  show Except.ok _ = Except.ok _
  rw [count, countP_map]
  congr 2
  funext l
  simp

theorem length_liveOf (bm : Bytes) (rows : List Row) :
    (liveOf bm rows).length + (range rows.length).countP (fun l => test bm l) =
      rows.length := by
  have hlive : (liveOf bm rows).length =
      (range rows.length).countP fun l => !test bm l := by
    unfold liveOf
    rw [zipIdx_eq_map_range, length_map, ← countP_eq_length_filter, countP_map]
    rfl
  have hsplit := length_eq_countP_add_countP (fun l => test bm l)
    (l := range rows.length)
  rw [length_range] at hsplit
  have hnot : (range rows.length).countP (fun l => !test bm l) =
      (range rows.length).countP fun l => decide ¬(test bm l = true) := by
    simp
  omega

/-- Every segment has a bit for each of its rows, or none at all. -/
def SegmentsCovered (t : Table) : Prop :=
  ∀ s ∈ t.segments, Covered (segmentPart s)

instance (t : Table) : Decidable (SegmentsCovered t) :=
  inferInstanceAs (Decidable (∀ s ∈ t.segments, _))

/-- The rows that a vacuum keeps of each segment. -/
def kept (ss : List Segment) (segs : List (List Row)) : List (List Row) :=
  zipWith (fun s rows => liveOf s.deleted rows) ss segs

theorem kept_flatten {flag : Nat → Nat → Bool} {xss : List (List Row)} {k : Nat}
    (hheld : Forall₂ (SegmentHolds schema) ss xss)
    (h : ∀ j s, ss[j]? = some s →
      ∀ l < s.info.rowCount, flag (k + j) l = test s.deleted l) :
    (blocks flag k xss).values = (kept ss xss).flatten := by
  induction hheld generalizing k with
  | nil => rfl
  | @cons s rows ss xss hs _ ih =>
    have hflags : flagged (flag k) 0 rows =
        flagged (fun l => test s.deleted l) 0 rows := by
      apply flagged_congr
      intro l _ hl
      exact h 0 s rfl l (by rw [hs.count]; omega)
    have hrest : (blocks flag (k + 1) xss).values = (kept ss xss).flatten := by
      apply ih
      intro j s' hs' l hl
      rw [Nat.add_assoc, Nat.add_comm 1]
      exact h (j + 1) s' (by simpa using hs') l hl
    rw [blocks, values_append, hrest, hflags, values_flagged]
    rfl

/-- The number of deleted rows of the segments. -/
def deadRows (ss : List Segment) : Nat :=
  (ss.map fun s => (range s.info.rowCount).countP fun l => test s.deleted l).sum

/-- The rows that are kept and the dead ones are all rows. -/
theorem length_kept (h : Forall₂ (SegmentHolds schema) ss segs) :
    (kept ss segs).flatten.length + deadRows ss = (ss.map fun s => s.info.rowCount).sum := by
  induction h with
  | nil => rfl
  | @cons s rows ss segs hs _ ih =>
    have hfirst := length_liveOf s.deleted rows
    rw [← hs.count] at hfirst
    rw [kept, zipWith_cons_cons, flatten_cons, length_append, deadRows, map_cons,
      map_cons, sum_cons, sum_cons, ← ih, kept, deadRows]
    omega

/-! ## Both -/

/-- What becomes of the rows of the old segments: a vacuum drops the deleted ones, a merge keeps
them and their bits. -/
inductive Rewriting where
  | vacuum
  | merge
  deriving DecidableEq, Repr

namespace Rewriting

/-- How a column of a segment is copied. -/
def copy : Rewriting → Segment → ColumnFile → Op ColumnFile Unit
  | .vacuum => fun s src => copyColumnFiltered src s.deleted s.info.rowCount
  | .merge => fun _ src => copyColumn src

/-- The `deleted.bin` of the new segment. -/
def deletedFile : Rewriting → List Segment → Option Bytes
  | .vacuum, _ => none
  | .merge, snaps =>
    if (mergeDeletedBitmaps snaps).isEmpty then none else some (mergeDeletedBitmaps snaps)

/-- The number of rows of the new segment. -/
def count : Rewriting → List Segment → Nat
  | .vacuum, snaps => (snaps.map fun s => s.info.rowCount).sum - (snaps.map fun s =>
    (range s.info.rowCount).countP fun l => test s.deleted l).sum
  | .merge, snaps => (snaps.map fun s => s.info.rowCount).sum

/-- The rows of the new segment, by the segments they are from. -/
def rows : Rewriting → List Segment → List (List Row) → List (List Row)
  | .vacuum, snaps, xss => kept snaps xss
  | .merge, _, xss => xss

/-- A vacuum reads its bitmaps without looking at their length. -/
def Readable : Rewriting → List Segment → Prop
  | .vacuum, snaps => ∀ s ∈ snaps, Covered (segmentPart s)
  | .merge, _ => True

end Rewriting

variable {snaps : List Segment} {w : Rewriting}

theorem deletedFile_merge (snaps : List Segment) :
    (Rewriting.merge.deletedFile snaps).getD [] = mergeDeletedBitmaps snaps := by
  show (if (mergeDeletedBitmaps snaps).isEmpty then none
    else some (mergeDeletedBitmaps snaps)).getD [] = _
  split
  · next hempty => exact (isEmpty_iff.mp hempty).symm
  · rfl

theorem rows_subset (w : Rewriting) (snaps : List Segment) (xss : List (List Row)) :
    (w.rows snaps xss).flatten ⊆ xss.flatten := by
  cases w with
  | merge => exact fun row hrow => hrow
  | vacuum =>
    intro row hrow
    obtain ⟨_, hrows, hrow⟩ := mem_flatten.mp hrow
    obtain ⟨j, _, rfl⟩ := mem_iff_getElem.mp hrows
    simp only [Rewriting.rows, kept, getElem_zipWith] at hrow
    exact mem_flatten.mpr ⟨_, getElem_mem _, liveOf_subset _ _ hrow⟩

section

variable (h : Snapshot t segs snaps)
include h

/-- Every segment of a snapshot can be copied. -/
theorem Snapshot.copies
    (hconf : ∀ rows ∈ segs, ∀ row ∈ rows, Conforms t.schema row) (hread : w.Readable snaps) :
    Forall₂ (Copies t.schema w.copy) snaps (w.rows snaps (segs.take snaps.length)) := by
  obtain ⟨hlen, hget⟩ := forall₂_iff_get.mp h.held
  cases w with
  | merge =>
    refine forall₂_iff_get.mpr ⟨hlen, fun j hj hj' => ?_⟩
    exact copies_all (hget j hj hj') (hconf _ (mem_of_mem_take (get_mem _ _)))
  | vacuum =>
    refine forall₂_iff_get.mpr ⟨by simp [Rewriting.rows, kept, ← hlen], fun j hj hj' => ?_⟩
    have hj₂ : j < (segs.take snaps.length).length := hlen ▸ hj
    have hs := hget j hj hj₂
    simp only [Rewriting.rows, kept, get_eq_getElem, getElem_zipWith]
    apply copies_live hs
    · exact hconf _ (mem_of_mem_take (getElem_mem hj₂))
    · rw [← hs.count]
      exact hread _ (getElem_mem hj)

theorem Snapshot.count_eq :
    w.count snaps = (w.rows snaps (segs.take snaps.length)).flatten.length := by
  cases w with
  | merge => exact h.total
  | vacuum =>
    have hcount := length_kept h.held
    show _ - deadRows snaps = (kept snaps (segs.take snaps.length)).flatten.length
    omega

/-- What is left of the rows of the new segment is what is left of those of the old ones. -/
theorem Snapshot.values_rows : (flagged (fun l => test ((w.deletedFile snaps).getD []) l) 0
        (w.rows snaps (segs.take snaps.length)).flatten).values =
      (blocks (rowBit t) 0 (segs.take snaps.length)).values := by
  cases w with
  | merge =>
    rw [deletedFile_merge]
    exact congrArg values h.ledger_merged
  | vacuum =>
    -- no flag of the new segment is set
    have hclear : ∀ l, 0 ≤ l → test ((Rewriting.vacuum.deletedFile snaps).getD []) l = false :=
      fun l _ => test_nil l
    rw [flagged_of_clear hclear, values_clear]
    refine (kept_flatten h.held fun j s hs l hl => ?_).symm
    rw [Nat.zero_add]
    exact h.bits j s hs l hl

/-- **The new segment** can take the place of the segments of the snapshot. -/
theorem Snapshot.rewrites
    (hconf : ∀ rows ∈ segs, ∀ row ∈ rows, Conforms t.schema row) {cols : List ColumnFile}
    (hcols : Written t.schema cols (w.rows snaps (segs.take snaps.length)).flatten)
    (id base : Nat) :
    ∃ seg, Rewrites t segs snaps.length ⟨cols.map fun c => some c.file, w.deletedFile snaps⟩
      ⟨id, base, w.count snaps⟩ seg (w.rows snaps (segs.take snaps.length)).flatten := by
  obtain ⟨seg, hopen, hheld, hinfo, hdel⟩ := SegmentOnDisk.openDir
    (s := ⟨⟨id, base, w.count snaps⟩, cols, [], w.deletedFile snaps⟩) ⟨h.count_eq, hcols⟩
  refine ⟨seg, hopen, hheld, hinfo, fun row hrow => ?_, h.le, ?_⟩
  · obtain ⟨rows, hrows, hrow⟩ := mem_flatten.mp (rows_subset w _ _ hrow)
    exact hconf rows (mem_of_mem_take hrows) row hrow
  · rw [hdel]
    exact h.values_rows

end

theorem Holds.conforms_segments (h : Holds t segs wb dur) :
    ∀ rows ∈ segs, ∀ row ∈ rows, Conforms t.schema row :=
  fun rows hrows => h.conforms rows (mem_append_left _ hrows)

/-- The columns of the new segment are written. -/
theorem Snapshot.mergedColumns (hsnap : Snapshot t segs snaps) (h : Holds t segs wb dur)
    (hread : w.Readable snaps) :
    ∃ cols, Table.mergedColumns w.copy snaps t.schema = .ok cols ∧
      Written t.schema cols (w.rows snaps (segs.take snaps.length)).flatten :=
  mergedColumns_hold (hsnap.copies h.conforms_segments hread) fun _ hc => h.buffer.cap_pos hc

/-- **A merge** writes the rows of the first segments to one segment and replaces them by it. -/
theorem Holds.mergeSegments (h : Holds t segs wb dur) {k : Nat} (hk : 2 ≤ k)
    (hlen : k ≤ t.segments.length) :
    ∃ sd base count seg rows, mergeSegments k t =
        Proc.attempt (swapSegments (k / 2) sd base count) t ∧
      Rewrites t segs (k / 2) sd ⟨t.nextSegmentId, base, count⟩ seg rows ∧
      sd.deleted = Rewriting.merge.deletedFile (t.segments.take (k / 2)) ∧
      rows = (segs.take (k / 2)).flatten ∧
      (t.segments.map info).head?.map SegmentMeta.baseRowId = some base := by
  have hsnap : Snapshot t segs (t.segments.take (k / 2)) := h.snapshot (by omega)
  have hhalf : (t.segments.take (k / 2)).length = k / 2 := length_take_of_le (by omega)
  obtain ⟨_, hcols, heach⟩ := hsnap.mergedColumns (w := .merge) h trivial
  cases hsnaps : t.segments.take (k / 2) with
  | nil =>
    rw [hsnaps, length_nil] at hhalf
    omega
  | cons first rest =>
    obtain ⟨seg, hr⟩ := hsnap.rewrites h.conforms_segments heach t.nextSegmentId
      first.info.baseRowId
    rw [hhalf, hsnaps] at hr
    have hhead : (t.segments.map info).head?.map SegmentMeta.baseRowId =
        some first.info.baseRowId := by
      rw [← take_append_drop (k / 2) t.segments, hsnaps]
      rfl
    refine ⟨_, _, _, seg, _, ?_, hr, rfl, rfl, hhead⟩
    rw [hsnaps] at hcols
    change Table.mergedColumns (fun _ src => copyColumn src) (first :: rest) t.schema = _ at hcols
    rw [Table.mergeSegments, Proc.get_bind, if_neg (by omega), hsnaps]
    dsimp only
    rw [hcols]
    rfl

/-- **A vacuum** finds nothing to do, or it writes the live rows of all segments to one segment
and replaces them by it. -/
theorem Holds.vacuumTable (h : Holds t segs wb dur) (hcov : SegmentsCovered t) :
    deadRows t.segments = 0 ∧ vacuumTable t = (pure 0 : Op Table Nat) t ∨
    deadRows t.segments ≠ 0 ∧ ∃ sd base count seg, Table.vacuumTable t = (do
        let replaced ← Proc.succeeds (swapSegments t.segments.length sd base count)
        pure (if replaced then deadRows t.segments else 0) : Op Table Nat) t ∧
      Rewrites t segs t.segments.length sd ⟨t.nextSegmentId, base, count⟩ seg
        (kept t.segments segs).flatten ∧
      sd.deleted = none := by
  have hsnap : Snapshot t segs t.segments := by
    have hsnap := h.snapshot (Nat.le_refl t.segments.length)
    rwa [take_length] at hsnap
  have hdead : (t.segments.mapM fun s => deadCount s.deleted s.info.rowCount) =
      .ok (t.segments.map fun s =>
        (range s.info.rowCount).countP fun l => test s.deleted l) :=
    mapM_eq_ok fun s hs => deadCount_of_covered (hcov s hs)
  have htake : segs.take t.segments.length = segs := by
    rw [h.segments.length_eq, take_length]
  obtain ⟨cols, hcols, heach⟩ := hsnap.mergedColumns (w := .vacuum) h hcov
  cases hsegs : t.segments with
  | nil =>
    refine Or.inl ⟨rfl, ?_⟩
    rw [Table.vacuumTable, Proc.get_bind, hsegs]
  | cons first rest =>
    obtain ⟨seg, hr⟩ := hsnap.rewrites h.conforms_segments heach t.nextSegmentId
      first.info.baseRowId
    rw [htake, hsegs] at hr
    rw [hsegs] at hdead hcols
    have hrun : Table.vacuumTable t = (if deadRows (first :: rest) = 0 then pure 0 else do
        let replaced ← Proc.succeeds (swapSegments (first :: rest).length
          ⟨cols.map fun c => some c.file, none⟩ first.info.baseRowId
          (Rewriting.vacuum.count (first :: rest)))
        pure (if replaced then deadRows (first :: rest) else 0) : Op Table Nat) t := by
      change Table.mergedColumns (fun s src => copyColumnFiltered src s.deleted s.info.rowCount)
        (first :: rest) t.schema = _ at hcols
      rw [Table.vacuumTable, Proc.get_bind, hsegs]
      dsimp only
      rw [hdead, hcols]
      rfl
    -- Without a dead row nothing is swapped.
    by_cases hnone : deadRows (first :: rest) = 0
    · rw [if_pos hnone] at hrun
      exact Or.inl ⟨hnone, hrun⟩
    · rw [if_neg hnone] at hrun
      exact Or.inr ⟨hnone, _, _, _, seg, hrun, hr, rfl⟩

/-! ## The result of a vacuum -/

/-- The segment whose bitmap, if it has one, has a byte for every row: a byte that was missing
says that nothing is deleted. -/
def paddedSegment (s : Segment) : Segment :=
  if s.deleted = [] then s
  else { s with
    deleted := resize s.deleted (bytesFor s.info.rowCount)
    deletedFile := some (resize s.deleted (bytesFor s.info.rowCount)) }

def padded (t : Table) : Table :=
  { t with segments := t.segments.map paddedSegment }

theorem info_paddedSegment (s : Segment) : (paddedSegment s).info = s.info := by
  unfold paddedSegment
  split <;> rfl

/-- No bit changes. -/
theorem test_paddedSegment (s : Segment) (l : Nat) :
    test (paddedSegment s).deleted l = test s.deleted l := by
  unfold paddedSegment
  split
  · rfl
  · exact test_resize _ _ l

theorem covered_padded (t : Table) : SegmentsCovered t.padded := by
  intro s hs
  obtain ⟨s, -, rfl⟩ := mem_map.mp hs
  unfold paddedSegment
  split
  · next hnil => exact Or.inl hnil
  · right
    show s.info.rowCount ≤ 8 * (resize s.deleted (bytesFor s.info.rowCount)).length
    rw [length_resize, bytesFor]
    omega

theorem SegmentHolds.padded {rows : List Row} (h : SegmentHolds schema s rows) :
    SegmentHolds schema (paddedSegment s) rows := by
  unfold paddedSegment
  split
  · exact h
  · exact ⟨h.count, h.columns, rfl⟩

theorem Holds.padded (h : Holds t segs wb dur) : Holds t.padded segs wb dur :=
  { h with segments := forall₂_map_left_iff.mpr (h.segments.imp fun _ _ hs => hs.padded) }

theorem kept_padded (ss : List Segment) (segs : List (List Row)) :
    kept (ss.map paddedSegment) segs = kept ss segs := by
  simp [kept, zipWith_map_left, liveOf, test_paddedSegment]

theorem deadRows_padded (ss : List Segment) : deadRows (ss.map paddedSegment) = deadRows ss := by
  simp [deadRows, map_map, Function.comp_def, info_paddedSegment, test_paddedSegment]

/-- **The result of a vacuum.**  A missing byte of a bitmap is read as not deleted, and the
directory of the new segment is not in the way.  Without deleted rows nothing happens.  Otherwise
the segments are replaced by one that has, in every column, the live values of the old segments in
their order, and the number of the deleted rows is returned. -/
theorem vacuumTable_result (h : Holds t segs wb dur) (hfree : t.nextIdTaken = false) :
    if deadRows t.segments = 0 then exec vacuumTable t.padded = (.ok 0, t.padded)
    else ∃ seg t', exec vacuumTable t.padded = (.ok (deadRows t.segments), t') ∧
      t' = t.padded.replacedBy t.segments.length seg ∧ t'.segments = [seg] ∧
      seg.deleted = [] ∧ SegmentHolds t.schema seg (kept t.segments segs).flatten := by
  have hlen : t.padded.segments.length = t.segments.length := length_map _
  rcases h.padded.vacuumTable t.covered_padded with ⟨hnone, hrun⟩ |
    ⟨hsome, sd, base, count, seg, hrun, hr, hdel⟩
  · rw [padded, deadRows_padded] at hnone
    rw [if_pos hnone, exec, hrun]
    rfl
  · rw [hlen, padded, deadRows_padded, ← padded] at hrun
    rw [padded, deadRows_padded] at hsome
    rw [if_neg hsome]
    obtain ⟨-, -, hbits⟩ := openDir_eq_ok hr.opens
    have hfree' : t.padded.nextIdTaken = false := hfree
    have hswap : exec (swapSegments t.segments.length sd base count) t.padded =
        (.ok (), t.padded.replacedBy t.segments.length seg) := by
      rw [exec_swapSegments, hfree', if_neg Bool.false_ne_true, hr.opens]
    refine ⟨seg, _, ?_, rfl, ?_, by rw [hbits, hdel]; rfl, ?_⟩
    · rw [exec, hrun]
      show exec (Proc.succeeds _ >>= _) t.padded = _
      rw [exec_bind, Proc.exec_succeeds, hswap]
      rfl
    · show seg :: t.padded.segments.drop t.segments.length = [seg]
      rw [← hlen, drop_length]
    · have hheld := hr.holds
      rwa [padded, kept_padded] at hheld

theorem holds_oneColumn (h : create oneColumn 65536 = .ok t) : Holds t [] [] 0 :=
  create_stored (by decide) h

/-- A row is deleted in each of two segments of two rows. -/
theorem vacuumTable_result_twoSegments : ∃ t₀ t seg t', create oneColumn 65536 = .ok t₀ ∧
    runActions [.insert [[.int32 1], [.int32 2]], .sealBuffer, .insert [[.null], [.int32 4]],
      .sealBuffer, .delete [1, 3]] t₀ = some t ∧
    exec vacuumTable t.padded = (.ok 2, t') ∧ t'.segments = [seg] ∧
    SegmentHolds t.schema seg [[.int32 1], [.null]] := by
  have h₁ := ((holds_oneColumn rfl).afterInsert [[.int32 1], [.int32 2]] (by decide)
    (by decide)).afterSeal (by decide)
  have h₂ := (h₁.afterInsert [[.null], [.int32 4]] (by decide) (by decide)).afterSeal (by decide)
  obtain ⟨seg, t', hrun, -, hone, -, hheld⟩ := vacuumTable_result (h₂.afterDelete [1, 3]) rfl
  exact ⟨_, _, seg, t', rfl, rfl, hrun, hone, hheld⟩

end NyxDb.Table
