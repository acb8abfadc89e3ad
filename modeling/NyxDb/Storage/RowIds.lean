import NyxDb.Storage.Deletions
import NyxDb.Storage.Maintenance
import NyxDb.Storage.TableScan

/-!
# Row ids

The id of a row is computed when a table is scanned and taken apart again when the row is
deleted.  Both agree as long as the ranges of ids of the segments are sorted, disjoint and below
the ids of the write buffer (`RangesBelow`).  Every operation keeps this, except that opening a
table restarts the write buffer after the number of rows of the segments: that is right only if
the ranges leave no gap.
-/

namespace NyxDb.Table

open List Segment TableScan

/-- The ranges of ids are sorted, disjoint and below `bound`. -/
def RangesBelow (infos : List SegmentMeta) (bound : Nat) : Prop :=
  infos.Pairwise (fun a b => a.baseRowId + a.rowCount ≤ b.baseRowId) ∧
    ∀ m ∈ infos, m.baseRowId + m.rowCount ≤ bound

instance (infos : List SegmentMeta) (bound : Nat) : Decidable (RangesBelow infos bound) :=
  inferInstanceAs (Decidable (_ ∧ _))

/-- The ranges follow each other without a gap, the first from `start` on. -/
def Contiguous (start : Nat) : List SegmentMeta → Prop
  | [] => True
  | m :: ms => m.baseRowId = start ∧ Contiguous (start + m.rowCount) ms

instance decidableContiguous :
    (start : Nat) → (infos : List SegmentMeta) → Decidable (Contiguous start infos)
  | _, [] => isTrue trivial
  | start, m :: ms =>
    have := decidableContiguous (start + m.rowCount) ms
    inferInstanceAs (Decidable (m.baseRowId = start ∧ Contiguous (start + m.rowCount) ms))

def totalRows (infos : List SegmentMeta) : Nat :=
  (infos.map SegmentMeta.rowCount).sum

/-- The part of a table that row ids depend on. -/
def idView (t : Table) : List SegmentMeta × Nat × Option (List SegmentMeta) × Option TableDir :=
  (t.segments.map info, t.wbBaseRowId, t.manifestFile, t.moving)

/-- The invariant of the ids of a table. -/
structure IdsOk (t : Table) : Prop where
  ranges : RangesBelow (t.segments.map info) t.wbBaseRowId
  manifest : t.manifestFile.getD [] = t.segments.map info
  settled : t.moving = none

variable {t : Table} {bound i l k : Nat} {seg s : Segment} {schema : Schema} {p : Part}
  {d : TableDir}

theorem IdsOk.congr {t' : Table} (hview : idView t' = idView t) (h : IdsOk t) : IdsOk t' := by
  simp only [idView, Prod.mk.injEq] at hview
  obtain ⟨hsegs, hbase, hman, hmov⟩ := hview
  exact ⟨by rw [hsegs, hbase]; exact h.ranges, by rw [hman, hsegs]; exact h.manifest,
    by rw [hmov]; exact h.settled⟩

/-! ## Ranges -/

/-- Consecutive ranges hold no more ids than lie between their ends. -/
theorem add_totalRows_le {m : SegmentMeta} {ms : List SegmentMeta} (h : RangesBelow
    (m :: ms) bound) :
    m.baseRowId + totalRows (m :: ms) ≤ bound := by
  induction ms generalizing m with
  | nil => simpa [totalRows] using h.2 m (by simp)
  | cons m' ms ih =>
    obtain ⟨hp, hb⟩ := h
    obtain ⟨hm, hp'⟩ := pairwise_cons.mp hp
    have hrest := ih ⟨hp', fun x hx => hb x (mem_cons_of_mem _ hx)⟩
    have hnext := hm m' mem_cons_self
    simp only [totalRows, map_cons, sum_cons] at hrest ⊢
    omega

theorem RangesBelow.append_last {infos : List SegmentMeta} (h : RangesBelow infos bound)
    (id n : Nat) : RangesBelow (infos ++ [⟨id, bound, n⟩]) (bound + n) := by
  obtain ⟨hp, hb⟩ := h
  refine ⟨pairwise_append.mpr ⟨hp, by simp, by simpa using hb⟩, ?_⟩
  exact forall_mem_concat (fun m hm => Nat.le_trans (hb m hm) (Nat.le_add_right _ _))
    (Nat.le_refl _)

/-- A run of ranges may be replaced by one that starts where it starts and is no longer. -/
theorem RangesBelow.replace {first : SegmentMeta} {old rest : List SegmentMeta}
    (h : RangesBelow (first :: old ++ rest) bound) (id : Nat) {n : Nat}
    (hn : n ≤ totalRows (first :: old)) : RangesBelow (⟨id, first.baseRowId, n⟩ :: rest) bound := by
  obtain ⟨hp, hb⟩ := h
  obtain ⟨hold, hrest, hacross⟩ := pairwise_append.mp hp
  refine ⟨pairwise_cons.mpr ⟨fun m hm => ?_, hrest⟩, fun m hm => ?_⟩
  · have hle : RangesBelow (first :: old) m.baseRowId := ⟨hold, fun x hx => hacross x hx m hm⟩
    have := add_totalRows_le hle
    show first.baseRowId + n ≤ m.baseRowId
    omega
  · rcases mem_cons.mp hm with rfl | hm
    · have hle : RangesBelow (first :: old) bound :=
        ⟨hold, fun x hx => hb x (mem_append_left _ hx)⟩
      have := add_totalRows_le hle
      show first.baseRowId + n ≤ bound
      omega
    · exact hb m (mem_append_right _ hm)

theorem Contiguous.rangesBelow {infos : List SegmentMeta} {start : Nat}
    (h : Contiguous start infos) :
    RangesBelow infos (start + totalRows infos) ∧ ∀ m ∈ infos, start ≤ m.baseRowId := by
  induction infos generalizing start with
  | nil => exact ⟨⟨.nil, by simp⟩, by simp⟩
  | cons m ms ih =>
    obtain ⟨hm, hms⟩ := h
    obtain ⟨⟨hp, hb⟩, hlow⟩ := ih hms
    have htotal : start + totalRows (m :: ms) = start + m.rowCount + totalRows ms := by
      simp only [totalRows, map_cons, sum_cons]
      omega
    refine ⟨⟨pairwise_cons.mpr ⟨fun x hx => ?_, hp⟩, fun x hx => ?_⟩, fun x hx => ?_⟩
    · rw [hm]
      exact hlow x hx
    · rw [htotal]
      rcases mem_cons.mp hx with rfl | hx
      · omega
      · exact hb x hx
    · rcases mem_cons.mp hx with rfl | hx
      · omega
      · exact Nat.le_trans (Nat.le_add_right _ _) (hlow x hx)

/-! ## The operations keep the invariant -/

/-- An operation that leaves the part the ids depend on alone. -/
theorem maintains_of_preserves {α : Type} {c : Op Table α} (hc : Preserves idView c) :
    Maintains IdsOk c :=
  hc.maintains fun _ _ hview h => h.congr hview

theorem preserves_onColumns (ops : List (Op ColumnFile Unit)) : Preserves idView (onColumns ops) :=
  fun _ => rfl

theorem preserves_flush : Preserves idView flush :=
  preserves_get.bind fun _ => preserves_onColumns _

theorem preserves_truncate (n : Nat) : Preserves idView (truncate n) :=
  preserves_get.bind fun _ => preserves_onColumns _

theorem map_info_marked (segments : List Segment) (ids : Nat → List Nat) :
    (segments.mapIdx fun i s => s.marked (ids i)).map info = segments.map info := by
  refine ext_getElem (by simp) fun i _ _ => ?_
  simp [info_marked]

theorem preserves_markDeleted (gids : List Nat) : Preserves idView (markDeleted gids) := by
  intro t
  obtain ⟨_, _, hmarked, -⟩ := marked_eq t gids
  rw [exec_markDeleted, hmarked, idView, idView, map_info_marked]

theorem openDir_eq_ok {sd : SegmentDir} {info : SegmentMeta}
    (h : Segment.openDir sd schema info = .ok seg) :
    seg.info = info ∧ seg.deletedFile = sd.deleted ∧ seg.deleted = sd.deleted.getD [] := by
  obtain ⟨_, -, h⟩ := except_bind_eq_ok.mp h
  cases h
  exact ⟨rfl, rfl, rfl⟩

theorem IdsOk.sealed (h : IdsOk t) {columns : List ColumnFile}
    (hseg : seg.info = ⟨t.nextSegmentId, t.wbBaseRowId, t.wbRowCount⟩) :
    IdsOk (t.sealed seg columns) where
  ranges := by
    show RangesBelow ((t.segments ++ [seg]).map info) (t.wbBaseRowId + t.wbRowCount)
    rw [map_append, map_singleton, hseg]
    exact h.ranges.append_last _ _
  manifest := rfl
  settled := rfl

/-- What a seal can do: nothing, write the columns, or make a segment of them. -/
theorem flushWriteBuffer_cases (t : Table) : (exec flushWriteBuffer t).2 = t ∨
    (exec flushWriteBuffer t).2 = (exec flush t).2 ∨ ∃ t₁ seg columns, (exec flush t).2 = t₁ ∧
      Segment.openDir t₁.sealedDir t₁.schema ⟨t₁.nextSegmentId, t₁.wbBaseRowId, t₁.wbRowCount⟩ =
        .ok seg ∧
      createColumns t₁.schema = .ok columns ∧
      (exec flushWriteBuffer t).2 = t₁.sealed seg columns := by
  unfold flushWriteBuffer
  rw [exec_get_bind]
  split
  · exact .inl rfl
  · right
    rw [exec_bind]
    rcases exec flush t with ⟨e | ⟨⟩, t₁⟩
    · exact .inl rfl
    · dsimp only
      rw [exec_get_bind, exec_bind_ok (exec_crashPoints _ t₁), exec_bind,
        exec_mapError, exec_ofExcept]
      cases hseg : Segment.openDir t₁.sealedDir t₁.schema
          ⟨t₁.nextSegmentId, t₁.wbBaseRowId, t₁.wbRowCount⟩ with
      | error e => exact .inl rfl
      | ok seg =>
        cases hcols : createColumns t₁.schema with
        | error e => exact .inl rfl
        | ok columns => exact .inr ⟨t₁, seg, columns, rfl, hseg, hcols, rfl⟩

theorem maintains_flushWriteBuffer : Maintains IdsOk flushWriteBuffer := by
  intro t h
  have hflush : IdsOk (exec flush t).2 := maintains_of_preserves preserves_flush t h
  obtain hrun | hrun | ⟨t₁, seg, columns, rfl, hseg, -, hrun⟩ := flushWriteBuffer_cases t
  · rw [hrun]
    exact h
  · rw [hrun]
    exact hflush
  · rw [hrun]
    exact hflush.sealed (openDir_eq_ok hseg).1

theorem maintains_maybeFlush : Maintains IdsOk maybeFlush := by
  refine maintains_get_bind fun t h => ?_
  split
  · exact maintains_flushWriteBuffer t h
  · exact h

theorem maintains_insertMany (rows : List Row) : Maintains IdsOk (insertMany rows) := by
  refine maintains_get_bind fun t h => ?_
  split
  · exact h
  · split
    · exact h
    · refine (maintains_of_preserves (preserves_onColumns _)).bind (fun _ => ?_) t h
      refine maintains_maybeFlush.bind fun _ => ?_
      exact maintains_of_preserves (preserves_pure _)

theorem maintains_updateRows (old : List Nat) (rows : List Row) :
    Maintains IdsOk (updateRows old rows) := by
  refine (maintains_of_preserves (preserves_markDeleted old)).bind fun _ => ?_
  refine (maintains_of_preserves preserves_get).bind fun _ => ?_
  refine (maintains_insertMany rows).bind fun _ => ?_
  refine (maintains_of_preserves preserves_get).bind fun _ => ?_
  exact maintains_of_preserves (preserves_pure _)

/-- Replacing the first segments, given a base and a count for which the ranges stay in order. -/
theorem IdsOk.replaced (h : IdsOk t) {n : Nat} (sd : SegmentDir) {base count : Nat}
    (hranges : RangesBelow
      (⟨t.nextSegmentId, base, count⟩ :: (t.segments.drop n).map info) t.wbBaseRowId) :
    IdsOk (exec (swapSegments n sd base count) t).2 := by
  rw [exec_swapSegments]
  split
  · exact { h with }
  · cases hseg : Segment.openDir sd t.schema ⟨t.nextSegmentId, base, count⟩ with
    | error e => exact { h with }
    | ok seg =>
      refine ⟨?_, rfl, h.settled⟩
      show RangesBelow ((seg :: t.segments.drop n).map info) t.wbBaseRowId
      rw [map_cons, (openDir_eq_ok hseg).1]
      exact hranges

/-- What a vacuum can do: nothing, or replace all segments by one without bits. -/
theorem vacuumTable_cases (t : Table) : (exec vacuumTable t).2 = t ∨
    ∃ first rest sd count, t.segments = first :: rest ∧ sd.deleted = none ∧
      count ≤ totalRows (t.segments.map info) ∧ (exec vacuumTable t).2 =
        (exec (swapSegments t.segments.length sd first.info.baseRowId count) t).2 := by
  unfold vacuumTable
  rw [exec_get_bind]
  cases t.segments with
  | nil => exact .inl rfl
  | cons first rest =>
    cases mapM (fun s => deadCount s.deleted s.info.rowCount) (first :: rest) with
    | error e => exact .inl rfl
    | ok dead =>
      show (exec (ite _ _ _) t).2 = t ∨ ∃ f r sd count, _ ∧ _ ∧ _ ∧ (exec (ite _ _ _) t).2 = _
      split
      · exact .inl rfl
      · split
        · exact .inl rfl
        · right
          refine ⟨first, rest, _, _, rfl, rfl, ?_, by rw [exec_bind_pure_snd, Proc.exec_succeeds]⟩
          rw [totalRows, map_map]
          exact Nat.sub_le _ _

theorem maintains_vacuumTable : Maintains IdsOk vacuumTable := by
  intro t h
  have hranges := h.ranges
  obtain hrun | ⟨first, rest, sd, count, hsegs, -, hcount, hrun⟩ := vacuumTable_cases t
  · rw [hrun]
    exact h
  · rw [hrun]
    refine h.replaced _ ?_
    rw [hsegs] at hranges hcount ⊢
    rw [drop_length]
    have hall : RangesBelow (first.info :: rest.map info ++ []) t.wbBaseRowId := by
      simpa using hranges
    exact hall.replace _ hcount

/-- What a merge can do: nothing, or replace the first segments by one with their bits. -/
theorem mergeSegments_cases (k : Nat) (t : Table) : (exec (mergeSegments k) t).2 = t ∨
    ∃ first rest sd, t.segments.take (k / 2) = first :: rest ∧
      sd.deleted.getD [] = mergeDeletedBitmaps (first :: rest) ∧ (exec (mergeSegments k) t).2 =
        (exec (swapSegments (k / 2) sd first.info.baseRowId
          (totalRows ((first :: rest).map info))) t).2 := by
  unfold mergeSegments
  rw [exec_get_bind]
  split
  · exact .inl rfl
  · cases hsnaps : t.segments.take (k / 2) with
    | nil => exact .inl rfl
    | cons first rest =>
      dsimp only
      split
      · exact .inl rfl
      · next columns _ =>
        refine .inr ⟨first, rest, ⟨columns.map fun c => some c.file,
          deletedFileOf (mergeDeletedBitmaps (first :: rest))⟩, rfl, deletedFileOf_getD _, ?_⟩
        rw [totalRows, map_map]
        rfl

theorem maintains_mergeSegments (threshold : Nat) : Maintains IdsOk (mergeSegments threshold) := by
  intro t h
  have hranges := h.ranges
  obtain hrun | ⟨first, rest, sd, hsnaps, -, hrun⟩ := mergeSegments_cases threshold t
  · rw [hrun]
    exact h
  · rw [hrun]
    refine h.replaced _ ?_
    rw [← take_append_drop (threshold / 2) t.segments, hsnaps, map_append] at hranges
    exact RangesBelow.replace hranges _ (Nat.le_refl _)

/-- A visit of the merge worker keeps what its steps keep. -/
theorem maybeMergeTable_keeps {P : Table → Prop} {threshold : Nat} (h : P t)
    (hseal : P (exec flushWriteBuffer t).2) (hvacuum : Maintains P vacuumTable)
    (hmerge : Maintains P (mergeSegments threshold)) :
    P (exec (maybeMergeTable threshold) t).2 := by
  rw [maybeMergeTable, exec_get_bind]
  cases t.deadRowStats with
  | error e => exact h
  | ok stats =>
    show P (exec (ite _ _ _) t).2
    split
    · exact (hvacuum.bind fun _ => hmerge) _ hseal
    · exact hmerge t h

theorem openSegment_eq_ok {info : SegmentMeta} (h : openSegment d schema info = .ok seg) :
    ∃ sd, d.segments.lookup info.id = some sd ∧ Segment.openDir sd schema info = .ok seg := by
  unfold openSegment at h
  split at h
  · cases h
  · next sd hsd =>
    split at h
    · next hseg =>
      cases h
      exact ⟨sd, hsd, hseg⟩
    · cases h

/-- What opening a table reads.  The write buffer restarts after the rows of the segments. -/
structure Opens (d : TableDir) (t : Table) : Prop where
  schema : d.schema.map readSchema = some (.ok t.schema)
  segments : (d.manifest.getD []).mapM (openSegment d t.schema) = .ok t.segments
  columns : (t.schema.zip (d.cols ++ replicate t.schema.length none)).mapM
    (fun (c, file) => openColumn c file) = .ok t.wbColumns
  base : t.wbBaseRowId = totalRows (d.manifest.getD [])
  next : t.nextSegmentId = ((d.manifest.getD []).map fun m => m.id + 1).foldl max 0
  manifest : t.manifestFile = d.manifest
  deleted : t.wbDeleted = d.deleted.getD []
  file : t.deletedFile = d.deleted
  settled : t.moving = none

/-- What a successful creation has checked and made. -/
theorem create_eq_ok {n : Nat} (h : create schema n = .ok t) :
    validateSchema schema = .ok () ∧ ∃ columns, createColumns schema = .ok columns ∧
      t = ⟨schema, columns, [], 0, [], 0, n, schemaBytes schema, none, none, [], none⟩ := by
  unfold create at h
  split at h
  · cases h
  · next hvalid =>
    split at h
    · cases h
    · next columns hcols =>
      cases h
      exact ⟨hvalid, columns, hcols, rfl⟩

theorem openDir_opens (h : openDir d = .ok t) : Opens d t := by
  unfold openDir at h
  split at h
  · cases h
  · next bytes hbytes =>
    split at h
    · cases h
    · next hread =>
      rw [except_bind_eq_ok] at h
      obtain ⟨_, hsegs, h⟩ := h
      rw [except_bind_eq_ok] at h
      obtain ⟨_, hcols, h⟩ := h
      cases h
      exact ⟨by rw [hbytes, Option.map_some, hread], hsegs, hcols, rfl, rfl, rfl, rfl, rfl, rfl⟩

theorem Opens.infos (h : Opens d t) : t.segments.map info = d.manifest.getD [] := by
  refine (forall₂_map_eq (forall₂_of_mapM h.segments) fun m s hseg => ?_).trans (map_id _)
  obtain ⟨_, -, hopen⟩ := openSegment_eq_ok hseg
  exact (openDir_eq_ok hopen).1

theorem dir_of_settled (h : t.moving = none) : t.dir = ⟨some t.schemaFile,
      t.wbColumns.map fun c => some c.file, t.deletedFile, t.manifestFile,
      t.segments.map (fun s => (s.info.id, s.dir)) ++ t.unusedSegments⟩ := by
  rw [dir, h]

theorem IdsOk.dir_manifest (h : IdsOk t) :
    t.dir.manifest.getD [] = t.segments.map info := by
  rw [dir_of_settled h.settled]
  exact h.manifest

theorem IdsOk.reopened {t' : Table} (h : IdsOk t)
    (hgapless : Contiguous 0 (t.segments.map info)) (hopen : openDir t.dir = .ok t') :
    IdsOk t' := by
  have hd := openDir_opens hopen
  have hinfos := hd.infos
  have hbase := hd.base
  rw [h.dir_manifest] at hinfos hbase
  refine ⟨?_, ?_, hd.settled⟩
  · rw [hinfos, hbase]
    have hranges := hgapless.rangesBelow.1
    rwa [Nat.zero_add] at hranges
  · rw [hd.manifest, h.dir_manifest, hinfos]

/-! ## Resolving a row id -/

/-- The segments of the table have sorted and disjoint ranges of ids below the write buffer. -/
def Ranged (t : Table) : Prop :=
  RangesBelow (t.segments.map info) t.wbBaseRowId

instance (t : Table) : Decidable (Ranged t) :=
  inferInstanceAs (Decidable (RangesBelow _ _))

theorem IdsOk.ranged (h : IdsOk t) : Ranged t :=
  h.ranges

theorem Ranged.le_base (h : Ranged t) {j : Nat} {s' : Segment} (hs : t.segments[i]? = some s)
    (hs' : t.segments[j]? = some s') (hij : i < j) :
    s.info.baseRowId + s.info.rowCount ≤ s'.info.baseRowId := by
  obtain ⟨hi, rfl⟩ := List.getElem?_eq_some_iff.mp hs
  obtain ⟨hj, rfl⟩ := List.getElem?_eq_some_iff.mp hs'
  exact pairwise_iff_getElem.mp (pairwise_map.mp h.1) i j hi hj hij

theorem Ranged.below (h : Ranged t) (hs : t.segments[i]? = some s) :
    s.info.baseRowId + s.info.rowCount ≤ t.wbBaseRowId :=
  h.2 _ (mem_map_of_mem (mem_of_getElem? hs))

/-- The binary search finds the segment of a row. -/
theorem Ranged.segmentOf (h : Ranged t) (hs : t.segments[i]? = some s) (hl : l < s.info.rowCount) :
    segmentOf t.segments (s.info.baseRowId + l) = i := by
  have hi := lt_of_getElem? hs
  have hget : ∀ k < t.segments.length, ∃ sk, t.segments[k]? = some sk := fun k hk =>
    ⟨_, getElem?_eq_getElem hk⟩
  let p := fun mid : Nat => decide
    (((t.segments[mid]?).map fun x : Segment => x.info.baseRowId).getD 0 ≤ s.info.baseRowId + l)
  have hpi : p i = true := by
    simp only [p, hs, Option.map_some, Option.getD_some, decide_eq_true_eq]
    omega
  have hmono : ∀ a b, a ≤ b → b < t.segments.length → p b = true → p a = true := by
    intro a b hab hb hpb
    obtain ⟨_, ha⟩ := hget a (by omega)
    obtain ⟨_, hb⟩ := hget b hb
    simp only [p, ha, hb, Option.map_some, Option.getD_some, decide_eq_true_eq] at hpb ⊢
    rcases Nat.lt_or_ge a b with hlt | hge
    · have := h.le_base ha hb hlt
      omega
    · obtain rfl : a = b := by omega
      rw [ha] at hb
      cases hb
      exact hpb
  obtain ⟨hr, hpr, hlast⟩ := bsearchLast_spec hmono t.segments.length 0 t.segments.length
    (by omega) (by omega) (Nat.le_refl _) (hmono 0 i (by omega) hi hpi) (by omega)
  have hge : i ≤ bsearchLast p t.segments.length 0 t.segments.length := by
    by_contra hlt
    have := hlast i (by omega) hi
    rw [hpi] at this
    cases this
  -- a later segment starts after the row
  rcases Nat.lt_or_ge i (bsearchLast p t.segments.length 0 t.segments.length) with hlt | hle
  · obtain ⟨_, hsr⟩ := hget _ hr
    have hnext := h.le_base hs hsr hlt
    simp only [p, hsr, Option.map_some, Option.getD_some, decide_eq_true_eq] at hpr
    omega
  · exact Nat.le_antisymm hle hge

/-- The linear search finds the segment of a row, too. -/
theorem Ranged.isRowDeleted_segment (h : Ranged t) (hs : t.segments[i]? = some s)
    (hl : l < s.info.rowCount) : t.isRowDeleted (s.info.baseRowId + l) = s.isDeleted l := by
  have hbelow := h.below hs
  unfold isRowDeleted
  rw [if_neg (by omega)]
  cases hfind : t.segments.find? fun s' => decide (s'.info.baseRowId ≤ s.info.baseRowId + l) &&
      decide (s.info.baseRowId + l < s'.info.baseRowId + s'.info.rowCount) with
  | none =>
    have := find?_eq_none.mp hfind s (mem_of_getElem? hs)
    simp only [Bool.and_eq_true, decide_eq_true_eq, not_and] at this
    omega
  | some s' =>
    have hin := find?_some hfind
    simp only [Bool.and_eq_true, decide_eq_true_eq] at hin
    obtain ⟨j, hj⟩ := mem_iff_getElem?.mp (mem_of_find?_eq_some hfind)
    have hij : i = j := by
      rcases Nat.lt_trichotomy i j with hlt | heq | hgt
      · have := h.le_base hs hj hlt
        omega
      · exact heq
      · have := h.le_base hj hs hgt
        omega
    subst hij
    rw [hs] at hj
    cases hj
    simp

/-- The deletion bit of the physical row `l` of part `k` of the table: the segments in order, then
the write buffer. -/
def rowBit (t : Table) (k l : Nat) : Bool :=
  match (parts t)[k]? with
  | some p => Bitmap.test p.deleted l
  | none => false

theorem rowBit_segment (hs : t.segments[k]? = some s) (l : Nat) :
    rowBit t k l = Bitmap.test s.deleted l := by
  have hk := lt_of_getElem? hs
  unfold rowBit parts
  rw [getElem?_append_left (by simpa using hk), getElem?_map, hs]
  rfl

theorem rowBit_buffer (t : Table) (l : Nat) :
    rowBit t t.segments.length l = Bitmap.test t.wbDeleted l := by
  unfold rowBit parts
  simp [bufferPart]

theorem isRowDeleted_buffer (t : Table) (l : Nat) :
    t.isRowDeleted (t.wbBaseRowId + l) = rowBit t t.segments.length l := by
  rw [rowBit_buffer]
  unfold isRowDeleted
  rw [if_pos (Nat.le_add_right _ _), Nat.add_sub_cancel_left]

theorem rowBit_none (hk : t.segments.length < k) (l : Nat) : rowBit t k l = false := by
  unfold rowBit
  rw [getElem?_eq_none (by simp [parts]; omega)]

/-- The bits that marking some rows sets while the write buffer has `count` rows: those of the
parts the rows are taken to lie in. -/
def hitsAt (t : Table) (count : Nat) (gids : List Nat) (k l : Nat) : Bool :=
  if k < t.segments.length then
    match t.segments[k]? with
    | some s => decide (l < s.info.rowCount) && decide (l ∈ t.idsOfSegment gids k)
    | none => false
  else decide (k = t.segments.length) && (decide (l < count) && decide (l ∈ t.bufferIds gids))

theorem length_segments_marked (t : Table) (gids : List Nat) :
    (t.marked gids).segments.length = t.segments.length := by
  simp [marked]

theorem rowBit_marked (t : Table) (gids : List Nat) (k l : Nat) :
    rowBit (t.marked gids) k l = (rowBit t k l || hitsAt t t.wbRowCount gids k l) := by
  unfold hitsAt
  have hlen := length_segments_marked t gids
  rcases Nat.lt_trichotomy k t.segments.length with hlt | heq | hgt
  · have hs : t.segments[k]? = some t.segments[k] := getElem?_eq_getElem hlt
    have hs' : (t.marked gids).segments[k]? =
        some (t.segments[k].marked (t.idsOfSegment gids k)) := by
      simp [marked, hlt]
    rw [rowBit_segment hs', rowBit_segment hs, test_marked, if_pos hlt, hs]
  · subst heq
    have hwb : (t.marked gids).wbDeleted = (t.markedBuffer (t.bufferIds gids)).wbDeleted := rfl
    conv_lhs => rw [← hlen]
    rw [rowBit_buffer, rowBit_buffer, hwb, if_neg (Nat.lt_irrefl _), markedBuffer]
    cases hids : t.bufferIds gids with
    | nil => simp
    | cons i is =>
      simp only [isEmpty_cons, Bool.false_eq_true, if_false, decide_true, Bool.true_and]
      exact test_markBits _ _ _ _
  · rw [rowBit_none hgt, rowBit_none (hlen.symm ▸ hgt), if_neg (by omega)]
    simp only [Bool.false_or]
    rw [decide_eq_false (by omega), Bool.false_and]

/-- The row id `gid` names row `l` of part `k` for both functions that take ids apart. -/
structure Resolves (t : Table) (gid k l : Nat) : Prop where
  isRowDeleted : t.isRowDeleted gid = rowBit t k l
  markDeleted : ∃ t', exec (markDeleted [gid]) t = (.ok (), t') ∧
    ∀ k' l', rowBit t' k' l' = (rowBit t k' l' || decide (k' = k ∧ l' = l))

theorem Ranged.resolves_segment (h : Ranged t) (hs : t.segments[k]? = some s)
    (hl : l < s.info.rowCount) : Resolves t (s.info.baseRowId + l) k l := by
  have := lt_of_getElem? hs
  have hbelow := h.below hs
  refine ⟨?_, _, exec_markDeleted _ t, fun k' l' => ?_⟩
  · rw [h.isRowDeleted_segment hs hl, rowBit_segment hs]
    rfl
  · have hbuf : t.bufferIds [s.info.baseRowId + l] = [] := by
      simp [bufferIds]
      omega
    have hids : ∀ j, t.idsOfSegment [s.info.baseRowId + l] j = if j = k then [l] else [] := by
      intro j
      unfold idsOfSegment segmentIds
      rw [filter_cons_of_pos (by simp; omega)]
      by_cases hj : j = k
      · subst hj
        rw [filter_cons_of_pos (by simpa using h.segmentOf hs hl)]
        simp [hs, subU64]
      · rw [filter_cons_of_neg (by simpa [h.segmentOf hs hl] using Ne.symm hj), if_neg hj]
        rfl
    rw [rowBit_marked, hitsAt, hbuf, hids]
    by_cases hlt : k' < t.segments.length
    · rw [if_pos hlt, getElem?_eq_getElem hlt]
      by_cases hk' : k' = k
      · subst hk'
        obtain ⟨_, rfl⟩ := List.getElem?_eq_some_iff.mp hs
        by_cases hl' : l' = l
        · subst hl'
          simp [hl]
        · simp [hl']
      · simp [hk']
    · rw [if_neg hlt, decide_eq_false (p := k' = k ∧ l' = l) (by omega)]
      simp

theorem resolves_buffer (hl : l < t.wbRowCount) :
    Resolves t (t.wbBaseRowId + l) t.segments.length l := by
  refine ⟨isRowDeleted_buffer t l, _, exec_markDeleted _ t, fun k' l' => ?_⟩
  · have hbuf : t.bufferIds [t.wbBaseRowId + l] = [l] := by
      simp [bufferIds]
    have hids : ∀ j, t.idsOfSegment [t.wbBaseRowId + l] j = [] := by
      simp [idsOfSegment, segmentIds]
    rw [rowBit_marked, hitsAt, hbuf, hids]
    by_cases hlt : k' < t.segments.length
    · rw [if_pos hlt, getElem?_eq_getElem hlt, decide_eq_false (p := _ ∧ _) (by omega)]
      simp
    · rw [if_neg hlt]
      by_cases hl' : l' = l
      · subst hl'
        simp [hl]
      · simp [hl']

/-- The row id that a scan gives to row `l` of part `k` names that row. -/
theorem Ranged.resolves (h : Ranged t) (hp : (parts t)[k]? = some p)
    (hl : l < p.localRowCount) : Resolves t (p.baseRowId + l) k l := by
  rcases part_cases hp with ⟨s, hs, rfl⟩ | ⟨rfl, rfl⟩
  · exact h.resolves_segment hs hl
  · exact resolves_buffer hl

/-! ## The rows with given ids -/

variable {gids : List Nat}

/-- Ids are taken apart into the segment and the position in it. -/
theorem Ranged.mem_idsOfSegment_of (h : Ranged t) (hs : t.segments[k]? = some s)
    (hl : l < s.info.rowCount)
    (hback : ∀ gid < t.wbBaseRowId, Table.segmentOf t.segments gid = k →
      subU64 gid s.info.baseRowId = l → gid = s.info.baseRowId + l) :
    l ∈ t.idsOfSegment gids k ↔ s.info.baseRowId + l ∈ gids := by
  unfold idsOfSegment segmentIds
  rw [hs, mem_map]
  change (∃ gid, gid ∈ _ ∧ subU64 gid s.info.baseRowId = l) ↔ _
  constructor
  · rintro ⟨gid, hgid, heq⟩
    rw [mem_filter, mem_filter] at hgid
    obtain ⟨⟨hmem, hlow⟩, hseg⟩ := hgid
    rwa [← hback gid (by simpa using hlow) (by simpa using hseg) heq]
  · intro hmem
    have hbelow := h.below hs
    refine ⟨s.info.baseRowId + l, ?_, ?_⟩
    · rw [mem_filter, mem_filter]
      refine ⟨⟨hmem, ?_⟩, ?_⟩
      · simp
        omega
      · simpa using h.segmentOf hs hl
    · unfold subU64
      rw [if_pos (Nat.le_add_right _ _), Nat.add_sub_cancel_left]

theorem mem_bufferIds : l ∈ t.bufferIds gids ↔ t.wbBaseRowId + l ∈ gids := by
  unfold bufferIds
  rw [mem_map]
  constructor
  · rintro ⟨_, hgid, rfl⟩
    rw [mem_filter, decide_eq_true_eq] at hgid
    rw [Nat.add_sub_cancel' hgid.2]
    exact hgid.1
  · intro hmem
    refine ⟨_, mem_filter.mpr ⟨hmem, ?_⟩, Nat.add_sub_cancel_left _ _⟩
    simp

/-- Marking sets the bits of the rows with these ids. -/
theorem hitsAt_eq_of (hp : (parts t)[k]? = some p) (hl : l < p.localRowCount)
    (hids : ∀ s, t.segments[k]? = some s → l < s.info.rowCount →
      (l ∈ t.idsOfSegment gids k ↔ s.info.baseRowId + l ∈ gids)) :
    hitsAt t t.wbRowCount gids k l = decide (p.baseRowId + l ∈ gids) := by
  unfold hitsAt
  rcases part_cases hp with ⟨s, hs, rfl⟩ | ⟨rfl, rfl⟩
  · rw [if_pos (lt_of_getElem? hs), hs]
    change (decide (l < s.info.rowCount) && decide (l ∈ t.idsOfSegment gids k)) = _
    rw [decide_eq_true (show l < s.info.rowCount from hl)]
    exact decide_eq_decide.mpr (hids s hs hl)
  · rw [if_neg (Nat.lt_irrefl _), decide_eq_true rfl,
      decide_eq_true (show l < t.wbRowCount from hl), Bool.true_and, Bool.true_and]
    exact decide_eq_decide.mpr mem_bufferIds

theorem Ranged.hitsAt_eq (h : Ranged t) (hsize : t.wbBaseRowId ≤ 2 ^ 64) (gids : List Nat)
    (hp : (parts t)[k]? = some p) (hl : l < p.localRowCount) :
    hitsAt t t.wbRowCount gids k l = decide (p.baseRowId + l ∈ gids) := by
  refine hitsAt_eq_of hp hl fun s hs hl => h.mem_idsOfSegment_of hs hl ?_
  intro gid _ _ heq
  -- an id below the segment wraps around to a number past its rows
  have hbelow := h.below hs
  unfold subU64 at heq
  split at heq <;> omega

/-! ## Marking any list of ids -/

/-- The id names a row of a segment or of the write buffer. -/
def HasRow (t : Table) (gid : Nat) : Prop :=
  ∃ p ∈ parts t, p.baseRowId ≤ gid ∧ gid < p.baseRowId + p.localRowCount

instance (t : Table) (gid : Nat) : Decidable (HasRow t gid) :=
  inferInstanceAs (Decidable (∃ p ∈ parts t, _))

theorem infos_marked (t : Table) (gids : List Nat) :
    (t.marked gids).segments.map info = t.segments.map info := by
  obtain ⟨_, _, hmarked, -⟩ := marked_eq t gids
  rw [hmarked, map_info_marked]

theorem wbBaseRowId_marked (t : Table) (gids : List Nat) :
    (t.marked gids).wbBaseRowId = t.wbBaseRowId := by
  obtain ⟨_, _, hmarked, -⟩ := marked_eq t gids
  rw [hmarked]

theorem Ranged.marked (h : Ranged t) (gids : List Nat) : Ranged (t.marked gids) := by
  rwa [Ranged, infos_marked, wbBaseRowId_marked]

/-- Both tables look for the bit of a row in the same place. -/
theorem Ranged.isRowDeleted_marked (h : Ranged t) (gids : List Nat)
    (hp : (parts t)[k]? = some p) (hl : l < p.localRowCount) :
    (t.marked gids).isRowDeleted (p.baseRowId + l) = rowBit (t.marked gids) k l := by
  rcases part_cases hp with ⟨s, hs, rfl⟩ | ⟨rfl, rfl⟩
  · have hs' : (t.marked gids).segments[k]? = some (s.marked (t.idsOfSegment gids k)) := by
      simp [Table.marked, hs]
    have hbit := (h.marked gids).isRowDeleted_segment hs' (l := l) (by
      rw [info_marked]
      exact hl)
    rw [info_marked] at hbit
    exact hbit.trans (rowBit_segment hs' l).symm
  · have hbit := isRowDeleted_buffer (t.marked gids) l
    rw [wbBaseRowId_marked, length_segments_marked] at hbit
    exact hbit

/-- An id in a gap between the segments, or below them, is not found. -/
theorem isRowDeleted_gap {gid : Nat} (hlow : gid < t.wbBaseRowId)
    (hnone : ∀ m ∈ t.segments.map info,
      ¬(m.baseRowId ≤ gid ∧ gid < m.baseRowId + m.rowCount)) : t.isRowDeleted gid = false := by
  have hfind : t.segments.find? (fun s => decide (s.info.baseRowId ≤ gid) &&
      decide (gid < s.info.baseRowId + s.info.rowCount)) = none := by
    rw [find?_eq_none]
    intro s hs
    simpa using hnone s.info (mem_map_of_mem hs)
  unfold isRowDeleted
  rw [if_neg (by omega), hfind]

theorem isRowDeleted_marked_of_not_hasRow {gid : Nat} (hgid : ¬HasRow t gid) :
    (t.marked gids).isRowDeleted gid = t.isRowDeleted gid := by
  rcases Nat.lt_or_ge gid t.wbBaseRowId with hlow | hhigh
  · have hnone : ∀ m ∈ t.segments.map info,
        ¬(m.baseRowId ≤ gid ∧ gid < m.baseRowId + m.rowCount) := by
      intro m hm hin
      obtain ⟨s, hs, rfl⟩ := mem_map.mp hm
      exact hgid ⟨_, mem_append_left _ (mem_map_of_mem hs), hin⟩
    rw [isRowDeleted_gap hlow hnone, isRowDeleted_gap]
    · rw [wbBaseRowId_marked]
      exact hlow
    · rw [infos_marked]
      exact hnone
  · -- past the rows of the write buffer no bit is set
    obtain ⟨l, rfl⟩ := Nat.exists_eq_add_of_le hhigh
    have hl : ¬ l < t.wbRowCount := fun hl =>
      hgid ⟨bufferPart t, by simp [parts], Nat.le_add_right _ _,
        Nat.add_lt_add_left hl _⟩
    have hbit := isRowDeleted_buffer (t.marked gids) l
    rw [wbBaseRowId_marked, length_segments_marked, rowBit_marked] at hbit
    rw [hbit, isRowDeleted_buffer, hitsAt]
    simp [hl]

/-- **Marking** sets the bits of the rows whose ids are in the list and no other, whatever else the
list contains. -/
theorem markDeleted_exact (t : Table) (gids : List Nat) (hranged : Ranged t)
    (hbase : t.wbBaseRowId < 2 ^ 64) :
    ∃ t', exec (markDeleted gids) t = (.ok (), t') ∧
      (∀ gid, HasRow t gid →
        (t'.isRowDeleted gid = true ↔ t.isRowDeleted gid = true ∨ gid ∈ gids)) ∧
      ∀ gid, ¬HasRow t gid → t'.isRowDeleted gid = t.isRowDeleted gid := by
  refine ⟨_, exec_markDeleted gids t, fun gid hrow => ?_, fun gid hgid =>
    isRowDeleted_marked_of_not_hasRow hgid⟩
  obtain ⟨p, hmem, hle, _⟩ := hrow
  obtain ⟨k, hp⟩ := getElem?_of_mem hmem
  obtain ⟨l, rfl⟩ := Nat.exists_eq_add_of_le hle
  have hl : l < p.localRowCount := by omega
  rw [hranged.isRowDeleted_marked gids hp hl, rowBit_marked, (hranged.resolves hp hl).isRowDeleted,
    hranged.hitsAt_eq (Nat.le_of_lt hbase) gids hp hl, Bool.or_eq_true, decide_eq_true_eq]

/-- Two segments with two rows each, from ids 5 and 10 on; the ids below 5, between them and from
12 on name no row. -/
def gapTable : Table where
  schema := []
  wbColumns := []
  wbDeleted := []
  wbBaseRowId := 14
  segments := [⟨⟨0, 5, 2⟩, [], [], none⟩, ⟨⟨1, 10, 2⟩, [], [2], none⟩]
  nextSegmentId := 2
  flushThreshold := 65536
  schemaFile := []
  deletedFile := none
  manifestFile := none
  unusedSegments := []
  moving := none

theorem markDeleted_exact_gapTable :
    ∃ t', exec (markDeleted [3, 6, 6, 8, 11, 20]) gapTable = (.ok (), t') ∧
      t'.isRowDeleted 6 = true ∧ t'.isRowDeleted 10 ≠ true ∧ t'.isRowDeleted 8 = false := by
  obtain ⟨t', hrun, hrows, hothers⟩ := markDeleted_exact gapTable [3, 6, 6, 8, 11, 20] (by decide)
    (by decide)
  refine ⟨t', hrun, (hrows 6 (by decide)).mpr (by decide), ?_, hothers 8 (by decide)⟩
  exact fun h10 => absurd ((hrows 10 (by decide)).mp h10) (by decide)

end NyxDb.Table
