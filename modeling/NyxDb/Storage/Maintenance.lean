import NyxDb.Storage.Table

/-!
# Vacuum and merge

Both write the rows of a prefix of the segments to a new segment and put it in their place.  A
vacuum drops the deleted rows of all segments, a merge keeps them and their bits.

The counts of dead rows and the copy of a vacuum read a bitmap without looking at its length; a
bitmap that is too short is read past its end, which the model reports as an error.
-/

namespace NyxDb.Table

open List ColumnFile Proc

/-- A bit of a bitmap that is read without a check of its length. -/
def bitAt (bm : Bytes) (r : Nat) : Except Error Bool :=
  if bm.isEmpty then .ok false
  else if r / 8 < bm.length then .ok (Bitmap.test bm r)
  else .error .outOfBounds

/-- The dead rows among the first `rowCount`. -/
def deadCount (bm : Bytes) (rowCount : Nat) : Except Error Nat := do
  let bits ← (range rowCount).mapM (bitAt bm)
  return bits.count true

structure VacuumStats where
  deadRows : Nat
  totalRows : Nat
  deriving DecidableEq, Repr

def deadRowStats (t : Table) : Except Error VacuumStats := do
  let dead ← t.segments.mapM fun s => deadCount s.deleted s.info.rowCount
  let wbDead ← deadCount t.wbDeleted t.wbRowCount
  return ⟨dead.sum + wbDead, (t.segments.map fun s => s.info.rowCount).sum + t.wbRowCount⟩

/-- The states of a directory while its files are removed. -/
def removalSteps (sd : SegmentDir) : List SegmentDir :=
  (range (sd.cols.length + 1)).map (fun k =>
    ⟨replicate k none ++ sd.cols.drop k, sd.deleted⟩) ++ [⟨sd.cols.map fun _ => none, none⟩]

/-- Put a directory that no segment uses, in place of one of the same id. -/
def putUnused (id : Nat) (sd : SegmentDir) (t : Table) : Table :=
  { t with unusedSegments := (id, sd) :: t.unusedSegments.filter fun x => x.1 != id }

/-- Remove the directory of a segment that is no longer used. -/
def removeSegmentDir (s : Segment) : Op Table Unit := do
  crashPoints fun t => (removalSteps s.dir).map fun sd => putUnused s.info.id sd t
  fileOp fun t =>
    { t with unusedSegments := t.unusedSegments.filter fun x => x.1 != s.info.id }

/-- A directory with the next id is in the way, as a rename replaces only an empty one. -/
def nextIdTaken (t : Table) : Bool :=
  match t.unusedSegments.lookup t.nextSegmentId with
  | none => false
  | some sd => sd.cols.any Option.isSome || sd.deleted.isSome

/-- Replace the first `n` segments by the one in `sd`.  The directories of the old ones are not
used any more. -/
def replaceSegments (n : Nat) (sd : SegmentDir) (mergedBase mergedCount : Nat) : Op Table Unit := do
  let t ← get
  let info : SegmentMeta := ⟨t.nextSegmentId, mergedBase, mergedCount⟩
  modify fun t => { t with nextSegmentId := t.nextSegmentId + 1 }
  if t.nextIdTaken then
    throw (.within (ascii "replace_segments: rename: ") .directoryNotEmpty)
  else do
    fileOp (putUnused info.id sd)
    let seg ← mapError (.within (ascii "replace_segments: "))
      (ofExcept (Segment.openDir sd t.schema info))
    let replaced := seg :: t.segments.drop n
    fileOp fun t' =>
      { t' with
        segments := replaced
        manifestFile := some (replaced.map Segment.info)
        unusedSegments := (t.segments.take n).map (fun s => (s.info.id, s.dir)) ++
          t.unusedSegments.filter fun x => x.1 != info.id }

/-- Replace the first `n` segments by the one in `sd` and remove the directories of the old ones. -/
def swapSegments (n : Nat) (sd : SegmentDir) (mergedBase mergedCount : Nat) : Op Table Unit := do
  let t ← get
  replaceSegments n sd mergedBase mergedCount
  forEach (t.segments.take n) removeSegmentDir

/-- The table right after its first `n` segments were replaced by `seg`. -/
def withReplaced (t : Table) (n : Nat) (seg : Segment) : Table :=
  { t with
    nextSegmentId := t.nextSegmentId + 1
    segments := seg :: t.segments.drop n
    manifestFile := some ((seg :: t.segments.drop n).map Segment.info)
    unusedSegments := (t.segments.take n).map (fun s => (s.info.id, s.dir)) ++
      t.unusedSegments.filter fun x => x.1 != t.nextSegmentId }

/-- The table after the directories of the old segments were removed. -/
def replacedBy (t : Table) (n : Nat) (seg : Segment) : Table :=
  { t with
    nextSegmentId := t.nextSegmentId + 1
    segments := seg :: t.segments.drop n
    manifestFile := some ((seg :: t.segments.drop n).map Segment.info)
    unusedSegments := (t.unusedSegments.filter fun x => x.1 != t.nextSegmentId).filter fun x =>
      !((t.segments.take n).map fun s => s.info.id).contains x.1 }

theorem exec_removeSegmentDirs (ss : List Segment) (t : Table) :
    exec (forEach ss removeSegmentDir) t =
      (.ok (), { t with unusedSegments := t.unusedSegments.filter fun x =>
        !(ss.map fun s => s.info.id).contains x.1 }) := by
  induction ss generalizing t with
  | nil =>
    simp
  | cons s ss ih =>
    have hone : exec (removeSegmentDir s) t = (.ok (), { t with
        unusedSegments := t.unusedSegments.filter fun x => x.1 != s.info.id }) := rfl
    rw [exec_forEach_cons, exec_bind_ok hone, ih, filter_filter]
    simp only [map_cons, contains_cons, Bool.not_or, bne, Bool.and_comm]

theorem exec_replaceSegments (n : Nat) (sd : SegmentDir) (mergedBase mergedCount : Nat)
    (t : Table) :
    exec (replaceSegments n sd mergedBase mergedCount) t =
      if t.nextIdTaken then
        (.error (.within (ascii "replace_segments: rename: ") .directoryNotEmpty),
          { t with nextSegmentId := t.nextSegmentId + 1 })
      else
        match Segment.openDir sd t.schema ⟨t.nextSegmentId, mergedBase, mergedCount⟩ with
        | .error e => (.error (.within (ascii "replace_segments: ") e),
            putUnused t.nextSegmentId sd { t with nextSegmentId := t.nextSegmentId + 1 })
        | .ok seg => (.ok (), t.withReplaced n seg) := by
  unfold replaceSegments
  rw [exec_get_bind, exec_bind_ok (exec_modify _ t)]
  by_cases htaken : t.nextIdTaken = true
  · rw [if_pos htaken, if_pos htaken]
    rfl
  · rw [if_neg htaken, if_neg htaken, exec_bind_ok (exec_fileOp _ _), exec_bind,
      exec_mapError, exec_ofExcept]
    cases hseg : Segment.openDir sd t.schema ⟨t.nextSegmentId, mergedBase, mergedCount⟩ with
    | error e => rfl
    | ok seg => rfl

theorem exec_swapSegments (n : Nat) (sd : SegmentDir) (mergedBase mergedCount : Nat) (t : Table) :
    exec (swapSegments n sd mergedBase mergedCount) t =
      if t.nextIdTaken then
        (.error (.within (ascii "replace_segments: rename: ") .directoryNotEmpty),
          { t with nextSegmentId := t.nextSegmentId + 1 })
      else
        match Segment.openDir sd t.schema ⟨t.nextSegmentId, mergedBase, mergedCount⟩ with
        | .error e => (.error (.within (ascii "replace_segments: ") e),
            putUnused t.nextSegmentId sd { t with nextSegmentId := t.nextSegmentId + 1 })
        | .ok seg => (.ok (), t.replacedBy n seg) := by
  unfold swapSegments
  rw [exec_get_bind, exec_bind, exec_replaceSegments]
  by_cases htaken : t.nextIdTaken = true
  · rw [if_pos htaken, if_pos htaken]
  · rw [if_neg htaken, if_neg htaken]
    cases hseg : Segment.openDir sd t.schema ⟨t.nextSegmentId, mergedBase, mergedCount⟩ with
    | error e => rfl
    | ok seg =>
      have hold : ((t.segments.take n).map fun s => (s.info.id, s.dir)).filter (fun x =>
          !((t.segments.take n).map fun s => s.info.id).contains x.1) = [] := by
        rw [filter_eq_nil_iff]
        intro x hx
        obtain ⟨s, hs, rfl⟩ := mem_map.mp hx
        simp only [Bool.not_eq_true, Bool.not_eq_false', contains_iff_mem]
        exact mem_map_of_mem (f := fun s : Segment => s.info.id) hs
      show exec (forEach (t.segments.take n) removeSegmentDir) (t.withReplaced n seg) = _
      rw [exec_removeSegmentDirs]
      unfold withReplaced
      rw [filter_append, hold]
      rfl

/-- Copy the values of a segment column, without the deleted ones. -/
def copyColumnFiltered (src : ColumnFile) (bm : Bytes) (rowCount : Nat) : Op ColumnFile Unit := do
  let pages ← ofExcept src.scan
  forEach (pages.flatten.take rowCount).zipIdx fun (v, r) => do
    let deleted ← ofExcept (bitAt bm r)
    if deleted then pure () else appendValue v

/-- Copy all values of a segment column. -/
def copyColumn (src : ColumnFile) : Op ColumnFile Unit := do
  let pages ← ofExcept src.scan
  forEach pages.flatten appendValue

/-- Write column `i` of a new segment, from that column of each of `segs`. -/
def mergedColumn (copy : Segment → ColumnFile → Op ColumnFile Unit) (segs : List Segment)
    (c : Column) (i : Nat) : Except Error ColumnFile := do
  let dst ← ColumnFile.create c.spec
  let body : Op ColumnFile Unit := do
    forEach segs fun s => do
      let src ← ofExcept
        (openFile ((s.columns[i]?.map file).getD ⟨c.spec, []⟩))
      copy s src
    ColumnFile.flush
  match exec body dst with
  | (.ok (), dst') => .ok dst'
  | (.error e, _) => .error e

def mergedColumns (copy : Segment → ColumnFile → Op ColumnFile Unit) (segs : List Segment)
    (schema : Schema) : Except Error (List ColumnFile) :=
  schema.zipIdx.mapM fun (c, i) => mergedColumn copy segs c i

/-- Rewrite all segments without their deleted rows; returns the number of these.  Nothing is
reclaimed if the copy or the replacement fails. -/
def vacuumTable : Op Table Nat := do
  let t ← get
  match t.segments with
  | [] => pure 0
  | first :: _ => do
      let dead ← ofExcept (t.segments.mapM fun s => deadCount s.deleted s.info.rowCount)
      let total := (t.segments.map fun s => s.info.rowCount).sum
      if dead.sum = 0 then pure 0
      else
        match mergedColumns (fun s src => copyColumnFiltered src s.deleted s.info.rowCount)
            t.segments t.schema with
        | .error _ => pure 0
        | .ok columns => do
            let replaced ← succeeds (swapSegments t.segments.length
              ⟨columns.map fun c => some c.file, none⟩ first.info.baseRowId (total - dead.sum))
            pure (if replaced then dead.sum else 0)

/-- The bits of consecutive segments, in one bitmap. -/
def mergeDeletedBitmaps (segs : List Segment) : Bytes :=
  let total := (segs.map fun s => s.info.rowCount).sum
  if segs.all (fun s => s.deleted.isEmpty) || total == 0 then []
  else
    let bits := segs.flatMap fun s => (range s.info.rowCount).map s.isDeleted
    Bitmap.setAll (replicate (Bitmap.bytesFor total) 0)
      ((range total).filter fun i => bits.getD i false)

def mergeThresholdDefault : Nat := 8

/-- Merge the first half of `mergeThreshold` segments when there are that many. -/
def mergeSegments (mergeThreshold : Nat) : Op Table Unit := do
  let t ← get
  if t.segments.length < mergeThreshold then pure ()
  else do
    let snaps := t.segments.take (mergeThreshold / 2)
    match snaps with
    | [] => throw .outOfBounds
    | first :: _ =>
      match mergedColumns (fun _ src => copyColumn src) snaps t.schema with
      | .error _ => pure ()
      | .ok columns =>
        let bm := mergeDeletedBitmaps snaps
        attempt (swapSegments (mergeThreshold / 2)
          ⟨columns.map fun c => some c.file, if bm.isEmpty then none else some bm⟩
          first.info.baseRowId (snaps.map fun s => s.info.rowCount).sum)

/-- One visit of the merge worker: vacuum when more than a fifth of the rows is dead, then merge.
Errors of the seal and the vacuum are not looked at. -/
def maybeMergeTable (mergeThreshold : Nat) : Op Table Unit := do
  let t ← get
  let stats ← ofExcept t.deadRowStats
  if 0 < stats.totalRows ∧ stats.totalRows < 5 * stats.deadRows then do
    attempt flushWriteBuffer
    let _ ← vacuumTable
    mergeSegments mergeThreshold
  else mergeSegments mergeThreshold

end NyxDb.Table
