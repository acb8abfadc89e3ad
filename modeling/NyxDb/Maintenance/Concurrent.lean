import NyxDb.Maintenance.Rewrite

/-!
# Merges and vacuums beside other operations

A merge or a vacuum looks at the segments under the shared lock, copies their rows without a lock
to a temporary directory, takes the exclusive lock to put the new segment in the place of the old
ones, and removes the old directories.  Inserts, seals, deletions and updates of the same table run
between these steps; each of them holds the exclusive lock.

Beside the table and the jobs the system records all rows that were ever inserted, and which of
them were deleted.  A deletion takes its row ids from a scan, so the rows it deletes are those that
a scan shows under these ids.
-/

namespace NyxDb.Table

/-- What starts a job: a vacuum, or a merge with the threshold of the merge worker. -/
inductive JobKind where
  | vacuum
  | merge (threshold : Nat)
  deriving DecidableEq, Repr

/-- How far a job is. -/
inductive Phase where
  | copying
  | copied
  | committed
  deriving DecidableEq, Repr

/-- A running merge or vacuum: the segments as it saw them, where the new segment starts, and the
columns it has written. -/
structure Job where
  rewriting : Rewriting
  snaps : List Segment
  baseRowId : Nat
  columns : List ColumnFile
  phase : Phase
  deriving DecidableEq, Repr

/-- A table, the temporary directories `seg_vacuum_tmp` and `seg_merge_tmp`, and the running
jobs. -/
structure SharedTable where
  table : Table
  vacuumTmp : Option SegmentDir
  mergeTmp : Option SegmentDir
  jobs : List Job
  /-- A bitmap or the list of segments was used past its end. -/
  overrun : Bool
  /-- All rows that were inserted, with the deletions. -/
  history : Ledger Row

/-- What can happen.  A job takes its next step at any time. -/
inductive TableEvent where
  | insert (rows : List Row)
  | delete (gids : List Nat)
  | update (gids : List Nat) (rows : List Row)
  | sealBuffer
  | start (kind : JobKind)
  | copy (job : Nat)
  | commit (job : Nat)
  | cleanup (job : Nat)
  deriving DecidableEq, Repr

namespace SharedTable

def ofTable (t : Table) (rows : List Row) : SharedTable :=
  ⟨t, none, none, [], false, rows.map fun row => (row, false)⟩

/-! ## Statements -/

/-- Which of the rows that a scan shows have one of the ids. -/
def named (t : Table) (gids : List Nat) : List Bool :=
  match TableScan.scan t with
  | .error _ => []
  | .ok rows => rows.map fun x => decide (x.1 ∈ gids)

def insert (s : SharedTable) (rows : List Row) : SharedTable :=
  match exec (insertMany rows) s.table with
  | (.error _, t) => { s with table := t }
  | (.ok _, t) => { s with table := t, history := s.history.add rows }

def delete (s : SharedTable) (gids : List Nat) : SharedTable :=
  { s with
    table := (exec (markDeleted gids) s.table).2
    history := s.history.strike (named s.table gids) }

/-- `Table::update_rows`: the old rows are marked first. -/
def update (s : SharedTable) (gids : List Nat) (rows : List Row) : SharedTable :=
  let history := s.history.strike (named s.table gids)
  match exec (updateRows gids rows) s.table with
  | (.error _, t) => { s with table := t, history := history }
  | (.ok _, t) => { s with table := t, history := history.add rows }

/-! ## Jobs -/

def tmp (s : SharedTable) : Rewriting → Option SegmentDir
  | .vacuum => s.vacuumTmp
  | .merge => s.mergeTmp

def setTmp (s : SharedTable) (w : Rewriting) (d : Option SegmentDir) : SharedTable :=
  match w with
  | .vacuum => { s with vacuumTmp := d }
  | .merge => { s with mergeTmp := d }

/-- The temporary directory is made anew. -/
def begin (s : SharedTable) (w : Rewriting) (snaps : List Segment) (baseRowId : Nat) :
    SharedTable :=
  let s' : SharedTable := { s with jobs := s.jobs ++ [⟨w, snaps, baseRowId, [], .copying⟩] }
  s'.setTmp w (some ⟨s.table.schema.map fun _ => none, none⟩)

/-- The snapshot of a job, under the shared lock.  Nothing is started if there is nothing to do. -/
def start (s : SharedTable) : JobKind → SharedTable
  | .vacuum =>
    match s.table.segments with
    | [] => s
    | first :: _ =>
      match s.table.segments.mapM fun x => deadCount x.deleted x.info.rowCount with
      | .error _ => { s with overrun := true }
      | .ok dead =>
        if dead.sum = 0 then s
        else s.begin .vacuum s.table.segments first.info.baseRowId
  | .merge threshold =>
    if s.table.segments.length < threshold then s
    else
      match s.table.segments.take (threshold / 2) with
      | [] => { s with overrun := true }
      | first :: rest => s.begin .merge (first :: rest) first.info.baseRowId

/-- A job that goes on, and what it has made of its temporary directory. -/
def putJob (s : SharedTable) (j : Nat) (job : Job) (d : Option SegmentDir) : SharedTable :=
  let s' : SharedTable := { s with jobs := s.jobs.set j job }
  s'.setTmp job.rewriting d

/-- A job that fails removes its temporary directory. -/
def abandon (s : SharedTable) (j : Nat) (w : Rewriting) : SharedTable :=
  let s' : SharedTable := { s with jobs := s.jobs.eraseIdx j }
  s'.setTmp w none

/-- The directory of a segment has not been removed. -/
def hasDir (t : Table) (id : Nat) : Bool :=
  (t.segments.map fun x => x.info.id).contains id || (t.unusedSegments.map Prod.fst).contains id

/-- The job writes its next column, or, after the last one, `deleted.bin`. -/
def copyNext (s : SharedTable) (j : Nat) (job : Job) (d : SegmentDir) : SharedTable :=
  match s.table.schema[job.columns.length]? with
  | none =>
    s.putJob j { job with phase := .copied }
      (some { d with deleted := job.rewriting.deletedFile job.snaps })
  | some c =>
    if job.snaps.all fun x => hasDir s.table x.info.id then
      match mergedColumn job.rewriting.copy job.snaps c job.columns.length with
      | .error _ => s.abandon j job.rewriting
      | .ok col =>
        s.putJob j { job with columns := job.columns ++ [col] }
          (some { d with cols := d.cols.set job.columns.length (some col.file) })
    else s.abandon j job.rewriting

def copy (s : SharedTable) (j : Nat) : SharedTable :=
  match s.jobs[j]? with
  | none => s
  | some job =>
    if job.phase = .copying then
      match s.tmp job.rewriting with
      | none => s.abandon j job.rewriting
      | some d => s.copyNext j job d
    else s

/-- `replace_segments`, under the exclusive lock.  The old segments are erased by their positions
at the time of the snapshot. -/
def replace (s : SharedTable) (j : Nat) (job : Job) (d : SegmentDir) : SharedTable :=
  match exec (replaceSegments job.snaps.length d job.baseRowId
      (job.rewriting.count job.snaps)) s.table with
  | (.error _, t) => abandon { s with table := t } j job.rewriting
  | (.ok (), t) =>
    let overrun := s.overrun || decide (s.table.segments.length < job.snaps.length)
    putJob { s with table := t, overrun := overrun } j { job with phase := .committed } none

def commit (s : SharedTable) (j : Nat) : SharedTable :=
  match s.jobs[j]? with
  | none => s
  | some job =>
    if job.phase = .copied then
      match s.tmp job.rewriting with
      | none =>
        -- there is nothing to rename, but the id is used
        abandon { s with table := { s.table with nextSegmentId := s.table.nextSegmentId + 1 } } j
          job.rewriting
      | some d => s.replace j job d
    else s

/-- The old directories are removed. -/
def cleanup (s : SharedTable) (j : Nat) : SharedTable :=
  match s.jobs[j]? with
  | none => s
  | some job =>
    if job.phase = .committed then
      { s with
        table := (exec (forEach job.snaps removeSegmentDir) s.table).2
        jobs := s.jobs.eraseIdx j }
    else s

def step (s : SharedTable) : TableEvent → SharedTable
  | .insert rows => s.insert rows
  | .delete gids => s.delete gids
  | .update gids rows => s.update gids rows
  | .sealBuffer => { s with table := (exec flushWriteBuffer s.table).2 }
  | .start kind => s.start kind
  | .copy j => s.copy j
  | .commit j => s.commit j
  | .cleanup j => s.cleanup j

end SharedTable
end NyxDb.Table
