import NyxDb.Catalog.Upkeep
import NyxDb.Replication.StreamRuns

/-!
# Crashes of a follower

A follower keeps the offset it has confirmed in `replication_state.bin`, which is written after
every batch.  The rows of the batch are in the buffers of the tables and in no log: they are on
disk after the next `flushAll`.  A crash in between loses them, and the follower goes on behind
them.

A run in which crashes only come after a flush loses nothing (`replica_durable`): in every state
the rows are those of the records up to the stored offset, and they are what is loaded.
-/

namespace NyxDb.Replication

open Catalog List LogRecord Table

/-! ## The follower -/

/-- A follower.  Beside its catalog, its offset and the file of the offset, the state records the
number of records it has confirmed, whether all it has applied was flushed since, and whether a
batch has stopped with an error since the last start. -/
structure Replica where
  cat : Catalog
  confirmedLsn : Nat
  stateFile : Option Bytes
  confirmed : Nat
  flushed : Bool
  failed : Bool
  deriving DecidableEq, Repr

/-- Work on the tables. -/
inductive Work where
  | batch (data : Bytes)
  | flush (gate : Option Nat)
  deriving DecidableEq, Repr

/-- What can happen.  `crashIn` is a crash after some of the file operations of a piece of work. -/
inductive ReplicaEvent where
  | work (w : Work)
  | visit (table : Bytes)
  | crash
  | crashIn (w : Work) (fileOps : Nat)
  deriving DecidableEq, Repr

namespace Work

/-- Apply the records of a batch one after the other, or write everything. -/
def run : Work → Op Catalog Unit
  | .batch data => forEach (batchRecords data) fun (name, body) =>
    applyReplicatedRecord name body
  | .flush gate => flushAll gate

end Work

namespace Replica

/-- The file has a second number that is always 0. -/
def stateBytes (lsn : Nat) : Bytes :=
  leBytes 8 lsn ++ leBytes 8 0

def loadState (file : Option Bytes) : Nat :=
  match file with
  | none => 0
  | some bytes => if bytes.length < 16 then 0 else leNat (bytes.take 8)

/-- The rest of `apply_batch`, when all records have been applied. -/
def persistState (s : Replica) (data : Bytes) : Replica :=
  let lsn := s.confirmedLsn + bytesConsumed (walHeader ++ data)
  { s with
    confirmedLsn := lsn
    stateFile := some (stateBytes lsn)
    confirmed := s.confirmed + (batchRecords data).length
    flushed := false }

/-- Nothing is done for an empty batch. -/
def applyBatch (s : Replica) (data : Bytes) : Replica :=
  if data = [] then s
  else
    match exec (Work.batch data).run s.cat with
    | (.ok (), cat) => { s with cat := cat }.persistState data
    | (.error _, cat) => { s with cat := cat, flushed := false, failed := true }

def flush (s : Replica) (gate : Option Nat) : Replica :=
  match exec (Work.flush gate).run s.cat with
  | (.ok (), cat) => { s with cat := cat, flushed := true }
  | (.error _, cat) => { s with cat := cat, flushed := false }

/-- Start again on what is on disk.  A follower whose data cannot be loaded does not start. -/
def restart (s : Replica) (dir : CatalogDir) : Replica :=
  match load dir with
  | .ok cat => { s with cat := cat, confirmedLsn := loadState s.stateFile, failed := false }
  | .error _ => s

/-- The merge worker visits a table. -/
def visit (s : Replica) (table : Bytes) : Replica :=
  { s with
    cat := (exec (onEntry table
      (TableEntry.onTable (maybeMergeTable mergeThresholdDefault))) s.cat).2 }

def step (s : Replica) : ReplicaEvent → Replica
  | .work (.batch data) => s.applyBatch data
  | .work (.flush gate) => s.flush gate
  | .visit table => s.visit table
  | .crash => s.restart s.cat.dir
  | .crashIn w fileOps => s.restart (((Proc.trace w.run s.cat)[fileOps]?).getD s.cat).dir

/-! ## Runs that flush before they crash -/

/-- The merge worker finds nothing to do. -/
def Idle (t : Table) : Prop :=
  t.segments.length < mergeThresholdDefault ∧
    match t.deadRowStats with
    | .ok stats => ¬(0 < stats.totalRows ∧ stats.totalRows < 5 * stats.deadRows)
    | .error _ => False

instance (t : Table) : Decidable (Idle t) :=
  match h : t.deadRowStats with
  | .ok stats => decidable_of_iff (t.segments.length < mergeThresholdDefault ∧
      ¬(0 < stats.totalRows ∧ stats.totalRows < 5 * stats.deadRows)) (by rw [Idle, h])
  | .error _ => isFalse (by
      intro hidle
      rw [Idle, h] at hidle
      exact hidle.2)

/-- A batch has the next records of the log, all of them whole; the merge worker finds nothing to
do; and the follower crashes only when all it has applied was flushed. -/
def FlushedBeforeCrash (log : List LogRecord) (s : Replica) : ReplicaEvent → Prop
  | .work (.batch data) => ∃ m ≤ log.length - s.confirmed,
      data = logBody ((log.drop s.confirmed).take m)
  | .work (.flush _) => ∀ e ∈ s.cat.tables, e.table.rowCount < 2 ^ 64
  | .visit table => ∀ e ∈ s.cat.tables, e.name = table → Idle e.table
  | .crash => s.flushed = true ∧ s.failed = false
  | .crashIn _ _ => False

instance (log : List LogRecord) (s : Replica) : DecidablePred (s.FlushedBeforeCrash log) :=
    fun e => by
  rcases e with (_ | _) | _ | _ | _ <;> dsimp only [FlushedBeforeCrash] <;> infer_instance

/-- The contents after some records. -/
def contentsAfter (db : Contents) (records : List (Bytes × WalBody)) : Contents :=
  records.foldl (fun db r => db.apply r.1 r.2) db

/-! ## The invariant -/

/-- Everything is on disk. -/
def OnDisk (e : TableEntry) (g : Ledger Row) : Prop :=
  Clean e ∧ Settled [] e g

/-- Until a batch stops with an error, the follower has the records up to its offset, in memory
and, once it has flushed, on disk. -/
structure Durable (log : List LogRecord) (db : Contents) (start : Nat) (s : Replica) : Prop where
  noLog : s.cat.wal = none ∧ s.cat.writer = none
  bound : start ≤ s.confirmed ∧ s.confirmed ≤ log.length
  offset : s.confirmedLsn = offsetOf log s.confirmed
  stored : loadState s.stateFile = s.confirmedLsn
  rows : Tracks Held s.cat
    (contentsAfter db (((log.take s.confirmed).drop start).map content))
  settled : s.flushed = true → Tracks OnDisk s.cat
    (contentsAfter db (((log.take s.confirmed).drop start).map content))

section Step

variable {log : List LogRecord} {db : Contents} {start : Nat} {s : Replica}

theorem loadState_stateBytes {lsn : Nat} (h : lsn < 2 ^ 64) :
    loadState (some (stateBytes lsn)) = lsn := by
  have hlsn : lsn < 256 ^ 8 := h
  have hlen : ¬(stateBytes lsn).length < 16 := by
    rw [stateBytes, length_append, length_leBytes]
    decide
  change (if (stateBytes lsn).length < 16 then 0 else leNat ((stateBytes lsn).take 8)) = lsn
  rw [if_neg hlen, stateBytes, take_left' (length_leBytes 8 lsn), leNat_leBytes_of_lt hlsn]

/-- The records of a batch, one after the other. -/
theorem exec_records {records : List (Bytes × WalBody)}
    (hfits : ∀ r ∈ records, Replicable r.1 r.2) {cat cat' : Catalog} {db : Contents}
    (h : Tracks Held cat db)
    (hexec : exec (forEach records fun (name, body) =>
      applyReplicatedRecord name body) cat = (.ok (), cat')) :
    Tracks Held cat' (contentsAfter db records) ∧ logView cat' = logView cat := by
  induction records generalizing cat db with
  | nil =>
    obtain ⟨-, rfl⟩ := Prod.mk.inj hexec
    exact ⟨h, rfl⟩
  | cons r records ih =>
    obtain ⟨u, _, hone, hrest⟩ := exec_bind_eq_ok hexec
    obtain ⟨h₁, hlog₁⟩ := h.exec_applyReplicatedRecord (hfits r mem_cons_self) hone
    obtain ⟨h₂, hlog₂⟩ := ih (fun x hx => hfits x (mem_cons_of_mem _ hx)) h₁ hrest
    exact ⟨h₂, hlog₂.trans hlog₁⟩

theorem Durable.applyBatch (h : Durable log db start s)
    (hlog : ∀ r ∈ log, r.Valid ∧ Replicable r.name r.body) (hsize : (logBytes log).length < 2 ^ 64)
    {data : Bytes} (hcond : s.FlushedBeforeCrash log (.work (.batch data)))
    (hok : (s.applyBatch data).failed = false) : Durable log db start (s.applyBatch data) := by
  obtain ⟨m, _, rfl⟩ := hcond
  have hsub : ∀ r ∈ (log.drop s.confirmed).take m, r ∈ log := fun r hr =>
    mem_of_mem_drop (mem_of_mem_take hr)
  have hrecords := batchRecords_logBody fun r hr => (hlog r (hsub r hr)).1
  have hconsumed := bytesConsumed_logBody fun r hr => (hlog r (hsub r hr)).1
  have hlen : ((log.drop s.confirmed).take m).length = m := by
    rw [length_take, length_drop]
    omega
  unfold Replica.applyBatch at hok ⊢
  split at hok
  · next hempty =>
    rw [if_pos hempty]
    exact h
  · next hne =>
    rw [if_neg hne]
    cases hexec : exec (Work.batch (logBody ((log.drop s.confirmed).take m))).run s.cat with
    | mk res cat =>
      cases res with
      | error err =>
        rw [hexec] at hok
        cases hok
      | ok u =>
        obtain ⟨hrows, hview⟩ := exec_records (by
          rw [hrecords]
          intro r hr
          obtain ⟨x, hx, rfl⟩ := mem_map.mp hr
          exact (hlog x (hsub x hx)).2) h.rows hexec
        obtain ⟨hwal, hwriter⟩ := Prod.mk.inj hview
        -- The batch ends where the next record of the log begins.
        have hoffset : s.confirmedLsn +
            bytesConsumed (walHeader ++ logBody ((log.drop s.confirmed).take m)) =
            offsetOf log (s.confirmed + m) := by
          rw [hconsumed, h.offset, offsetOf_add]
        have hcount : (batchRecords (logBody ((log.drop s.confirmed).take m))).length = m := by
          rw [hrecords, length_map, hlen]
        have hbound := h.bound
        refine ⟨⟨hwal.trans h.noLog.1, hwriter.trans h.noLog.2⟩, ?_, ?_, ?_, ?_, ?_⟩
        · change start ≤ s.confirmed + _ ∧ s.confirmed + _ ≤ log.length
          omega
        · change _ + _ = offsetOf log (s.confirmed + _)
          rw [hcount, hoffset]
        · refine loadState_stateBytes ?_
          rw [hoffset]
          refine Nat.lt_of_le_of_lt (offsetOf_mono log (j := log.length) (by omega)) ?_
          rw [offsetOf_length]
          exact hsize
        · change Tracks Held cat (contentsAfter db
            (((log.take (s.confirmed + _)).drop start).map content))
          rw [hcount, take_add, drop_append_of_le_length (by rw [length_take]; omega), map_append,
            ← hrecords]
          unfold contentsAfter at hrows ⊢
          rw [foldl_append]
          exact hrows
        · exact fun hflushed => nomatch hflushed

theorem Durable.flush (h : Durable log db start s) {gate : Option Nat}
    (hcond : s.FlushedBeforeCrash log (.work (.flush gate))) :
    Durable log db start (s.flush gate) := by
  have hsize : ∀ name g,
      contentsAfter db (((log.take s.confirmed).drop start).map content) name = some g →
        g.length < 2 ^ 64 := by
    intro name g hg
    obtain ⟨e, hfind, _, _, _, hheld⟩ := h.rows.found hg
    rw [← hheld.rowCount]
    exact hcond e (find_some hfind).1
  obtain ⟨es, htracks, -, hexec⟩ := h.rows.exec_flushAll (by rw [h.noLog.2]; decide) hsize gate
  rw [checkpointed, compacts, h.noLog.2] at hexec
  rw [h.noLog.2] at htracks
  have hexec' : exec (Work.flush gate).run s.cat =
      (.ok (), ⟨es, s.cat.unopened, s.cat.wal, none⟩) := hexec
  have hdisk : Tracks OnDisk ⟨es, s.cat.unopened, s.cat.wal, none⟩
      (contentsAfter db (((log.take s.confirmed).drop start).map content)) :=
    htracks.mono fun e _ g hw => ⟨hw.1, hw.2 [] fun r hr => absurd hr not_mem_nil⟩
  unfold Replica.flush
  rw [hexec']
  exact ⟨⟨h.noLog.1, rfl⟩, h.bound, h.offset, h.stored, hdisk.mono fun e _ g hd => hd.2.held,
    fun _ => hdisk⟩

theorem Durable.visit (h : Durable log db start s) {table : Bytes}
    (hcond : s.FlushedBeforeCrash log (.visit table)) : s.visit table = s := by
  have hsame : (exec (onEntry table (TableEntry.onTable
      (maybeMergeTable mergeThresholdDefault))) s.cat).2 = s.cat := by
    cases hfind : s.cat.find table with
    | none =>
      unfold onEntry
      rw [exec_get_bind, hfind]
      rfl
    | some e =>
      obtain ⟨he, hname⟩ := find_some hfind
      obtain ⟨hfew, hcalm⟩ := hcond e he hname
      rw [exec_onEntry hfind, TableEntry.exec_onTable, NoVacuumDue.exec_maybeMergeTable hcalm,
        mergeSegments,
        exec_get_bind, if_pos hfew]
      exact put_self h.rows.names he
  unfold Replica.visit
  rw [hsame]

theorem Durable.restart (h : Durable log db start s) (hflushed : s.flushed = true) :
    Durable log db start (s.restart s.cat.dir) := by
  obtain ⟨_, hload, -, htracks⟩ := (h.settled hflushed).load_noWal h.noLog.1
  unfold Replica.restart
  rw [hload]
  exact ⟨⟨rfl, rfl⟩, h.bound, h.stored.trans h.offset, rfl, htracks.mono fun e _ g hd => hd.2.held,
    fun _ => htracks⟩

/-- Once a batch has stopped with an error, it is remembered until the next start. -/
theorem failed_of_step {e : ReplicaEvent} (hcond : s.FlushedBeforeCrash log e)
    (hok : (s.step e).failed = false) : s.failed = false := by
  cases e with
  | work w =>
    cases w with
    | batch data =>
      rw [step, Replica.applyBatch] at hok
      split_ifs at hok
      · exact hok
      · split at hok
        · exact hok
        · cases hok
    | flush gate =>
      rw [step, Replica.flush] at hok
      split at hok <;> exact hok
  | visit table => exact hok
  | crash => exact hcond.2
  | crashIn w fileOps => exact hcond.elim

/-- **One step** of such a run. -/
theorem Durable.step (h : Durable log db start s)
    (hlog : ∀ r ∈ log, r.Valid ∧ Replicable r.name r.body) (hsize : (logBytes log).length < 2 ^ 64)
    {e : ReplicaEvent} (hcond : s.FlushedBeforeCrash log e) (hok : (s.step e).failed = false) :
    Durable log db start (s.step e) := by
  cases e with
  | work w =>
    cases w with
    | batch data => exact h.applyBatch hlog hsize hcond hok
    | flush gate => exact h.flush hcond
  | visit table =>
    change Durable log db start (s.visit table)
    rw [h.visit hcond]
    exact h
  | crash => exact h.restart hcond.1
  | crashIn w fileOps => exact hcond.elim

end Step

/-- A follower that has just got a snapshot, or has been loaded: everything is on disk, and the
snapshot has the first records of the log. -/
structure Started (log : List LogRecord) (db : Contents) (s : Replica) : Prop where
  noLog : s.cat.wal = none ∧ s.cat.writer = none
  bound : s.confirmed ≤ log.length
  offset : s.confirmedLsn = offsetOf log s.confirmed
  stored : loadState s.stateFile = s.confirmedLsn
  rows : Tracks OnDisk s.cat db

theorem Started.durable {log : List LogRecord} {db : Contents} {s : Replica}
    (h : Started log db s) : Durable log db s.confirmed s := by
  have hnone : (log.take s.confirmed).drop s.confirmed = [] := by
    rw [drop_eq_nil_iff, length_take]
    exact Nat.min_le_left _ _
  refine ⟨h.noLog, ⟨Nat.le_refl _, h.bound⟩, h.offset, h.stored, ?_, fun _ => ?_⟩
  · rw [hnone]
    exact h.rows.mono fun e _ g hd => hd.2.held
  · rw [hnone]
    exact h.rows

/-- **A follower loses nothing** in a run in which it crashes only when all it has applied was
flushed.  As long as no batch has stopped with an error, its rows are those of the records up to
the offset in `replication_state.bin`, each applied once; and after a flush these are the rows
that are loaded. -/
theorem replica_durable (log : List LogRecord)
    (hlog : ∀ r ∈ log, r.Valid ∧ Replicable r.name r.body) (hsize : (logBytes log).length < 2 ^ 64)
    (db : Contents) (s₀ : Replica) (hstart : Started log db s₀) (events : List ReplicaEvent)
    (hcond : Run.Along step (fun s e => s.FlushedBeforeCrash log e) s₀ events) :
    ∀ s ∈ Run.states step s₀ events, s.failed = false → ∃ n, s₀.confirmed ≤ n ∧ n ≤ log.length ∧
      loadState s.stateFile = offsetOf log n ∧
      s.cat.Shows (contentsAfter db (((log.take n).drop s₀.confirmed).map content)) ∧
      (s.flushed = true → ∃ cat, load s.cat.dir = .ok cat ∧
        cat.Shows (contentsAfter db (((log.take n).drop s₀.confirmed).map content))) := by
  intro s hs hok
  have h := hcond.invariant (I := fun s => s.failed = false → Durable log db s₀.confirmed s)
    (fun s e hinv he hnext => (hinv (failed_of_step he hnext)).step hlog hsize he hnext)
    (fun _ => hstart.durable) s hs hok
  refine ⟨s.confirmed, h.bound.1, h.bound.2, h.stored.trans h.offset,
    h.rows.shows fun e g hheld => hheld.scan, fun hflushed => ?_⟩
  obtain ⟨_, hload, -, htracks⟩ := (h.settled hflushed).load_noWal h.noLog.1
  exact ⟨_, hload, htracks.shows fun e g hd => hd.2.held.scan⟩

/-! ## A table of one column -/

def oneColumn : Schema :=
  [⟨ascii "a", .int32, true, 0, none⟩]

def createRecord : LogRecord :=
  ⟨createTablePayload (ascii "t") oneColumn, ascii "t", .createTable oneColumn⟩

/-- An `INSERT` of one row. -/
def insertOf (n : BitVec 32) : LogRecord :=
  ⟨((insertPayload (ascii "t") oneColumn [[.int32 n]]).toOption).getD [], ascii "t",
    .insert (logSchema oneColumn) [[.int32 n]]⟩

/-- A leader that has created a table and inserted two rows. -/
def twoRows : List LogRecord :=
  [createRecord, insertOf 1, insertOf 2]

/-- A follower without tables. -/
def newReplica : Replica :=
  ⟨⟨[], [], none, none⟩, walHeaderSize, some (stateBytes walHeaderSize), 0, true, false⟩

/-- What scans of the tables return. -/
def rowsOf (cat : Catalog) : List (Option (List (Nat × Row))) :=
  cat.tables.map fun e => (TableScan.scan e.table).toOption

/-- A crash before the flush: the offset says that the follower has all records, and the table is
empty. -/
theorem crash_loses_rows :
    let s := Run.final step newReplica [.work (.batch (logBody twoRows))]
    loadState s.stateFile = offsetOf twoRows 3 ∧ s.failed = false ∧
      rowsOf s.cat = [some [(0, [.int32 1]), (1, [.int32 2])]] ∧
      (load s.cat.dir).toOption.map rowsOf = some [some []] := by
  decide +kernel

/-- Two batches, each followed by a flush and a crash. -/
def flushedRun : List ReplicaEvent :=
  [.work (.batch (logBody (twoRows.take 2))), .visit (ascii "t"), .work (.flush none), .crash,
    .work (.batch (logBody (twoRows.drop 2))), .work (.flush none), .crash]

theorem insertOf_valid (n : BitVec 32) : (insertOf n).Valid := by
  have hname : (ascii "t").length < 2 ^ 16 := by decide
  refine encodes_insert rfl hname ⟨by decide, show 1 < 2 ^ 32 by decide, ?_, ?_⟩
  · intro row hrow
    rw [mem_singleton.mp hrow]
    rfl
  · intro row hrow v hv
    rw [mem_singleton.mp hrow] at hv
    rw [mem_singleton.mp hv]
    rfl

theorem replica_durable_flushedRun :
    Run.Along step (fun s e => s.FlushedBeforeCrash twoRows e) newReplica flushedRun ∧
    ∀ s ∈ Run.states step newReplica flushedRun, s.failed = false →
      ∃ n, newReplica.confirmed ≤ n ∧ n ≤ twoRows.length ∧
        loadState s.stateFile = offsetOf twoRows n ∧
        s.cat.Shows (contentsAfter (fun _ => none)
          (((twoRows.take n).drop newReplica.confirmed).map content)) ∧
        (s.flushed = true → ∃ cat, load s.cat.dir = .ok cat ∧
          cat.Shows (contentsAfter (fun _ => none)
            (((twoRows.take n).drop newReplica.confirmed).map content))) := by
  have hcond : Run.Along step (fun s e =>
      s.FlushedBeforeCrash twoRows e) newReplica flushedRun := by
    decide +kernel
  refine ⟨hcond, replica_durable twoRows ?_ (by decide +kernel) (fun _ => none) newReplica ?_
    flushedRun hcond⟩
  · intro r hr
    simp only [twoRows, mem_cons, not_mem_nil, or_false] at hr
    rcases hr with rfl | rfl | rfl
    · exact ⟨encodes_createTable (by decide) (by decide), by decide⟩
    · exact ⟨insertOf_valid 1, trivial⟩
    · exact ⟨insertOf_valid 2, trivial⟩
  · refine ⟨⟨rfl, rfl⟩, Nat.zero_le _, rfl, by decide, nodup_nil, ?_, ?_, ?_⟩
    · exact nofun
    · exact nofun
    · exact fun name g hg => nomatch hg

end Replica
end NyxDb.Replication
