import NyxDb.Lib.Run
import NyxDb.Wal.Consumed

/-!
# Streaming the log

The leader serves its log by byte offset; a follower pulls from the offset it has confirmed,
applies the records it finds in the answer and moves its offset by the bytes the reader used.
A checkpoint of the leader removes the log, and the next record starts a new one at the same
offsets; an offset beyond the new log is answered with `STALE`, and the follower fetches a
snapshot.

Beside what the program keeps, the system records all records that were ever logged, in which
log the offset of the follower lies, and what the follower has applied since its start or its
last snapshot.
-/

namespace NyxDb.Replication

/-! ## The log of the leader -/

/-- A logged record and its payload. -/
structure LogRecord where
  payload : Bytes
  name : Bytes
  body : WalBody
  deriving DecidableEq, Repr

namespace LogRecord

/-- The payload is read back as the record. -/
def Valid (r : LogRecord) : Prop :=
  Encodes r.payload r.name r.body

/-- What is applied of a record. -/
def content (r : LogRecord) : Bytes × WalBody :=
  (r.name, r.body)

def size (r : LogRecord) : Nat :=
  (recordBytes r.payload).length

end LogRecord

def logBody (log : List LogRecord) : Bytes :=
  log.flatMap fun r => recordBytes r.payload

/-- The file of a log. -/
def logBytes (log : List LogRecord) : Bytes :=
  walHeader ++ logBody log

/-- The offset at which record `j` starts. -/
def offsetOf (log : List LogRecord) (j : Nat) : Nat :=
  (logBytes (log.take j)).length

/-! ## The registry of followers -/

structure FollowerState where
  nodeId : Bytes
  confirmedLsn : Nat
  stale : Bool
  deriving DecidableEq, Repr

def uint64Max : Nat := 2 ^ 64 - 1

namespace FollowerRegistry

def upsert (registry : List FollowerState) (nodeId : Bytes) (confirmedLsn : Nat) :
    List FollowerState :=
  ⟨nodeId, confirmedLsn, false⟩ :: registry.filter fun s => s.nodeId ≠ nodeId

def evictStale (registry : List FollowerState) (leaderLsn maxLagBytes : Nat) : List FollowerState :=
  registry.map fun s =>
    if s.confirmedLsn < leaderLsn ∧ maxLagBytes < leaderLsn - s.confirmedLsn then
      { s with stale := true }
    else s

def minConfirmedLsn (registry : List FollowerState) : Nat :=
  (registry.filter fun s => !s.stale).foldl (fun m s => min m s.confirmedLsn) uint64Max

end FollowerRegistry

/-! ## The leader -/

/-- The leader: the records of its log, if there is one, and its followers. -/
structure LeaderNode where
  wal : Option (List LogRecord)
  registry : List FollowerState
  maxWalLagBytes : Nat
  deriving DecidableEq, Repr

/-- An answer to a pull. -/
inductive Answer where
  | stale
  | batch (fromOffset : Nat) (data : Bytes)
  deriving DecidableEq, Repr

namespace LeaderNode

def records (l : LeaderNode) : List LogRecord :=
  l.wal.getD []

/-- `WalStreamer::current_size`; it is also `current_wal_lsn`. -/
def walSize (l : LeaderNode) : Nat :=
  match l.wal with
  | none => 0
  | some log => (logBytes log).length

def getBatch (l : LeaderNode) (fromOffset maxBytes : Nat) : Bytes :=
  match l.wal with
  | none => []
  | some log => ((logBytes log).drop fromOffset).take maxBytes

/-- The answer to `REPL_WAL_PULL`. -/
def servePull (l : LeaderNode) (fromOffset maxBytes : Nat) : Answer :=
  if fromOffset = 0 ∨ 0 < l.walSize ∧ l.walSize < fromOffset then .stale
  else .batch fromOffset (l.getBatch fromOffset maxBytes)

def log (l : LeaderNode) (r : LogRecord) : LeaderNode :=
  { l with wal := some (l.records ++ [r]) }

/-- `flush_all`: the log is removed unless a follower still needs it. -/
def checkpoint (l : LeaderNode) : LeaderNode :=
  if l.walSize ≤ FollowerRegistry.minConfirmedLsn l.registry then { l with wal := none } else l

/-- The answer to `REPL_WAL_ACK`. -/
def serveAck (l : LeaderNode) (nodeId : Bytes) (confirmedLsn : Nat) : LeaderNode :=
  let registry := FollowerRegistry.upsert l.registry nodeId confirmedLsn
  { l with registry := FollowerRegistry.evictStale registry l.walSize l.maxWalLagBytes }

/-- The offset that a snapshot tells to go on from. -/
def resumeLsn (l : LeaderNode) : Nat :=
  if l.walSize = 0 then walHeaderSize else l.walSize

end LeaderNode

/-! ## The follower -/

/-- The follower: its offset and the answers it has not looked at. -/
structure FollowerNode where
  confirmedLsn : Nat
  inbox : List Answer
  deriving DecidableEq, Repr

/-- The records of a batch, as `apply_batch` reads them from its temporary file. -/
def batchRecords (data : Bytes) : List (Bytes × WalBody) :=
  match readAll (walHeader ++ data) with
  | .error _ => []
  | .ok recs => recs.map fun r => (r.tableName, r.body)

/-- `apply_batch`: the records that were applied and the new offset.  If the application of the
record at `failAt` fails, the records before it stay applied and the offset does not move. -/
def applyBatch (f : FollowerNode) (fromOffset : Nat) (data : Bytes) (failAt : Option Nat) :
    List (Bytes × WalBody) × FollowerNode :=
  let records := batchRecords data
  match failAt.filter fun i => decide (i < records.length) with
  | some i => (records.take i, ⟨f.confirmedLsn, []⟩)
  | none =>
    (records, { f with confirmedLsn := fromOffset + bytesConsumed (walHeader ++ data) })

/-! ## The system -/

structure Stream where
  leader : LeaderNode
  follower : FollowerNode
  /-- All records that were logged, in order. -/
  history : List LogRecord
  /-- The number of logs that were removed. -/
  removed : Nat
  /-- The number of logs that were removed before the log the offset is of. -/
  epoch : Nat
  /-- The number of records the follower had at its start or in its last snapshot. -/
  base : Nat
  /-- What the follower has applied since. -/
  applied : List (Bytes × WalBody)

/-- What can happen.  A batch may be cut at any number of bytes, the application of any record
may fail, and acknowledgements of any follower may come with any offset. -/
inductive StreamEvent where
  | log (r : LogRecord)
  | flushAll
  | ack (nodeId : Bytes) (confirmedLsn : Nat)
  | pull (maxBytes : Nat)
  | receive (failAt : Option Nat)
  | reconnect
  deriving DecidableEq, Repr

namespace Stream

/-- The leader may have removed its log. -/
def withLeader (s : Stream) (l : LeaderNode) : Stream :=
  { s with
    leader := l
    removed := if s.leader.wal.isSome ∧ l.wal.isNone then s.removed + 1 else s.removed }

/-- The follower replaces its data by that of the leader, who flushes first. -/
def snapshotResync (s : Stream) : Stream :=
  let s' := s.withLeader s.leader.checkpoint
  { s' with
    follower := { s'.follower with confirmedLsn := s'.leader.resumeLsn }
    epoch := s'.removed
    base := s'.history.length
    applied := [] }

/-- The follower takes the next answer.  An error ends the connection, and with it the answers
that were on their way. -/
def receive (s : Stream) (failAt : Option Nat) : Stream :=
  match s.follower.inbox with
  | [] => s
  | .stale :: inbox => { s with follower := { s.follower with inbox := inbox } }.snapshotResync
  | .batch fromOffset data :: inbox =>
    let f := { s.follower with inbox := inbox }
    if data = [] then { s with follower := f }
    else
      let (records, f') := applyBatch f fromOffset data failAt
      { s with follower := f', applied := s.applied ++ records }

/-- The answer to a pull is made at once; it may be looked at later. -/
def pull (s : Stream) (maxBytes : Nat) : Stream :=
  let answer := s.leader.servePull s.follower.confirmedLsn maxBytes
  { s with follower := { s.follower with inbox := s.follower.inbox ++ [answer] } }

def step (s : Stream) : StreamEvent → Stream
  | .log r => { s with leader := s.leader.log r, history := s.history ++ [r] }
  | .flushAll => s.withLeader s.leader.checkpoint
  | .ack nodeId confirmedLsn =>
    { s with leader := s.leader.serveAck nodeId confirmedLsn }
  | .pull maxBytes => s.pull maxBytes
  | .receive failAt => s.receive failAt
  | .reconnect => { s with follower := { s.follower with inbox := [] } }

end Stream
end NyxDb.Replication
