import NyxDb.Replication.Candidacy
import NyxDb.Replication.StreamRuns

/-!
# The data of a cluster

A cluster of nodes that elect, log and stream.  The offset a node gives to the election is the
size of its own log.  A node writes this log only while it leads: what it applies as a follower is
not logged, and a checkpoint removes the log.

Beside what the program keeps, a node has the records it has logged or applied, in this order, and
the log its offset is of.  Who may log and who may be pulled from is left open, which gives more
runs than the program has.

The condition on the runs speaks of what the nodes have and of the requests on their way, never of a
vote that is given.  A node stands only if the sizes of the logs are right about the records
(`Foremost`); a node that gets records, a shorter log or an older term has no request on its way
that it could still grant, unless of the node it follows (`Unasked`); and who has voted applies
nothing until the candidate has won or lost (`Unpledged`).
-/

namespace NyxDb.Replication

open LogRecord

structure DataNode where
  /-- Its own log and what it knows of its followers. -/
  leader : LeaderNode
  confirmedLsn : Nat
  /-- All records it has logged or applied. -/
  records : List (Bytes × WalBody)
  /-- How often its log was removed, or its records were extended without its log. -/
  removed : Nat
  /-- The node its offset is of, with the count of this node at that time. -/
  source : Option (Bytes × Nat)
  deriving DecidableEq, Repr

structure ReplicatedCluster where
  sys : System
  data : Bytes → DataNode

/-- What can happen.  A restart keeps some records; a snapshot may be followed by a replay of some
records of the node's own log. -/
inductive ClusterEvent where
  | timeout (id : Bytes)
  | deliver (id : Bytes) (message : Message)
  | restart (id : Bytes) (kept : Nat)
  | log (id : Bytes) (r : LogRecord)
  | flushAll (id : Bytes)
  | ack (id nodeId : Bytes) (confirmedLsn : Nat)
  | pull (id source : Bytes) (maxBytes : Nat) (failAt : Option Nat)
      (replayed : List (Bytes × WalBody))
  deriving DecidableEq, Repr

namespace DataNode

/-- The log may have been removed. -/
def withLog (d : DataNode) (l : LeaderNode) : DataNode :=
  { d with
    leader := l
    removed := if d.leader.wal.isSome ∧ l.wal.isNone then d.removed + 1 else d.removed }

/-- `flush_all`: only a leader waits for its followers. -/
def flushAll (d : DataNode) (isLeader : Bool) : DataNode :=
  d.withLog (if isLeader then d.leader.checkpoint else { d.leader with wal := none })

/-- `Catalog::load` replays the log and removes it; the followers have to announce themselves
again. -/
def restart (d : DataNode) (kept : Nat) : DataNode :=
  { d.withLog ⟨none, [], d.leader.maxWalLagBytes⟩ with records := d.records.take kept }

/-- The data of another node take the place of the node's own. -/
def snapshot (d : DataNode) (source : Bytes) (from' : DataNode)
    (replayed : List (Bytes × WalBody)) : DataNode :=
  { leader := { d.leader with wal := none }
    confirmedLsn := from'.leader.resumeLsn
    records := from'.records ++ replayed
    removed := d.removed + 1
    source := some (source, from'.removed) }

/-- The records of a batch are applied without being logged. -/
def applyBatch (d : DataNode) (fromOffset : Nat) (data : Bytes) (failAt : Option Nat) :
    DataNode :=
  let (records, f) := Replication.applyBatch ⟨d.confirmedLsn, []⟩ fromOffset data failAt
  { d with
    confirmedLsn := f.confirmedLsn
    records := d.records ++ records
    removed := d.removed + 1 }

end DataNode

namespace ReplicatedCluster

def init (C : Cluster) (maxWalLagBytes : Nat) : ReplicatedCluster :=
  ⟨C.init, fun _ => ⟨⟨none, [], maxWalLagBytes⟩, 0, [], 0, none⟩⟩

def setData (s : ReplicatedCluster) (id : Bytes) (d : DataNode) : ReplicatedCluster :=
  { s with data := Function.update s.data id d }

/-- What a node has applied. -/
def applied (s : ReplicatedCluster) (id : Bytes) : List (Bytes × WalBody) :=
  (s.data id).records

/-- The offset a node gives to the election. -/
def currentWalLsn (s : ReplicatedCluster) (id : Bytes) : Nat :=
  (s.data id).leader.walSize

def isLeader (s : ReplicatedCluster) (id : Bytes) : Bool :=
  (s.sys.nodes id).role = .leader

def log (s : ReplicatedCluster) (id : Bytes) (r : LogRecord) : ReplicatedCluster :=
  let d := s.data id
  s.setData id
    { d with leader := d.leader.log r, records := d.records ++ [r.content], source := none }

def flushAll (s : ReplicatedCluster) (id : Bytes) : ReplicatedCluster :=
  s.setData id ((s.data id).flushAll (s.isLeader id))

/-- A pull and what the follower makes of the answer.  The sender of a snapshot flushes first. -/
def pull (s : ReplicatedCluster) (id source : Bytes) (maxBytes : Nat) (failAt : Option Nat)
    (replayed : List (Bytes × WalBody)) : ReplicatedCluster :=
  match (s.data source).leader.servePull (s.data id).confirmedLsn maxBytes with
  | .stale =>
    let s' := s.flushAll source
    s'.setData id ((s'.data id).snapshot source (s'.data source) replayed)
  | .batch fromOffset data =>
    if data = [] then s
    else s.setData id ((s.data id).applyBatch fromOffset data failAt)

/-- What an event is to the election. -/
def action (s : ReplicatedCluster) : ClusterEvent → Option Action
  | .timeout id => some (.timeout id (s.currentWalLsn id))
  | .deliver id message => some (.deliver id message (s.currentWalLsn id))
  | .restart id _ => some (.restart id)
  | _ => none

/-- What an event is to the data. -/
def handleData (s : ReplicatedCluster) : ClusterEvent → ReplicatedCluster
  | .timeout _ => s
  | .deliver _ _ => s
  | .restart id kept => s.setData id ((s.data id).restart kept)
  | .log id r => s.log id r
  | .flushAll id => s.flushAll id
  | .ack id nodeId confirmedLsn =>
    s.setData id { s.data id with leader := (s.data id).leader.serveAck nodeId confirmedLsn }
  | .pull id source maxBytes failAt replayed => s.pull id source maxBytes failAt replayed

def step (s : ReplicatedCluster) (e : ClusterEvent) : ReplicatedCluster :=
  match s.action e with
  | none => s.handleData e
  | some a => { s.handleData e with sys := s.sys.step a }

/-- The votes that are granted in an event: voter and candidate. -/
def granted (s : ReplicatedCluster) : ClusterEvent → List (Bytes × Bytes)
  | .deliver id (.frame (.voteReq term candidate walLsn)) =>
    if ((s.sys.nodes id).noticeTerm term).grants (s.currentWalLsn id) term candidate walLsn
    then [(id, candidate)] else []
  | _ => []

/-- The writer logs what can be read back. -/
def Logged : ClusterEvent → Prop
  | .log _ r => r.Valid
  | _ => True

/-- A node does not pull from itself, and replays its own log at most. -/
def Streams (s : ReplicatedCluster) : ClusterEvent → Prop
  | .pull id source _ _ replayed => id ≠ source ∧
      replayed.Sublist ((s.data id).leader.records.map content)
  | _ => True

def Possible (C : Cluster) (s : ReplicatedCluster) (e : ClusterEvent) : Prop :=
  (∀ a ∈ s.action e, s.sys.Possible C a) ∧ s.Streams e

/-! ## The runs -/

/-- The requests on their way to a node: term, candidate and size of the candidate's log. -/
def requests (s : ReplicatedCluster) (id : Bytes) : List (Nat × Bytes × Nat) :=
  s.sys.sent.filterMap fun x =>
    match x with
    | (dest, .frame (.voteReq term candidate walLsn)) =>
      if dest = id then some (term, candidate, walLsn) else none
    | _ => none

/-- A request is of an older term or shows a smaller log. -/
def Refuses (s : ReplicatedCluster) (id : Bytes) (x : Nat × Bytes × Nat) : Prop :=
  x.1 < (s.sys.nodes id).currentTerm ∨ x.2.2 < s.currentWalLsn id

/-- A node refuses all requests of others on their way to it, but for those of the node whose log
it follows. -/
def Unasked (s : ReplicatedCluster) (id : Bytes) : Prop :=
  ∀ x ∈ s.requests id, x.2.1 ≠ id → s.Refuses id x ∨
    (s.data id).source = some (x.2.1, (s.data x.2.1).removed)

/-- A node has the same records, a log that is not shorter and a term that is not older. -/
def Unchanged (s s' : ReplicatedCluster) (id : Bytes) : Prop :=
  s'.applied id = s.applied id ∧ s.currentWalLsn id ≤ s'.currentWalLsn id ∧
    (s.sys.nodes id).currentTerm ≤ (s'.sys.nodes id).currentTerm

/-- Whose log is not longer has no records that the node lacks. -/
def Foremost (C : Cluster) (s : ReplicatedCluster) (id : Bytes) : Prop :=
  ∀ v ∈ C.ids, s.currentWalLsn v ≤ s.currentWalLsn id → s.applied v <+: s.applied id

/-- Who stands is foremost. -/
def Stands (C : Cluster) (s : ReplicatedCluster) : ClusterEvent → Prop
  | .timeout id => (s.sys.nodes id).role = .leader ∨ s.Foremost C id
  | _ => True

/-- A node has voted for no other node that is still a candidate with this vote. -/
def Unpledged (s : ReplicatedCluster) (id : Bytes) : Prop :=
  ∀ x ∈ s.sys.votes, x.1 = id → x.2.2 ≠ id → (s.sys.nodes x.2.2).role = .candidate →
    (s.sys.nodes x.2.2).currentTerm ≠ x.2.1

/-- A snapshot replaces no record, and a batch is of the log the offset is of and holds whole
records. -/
def Receives (s : ReplicatedCluster) (id source : Bytes) (maxBytes : Nat) (failAt : Option Nat)
    (replayed : List (Bytes × WalBody)) : Answer → Prop
  | .stale => s.applied id <+: s.applied source ∧ replayed = []
  | .batch fromOffset data => data = [] ∨
      (s.data id).source = some (source, (s.data source).removed) ∧
      (s.data source).leader.EndsOnRecord fromOffset maxBytes ∧ (failAt = none ∨ failAt = some 0)

/-- A restart loses no record, and who has voted applies nothing until the candidate has won or
lost. -/
def Keeps (s : ReplicatedCluster) : ClusterEvent → Prop
  | .restart id kept => (s.applied id).length ≤ kept
  | .log id _ => s.Unpledged id
  | .pull id source maxBytes failAt replayed => s.Unpledged id ∧
      s.Receives id source maxBytes failAt replayed
        ((s.data source).leader.servePull (s.data id).confirmedLsn maxBytes)
  | _ => True

/-- The steps of the runs: those of the election are as for one leader per term, who changes is not
asked for a vote, and no record is lost. -/
def KeepsPledges (C : Cluster) (s : ReplicatedCluster) (e : ClusterEvent) : Prop :=
  (∀ a ∈ s.action e, s.sys.CountsVotesOnce C a) ∧ s.Stands C e ∧
    (∀ v ∈ C.ids, s.Unchanged (s.step e) v ∨ (s.step e).Unasked v) ∧ s.Keeps e

instance (s : ReplicatedCluster) : DecidablePred s.Streams := fun e => by
  cases e <;> dsimp only [Streams] <;> infer_instance

instance (C : Cluster) (s : ReplicatedCluster) : DecidablePred (s.Possible C) := fun e =>
  inferInstanceAs (Decidable ((∀ a ∈ s.action e, s.sys.Possible C a) ∧ s.Streams e))

instance (s : ReplicatedCluster) : DecidablePred s.Unpledged := fun id => by
  dsimp only [Unpledged]
  infer_instance

instance (s : ReplicatedCluster) (id source : Bytes) (maxBytes : Nat) (failAt : Option Nat)
    (replayed : List (Bytes × WalBody)) :
    DecidablePred (s.Receives id source maxBytes failAt replayed) := fun answer => by
  cases answer <;> dsimp only [Receives] <;> infer_instance

instance (s : ReplicatedCluster) : DecidablePred s.Keeps := fun e => by
  cases e <;> dsimp only [Keeps] <;> infer_instance

instance (C : Cluster) (s : ReplicatedCluster) : DecidablePred (s.Stands C) := fun e => by
  cases e <;> dsimp only [Stands, Foremost] <;> infer_instance

instance (C : Cluster) (s : ReplicatedCluster) : DecidablePred (s.KeepsPledges C) := fun e => by
  dsimp only [KeepsPledges, Unchanged, Unasked, Refuses]
  infer_instance

end ReplicatedCluster
end NyxDb.Replication
