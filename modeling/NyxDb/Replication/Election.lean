import NyxDb.Storage.Error
import Mathlib.Data.Nat.Bitwise

/-!
# The election manager

A node keeps a term, the candidate it voted for in that term, the leader it knows and its role.
Every message is handled to its end before the next one, so a handler is a function of the state
and of the message; it returns the new state and what it did to the outside, in order.

`persistState` writes `election_state.bin` in full and renames it into place, so a crash finds
the old file or the new one.
-/

namespace NyxDb.Replication

open List

/-! ## Configuration -/

inductive NodeRole where
  | standalone
  | leader
  | follower
  | shardCoordinator
  | replicaCoordinator
  deriving DecidableEq, Repr

structure NodeConfig where
  nodeId : Bytes
  role : NodeRole
  peerAddrs : List Bytes
  deriving DecidableEq, Repr

/-- The position of the last `:` of an address. -/
def lastColon (addr : Bytes) : Option Nat :=
  (addr.reverse.findIdx? fun b => b == 58).map fun i => addr.length - 1 - i

/-- The host of an address.  An address without a port, or with an empty one, is a host. -/
def parseAddr (addr : Bytes) : Bytes :=
  match lastColon addr with
  | none => addr
  | some colon => if addr.length ≤ colon + 1 then addr else addr.take colon

namespace NodeConfig

def nonSelfPeers (c : NodeConfig) : List Bytes :=
  c.peerAddrs.filter fun peer => parseAddr peer ≠ c.nodeId

/-- The number of peers in 32 bits; a node without peers is a cluster of its own. -/
def clusterSize (c : NodeConfig) : Nat :=
  if c.peerAddrs.length % 2 ^ 32 = 0 then 1 else c.peerAddrs.length % 2 ^ 32

def majority (c : NodeConfig) : Nat :=
  (c.clusterSize + 1) % 2 ^ 32 / 2

end NodeConfig

/-! ## State -/

/-- The role a node plays in the election. -/
inductive Role where
  | follower
  | candidate
  | leader
  deriving DecidableEq, Repr

/-- A frame for the election manager of another node. -/
inductive Frame where
  | heartbeat (term : Nat) (leaderId : Bytes)
  | voteReq (term : Nat) (candidate : Bytes) (walLsn : Nat)
  deriving DecidableEq, Repr

/-- What a handler does to the outside. -/
inductive Output where
  | send (peer : Bytes) (frame : Frame)
  | respond (granted : Bool)
  | becameLeader
  | becameFollower
  deriving DecidableEq, Repr

structure ElectionManager where
  config : NodeConfig
  currentTerm : Nat
  votedFor : Bytes
  currentLeader : Bytes
  role : Role
  votesReceived : Nat
  /-- The contents of `election_state.bin`. -/
  stateFile : Option Bytes
  deriving DecidableEq, Repr

namespace ElectionManager

/-! ## The state file -/

/-- The bytes of `election_state.bin`. -/
def stateBytes (term : Nat) (votedFor : Bytes) : Bytes :=
  leBytes 8 term ++ (leBytes 2 votedFor.length ++ votedFor)

/-- The term and the vote that a file gives to a node that starts. -/
def readState : Option Bytes → Nat × Bytes
  | none => (0, [])
  | some bs =>
    if bs.length < 10 then (0, [])
    else
      let length := leNat ((bs.drop 8).take 2)
      let name := bs.drop 10
      (leNat (bs.take 8), if name.length < length then [] else name.take length)

def persistState (m : ElectionManager) (term : Nat) (votedFor : Bytes) : ElectionManager :=
  { m with stateFile := some (stateBytes term votedFor) }

/-- A process that has not started its election yet. -/
def create (config : NodeConfig) (stateFile : Option Bytes) : ElectionManager :=
  ⟨config, 0, [], [], .follower, 0, stateFile⟩

def loadState (m : ElectionManager) : ElectionManager :=
  { m with currentTerm := (readState m.stateFile).1, votedFor := (readState m.stateFile).2 }

/-- The configured leader leads from the start, in the term of its file or in term 1. -/
def lead (m : ElectionManager) : ElectionManager :=
  { m with
    role := .leader
    currentTerm := if m.currentTerm = 0 then 1 else m.currentTerm
    currentLeader := m.config.nodeId }

def start (m : ElectionManager) : ElectionManager :=
  if m.config.role = .leader then m.loadState.lead else m.loadState

variable {m : ElectionManager} {term : Nat}

theorem start_of_leader (h : m.config.role = .leader) : m.start = m.loadState.lead :=
  if_pos h

theorem start_of_ne_leader (h : m.config.role ≠ .leader) : m.start = m.loadState :=
  if_neg h

/-- A crash leaves the file; the process is started again. -/
def restart (m : ElectionManager) : ElectionManager :=
  (create m.config m.stateFile).start

/-! ## Handlers -/

def sendToPeers (m : ElectionManager) (frame : Frame) : List Output :=
  m.config.nonSelfPeers.map fun peer => .send peer frame

def sendHeartbeats (m : ElectionManager) : List Output :=
  if m.role = .leader then m.sendToPeers (.heartbeat m.currentTerm m.config.nodeId) else []

def broadcastVoteReq (m : ElectionManager) (walLsn : Nat) : List Output :=
  m.sendToPeers (.voteReq m.currentTerm m.config.nodeId walLsn)

/-- The state of a node that has enough votes. -/
def elected (m : ElectionManager) : ElectionManager :=
  { m with role := .leader, currentLeader := m.config.nodeId, votesReceived := 0 }

def becomeLeader (m : ElectionManager) : ElectionManager × List Output :=
  (m.elected, .becameLeader :: m.elected.sendHeartbeats)

/-- A node that leaves its role for that of a follower says so. -/
def steppedDown (m : ElectionManager) : List Output :=
  if m.role = .follower then [] else [.becameFollower]

/-- Another node leads the current term. -/
def follow (m : ElectionManager) (leaderId : Bytes) : ElectionManager :=
  { m with role := .follower, currentLeader := leaderId }

/-- A term later than the current one begins. -/
def enterTerm (m : ElectionManager) (term : Nat) : ElectionManager :=
  { m with currentTerm := term, votedFor := [], role := .follower }

def handleHeartbeat (m : ElectionManager) (term : Nat) (leaderId : Bytes) :
    ElectionManager × List Output :=
  if term < m.currentTerm then (m, [])
  else if m.currentTerm < term then
    (((m.enterTerm term).follow leaderId).persistState term [], m.steppedDown)
  else
    match m.role with
    | .candidate => (m.follow leaderId, m.steppedDown)
    | .follower => (m.follow leaderId, [])
    | .leader =>
      if leaderId ≠ m.config.nodeId then
        -- the file loses the vote here, the node keeps it
        let stepped := m.follow leaderId
        (if 0 < m.currentTerm then stepped.persistState m.currentTerm [] else stepped,
          m.steppedDown)
      else (m, [])

/-- The term of a request is entered before the request is judged. -/
def noticeTerm (m : ElectionManager) (term : Nat) : ElectionManager :=
  if m.currentTerm < term then m.enterTerm term else m

/-- The test of a vote request, in the state in which its term is entered. -/
def grants (m : ElectionManager) (myLsn term : Nat) (candidate : Bytes) (walLsn : Nat) : Bool :=
  decide (m.currentTerm ≤ term) && decide (myLsn ≤ walLsn) &&
    (decide (m.votedFor = []) || decide (m.votedFor = candidate))

def vote (m : ElectionManager) (candidate : Bytes) : ElectionManager :=
  { m with votedFor := candidate }.persistState m.currentTerm candidate

/-- `myLsn` is what `get_wal_lsn` returns to the voter. -/
def handleVoteReq (m : ElectionManager) (myLsn term : Nat) (candidate : Bytes) (walLsn : Nat) :
    ElectionManager × List Output :=
  let down := if m.currentTerm < term then m.steppedDown else []
  let entered := m.noticeTerm term
  if entered.grants myLsn term candidate walLsn then
    (entered.vote candidate, down ++ [.respond true])
  else (entered, down ++ [.respond false])

/-- Enter the term of an answer, without a leader. -/
def loseTerm (m : ElectionManager) (term : Nat) : ElectionManager :=
  if m.currentTerm < term then { m.enterTerm term with currentLeader := [] } else m

def countVote (m : ElectionManager) : ElectionManager :=
  { m with votesReceived := (m.votesReceived + 1) % 2 ^ 32 }

/-- The answer does not tell who gave it. -/
def handleVoteResp (m : ElectionManager) (term : Nat) (granted : Bool) :
    ElectionManager × List Output :=
  let entered := m.loseTerm term
  if entered.role ≠ .candidate ∨ term < entered.currentTerm then (entered, [])
  else if granted = false then (entered, [])
  else if entered.countVote.votesReceived < m.config.majority then (entered.countVote, [])
  else entered.countVote.becomeLeader

/-- The state in which a node asks for votes: it has voted for itself. -/
def candidacy (m : ElectionManager) : ElectionManager :=
  { m with
    currentTerm := (m.currentTerm + 1) % 2 ^ 64
    votedFor := m.config.nodeId
    votesReceived := 1
    role := .candidate }.persistState ((m.currentTerm + 1) % 2 ^ 64) m.config.nodeId

def startElection (m : ElectionManager) (walLsn : Nat) : ElectionManager × List Output :=
  if m.config.majority ≤ 1 then
    (m.candidacy.elected, m.candidacy.broadcastVoteReq walLsn ++ m.candidacy.becomeLeader.2)
  else (m.candidacy, m.candidacy.broadcastVoteReq walLsn)

/-- No message came in time. -/
def onTimeout (m : ElectionManager) (walLsn : Nat) : ElectionManager × List Output :=
  if m.role = .leader then (m, m.sendHeartbeats) else m.startElection walLsn

/-! ## What the handlers put out -/

/-- The frames among the outputs, with the peers they go to. -/
def framesOf (outputs : List Output) : List (Bytes × Frame) :=
  outputs.filterMap fun
    | .send peer frame => some (peer, frame)
    | _ => none

/-- The answers among the outputs. -/
def responsesOf (outputs : List Output) : List Bool :=
  outputs.filterMap fun
    | .respond granted => some granted
    | _ => none

section

variable (m : ElectionManager)

theorem framesOf_steppedDown : framesOf m.steppedDown = [] := by
  unfold steppedDown
  split_ifs <;> rfl

theorem responsesOf_steppedDown : responsesOf m.steppedDown = [] := by
  unfold steppedDown
  split_ifs <;> rfl

theorem framesOf_sendToPeers (frame : Frame) :
    framesOf (m.sendToPeers frame) = m.config.nonSelfPeers.map fun peer => (peer, frame) := by
  unfold framesOf sendToPeers
  rw [filterMap_map]
  exact congrFun (filterMap_eq_map (f := fun peer => (peer, frame))) _

variable (myLsn term : Nat)

variable (candidate : Bytes)

variable (walLsn : Nat)

theorem handleVoteReq_fst : (m.handleVoteReq myLsn term candidate walLsn).1 =
      if (m.noticeTerm term).grants myLsn term candidate walLsn then
        (m.noticeTerm term).vote candidate
      else m.noticeTerm term := by
  unfold handleVoteReq
  dsimp only
  split_ifs <;> rfl

theorem handleVoteReq_snd : (m.handleVoteReq myLsn term candidate walLsn).2 =
      (if m.currentTerm < term then m.steppedDown else []) ++
        [.respond ((m.noticeTerm term).grants myLsn term candidate walLsn)] := by
  unfold handleVoteReq
  by_cases hgrant : (m.noticeTerm term).grants myLsn term candidate walLsn = true
  · rw [if_pos hgrant, hgrant]
  · rw [if_neg hgrant, Bool.eq_false_iff.mpr hgrant]

/-- A request is answered once, with the judgement. -/
theorem responsesOf_handleVoteReq : responsesOf (m.handleVoteReq myLsn term candidate walLsn).2 =
      [(m.noticeTerm term).grants myLsn term candidate walLsn] := by
  rw [handleVoteReq_snd, responsesOf, filterMap_append]
  change responsesOf _ ++ _ = _
  split_ifs
  · rw [responsesOf_steppedDown]
    rfl
  · rfl

theorem framesOf_handleVoteReq : framesOf (m.handleVoteReq myLsn term candidate walLsn).2 = [] := by
  rw [handleVoteReq_snd, framesOf, filterMap_append]
  change framesOf _ ++ _ = _
  split_ifs
  · rw [framesOf_steppedDown]
    rfl
  · rfl

end

theorem grants_iff {myLsn walLsn : Nat} {candidate : Bytes} :
    m.grants myLsn term candidate walLsn = true ↔
      m.currentTerm ≤ term ∧ myLsn ≤ walLsn ∧ (m.votedFor = [] ∨ m.votedFor = candidate) := by
  simp [grants, Bool.and_eq_true, Bool.or_eq_true, decide_eq_true_eq, and_assoc]

theorem noticeTerm_of_lt (h : m.currentTerm < term) : m.noticeTerm term = m.enterTerm term :=
  if_pos h

theorem noticeTerm_of_le (h : term ≤ m.currentTerm) : m.noticeTerm term = m :=
  if_neg (Nat.not_lt.mpr h)

end ElectionManager
end NyxDb.Replication
