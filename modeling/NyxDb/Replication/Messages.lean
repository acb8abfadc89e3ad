import NyxDb.Replication.ElectionState

/-!
# The frames of an election

A candidate opens a connection to every peer, sends its request and closes the connection a
moment later.  The request reaches `handleReplFrame` of the peer and is decoded to what was
encoded.  The answer is one byte, without the term; it comes back on the connection of the
candidate, whose frame handler keeps the type of a frame and drops its payload.  So no answer is
ever given to the election manager of the candidate; and `handleReplFrame`, which would pass an
answer on, takes none of less than nine bytes.
-/

namespace NyxDb.Replication

open ElectionManager

/-! ## Frames -/

inductive FrameType where
  | replHeartbeat
  | replVoteReq
  | replVoteResp
  deriving DecidableEq, Repr

def FrameType.code : FrameType → UInt8
  | .replHeartbeat => 0x30
  | .replVoteReq => 0x31
  | .replVoteResp => 0x32

def frameHeaderSize : Nat := 9

def encodeStr (s : Bytes) : Bytes :=
  leBytes 2 s.length ++ s

/-- A frame: its length, its type, the number of the query and the payload. -/
def frameBytes (type : FrameType) (queryId : Nat) (payload : Bytes) : Bytes :=
  leBytes 4 (frameHeaderSize + payload.length) ++ (type.code :: (leBytes 4 queryId ++ payload))

/-- The type and the payload of the first frame of a buffer, once it is complete. -/
def decodeFrame (buffer : Bytes) : Option (UInt8 × Bytes) :=
  if buffer.length < frameHeaderSize then none
  else if buffer.length < leNat (buffer.take 4) then none
  else some (buffer.getD 4 0,
    (buffer.drop frameHeaderSize).take (leNat (buffer.take 4) - frameHeaderSize))

def voteReqPayload (term : Nat) (nodeId : Bytes) (walLsn : Nat) : Bytes :=
  leBytes 8 term ++ (encodeStr nodeId ++ leBytes 8 walLsn)

/-- The answer to a request. -/
def voteRespPayload (granted : Bool) : Bytes :=
  [if granted then 1 else 0]

/-! ## The receiving side -/

/-- What a frame makes the replication manager ask of its election manager. -/
inductive Call where
  | onHeartbeat (term : Nat) (leaderId : Bytes)
  | onVoteReq (term : Nat) (candidate : Bytes) (walLsn : Nat)
  | onVoteResp (term : Nat) (granted : Bool)
  deriving DecidableEq, Repr

/-- A name that does not fit the payload is taken for empty. -/
def decodeHeartbeat (p : Bytes) : Option Call :=
  if p.length < 8 then none
  else
    let nameLen := if 10 ≤ p.length then leNat ((p.drop 8).take 2) else 0
    let leaderId := if 0 < nameLen ∧ 10 + nameLen ≤ p.length then (p.drop 10).take nameLen else []
    some (.onHeartbeat (leNat (p.take 8)) leaderId)

def decodeVoteReq (p : Bytes) : Option Call :=
  if p.length < 10 then none
  else
    let nameLen := leNat ((p.drop 8).take 2)
    if p.length < 10 + nameLen + 8 then none
    else some (.onVoteReq (leNat (p.take 8)) ((p.drop 10).take nameLen)
      (leNat ((p.drop (10 + nameLen)).take 8)))

def decodeVoteResp (p : Bytes) : Option Call :=
  if p.length < 9 then none
  else some (.onVoteResp (leNat (p.take 8)) (p.getD 8 0 != 0))

/-- The frames of `handle_repl_frame` that are for the election manager. -/
def handleReplFrame (type : UInt8) (payload : Bytes) : Option Call :=
  if type = FrameType.replHeartbeat.code then decodeHeartbeat payload
  else if type = FrameType.replVoteReq.code then decodeVoteReq payload
  else if type = FrameType.replVoteResp.code then decodeVoteResp payload
  else none

/-- A voter that receives a frame: its new state and the frames it answers with. -/
def serve (voter : ElectionManager) (myLsn : Nat) (frame : Bytes) : ElectionManager × List Bytes :=
  match decodeFrame frame with
  | none => (voter, [])
  | some (type, payload) =>
    match handleReplFrame type payload with
    | some (.onVoteReq term candidate walLsn) =>
      let (m, outputs) := voter.handleVoteReq myLsn term candidate walLsn
      (m, (responsesOf outputs).map fun granted =>
        frameBytes .replVoteResp 0 (voteRespPayload granted))
    | some (.onHeartbeat term leaderId) => ((voter.handleHeartbeat term leaderId).1, [])
    | some (.onVoteResp term granted) => ((voter.handleVoteResp term granted).1, [])
    | none => (voter, [])

/-! ## The connection of the candidate -/

/-- The connection of `fire_and_forget`: the types of the frames that came in, and what they
made it ask of the election manager. -/
structure PeerConnection where
  queue : List UInt8
  calls : List Call
  deriving DecidableEq, Repr

/-- The frame handler queues the type of a frame; nobody looks at the queue after `AUTH_OK`. -/
def PeerConnection.receive (c : PeerConnection) (frame : Bytes) : PeerConnection :=
  match decodeFrame frame with
  | none => c
  | some (type, _) => { c with queue := c.queue ++ [type] }

/-- A request of a candidate is delivered to a voter, and the answers to the candidate.  The
result is the voter and the connection. -/
def voteExchange (candidate : ElectionManager) (walLsn : Nat) (voter : ElectionManager)
    (myLsn : Nat) : ElectionManager × PeerConnection :=
  let request := frameBytes .replVoteReq 0
    (voteReqPayload candidate.currentTerm candidate.config.nodeId walLsn)
  let (voter', replies) := serve voter myLsn request
  (voter', replies.foldl PeerConnection.receive ⟨[], []⟩)

/-! ## The way of a vote -/

/-- Whatever frames come back, the connection asks nothing of the election manager. -/
theorem calls_receive (frames : List Bytes) (c : PeerConnection) :
    (frames.foldl PeerConnection.receive c).calls = c.calls := by
  induction frames generalizing c with
  | nil => rfl
  | cons frame frames ih =>
    rw [List.foldl_cons, ih]
    unfold PeerConnection.receive
    cases decodeFrame frame <;> rfl

/-- **Vote answers are lost.**  For no request, voter and decision is the answer of the voter given
to the election manager of the candidate; and an answer that came to `handleReplFrame` would be
too short for it. -/
theorem vote_answer_never_arrives (candidate : ElectionManager) (walLsn : Nat)
    (voter : ElectionManager) (myLsn : Nat) (granted : Bool) :
    ((voteExchange candidate walLsn voter myLsn).2.calls =
      [.onVoteResp (voteExchange candidate walLsn voter myLsn).1.currentTerm granted] ↔ False) ∧
    handleReplFrame FrameType.replVoteResp.code (voteRespPayload granted) = none := by
  constructor
  · have hcalls : (voteExchange candidate walLsn voter myLsn).2.calls = [] := by
      exact calls_receive _ _
    rw [hcalls]
    exact ⟨fun h => (nomatch h), False.elim⟩
  · cases granted <;> rfl

/-- A follower of term 1 that asks for votes, and a voter that grants its request: the vote is
cast, the answer is on the connection, and the candidate does not hear of it. -/
theorem granted_vote_is_lost :
    let candidate := ((create History.followerB (some (stateBytes 1 []))).start.onTimeout 6).1
    let voter := (create ⟨ascii "c", .follower, History.followerB.peerAddrs⟩ none).start
    candidate.role = .candidate ∧ candidate.currentTerm = 2 ∧
    (voteExchange candidate 6 voter 6).1.votedFor = ascii "b" ∧
    (voteExchange candidate 6 voter 6).2 = ⟨[FrameType.replVoteResp.code], []⟩ := by
  decide

end NyxDb.Replication
