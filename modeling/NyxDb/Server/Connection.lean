import NyxDb.Lib.Ascii
import NyxDb.Server.Receiver

/-!
# Connections of a server

A connection starts as a pending session.  It waits for the token, then for the first frame that is
neither a notice of a new leader nor the registration of a node, and hands the connection on by the
type of that frame: to a replication session or to a session of a client.  The session gets the
whole buffer, so it handles that frame itself.
-/

namespace NyxDb.Server

open RawFrame

open Replication (encodeStr)

/-- What a connection finds at its server.  `isLeader n` is what the replication manager answers in
the turn `n`. -/
structure Config where
  token : Bytes
  replMgr : Bool
  isLeader : Nat → Bool
  shardCoordinator : Bool
  replicaCoordinator : Bool

/-- Where a statement is executed. -/
inductive Executor where
  | forwardWrite
  | replicaCoordinator
  | shardCoordinator
  | database
  deriving DecidableEq, Repr

/-- What a handler does.  The answer to a statement is not part of it. -/
inductive Effect where
  | send (frame : Bytes)
  | close
  | execute (executor : Executor) (queryId : Nat) (sql : Bytes)
  | shardNotifyLeader (oldAddr newAddr : Bytes)
  | replicaNotifyLeader (oldAddr newAddr : Bytes)
  | registerNode (addr : Bytes) (isLeader : Bool)
  | onHello (nodeId : Bytes) (confirmedLsn : Nat)
  | handleReplFrame (nodeId : Bytes) (type : FrameType)
  deriving DecidableEq, Repr

/-- The statement an effect executes. -/
def Effect.statement : Effect → Option Bytes
  | .execute _ _ sql => some sql
  | _ => none

/-- The statements that are executed. -/
def statements (effects : List Effect) : List Bytes :=
  effects.filterMap Effect.statement

/-- A frame with an error message. -/
def errFrame (queryId : Nat) (type : FrameType) (msg : Bytes) : Bytes :=
  encodeHeader type queryId (2 + msg.length) ++ encodeStr msg

/-! ## Sessions of clients -/

structure Session where
  authed : Bool
  deriving DecidableEq, Repr

namespace Session

def handleAuthReq (cfg : Config) (s : Session) (p : Payload) (queryId : Nat) :
    Session × List Effect :=
  if s.authed then (s, [])
  else if p.len < 2 then (s, [])
  else if p.len < 2 + p.u16 0 then (s, [])
  else if p.slice 2 (p.u16 0) = cfg.token then
    (⟨true⟩, [.send (encodeHeader .authOk queryId 0)])
  else (s, [.send (errFrame queryId .authErr (ascii "invalid token"))])

/-- The first word of a statement is one of those that write. -/
def isWriteSql (sql : Bytes) : Bool :=
  let tok := ((sql.dropWhile isSpace).takeWhile isAlpha).map toUpper
  tok = ascii "INSERT" || tok = ascii "UPDATE" || tok = ascii "DELETE" || tok = ascii "CREATE" ||
    tok = ascii "DROP"

def executor (cfg : Config) (turn : Nat) (sql : Bytes) : Executor :=
  if cfg.replMgr && !cfg.isLeader turn && isWriteSql sql then .forwardWrite
  else if cfg.replicaCoordinator then .replicaCoordinator
  else if cfg.shardCoordinator then .shardCoordinator
  else .database

def handleQuery (cfg : Config) (turn : Nat) (s : Session) (p : Payload) (queryId : Nat) :
    List Effect :=
  if !s.authed then
    [.send (errFrame queryId .authErr (ascii "not authenticated")), .close]
  else if p.len < 2 then []
  else if p.len < 2 + p.u16 0 then []
  else
    let sql := p.slice 2 (p.u16 0)
    [.execute (executor cfg turn sql) queryId sql]

end Session

/-! ## Replication sessions -/

structure ReplicationSession where
  nodeId : Bytes
  deriving DecidableEq, Repr

namespace ReplicationSession

/-- `handle_repl_frame` of the replication manager: a forwarded statement is executed by the
database; of the other types only that they are handled is said.  That a node which does not lead
drops the statement is left out. -/
def handleReplFrame (nodeId : Bytes) (type : FrameType) (p : Payload) : List Effect :=
  .handleReplFrame nodeId type ::
    if type = .replForwardWrite then
      if p.len < 2 then []
      else if p.len < 2 + p.u16 0 then []
      else [.execute .database 0 (p.slice 2 (p.u16 0))]
    else []

def dispatch (cfg : Config) (s : ReplicationSession) (type : FrameType) (p : Payload) :
    ReplicationSession × List Effect :=
  if type = .replHello then
    if p.len < 2 then (s, [])
    else if p.len < 2 + p.u16 0 + 8 then (s, [])
    else
      let nodeId := p.slice 2 (p.u16 0)
      (⟨nodeId⟩, if cfg.replMgr then [.onHello nodeId (p.u64 (2 + p.u16 0))] else [])
  else (s, if cfg.replMgr then handleReplFrame s.nodeId type p else [])

end ReplicationSession

/-! ## Pending sessions -/

inductive PendingState where
  | waitAuth
  | waitType
  deriving DecidableEq, Repr

namespace PendingSession

def onAuthReq (cfg : Config) (p : Payload) (queryId : Nat) : PendingState × List Effect :=
  if 2 ≤ p.len then
    if 2 + p.u16 0 ≤ p.len then
      if p.slice 2 (p.u16 0) = cfg.token then
        (.waitType, [.send (encodeHeader .authOk queryId 0)])
      else (.waitAuth, [.send (errFrame queryId .authErr (ascii "invalid token"))])
    else (.waitAuth, [])
  else (.waitAuth, [])

def onNotifyLeader (cfg : Config) (p : Payload) : List Effect :=
  if 4 ≤ p.len then
    let olen := p.u16 0
    if 2 + olen + 2 ≤ p.len then
      let oldAddr := p.slice 2 olen
      let nlen := p.u16 (2 + olen)
      if 2 + olen + 2 + nlen ≤ p.len then
        let newAddr := p.slice (2 + olen + 2) nlen
        (if cfg.shardCoordinator then [.shardNotifyLeader oldAddr newAddr] else []) ++
          if cfg.replicaCoordinator then [.replicaNotifyLeader oldAddr newAddr] else []
      else []
    else []
  else []

def onRegisterNode (p : Payload) : List Effect :=
  if 3 ≤ p.len then
    let alen := p.u16 0
    if 2 + alen + 1 ≤ p.len then
      [.registerNode (p.slice 2 alen) (p.byteAt (2 + alen) != 0)]
    else []
  else []

end PendingSession

/-! ## The connection -/

/-- Who gets the bytes of a connection. -/
inductive Stage where
  | pending (state : PendingState)
  | client (session : Session)
  | repl (session : ReplicationSession)
  deriving DecidableEq, Repr

/-- The body of the loops of the three sessions. -/
def react (cfg : Config) (turn : Nat) (stage : Stage) (hdr : FrameHeader) (p : Payload) :
    Reaction Stage Effect :=
  match stage with
  | .pending .waitAuth =>
    if hdr.type = .authReq then
      let out := PendingSession.onAuthReq cfg p hdr.queryId
      .passed (.pending out.1) out.2
    else .ignored
  | .pending .waitType =>
    if hdr.type = .notifyLeader then
      .passed (.pending .waitType) (PendingSession.onNotifyLeader cfg p)
    else if hdr.type = .registerNode then
      if cfg.replicaCoordinator then
        .passed (.pending .waitType) (PendingSession.onRegisterNode p)
      else .ignored
    else if hdr.type.isRepl then .handOff (.repl ⟨[]⟩)
    else .handOff (.client ⟨true⟩)
  | .client s =>
    if hdr.type = .authReq then
      let out := s.handleAuthReq cfg p hdr.queryId
      .passed (.client out.1) out.2
    else if hdr.type = .query then
      .passed (.client s) (s.handleQuery cfg turn p hdr.queryId)
    else .ignored
  | .repl s =>
    let out := s.dispatch cfg hdr.type p
    .passed (.repl out.1) out.2

/-- A connection whose stream has just been opened. -/
def newConnection : Receiver Stage Effect where
  state := .pending .waitAuth
  buf := []
  turns := 0
  log := []

/-! ## The client's side -/

/-- The body of the loop of a client connection; its state says whether a frame handler is set, and
its only effect is the call of that handler. -/
def QuicClient.react (_turn : Nat) (onFrame : Bool) (hdr : FrameHeader) (p : Payload) :
    Reaction Bool (FrameType × Nat × Payload) :=
  if onFrame then .passed onFrame [(hdr.type, hdr.queryId, p)] else .ignored

/-! ## The connection as a machine over frames -/

/-- A string with its length before it. -/
def strIn (bs : Bytes) : Option Bytes :=
  if bs.length < 2 then none
  else if bs.length < 2 + leNat (bs.take 2) then none
  else some ((bs.drop 2).take (leNat (bs.take 2)))

/-- A frame that asks for authentication with this token. -/
def RawFrame.authenticates (token : Bytes) (f : RawFrame) : Bool :=
  f.header.type = .authReq && strIn f.payload = some token

/-- The name a node gives itself; behind it stand eight bytes more. -/
def RawFrame.helloName (f : RawFrame) : Option Bytes :=
  if f.header.type = .replHello then
    (strIn f.payload).filter fun name => 2 + name.length + 8 ≤ f.payload.length
  else none

/-- The types that are passed to a handler in a stage. -/
def takes (cfg : Config) : Stage → FrameType → Bool
  | .pending .waitAuth, type => type = .authReq
  | .pending .waitType, type =>
    if type = .notifyLeader then true
    else if type = .registerNode then cfg.replicaCoordinator
    else type.isRepl || type = .authReq || type = .query
  | .client _, type => type = .authReq || type = .query
  | .repl _, _ => true

/-- The stage after a frame. -/
def advance (cfg : Config) : Stage → RawFrame → Stage
  | .pending .waitAuth, f =>
    if f.authenticates cfg.token then .pending .waitType else .pending .waitAuth
  | .pending .waitType, f =>
    if f.header.type = .notifyLeader ∨ f.header.type = .registerNode then .pending .waitType
    else if f.header.type.isRepl then .repl ⟨f.helloName.getD []⟩
    else .client ⟨true⟩
  | .client s, f => .client ⟨s.authed || f.authenticates cfg.token⟩
  | .repl s, f => .repl ⟨f.helloName.getD s.nodeId⟩

/-- The statement of a query. -/
def RawFrame.queried (f : RawFrame) : List Bytes :=
  if f.header.type = .query then (strIn f.payload).toList else []

/-- The statement another node has forwarded. -/
def RawFrame.forwarded (cfg : Config) (f : RawFrame) : List Bytes :=
  if cfg.replMgr = true ∧ f.header.type = .replForwardWrite then (strIn f.payload).toList else []

/-- The statements a frame makes a connection execute. -/
def statementsOf (cfg : Config) : Stage → RawFrame → List Bytes
  | .pending .waitAuth, _ => []
  | .pending .waitType, f => if f.header.type.isRepl then f.forwarded cfg else f.queried
  | .client s, f => if s.authed then f.queried else []
  | .repl _, f => f.forwarded cfg

/-- What is to be seen of a call: the frame and the statements. -/
def seen (hdr : FrameHeader) (p : Payload) (effects : List Effect) :
    (FrameType × Nat × Bytes) × List Bytes :=
  ((hdr.type, hdr.queryId, p.bytes), statements effects)

def emits (cfg : Config) (stage : Stage) (f : RawFrame) : (FrameType × Nat × Bytes) × List Bytes :=
  ((f.header.type, f.header.queryId, f.payload), statementsOf cfg stage f)

section Machine

variable {cfg : Config} {p : Payload} {f : RawFrame}

theorem Payload.Shows.u16_eq {bs : Bytes} (h : p.Shows bs) (hlen : 2 ≤ bs.length) :
    p.u16 0 = leNat (bs.take 2) := by
  rw [Payload.u16, h.slice_eq (by omega), List.drop_zero]

/-- Reading a string as the handlers do: the length, a test, the bytes. -/
theorem Payload.Shows.strIn_eq {bs : Bytes} (h : p.Shows bs) :
    strIn bs = if p.len < 2 then none else if p.len < 2 + p.u16 0 then none
      else some (p.slice 2 (p.u16 0)) := by
  rw [strIn, h.len_eq]
  split
  · rfl
  · rw [← h.u16_eq (by omega)]
    split
    · rfl
    · rw [h.slice_eq (by omega)]

theorem PendingSession.onAuthReq_shows (htype : f.header.type = .authReq)
    (h : p.Shows f.payload) (queryId : Nat) :
    (PendingSession.onAuthReq cfg p queryId).1 =
      if f.authenticates cfg.token then .waitType else .waitAuth := by
  rw [authenticates, htype, h.strIn_eq, PendingSession.onAuthReq]
  by_cases hlen : p.len < 2
  · rw [if_neg (by omega), if_pos hlen]
    rfl
  · by_cases hfits : p.len < 2 + p.u16 0
    · rw [if_pos (by omega), if_neg (by omega), if_neg hlen, if_pos hfits]
      rfl
    · rw [if_pos (by omega), if_pos (by omega), if_neg hlen, if_neg hfits]
      by_cases htoken : p.slice 2 (p.u16 0) = cfg.token
      · simp [htoken]
      · simp [htoken]

theorem Session.handleAuthReq_shows (htype : f.header.type = .authReq)
    (h : p.Shows f.payload) (s : Session) (queryId : Nat) :
    (s.handleAuthReq cfg p queryId).1 = ⟨s.authed || f.authenticates cfg.token⟩ := by
  obtain ⟨authed⟩ := s
  rw [authenticates, htype, h.strIn_eq, Session.handleAuthReq]
  cases authed with
  | true => rfl
  | false =>
    by_cases hlen : p.len < 2
    · simp [hlen]
    · by_cases hfits : p.len < 2 + p.u16 0
      · simp [hlen, hfits]
      · by_cases htoken : p.slice 2 (p.u16 0) = cfg.token
        · simp [hlen, hfits, htoken]
        · simp [hlen, hfits, htoken]

theorem ReplicationSession.dispatch_shows (h : p.Shows f.payload) (s : ReplicationSession) :
    (s.dispatch cfg f.header.type p).1 = ⟨f.helloName.getD s.nodeId⟩ := by
  rw [helloName, ReplicationSession.dispatch]
  by_cases htype : f.header.type = .replHello
  · rw [if_pos htype, if_pos htype, h.strIn_eq, ← h.len_eq]
    by_cases hlen : p.len < 2
    · rw [if_pos hlen, if_pos hlen]
      rfl
    · rw [if_neg hlen, if_neg hlen]
      by_cases hfits : p.len < 2 + p.u16 0
      · rw [if_pos (by omega), if_pos hfits]
        rfl
      · rw [if_neg hfits]
        by_cases hlsn : p.len < 2 + p.u16 0 + 8
        · rw [if_pos hlsn, Option.filter_some_neg (by simp; omega)]
          rfl
        · rw [if_neg hlsn, Option.filter_some_pos (by simp; omega)]
          rfl
  · rw [if_neg htype, if_neg htype]
    rfl

theorem statements_onAuthReq (queryId : Nat) :
    statements (PendingSession.onAuthReq cfg p queryId).2 = [] := by
  unfold PendingSession.onAuthReq
  split
  · split
    · split <;> rfl
    · rfl
  · rfl

theorem statements_onNotifyLeader : statements (PendingSession.onNotifyLeader cfg p) = [] := by
  unfold PendingSession.onNotifyLeader
  split
  · dsimp only
    split
    · split
      · cases cfg.shardCoordinator <;> cases cfg.replicaCoordinator <;> rfl
      · rfl
    · rfl
  · rfl

theorem statements_onRegisterNode : statements (PendingSession.onRegisterNode p) = [] := by
  unfold PendingSession.onRegisterNode
  split
  · dsimp only
    split <;> rfl
  · rfl

theorem statements_handleAuthReq (s : Session) (queryId : Nat) :
    statements (s.handleAuthReq cfg p queryId).2 = [] := by
  unfold Session.handleAuthReq
  repeat' split
  all_goals rfl

theorem statements_handleQuery (htype : f.header.type = .query)
    (h : p.Shows f.payload) (turn : Nat) (s : Session) (queryId : Nat) :
    statements (s.handleQuery cfg turn p queryId) = if s.authed then f.queried else [] := by
  rw [queried, if_pos htype, h.strIn_eq, Session.handleQuery]
  cases s.authed with
  | false => rfl
  | true =>
    by_cases hlen : p.len < 2
    · simp [hlen, statements]
    · by_cases hfits : p.len < 2 + p.u16 0
      · simp [hlen, hfits, statements]
      · simp [hlen, hfits, statements, Effect.statement]

theorem statements_dispatch (h : p.Shows f.payload) (s : ReplicationSession) :
    statements (s.dispatch cfg f.header.type p).2 = f.forwarded cfg := by
  rw [forwarded, ReplicationSession.dispatch]
  by_cases htype : f.header.type = .replHello
  · have hother : ¬ (cfg.replMgr = true ∧ f.header.type = .replForwardWrite) := by
      rw [htype]
      exact fun hboth => absurd hboth.2 (by decide)
    repeat' split
    all_goals rfl
  · rw [if_neg htype]
    cases cfg.replMgr with
    | false => rfl
    | true =>
      by_cases hwrite : f.header.type = .replForwardWrite
      · rw [if_pos rfl, if_pos ⟨rfl, hwrite⟩, h.strIn_eq, ReplicationSession.handleReplFrame,
          if_pos hwrite]
        by_cases hlen : p.len < 2
        · rw [if_pos hlen, if_pos hlen]
          rfl
        · rw [if_neg hlen]
          split <;> rfl
      · simp [hwrite, statements, Effect.statement, ReplicationSession.handleReplFrame]

end Machine

end NyxDb.Server
