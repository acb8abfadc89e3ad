import NyxDb.Server.Frames

/-!
# Nothing before the token

A connection may execute a statement, take a notice or a registration, or pass a frame to
replication only after a frame with the right token.  The loops keep to that as long as the frames
that ask for authentication are at least as long as a header (`gate_holds`).  A shorter one is
authenticated by what stands behind it in the memory of the server (`gate_open`).
-/

namespace NyxDb.Server

open Replication (frameHeaderSize)
open List

/-- What has to wait for the token. -/
def Effect.gated : Effect → Bool
  | .send _ => false
  | .close => false
  | .execute _ _ _ => true
  | .shardNotifyLeader _ _ => true
  | .replicaNotifyLeader _ _ => true
  | .registerNode _ _ => true
  | .onHello _ _ => true
  | .handleReplFrame _ _ => true

/-- The frame of an entry asks for authentication with this token. -/
def Entry.authenticates (token : Bytes) (e : Entry Effect) : Bool :=
  RawFrame.authenticates token ⟨e.header, e.frame⟩

/-- Every effect that has to wait for the token comes after a frame with the token. -/
def Gate (token : Bytes) (c : Receiver Stage Effect) : Prop :=
  ∀ before e after, c.log = before ++ e :: after → e.effects.any Effect.gated = true →
    ∃ a ∈ before, a.authenticates token = true

/-- What happens to a connection: bytes arrive while its loop is not running, or the loop takes a
turn. -/
inductive Event where
  | receive (data : Bytes)
  | turn
  deriving DecidableEq, Repr

def serve (past : Nat → Nat → UInt8) (cfg : Config) (c : Receiver Stage Effect) :
    Event → Receiver Stage Effect
  | .receive data => if nextHeader c.buf = none then c.append data else c
  | .turn => (c.iterate past (react cfg)).getD c

/-- A turn that handles a request for authentication handles one that is not shorter than a
header. -/
def ProperAuth (c : Receiver Stage Effect) : Event → Prop
  | .receive _ => True
  | .turn => ∀ hdr ∈ nextHeader c.buf, c.state = .pending .waitAuth → hdr.type = .authReq →
      frameHeaderSize ≤ hdr.length

instance (c : Receiver Stage Effect) (e : Event) : Decidable (ProperAuth c e) := by
  cases e with
  | receive data => exact isTrue trivial
  | turn =>
    unfold ProperAuth
    infer_instance

/-- What is kept: the gate, and that a connection past the wait for the token has met one. -/
structure Guarded (token : Bytes) (c : Receiver Stage Effect) : Prop where
  gate : Gate token c
  met : c.state = .pending .waitAuth ∨ ∃ a ∈ c.log, a.authenticates token = true

variable {c c' : Receiver Stage Effect} {past : Nat → Nat → UInt8}

theorem gate_append {token : Bytes} {e : Entry Effect}
    (hgate : Gate token c) (hlog : c'.log = c.log ++ [e])
    (he : e.effects.any Effect.gated = true → ∃ a ∈ c.log, a.authenticates token = true) :
    Gate token c' := by
  intro before x after hsplit hx
  rw [hlog] at hsplit
  rcases eq_nil_or_concat after with rfl | ⟨after', y, rfl⟩
  · obtain ⟨hbefore, hlast⟩ := append_inj' hsplit rfl
    cases hlast
    exact hbefore ▸ he hx
  · rw [concat_eq_append, ← cons_append, ← append_assoc] at hsplit
    obtain ⟨hinit, -⟩ := append_inj' hsplit rfl
    exact hgate before x after' hinit hx

/-- An answer to a request for authentication does nothing that has to wait. -/
theorem onAuthReq_not_gated (cfg : Config) (p : Payload) (queryId : Nat) :
    (PendingSession.onAuthReq cfg p queryId).2.any Effect.gated = false := by
  unfold PendingSession.onAuthReq
  split
  · split
    · split <;> rfl
    · rfl
  · rfl

theorem Guarded.erase {token : Bytes} (h : Guarded token c)
    {hdr : FrameHeader} {payload : Option Payload} {next : Stage} {effects : List Effect}
    (heffects : effects.any Effect.gated = true → c.state ≠ .pending .waitAuth)
    (hnext : c.state = .pending .waitAuth → next = .pending .waitAuth ∨
      RawFrame.authenticates token ⟨hdr, c.buf.take hdr.length⟩ = true) :
    Guarded token (c.erase hdr payload next effects) where
  gate := by
    apply gate_append h.gate rfl
    intro hgated
    exact h.met.resolve_left (heffects hgated)
  met := by
    rcases h.met with hwait | ⟨a, ha, htoken⟩
    · rcases hnext hwait with hstay | htoken
      · exact .inl hstay
      · exact .inr ⟨_, mem_append_right _ mem_cons_self, htoken⟩
    · exact .inr ⟨a, mem_append_left _ ha, htoken⟩

theorem Guarded.iterate {cfg : Config} (h : Guarded cfg.token c) (hproper : ProperAuth c .turn)
    (hturn : c.iterate past (react cfg) = some c') : Guarded cfg.token c' := by
  obtain ⟨hdr, hhdr, hcases⟩ := Receiver.iterate_cases hturn
  -- Where the token has been met, whatever the turn does is allowed.
  by_cases hwait : c.state = .pending .waitAuth
  · rw [hwait] at hcases
    by_cases htype : hdr.type = .authReq
    · have hlen := hproper hdr hhdr hwait htype
      have hshows := received_shows hhdr hlen (past c.turns)
      rcases hcases with ⟨next, effects, hreact, rfl⟩ | ⟨hreact, -⟩ | ⟨next, hreact, -⟩
      · simp only [react, if_pos htype, Reaction.passed.injEq] at hreact
        obtain ⟨rfl, rfl⟩ := hreact
        apply h.erase
        · intro hgated
          rw [onAuthReq_not_gated] at hgated
          cases hgated
        · intro _
          rw [PendingSession.onAuthReq_shows htype hshows]
          cases RawFrame.authenticates cfg.token ⟨hdr, c.buf.take hdr.length⟩ with
          | true => exact .inr rfl
          | false => exact .inl rfl
      · simp [react, htype] at hreact
      · simp [react, htype] at hreact
    · rcases hcases with ⟨next, effects, hreact, -⟩ | ⟨-, rfl⟩ | ⟨next, hreact, -⟩
      · simp [react, htype] at hreact
      · exact h.erase (fun hgated => by cases hgated) fun _ => .inl rfl
      · simp [react, htype] at hreact
  · rcases hcases with ⟨next, effects, -, rfl⟩ | ⟨-, rfl⟩ | ⟨next, -, rfl⟩
    · exact h.erase (fun _ => hwait) fun hcontra => absurd hcontra hwait
    · exact h.erase (fun _ => hwait) fun hcontra => absurd hcontra hwait
    · exact ⟨h.gate, .inr (h.met.resolve_left hwait)⟩

theorem Guarded.serve {cfg : Config}
    {e : Event} (h : Guarded cfg.token c) (hproper : ProperAuth c e) :
    Guarded cfg.token (serve past cfg c e) := by
  cases e with
  | receive data =>
    rw [Server.serve]
    split
    · exact ⟨h.gate, h.met⟩
    · exact h
  | turn =>
    rw [Server.serve]
    cases hturn : c.iterate past (react cfg) with
    | none => exact h
    | some c' => exact h.iterate hproper hturn

theorem guarded_newConnection (token : Bytes) : Guarded token newConnection where
  gate := by
    intro before e after hsplit
    cases before <;> cases hsplit
  met := .inl rfl

/-- **The gate**: in every run in which no request for authentication that is handled is shorter
than a header, whatever bytes arrive in whatever pieces, every effect that has to wait for the token
comes after a frame with the token. -/
theorem gate_holds (cfg : Config) (past : Nat → Nat → UInt8) (events : List Event)
    (hproper : Run.Along (serve past cfg) ProperAuth newConnection events) :
    ∀ c ∈ Run.states (serve past cfg) newConnection events, Gate cfg.token c := by
  intro c hc
  have hinv := Run.Along.invariant (fun c e h hok => h.serve hok)
    (guarded_newConnection cfg.token) hproper c hc
  exact hinv.gate

/-- The token and a statement arrive; the turns are those for the token, for handing the connection
on and for the statement. -/
def login : List Event :=
  [.receive (loginStream.take 20), .turn, .receive (loginStream.drop 20), .turn, .turn]

theorem gate_holds_login :
    (∀ c ∈ Run.states (serve (fun _ _ => 0) (standalone [116, 107])) newConnection login,
      Gate [116, 107] c) ∧
    ((Run.final (serve (fun _ _ => 0) (standalone [116, 107])) newConnection login).log.any
      fun e => e.effects.any Effect.gated) = true :=
  ⟨gate_holds (standalone [116, 107]) (fun _ _ => 0) login (by decide), by decide⟩

/-- The memory behind the buffer still holds the end of a frame that another client has sent. -/
def staleMemory (_turn i : Nat) : UInt8 :=
  [2, 0, 116, 107].getD i 0

/-- A request for authentication that says it has eight bytes; its ninth is the first one of a
statement's frame. -/
def bypass : List Event :=
  [.receive [8, 0, 0, 0, 1, 0, 0, 0, 13], .turn,
    .receive [0, 0, 0, 0x10, 2, 0, 0, 0, 2, 0, 83, 81], .turn, .turn]

/-- A statement is executed on a connection on which the token was never sent. -/
theorem gate_open :
    ¬ ∀ c ∈ Run.states (serve staleMemory (standalone [116, 107])) newConnection bypass,
      Gate [116, 107] c := by
  intro hall
  have hgate := hall _ (Run.final_mem_states newConnection bypass)
  have hlog : (Run.final (serve staleMemory (standalone [116, 107])) newConnection bypass).log =
      [⟨⟨8, .authReq, 218103808⟩, [8, 0, 0, 0, 1, 0, 0, 0],
        some (received [8, 0, 0, 0, 1, 0, 0, 0, 13] (staleMemory 0) ⟨8, .authReq, 218103808⟩),
        [.send (encodeHeader .authOk 218103808 0)]⟩,
      ⟨⟨13, .query, 2⟩, [13, 0, 0, 0, 0x10, 2, 0, 0, 0, 2, 0, 83, 81],
        some (received [13, 0, 0, 0, 0x10, 2, 0, 0, 0, 2, 0, 83, 81] (staleMemory 2)
          ⟨13, .query, 2⟩), [.execute .database 2 [83, 81]]⟩] := rfl
  obtain ⟨a, ha, htoken⟩ := hgate [_] _ [] hlog (by decide)
  rw [mem_singleton.mp ha] at htoken
  revert htoken
  decide

end NyxDb.Server
