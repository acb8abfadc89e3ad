import NyxDb.Server.Connection

/-!
# What the receive loops do with a stream

The loops of the three sessions and of the client connection are the machine over frames of
`Receiver`, as long as every frame that is passed to a handler is at least as long as its header.
The length is not checked.  A frame that says it has no bytes is never erased, and the loop does
not end (`hang_before_auth`); one of one to eight bytes gives its handler a payload of almost
`2 ^ 64` bytes.
-/

namespace NyxDb.Server

section Machine

variable (cfg : Config) (hdr : FrameHeader)

theorem emits_eq_seen {stage : Stage} {bytes : Bytes} {p : Payload} {effects : List Effect}
    (hp : p.Shows (RawFrame.payload ⟨hdr, bytes⟩))
    (hstatements : statements effects = statementsOf cfg stage ⟨hdr, bytes⟩) :
    emits cfg stage ⟨hdr, bytes⟩ = seen hdr p effects := by
  rw [emits, seen, hp.bytes_eq, hstatements]

theorem meets_waitAuth :
    Meets (react cfg) seen (takes cfg) (advance cfg) (emits cfg) (.pending .waitAuth) hdr
      (.pending .waitAuth) where
  ignored := by
    intro hno
    have htype : hdr.type ≠ .authReq := by simpa [takes] using hno
    constructor
    · exact fun n p => if_neg htype
    · simp [advance, RawFrame.authenticates, htype]
  passed := by
    intro hyes n p
    have htype : hdr.type = .authReq := by simpa [takes] using hyes
    refine ⟨_, _, if_pos htype, ?_⟩
    intro bytes hshows
    constructor
    · rw [PendingSession.onAuthReq_shows htype hshows, advance]
      split <;> rfl
    · exact emits_eq_seen cfg hdr hshows (statements_onAuthReq hdr.queryId)

theorem meets_client (s : Session) :
    Meets (react cfg) seen (takes cfg) (advance cfg) (emits cfg) (.client s) hdr (.client s) where
  ignored := by
    intro hno
    have htypes : hdr.type ≠ .authReq ∧ hdr.type ≠ .query := by simpa [takes] using hno
    constructor
    · simp [react, htypes.1, htypes.2]
    · simp [advance, RawFrame.authenticates, htypes.1]
  passed := by
    intro hyes n p
    by_cases hauth : hdr.type = .authReq
    · refine ⟨_, _, if_pos hauth, ?_⟩
      intro bytes hshows
      constructor
      · rw [Session.handleAuthReq_shows hauth hshows]
        rfl
      · apply emits_eq_seen cfg hdr hshows
        rw [statements_handleAuthReq]
        simp [statementsOf, RawFrame.queried, hauth, show FrameType.authReq ≠ .query by decide]
    · have hquery : hdr.type = .query := by simpa [takes, hauth] using hyes
      refine ⟨.client s, s.handleQuery cfg n p hdr.queryId, ?_, ?_⟩
      · simp [react, hquery, show FrameType.query ≠ .authReq by decide]
      · intro bytes hshows
        constructor
        · simp [advance, RawFrame.authenticates, hauth]
        · exact emits_eq_seen cfg hdr hshows
            (statements_handleQuery (f := ⟨hdr, bytes⟩) hquery hshows n s hdr.queryId)

theorem meets_repl (s : ReplicationSession) :
    Meets (react cfg) seen (takes cfg) (advance cfg) (emits cfg) (.repl s) hdr (.repl s) where
  ignored := by
    intro hno
    cases hno
  passed := by
    intro hyes n p
    refine ⟨_, _, rfl, ?_⟩
    intro bytes hshows
    constructor
    · rw [ReplicationSession.dispatch_shows (f := ⟨hdr, bytes⟩) hshows]
      rfl
    · exact emits_eq_seen cfg hdr hshows (statements_dispatch (f := ⟨hdr, bytes⟩) hshows s)

section

variable (h : hdr.type = .notifyLeader ∨ hdr.type = .registerNode)
include h

/-- The two types a pending session keeps for itself make it execute nothing. -/
theorem statementsOf_waitType
    (bytes : Bytes) : statementsOf cfg (.pending .waitType) ⟨hdr, bytes⟩ = [] := by
  have hrepl : hdr.type.isRepl = true ∧ hdr.type ≠ .replForwardWrite := by
    rcases h with h | h
    · rw [h]
      decide
    · rw [h]
      decide
  rw [statementsOf, if_pos hrepl.1, RawFrame.forwarded, if_neg fun hboth => hrepl.2 hboth.2]

theorem meets_waitType :
    Meets (react cfg) seen (takes cfg) (advance cfg) (emits cfg) (.pending .waitType) hdr
      (.pending .waitType) where
  ignored := by
    intro hno
    have htype : hdr.type ≠ .notifyLeader := by
      intro htype
      simp [takes, htype] at hno
    have hregister := h.resolve_left htype
    rw [takes, if_neg htype, if_pos hregister] at hno
    constructor
    · intro n p
      rw [react, if_neg htype, if_pos hregister, hno]
      rfl
    · exact fun bytes => if_pos h
  passed := by
    intro hyes n p
    by_cases htype : hdr.type = .notifyLeader
    · refine ⟨_, _, if_pos htype, fun bytes hshows => ⟨if_pos h, ?_⟩⟩
      apply emits_eq_seen cfg hdr hshows
      rw [statements_onNotifyLeader, statementsOf_waitType cfg hdr h]
    · have hregister := h.resolve_left htype
      rw [takes, if_neg htype, if_pos hregister] at hyes
      refine ⟨.pending .waitType, PendingSession.onRegisterNode p, ?_,
        fun bytes hshows => ⟨if_pos h, ?_⟩⟩
      · rw [react, if_neg htype, if_pos hregister, if_pos hyes]
      · apply emits_eq_seen cfg hdr hshows
        rw [statements_onRegisterNode, statementsOf_waitType cfg hdr h]

end

/-- The server's loops follow the machine over frames. -/
theorem follows_react : Follows (react cfg) seen (takes cfg) (advance cfg) (emits cfg) where
  owner := by
    intro stage hdr
    cases stage with
    | pending state =>
      cases state with
      | waitAuth => exact ⟨_, .inr rfl, meets_waitAuth cfg hdr⟩
      | waitType =>
        by_cases hown : hdr.type = .notifyLeader ∨ hdr.type = .registerNode
        · exact ⟨_, .inr rfl, meets_waitType cfg hdr hown⟩
        · obtain ⟨hnotify, hregister⟩ := not_or.mp hown
          cases hrepl : hdr.type.isRepl with
          | true =>
            refine ⟨.repl ⟨[]⟩, .inl ?_, (meets_repl cfg hdr _).of_owner ?_ ?_ ?_⟩
            · intro n p
              rw [react, if_neg hnotify, if_neg hregister, if_pos hrepl]
            · rw [takes, if_neg hnotify, if_neg hregister, hrepl]
              rfl
            · intro bytes
              rw [advance, if_neg hown, if_pos hrepl]
              rfl
            · intro bytes
              rw [emits, statementsOf, if_pos hrepl]
              rfl
          | false =>
            refine ⟨.client ⟨true⟩, .inl ?_, (meets_client cfg hdr _).of_owner ?_ ?_ ?_⟩
            · intro n p
              rw [react, if_neg hnotify, if_neg hregister, hrepl]
              rfl
            · rw [takes, if_neg hnotify, if_neg hregister, hrepl]
              rfl
            · intro bytes
              rw [advance, if_neg hown, hrepl]
              rfl
            · intro bytes
              rw [emits, statementsOf, hrepl]
              rfl
    | client s => exact ⟨_, .inr rfl, meets_client cfg hdr s⟩
    | repl s => exact ⟨_, .inr rfl, meets_repl cfg hdr s⟩

end Machine

/-- So does the loop of the client connection: with a frame handler it passes everything on. -/
theorem follows_quicClient :
    Follows QuicClient.react (fun hdr p _ => (hdr.type, hdr.queryId, p.bytes))
      (fun onFrame _ => onFrame) (fun onFrame _ => onFrame)
      fun _ f => (f.header.type, f.header.queryId, f.payload) where
  owner := by
    intro onFrame hdr
    refine ⟨onFrame, .inr rfl, ?_, ?_⟩
    · intro hno
      have hoff : onFrame = false := hno
      subst hoff
      exact ⟨fun _ _ => rfl, fun _ => rfl⟩
    · intro hyes n p
      have hon : onFrame = true := hyes
      subst hon
      refine ⟨true, _, rfl, ?_⟩
      intro bytes hshows
      exact ⟨rfl, by rw [hshows.bytes_eq]⟩

/-! ## Totality -/

/-- **When the receive loops are total**: for any owner, any bytes left in its buffer and any that
come in, the loop ends, each frame takes at least one byte off the buffer and every payload lies in
its frame, if and only if no frame of the bytes is of length zero and those that are passed to a
handler in the state in which they are met are not shorter than a header. -/
theorem receive_loops_total_iff (past : Nat → Nat → UInt8) (data : Bytes) :
    (∀ (cfg : Config) (c : Receiver Stage Effect), (c.append data).Total past (react cfg) ↔
        Acceptable (takes cfg) (advance cfg) c.state (c.buf ++ data)) ∧
    ∀ q : Receiver Bool (FrameType × Nat × Payload), (q.append data).Total past QuicClient.react ↔
        Acceptable (fun onFrame _ => onFrame) (fun onFrame _ => onFrame) q.state
          (q.buf ++ data) := by
  constructor
  · intro cfg c
    exact (follows_react cfg).total_iff (c.append data)
  · intro q
    exact follows_quicClient.total_iff (q.append data)

/-- A server with a database and nothing else. -/
def standalone (token : Bytes) : Config where
  token := token
  replMgr := false
  isLeader _ := false
  shardCoordinator := false
  replicaCoordinator := false

/-- The header of a frame that says it has no bytes at all. -/
def emptyFrame : Bytes :=
  [0, 0, 0, 0, 1, 0, 0, 0, 0]

/-- Nine bytes from anyone, and a new connection never comes back from its loop. -/
theorem hang_before_auth : ¬ (newConnection.append emptyFrame).Total (fun _ _ => 0)
      (react (standalone (ascii "secret"))) := by
  intro htotal
  have hnext : nextHeader (newConnection.append emptyFrame).buf = some ⟨0, .authReq, 0⟩ := by decide
  exact Receiver.not_halts_of_zero hnext rfl htotal.1

/-! ## Fragmentation -/

/-- **Fragmentation does not matter**: in whatever pieces a stream arrives on a new connection, if
none of its lengths is below that of a header every call of `on_data` returns, and the calls of
handlers are the frames of the stream, without those that are ignored in the stage in which they
are met. -/
theorem calls_of_pieces (cfg : Config) (past : Nat → Nat → UInt8) (stream : Bytes)
    (hstream : Framed stream) (chunks : List Bytes) (hchunks : chunks.flatten = stream) :
    ∃ n r, (∀ fuel, n ≤ fuel →
        Receiver.receiveAll past (react cfg) fuel newConnection chunks = some r) ∧
      r.calls = callsOf (takes cfg) (advance cfg) (.pending .waitAuth) (framesOf stream).1 := by
  subst hchunks
  obtain ⟨n, r, hrun, hseen⟩ := (follows_react cfg).stream past newConnection rfl chunks hstream
  refine ⟨n, r, hrun, ?_⟩
  have hcalls := congrArg (List.map Prod.fst) hseen
  rw [map_observed, List.map_append, map_observations] at hcalls
  exact hcalls

/-- The token, then a statement, then a frame the session ignores. -/
def loginStream : Bytes :=
  [13, 0, 0, 0, 1, 1, 0, 0, 0, 2, 0, 116, 107, 13, 0, 0, 0, 0x10, 2, 0, 0, 0, 2, 0, 83, 81,
    9, 0, 0, 0, 2, 0, 0, 0, 0]

theorem calls_of_loginStream :
    ∃ n r, (∀ fuel, n ≤ fuel → Receiver.receiveAll (fun _ _ => 0) (react (standalone [116, 107]))
        fuel newConnection [loginStream.take 5, loginStream.drop 5] = some r) ∧
      r.calls = [(.authReq, 1, [2, 0, 116, 107]), (.query, 2, [2, 0, 83, 81])] := by
  have hstream : Framed loginStream := by
    constructor
    · decide
    · intro hdr hhdr
      cases hhdr
  exact calls_of_pieces (standalone [116, 107]) (fun _ _ => 0) loginStream hstream
    [loginStream.take 5, loginStream.drop 5] (by decide)

end NyxDb.Server
