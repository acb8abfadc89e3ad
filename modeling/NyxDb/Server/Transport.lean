import NyxDb.Server.ShardClient

/-!
# Statements on their way

A statement is sent with its length in two bytes.  The bytes of a longer statement follow all the
same, and the length of the frame counts them; so the receiver finds a frame that is long enough,
takes the first bytes for the statement and executes these.
-/

namespace NyxDb.Server

open Replication (encodeStr frameHeaderSize)
open List ShardClient

/-- A connection of which the last frame has been handled. -/
def idleConnection (stage : Stage) (turns : Nat) : Receiver Stage Effect where
  state := stage
  buf := []
  turns := turns
  log := []

/-- The statements a connection has executed. -/
def executedBy (c : Receiver Stage Effect) : List Bytes :=
  (c.observed fun _ _ effects => statements effects).flatten

/-- What is left of a statement on its way. -/
def carried (sql : Bytes) : List Bytes :=
  if (frameHeaderSize + (2 + sql.length)) % 2 ^ 32 < frameHeaderSize + 2 +
    sql.length % 2 ^ 16 then []
  else [sql.take (sql.length % 2 ^ 16)]

theorem strIn_take_encodeStr (sql : Bytes) (m : Nat) : strIn ((encodeStr sql).take m) =
      if m < 2 + sql.length % 2 ^ 16 then none else some (sql.take (sql.length % 2 ^ 16)) := by
  have hlen : ((encodeStr sql).take m).length = min m (2 + sql.length) := by
    rw [encodeStr, length_take, length_append, length_leBytes]
  rw [strIn]
  by_cases hshort : m < 2
  · rw [if_pos (by omega), if_pos (by omega)]
  · have hcount : ((encodeStr sql).take m).take 2 = leBytes 2 sql.length := by
      rw [take_take, Nat.min_eq_left (by omega), encodeStr,
        take_append_of_le_length (by simp), take_of_length_le (by simp)]
    have hrest : ((encodeStr sql).take m).drop 2 = sql.take (m - 2) := by
      rw [drop_take, encodeStr, drop_append_of_le_length (by simp),
        drop_of_length_le (by simp), nil_append]
    rw [if_neg (by omega), hcount, leNat_leBytes, hrest, show 256 ^ 2 = 2 ^ 16 from rfl]
    by_cases hfits : m < 2 + sql.length % 2 ^ 16
    · rw [if_pos (by omega), if_pos hfits]
    · rw [if_neg (by omega), if_neg hfits, take_take, Nat.min_eq_left (by omega)]

/-- The statements of a frame that holds one statement, for a stage that executes it. -/
theorem executed_of_frame (cfg : Config) (past : Nat → Nat → UInt8) (stage : Stage) (turns : Nat)
    {type : FrameType} {queryId : Nat} (sql : Bytes) (htakes : takes cfg stage type = true)
    (hstatements : ∀ f : RawFrame, f.header.type = type →
      statementsOf cfg stage f = (strIn f.payload).toList)
    (chunks : List Bytes)
    (hchunks : chunks.flatten = QuicClient.sendFrame type queryId (encodeStr sql)) :
    ∃ n c, (∀ fuel, n ≤ fuel → Receiver.receiveAll past (react cfg) fuel
        (idleConnection stage turns) chunks = some c) ∧ executedBy c = carried sql := by
  have hlen : (encodeStr sql).length = 2 + sql.length := by
    rw [encodeStr, length_append, length_leBytes]
  -- Either not even a header arrives, or one frame that may be cut.
  have harrives : Framed chunks.flatten ∧
      (observations (takes cfg) (advance cfg) (fun s f => (emits cfg s f).2) stage
        (framesOf chunks.flatten).1).flatten = carried sql := by
    by_cases hshort : (frameHeaderSize + (encodeStr sql).length) % 2 ^ 32 < frameHeaderSize
    · have hbytes : chunks.flatten.length < frameHeaderSize := by
        rw [hchunks, QuicClient.sendFrame, streamSend, length_take, length_frameBytes]
        omega
      refine ⟨framed_of_short hbytes, ?_⟩
      rw [framesOf_of_short hbytes, carried, if_pos (by omega)]
      rfl
    · have hheader : frameHeaderSize ≤ (frameHeaderSize + (encodeStr sql).length) % 2 ^ 32 := by
        omega
      have hframes := framesOf_streamSend_append type queryId hheader []
      have hframed := framed_streamSend_append type queryId hheader
        (framed_of_short (show ([] : Bytes).length < frameHeaderSize by decide))
      rw [append_nil] at hframes hframed
      rw [hchunks, QuicClient.sendFrame]
      refine ⟨hframed, ?_⟩
      rw [hframes, framesOf_of_short (by decide), observations, htakes, if_pos rfl, emits,
        hstatements _ rfl, payload_streamSend, strIn_take_encodeStr, hlen, carried]
      split_ifs
      · rfl
      · omega
      · omega
      · rfl
  obtain ⟨n, c, hrun, hseen⟩ :=
    (follows_react cfg).stream past (idleConnection stage turns) rfl chunks harrives.1
  refine ⟨n, c, hrun, ?_⟩
  have hexecuted := congrArg (map Prod.snd) hseen
  rw [map_observed, map_append, map_observations] at hexecuted
  rw [← harrives.2]
  exact congrArg flatten hexecuted

/-- The statement is executed as it was given, or nothing is executed, no frame comes back and the
sender reports an error. -/
def Transported {α : Type} (sql : Bytes) (executed : List Bytes)
    (report : List (FrameType × Bytes) → Except Bytes α) : Prop :=
  executed = [sql] ∨ executed = [] ∧ ∃ msg, report [] = .error msg

/-- The length fits its two bytes, or the frame is so long that what the transport leaves of it does
not hold a statement. -/
def FitsFrame (sql : Bytes) : Prop :=
  sql.length < 2 ^ 16 ∨
    (frameHeaderSize + (2 + sql.length)) % 2 ^ 32 < frameHeaderSize + 2 + sql.length % 2 ^ 16

theorem transported_carried_iff {α : Type} (sql : Bytes)
    {report : List (FrameType × Bytes) → Except Bytes α}
    (hreport : ∃ msg, report [] = .error msg) :
    Transported sql (carried sql) report ↔ FitsFrame sql := by
  unfold Transported FitsFrame carried
  split_ifs with hcut
  · exact iff_of_true (.inr ⟨rfl, hreport⟩) (.inr hcut)
  · rw [or_iff_left And.left, or_iff_left hcut,
      singleton_inj]
    constructor
    · intro htake
      have hlen := congrArg length htake
      rw [length_take] at hlen
      omega
    · intro hfits
      rw [Nat.mod_eq_of_lt hfits, take_length]

/-- **Statements on their way**: whatever the pieces in which its frame arrives, a statement that
the client of a shard sends to an authenticated connection, or that a node forwards to its leader,
is executed as it was given or reported as failed and not executed, if and only if it fits its
frame. -/
theorem statement_transport_iff (cfg : Config) (past : Nat → Nat → UInt8) (turns : Nat)
    (addr sql : Bytes) (chunks : List Bytes) :
    (∀ stage ∈ [Stage.pending .waitType, .client ⟨true⟩],
      chunks.flatten = queryFrame sql →
      ∃ n c, (∀ fuel, n ≤ fuel → Receiver.receiveAll past (react cfg) fuel
          (idleConnection stage turns) chunks = some c) ∧
        (Transported sql (executedBy c) (execute addr) ↔ FitsFrame sql)) ∧
    (∀ nodeId, ∀ stage ∈ [Stage.pending .waitType, .repl ⟨nodeId⟩], cfg.replMgr = true →
      chunks.flatten = ReplicationManager.forwardFrame sql →
      ∃ n c, (∀ fuel, n ≤ fuel → Receiver.receiveAll past (react cfg) fuel
          (idleConnection stage turns) chunks = some c) ∧
        (Transported sql (executedBy c) ReplicationManager.forwardWrite ↔ FitsFrame sql)) := by
  constructor
  · intro stage hstage hchunks
    have htakes : takes cfg stage .query = true ∧ ∀ f : RawFrame, f.header.type = .query →
        statementsOf cfg stage f = (strIn f.payload).toList := by
      simp only [mem_cons, not_mem_nil, or_false] at hstage
      rcases hstage with rfl | rfl
      · refine ⟨rfl, fun f hf => ?_⟩
        have hkind : ¬ f.header.type.isRepl = true := by
          rw [hf]
          decide
        rw [statementsOf, if_neg hkind, RawFrame.queried, if_pos hf]
      · exact ⟨rfl, fun f hf => if_pos hf⟩
    obtain ⟨n, c, hrun, hexecuted⟩ :=
      executed_of_frame cfg past stage turns sql htakes.1 htakes.2 chunks hchunks
    refine ⟨n, c, hrun, ?_⟩
    rw [hexecuted]
    exact transported_carried_iff sql ⟨_, rfl⟩
  · intro nodeId stage hstage hrepl hchunks
    have htakes : takes cfg stage .replForwardWrite = true ∧
        ∀ f : RawFrame, f.header.type = .replForwardWrite →
          statementsOf cfg stage f = (strIn f.payload).toList := by
      simp only [mem_cons, not_mem_nil, or_false] at hstage
      rcases hstage with rfl | rfl
      · refine ⟨rfl, fun f hf => ?_⟩
        have hkind : f.header.type.isRepl = true := by
          rw [hf]
          decide
        rw [statementsOf, if_pos hkind, RawFrame.forwarded, if_pos ⟨hrepl, hf⟩]
      · exact ⟨rfl, fun f hf => if_pos ⟨hrepl, hf⟩⟩
    obtain ⟨n, c, hrun, hexecuted⟩ :=
      executed_of_frame cfg past stage turns sql htakes.1 htakes.2 chunks hchunks
    refine ⟨n, c, hrun, ?_⟩
    rw [hexecuted]
    exact transported_carried_iff sql ⟨_, rfl⟩

/-- A statement that arrives in two pieces. -/
theorem statement_transport_select :
    ∃ n c, (∀ fuel, n ≤ fuel → Receiver.receiveAll (fun _ _ => 0) (react (standalone [])) fuel
        (idleConnection (.client ⟨true⟩) 0) [(queryFrame (ascii "SELECT a FROM t")).take 7,
          (queryFrame (ascii "SELECT a FROM t")).drop 7] = some c) ∧
      Transported (ascii "SELECT a FROM t") (executedBy c) (execute []) := by
  obtain ⟨n, c, hrun, htransported⟩ := (statement_transport_iff (standalone []) (fun _ _ => 0) 0 []
    (ascii "SELECT a FROM t") [(queryFrame (ascii "SELECT a FROM t")).take 7,
      (queryFrame (ascii "SELECT a FROM t")).drop 7]).1 (.client ⟨true⟩) (by decide) (by simp)
  refine ⟨n, c, hrun, htransported.mpr ?_⟩
  unfold FitsFrame
  decide

/-- A statement whose condition stands behind the length that can be sent. -/
def longDelete : Bytes :=
  ascii "DELETE FROM t" ++ (replicate 65524 32 ++ ascii "WHERE id = 1")

/-- The statement without its condition is executed. -/
theorem longDelete_cut :
    ∃ n c, (∀ fuel, n ≤ fuel → Receiver.receiveAll (fun _ _ => 0) (react (standalone [])) fuel
        (idleConnection (.client ⟨true⟩) 0) [queryFrame longDelete] = some c) ∧
      executedBy c = [ascii "DELETE FROM t"] ∧
      ¬ Transported longDelete (executedBy c) (execute []) := by
  have hlen : longDelete.length = 65549 := by
    rw [longDelete, length_append, length_append, length_replicate]
    decide
  have hcarried : carried longDelete = [ascii "DELETE FROM t"] := by
    rw [carried, hlen, if_neg (by decide), show 65549 % 2 ^ 16 = (ascii "DELETE FROM t").length by
      decide, longDelete, take_left]
  obtain ⟨n, c, hrun, hexecuted⟩ := executed_of_frame (standalone []) (fun _ _ => 0)
    (.client ⟨true⟩) 0 longDelete rfl (fun f hf => if_pos hf)
    [queryFrame longDelete] flatten_singleton
  refine ⟨n, c, hrun, hexecuted.trans hcarried, ?_⟩
  rw [hexecuted, transported_carried_iff longDelete ⟨_, rfl⟩, FitsFrame, hlen]
  decide

end NyxDb.Server
