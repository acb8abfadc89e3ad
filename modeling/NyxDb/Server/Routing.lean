import NyxDb.Server.Results
import NyxDb.Server.Transport

/-!
# Statements routed to a shard

The pool of a coordinator keeps a client for each node.  When a statement fails, for whatever
reason, it connects again and sends the statement once more.  A statement fails for the pool also
when it has been executed: when the answer is late, when a part of it is lost and when the answer
is an error.
-/

namespace NyxDb.Server

open Replication (encodeStr)
open List

/-- What becomes of one sending of a statement: whether its frame reaches the node, what the node
answers, and how many frames of the answer arrive in time. -/
structure Attempt where
  delivered : Bool
  answer : Except Bytes ExecuteResult
  arrived : Nat

namespace Attempt

/-- The frames of the answer. -/
def answerFrames (a : Attempt) : List (FrameType × Bytes) :=
  match a.answer with
  | .error msg => [(.queryErr, encodeStr msg)]
  | .ok r => (Session.resultFrames r).getD []

/-- What `ShardClient::execute` returns. -/
def result (addr : Bytes) (a : Attempt) : Except Bytes ExecuteResult :=
  ShardClient.execute addr (if a.delivered then a.answerFrames.take a.arrived else [])

/-- What the node executes. -/
def executed (sql : Bytes) (a : Attempt) : List Bytes :=
  if a.delivered then carried sql else []

/-- The node's answer is not an error, and all of it arrives in time. -/
def Answered (a : Attempt) : Prop :=
  ∃ r frames, a.delivered = true ∧ a.answer = .ok r ∧ Session.resultFrames r = some frames ∧
    frames.length ≤ a.arrived

end Attempt

/-- What happens during a call of the pool. -/
structure Call where
  connect : Except Bytes Unit
  first : Attempt
  reconnect : Except Bytes Unit
  second : Attempt

/-- What a call of the pool leaves: whether the entry has a client, what is returned, and the
statements the node has executed. -/
structure Outcome where
  hasClient : Bool
  result : Except Bytes ExecuteResult
  executed : List Bytes

namespace ShardClientPool

/-- A statement is sent, and sent again over a new connection if that fails. -/
def sendTwice (addr sql : Bytes) (w : Call) : Outcome :=
  match w.first.result addr with
  | .ok r => ⟨true, .ok r, w.first.executed sql⟩
  | .error msg =>
    match w.reconnect with
    | .error _ => ⟨false, .error msg, w.first.executed sql⟩
    | .ok _ =>
      match w.second.result addr with
      | .ok r => ⟨true, .ok r, w.first.executed sql ++ w.second.executed sql⟩
      | .error msg' => ⟨false, .error msg', w.first.executed sql ++ w.second.executed sql⟩

/-- `ShardClientPool::execute` for an entry with or without a client. -/
def execute (addr sql : Bytes) (hasClient : Bool) (w : Call) : Outcome :=
  if hasClient then sendTwice addr sql w
  else
    match w.connect with
    | .error msg => ⟨false, .error msg, []⟩
    | .ok _ => sendTwice addr sql w

end ShardClientPool

/-! ## When an answer is enough -/

open ShardClient

variable {frames : List (FrameType × Bytes)} {c : Collected} {addr : Bytes}

/-- Frames of columns do not end an answer. -/
theorem collect_skip (rest : List (FrameType × Bytes))
    (h : ∀ x ∈ frames, x.1 = .resultMeta ∨ x.1 = .resultCol) :
    ∃ c', collect addr c (frames ++ rest) = collect addr c' rest := by
  induction frames generalizing c with
  | nil => exact ⟨c, rfl⟩
  | cons x frames ih =>
    obtain ⟨_, p⟩ := x
    have hrest := fun x hx => h x (mem_cons_of_mem _ hx)
    rcases h _ mem_cons_self with htype | htype
    · subst htype
      exact ih hrest
    · subst htype
      exact ih hrest

section

variable (h : ∀ x ∈ frames, x.1 = .resultMeta ∨ x.1 = .resultCol)
include h

theorem collect_unfinished : ∃ msg, collect addr c frames = .error msg := by
  obtain ⟨_, hc'⟩ := collect_skip [] h
  rw [append_nil] at hc'
  exact ⟨_, hc'⟩

end

theorem resultFrames_shape {r : ExecuteResult} (h : Session.resultFrames r = some frames) :
    ∃ front p, frames = front ++ [(.resultEnd, p)] ∧
      ∀ x ∈ front, x.1 = .resultMeta ∨ x.1 = .resultCol := by
  obtain ⟨cols, -, hframes⟩ := Option.bind_eq_some_iff.mp h
  cases hframes
  refine ⟨(.resultMeta, Session.metaPayload r.schema) :: cols.map (FrameType.resultCol, ·), _, rfl,
    ?_⟩
  intro x hx
  rcases mem_cons.mp hx with rfl | hx
  · exact .inl rfl
  · obtain ⟨p, -, rfl⟩ := mem_map.mp hx
    exact .inr rfl

/-- A sending succeeds exactly if it is answered. -/
theorem Attempt.result_cases (addr : Bytes) (a : Attempt) :
    (a.Answered ∧ ∃ r, a.result addr = .ok r) ∨
      (¬ a.Answered ∧ ∃ msg, a.result addr = .error msg) := by
  obtain ⟨delivered, answer, arrived⟩ := a
  cases delivered with
  | false => exact .inr ⟨by simp [Attempt.Answered], _, rfl⟩
  | true =>
    cases answer with
    | error msg =>
      refine .inr ⟨by simp [Attempt.Answered], ?_⟩
      cases arrived <;> exact ⟨_, rfl⟩
    | ok r =>
      cases hframes : Session.resultFrames r with
      | none =>
        refine .inr ⟨by simp [Attempt.Answered, hframes], ?_⟩
        · unfold Attempt.result Attempt.answerFrames
          simp only [hframes, Option.getD_none, take_nil]
          exact ⟨_, rfl⟩
      | some frames =>
        obtain ⟨front, p, rfl, hfront⟩ := resultFrames_shape hframes
        have hresult : Attempt.result addr ⟨true, .ok r, arrived⟩ =
            collect addr .empty ((front ++ [(FrameType.resultEnd, p)]).take arrived) := by
          unfold Attempt.result Attempt.answerFrames
          simp only [hframes, Option.getD_some]
          rfl
        rw [hresult]
        by_cases harrived : (front ++ [(FrameType.resultEnd, p)]).length ≤ arrived
        · refine .inl ⟨⟨r, _, rfl, rfl, hframes, harrived⟩, ?_⟩
          rw [take_of_length_le harrived]
          obtain ⟨_, hc'⟩ := collect_skip [(.resultEnd, p)] hfront
          exact ⟨_, hc'⟩
        · refine .inr ⟨?_, ?_⟩
          · simpa [Attempt.Answered, hframes] using harrived
          · rw [length_append, length_singleton] at harrived
            rw [take_append_of_le_length (by omega)]
            exact collect_unfinished fun x hx => hfront x (mem_of_mem_take hx)

/-! ## At most once -/

/-- The statement reaches the node, but not all of an answer without error comes back; the pool
connects again, and the statement reaches the node once more. -/
def Call.Repeats (hasClient : Bool) (sql : Bytes) (w : Call) : Prop :=
  (hasClient = true ∨ w.connect = .ok ()) ∧ (w.first.delivered = true ∧ ¬ w.first.Answered) ∧
    w.reconnect = .ok () ∧ w.second.delivered = true ∧ carried sql ≠ []

theorem carried_cases (sql : Bytes) : carried sql = [] ∨ ∃ s, carried sql = [s] := by
  unfold carried
  split
  · exact .inl rfl
  · exact .inr ⟨_, rfl⟩

theorem Attempt.length_executed (sql : Bytes) (a : Attempt) :
    (a.executed sql).length = if a.delivered = true ∧ carried sql ≠ [] then 1 else 0 := by
  unfold Attempt.executed
  cases a.delivered with
  | false => rfl
  | true =>
    rcases carried_cases sql with hnone | ⟨s, hone⟩
    · rw [hnone]
      rfl
    · rw [hone]
      rfl

theorem ShardClientPool.sendTwice_iff (addr sql : Bytes) (w : Call) :
    (sendTwice addr sql w).executed.length ≤ 1 ↔
      ¬ ((w.first.delivered = true ∧ ¬ w.first.Answered) ∧
        w.reconnect = .ok () ∧ w.second.delivered = true ∧ carried sql ≠ []) := by
  have hfirst := w.first.length_executed sql
  have hsecond := w.second.length_executed sql
  have honce : (w.first.executed sql).length ≤ 1 := by
    rw [hfirst]
    split <;> omega
  rcases w.first.result_cases addr with ⟨hanswered, r, hr⟩ | ⟨hanswered, _, hr⟩
  · rw [sendTwice, hr]
    exact iff_of_true honce fun h => h.1.2 hanswered
  · cases hreconnect : w.reconnect with
    | error msg' =>
      rw [sendTwice, hr, hreconnect]
      refine iff_of_true honce ?_
      rintro ⟨-, hok, -⟩
      cases hok
    | ok u =>
      have hexecuted : (sendTwice addr sql w).executed =
          w.first.executed sql ++ w.second.executed sql := by
        rw [sendTwice, hr, hreconnect]
        cases w.second.result addr <;> rfl
      rw [hexecuted, length_append, hfirst, hsecond]
      by_cases hd₁ : w.first.delivered = true ∧ carried sql ≠ []
      · by_cases hd₂ : w.second.delivered = true ∧ carried sql ≠ []
        · rw [if_pos hd₁, if_pos hd₂]
          refine iff_of_false (by omega) ?_
          exact not_not.mpr ⟨⟨hd₁.1, hanswered⟩, rfl, hd₂⟩
        · rw [if_neg hd₂]
          exact iff_of_true (by omega) fun h => hd₂ h.2.2
      · rw [if_neg hd₁]
        refine iff_of_true (by split <;> omega) ?_
        exact fun h => hd₁ ⟨h.1.1, h.2.2.2⟩

/-- **At most once**: a call of the pool makes the node execute the statement at most once, if and
only if the statement does not reach the node a second time after a first time without a complete
answer. -/
theorem at_most_once_iff (addr sql : Bytes) (hasClient : Bool) (w : Call) :
    (ShardClientPool.execute addr sql hasClient w).executed.length ≤ 1 ↔
      ¬ w.Repeats hasClient sql := by
  unfold Call.Repeats ShardClientPool.execute
  cases hasClient with
  | true =>
    rw [if_pos rfl, ShardClientPool.sendTwice_iff,
      and_iff_right (show true = true ∨ w.connect = .ok () from .inl rfl)]
  | false =>
    cases hconnect : w.connect with
    | error msg =>
      refine iff_of_true (Nat.zero_le _) ?_
      rintro ⟨hclient | hclient, -⟩
      · cases hclient
      · cases hclient
    | ok u =>
      rw [and_iff_right (show false = true ∨ Except.ok u = (Except.ok () : Except Bytes Unit)
        from .inr rfl)]
      exact ShardClientPool.sendTwice_iff addr sql w

/-- The node executes the statement, its answer comes too late; the pool connects again and sends
the statement once more. -/
def lateAnswer : Call where
  connect := .ok ()
  first := ⟨true, .ok ⟨[], [], 1⟩, 0⟩
  reconnect := .ok ()
  second := ⟨true, .ok ⟨[], [], 1⟩, 2⟩

/-- The row is inserted twice, and the pool reports success. -/
theorem lateAnswer_twice :
    (ShardClientPool.execute [] (ascii "INSERT INTO t VALUES (1)") true lateAnswer).executed =
        [ascii "INSERT INTO t VALUES (1)", ascii "INSERT INTO t VALUES (1)"] ∧
      (ShardClientPool.execute [] (ascii "INSERT INTO t VALUES (1)") true
        lateAnswer).result.toOption = some ⟨[], [], 1⟩ ∧
      ¬ (ShardClientPool.execute [] (ascii "INSERT INTO t VALUES (1)") true
        lateAnswer).executed.length ≤ 1 := by
  decide +kernel

end NyxDb.Server
