import NyxDb.Server.Routing

/-!
# A node behind the pool

A coordinator reaches a node through its pool only.  What the network does to the sendings of a
call is given in advance, whatever it is; what the node answers is for the node to say.  With the
node go the statements that were sent to it and those it has executed, with their answers.
-/

namespace NyxDb.Server

open List ShardClientPool

/-- What the network does to one sending: whether its frame reaches the node, and how many frames
of the answer arrive in time. -/
structure Link where
  delivered : Bool
  arrived : Nat
  deriving DecidableEq, Repr

/-- What happens during a call of the pool, apart from what the node answers. -/
structure Fate where
  connect : Except Bytes Unit
  first : Link
  reconnect : Except Bytes Unit
  second : Link

/-- How a node answers a statement, and what the statement makes of it. -/
abbrev Answer (N : Type) : Type := Bytes → N → Except Bytes ExecuteResult × N

structure Peer (N : Type) where
  node : N
  hasClient : Bool
  /-- The calls to come. -/
  fates : Nat → Fate
  /-- The statements sent, the last one at the end. -/
  sent : List Bytes
  /-- The statements executed, with their answers. -/
  executed : List (Bytes × Except Bytes ExecuteResult)

namespace Peer

variable {N : Type} (answer : Answer N) {p : Peer N}

/-- A sending to a node in the given state, and the state after it.  A frame that carries no
statement is not answered. -/
def attempt (sql : Bytes) (link : Link) (n : N) : Attempt × N :=
  if link.delivered then
    match carried sql with
    | [] => (⟨true, .error [], 0⟩, n)
    | s :: _ => (⟨true, (answer s n).1, link.arrived⟩, (answer s n).2)
  else (⟨false, .error [], 0⟩, n)

/-- What happens during the next call. -/
def call (sql : Bytes) (p : Peer N) : Call where
  connect := (p.fates 0).connect
  first := (attempt answer sql (p.fates 0).first p.node).1
  reconnect := (p.fates 0).reconnect
  second :=
    (attempt answer sql (p.fates 0).second (attempt answer sql (p.fates 0).first p.node).2).1

/-- The node executes a statement. -/
def run (p : Peer N) (s : Bytes) : Peer N :=
  { p with
    node := (answer s p.node).2
    executed := p.executed ++ [(s, (answer s p.node).1)] }

/-- The pool has a client for the node, or gets one. -/
def Connects (p : Peer N) : Prop :=
  p.hasClient = true ∨ (p.fates 0).connect = .ok ()

/-- How often the next call sends the statement. -/
def sendings (addr sql : Bytes) (p : Peer N) : Nat :=
  if p.hasClient ∨ (p.fates 0).connect.toBool then
    match (p.call answer sql).first.result addr with
    | .ok _ => 1
    | .error _ => if (p.fates 0).reconnect.toBool then 2 else 1
  else 0

/-- `ShardClientPool::execute`. -/
def execute (addr sql : Bytes) (p : Peer N) : Except Bytes ExecuteResult × Peer N :=
  let o := ShardClientPool.execute addr sql p.hasClient (p.call answer sql)
  let p' := o.executed.foldl (run answer) p
  (o.result,
    { p' with
      hasClient := o.hasClient
      fates := fun n => p.fates (n + 1)
      sent := p.sent ++ replicate (p.sendings answer addr sql) sql })

/-! ## What a call leaves -/

/-- The statements executed without error. -/
def applied (p : Peer N) : List Bytes :=
  (p.executed.filter fun x => x.2.toBool).map Prod.fst

/-- The next call is answered at the first sending. -/
def Answers (sql : Bytes) (p : Peer N) : Prop :=
  p.Connects ∧ (p.call answer sql).first.Answered

/-- The next call fails after one sending, which the node has not executed without error. -/
def FailsUnapplied (sql : Bytes) (p : Peer N) : Prop :=
  p.Connects ∧ ¬ (p.call answer sql).first.Answered ∧ (p.fates 0).reconnect ≠ .ok () ∧
    ¬ ((p.call answer sql).first.delivered = true ∧ (p.call answer sql).first.answer.toBool = true)

theorem connects_iff (p : Peer N) :
    p.Connects ↔ (p.hasClient = true ∨ (p.fates 0).connect.toBool = true) := by
  unfold Connects
  cases (p.fates 0).connect with
  | error msg => simp [Except.toBool]
  | ok u => simp [Except.toBool]

/-- The pool sends over its client. -/
theorem execute_of_connects (h : p.Connects) (addr sql : Bytes) :
    ShardClientPool.execute addr sql p.hasClient (p.call answer sql) =
      sendTwice addr sql (p.call answer sql) := by
  unfold ShardClientPool.execute
  rcases h with hclient | hconnect
  · rw [if_pos hclient]
  · have hcall : (p.call answer sql).connect = .ok () := hconnect
    rw [hcall]
    split <;> rfl

/-- A sending makes the node execute more exactly if it is answered without error. -/
theorem applied_attempt_iff (sql : Bytes) (link : Link) (p : Peer N) :
    (((attempt answer sql link p.node).1.executed sql).foldl (run answer) p).applied = p.applied ↔
      ¬ ((attempt answer sql link p.node).1.delivered = true ∧
        (attempt answer sql link p.node).1.answer.toBool = true) := by
  unfold attempt Attempt.executed
  cases link.delivered with
  | false => simp
  | true =>
    rcases carried_cases sql with hnone | ⟨s, hone⟩
    · simp [hnone, Except.toBool]
    · rw [hone]
      simp only [if_true, foldl_cons, foldl_nil, run, applied, filter_append,
        map_append, true_and]
      cases (answer s p.node).1 <;> simp [Except.toBool]

theorem applied_execute (addr sql : Bytes) (p : Peer N) : (p.execute answer addr sql).2.applied =
      ((ShardClientPool.execute addr sql p.hasClient (p.call answer sql)).executed.foldl
        (run answer) p).applied := rfl

/-- The four ways a call ends. -/
theorem execute_cases (addr sql : Bytes) (p : Peer N) :
    (¬ p.Connects ∧ p.sendings answer addr sql = 0 ∧
        (p.execute answer addr sql).1.toBool = false) ∨
      (p.Answers answer sql ∧ p.sendings answer addr sql = 1 ∧
        (p.execute answer addr sql).1.toBool = true ∧
        (p.execute answer addr sql).2.applied ≠ p.applied) ∨
      (p.Connects ∧ ¬ (p.call answer sql).first.Answered ∧ (p.fates 0).reconnect ≠ .ok () ∧
        p.sendings answer addr sql = 1 ∧ (p.execute answer addr sql).1.toBool = false ∧
        ((p.execute answer addr sql).2.applied = p.applied ↔
          ¬ ((p.call answer sql).first.delivered = true ∧
            (p.call answer sql).first.answer.toBool = true))) ∨
      (¬ (p.call answer sql).first.Answered ∧ (p.fates 0).reconnect = .ok () ∧
        p.sendings answer addr sql = 2) := by
  by_cases hconnects : p.Connects
  · have hguard : p.hasClient = true ∨ (p.fates 0).connect.toBool = true :=
      p.connects_iff.1 hconnects
    rw [sendings, if_pos hguard, applied_execute, execute, execute_of_connects answer hconnects,
      sendTwice]
    -- The node after the first sending.
    have happlied := applied_attempt_iff answer sql (p.fates 0).first p
    rcases (p.call answer sql).first.result_cases addr with ⟨hanswered, r, hr⟩ | ⟨hnot, msg, hr⟩
    · obtain ⟨_, -, hdelivered, hok, -⟩ := id hanswered
      rw [hr]
      refine .inr (.inl ⟨⟨hconnects, hanswered⟩, rfl, rfl, fun hsame => ?_⟩)
      exact happlied.1 hsame ⟨hdelivered, congrArg Except.toBool hok⟩
    · rw [hr]
      cases hreconnect : (p.fates 0).reconnect with
      | ok u => exact .inr (.inr (.inr ⟨hnot, rfl, rfl⟩))
      | error msg' =>
        have hcall : (p.call answer sql).reconnect = .error msg' := hreconnect
        rw [hcall]
        exact .inr (.inr (.inl ⟨hconnects, hnot, by simp, rfl, rfl, happlied⟩))
  · refine .inl ⟨hconnects, if_neg fun h => hconnects (p.connects_iff.2 h), ?_⟩
    have hclient : p.hasClient = false := Bool.eq_false_iff.2 fun h => hconnects (.inl h)
    cases hconnect : (p.call answer sql).connect with
    | ok u => exact absurd (.inr hconnect) hconnects
    | error msg =>
      rw [execute, ShardClientPool.execute, hclient, hconnect]
      rfl

/-- A call without a sending does not succeed. -/
theorem sendings_of_ok {addr sql : Bytes}
    (hok : (p.execute answer addr sql).1.toBool = true) : p.sendings answer addr sql ≠ 0 := by
  rcases p.execute_cases answer addr sql with
    ⟨-, -, hfailed⟩ | ⟨-, honce, -⟩ | ⟨-, -, -, honce, -⟩ | ⟨-, -, htwice⟩
  · rw [hfailed] at hok
    cases hok
  · omega
  · omega
  · omega

/-- A call that succeeds after one sending was answered at once, and the node has executed the
statement. -/
theorem answers_of_ok {addr sql : Bytes} (hok : (p.execute answer addr sql).1.toBool = true)
    (honce : p.sendings answer addr sql = 1) :
    p.Answers answer sql ∧ (p.execute answer addr sql).2.applied ≠ p.applied := by
  rcases p.execute_cases answer addr sql with
    ⟨-, -, hfailed⟩ | ⟨hanswers, -, -, happlied⟩ | ⟨-, -, -, -, hfailed, -⟩ | ⟨-, -, htwice⟩
  · rw [hfailed] at hok
    cases hok
  · exact ⟨hanswers, happlied⟩
  · rw [hfailed] at hok
    cases hok
  · omega

theorem ok_of_answers (addr : Bytes) {sql : Bytes} (h : p.Answers answer sql) :
    (p.execute answer addr sql).1.toBool = true ∧ p.sendings answer addr sql = 1 := by
  rcases p.execute_cases answer addr sql with
    ⟨hnot, -⟩ | ⟨-, honce, hok, -⟩ | ⟨-, hnot, -⟩ | ⟨hnot, -⟩
  · exact absurd h.1 hnot
  · exact ⟨hok, honce⟩
  · exact absurd h.2 hnot
  · exact absurd h.2 hnot

/-- A call that fails after one sending, and after which the node has executed nothing more. -/
theorem failsUnapplied_iff (addr sql : Bytes) (p : Peer N) :
    p.FailsUnapplied answer sql ↔ (p.execute answer addr sql).1.toBool = false ∧
      p.sendings answer addr sql = 1 ∧ (p.execute answer addr sql).2.applied = p.applied := by
  rcases p.execute_cases answer addr sql with
    ⟨hnot, hzero, -⟩ | ⟨hanswers, -, hok, -⟩ |
      ⟨hconnects, hnot, hreconnect, honce, hfailed, happlied⟩ | ⟨-, hreconnect, htwice⟩
  · refine iff_of_false (fun h => hnot h.1) ?_
    omega
  · refine iff_of_false (fun h => h.2.1 hanswers.2) ?_
    rw [hok]
    rintro ⟨h, -⟩
    cases h
  · rw [happlied]
    exact ⟨fun h => ⟨hfailed, honce, h.2.2.2⟩, fun h => ⟨hconnects, hnot, hreconnect, h.2.2⟩⟩
  · refine iff_of_false (fun h => h.2.2.1 hreconnect) ?_
    omega

end Peer
end NyxDb.Server
