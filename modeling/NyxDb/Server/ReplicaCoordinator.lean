import Mathlib.Data.List.Rotate
import NyxDb.Lib.Ascii
import NyxDb.Storage.Error

/-!
# The replica coordinator

It knows the address of the leader and the addresses of the replicas.  A statement that is not a
`SELECT` goes to the leader, a `SELECT` to the replicas in turn.
-/

namespace NyxDb.Server

structure ReplicaCoordinator where
  leaderAddr : Bytes
  replicas : List Bytes
  rrIdx : Nat
  deriving DecidableEq, Repr

namespace ReplicaCoordinator

def empty : ReplicaCoordinator :=
  ⟨[], [], 0⟩

def registerNode (rc : ReplicaCoordinator) (addr : Bytes) (isLeader : Bool) : ReplicaCoordinator :=
  { rc with
    replicas := if addr ∈ rc.replicas then rc.replicas else rc.replicas ++ [addr]
    leaderAddr := if isLeader then addr else rc.leaderAddr }

def notifyLeader (rc : ReplicaCoordinator) (oldAddr newAddr : Bytes) : ReplicaCoordinator :=
  { rc with leaderAddr := newAddr, replicas := rc.replicas.erase oldAddr }

/-- The first six letters are not `SELECT`; a shorter text counts as a write. -/
def isWrite (sql : Bytes) : Bool :=
  let text := sql.dropWhile isSpace
  if text.length < 6 then true else decide ((text.take 6).map toUpper ≠ ascii "SELECT")

/-- The replica of the next `SELECT`, empty without replicas. -/
def pickReplica (rc : ReplicaCoordinator) : Bytes × ReplicaCoordinator :=
  if rc.replicas = [] then ([], rc)
  else
    ((rc.replicas[rc.rrIdx % rc.replicas.length]?).getD [],
      { rc with rrIdx := (rc.rrIdx + 1) % rc.replicas.length })

/-- The node a statement is sent to, or the error. -/
def execute (rc : ReplicaCoordinator) (sql : Bytes) : Except Bytes Bytes × ReplicaCoordinator :=
  if isWrite sql then
    if rc.leaderAddr = [] then (.error (ascii "replica_coordinator: no leader registered"), rc)
    else (.ok rc.leaderAddr, rc)
  else
    let (replica, rc') := rc.pickReplica
    if replica = [] then (.error (ascii "replica_coordinator: no replicas registered"), rc')
    else (.ok replica, rc')

/-! ## Replicas in turn -/

open List

/-- What changes a coordinator; `select` is a `SELECT`. -/
inductive Change where
  | registerNode (addr : Bytes) (isLeader : Bool)
  | notifyLeader (oldAddr newAddr : Bytes)
  | select

def step (rc : ReplicaCoordinator) : Change → ReplicaCoordinator
  | .registerNode addr isLeader => rc.registerNode addr isLeader
  | .notifyLeader oldAddr newAddr => rc.notifyLeader oldAddr newAddr
  | .select => rc.pickReplica.2

/-- Whether a node is known after one more change.  A registration makes it known, as leader or not;
the notice that another node has taken its place as leader makes it unknown. -/
def known (addr : Bytes) (before : Bool) : Change → Bool
  | .registerNode a _ => before || a == addr
  | .notifyLeader oldAddr _ => before && oldAddr != addr
  | .select => before

/-- The replicas of the next `m` `SELECT`s. -/
def picks : Nat → ReplicaCoordinator → List Bytes
  | 0, _ => []
  | m + 1, rc => rc.pickReplica.1 :: picks m rc.pickReplica.2

variable {rc : ReplicaCoordinator}

theorem replicas_pickReplica (rc : ReplicaCoordinator) :
    rc.pickReplica.2.replicas = rc.replicas := by
  unfold pickReplica
  split <;> rfl

theorem nodup_step (h : rc.replicas.Nodup) (c : Change) : (rc.step c).replicas.Nodup := by
  cases c with
  | registerNode addr isLeader =>
    show (if addr ∈ rc.replicas then rc.replicas else rc.replicas ++ [addr]).Nodup
    split
    · exact h
    · next hnew => exact concat_eq_append ▸ h.concat hnew
  | notifyLeader oldAddr newAddr => exact h.erase oldAddr
  | select =>
    show rc.pickReplica.2.replicas.Nodup
    rwa [replicas_pickReplica]

/-- The list has the nodes that are known. -/
theorem mem_step (h : rc.replicas.Nodup) (addr : Bytes) (c : Change) :
    addr ∈ (rc.step c).replicas ↔ known addr (decide (addr ∈ rc.replicas)) c = true := by
  cases c with
  | registerNode a isLeader =>
    show addr ∈ (if a ∈ rc.replicas then rc.replicas else rc.replicas ++ [a]) ↔ _
    split
    · next ha =>
      have himp : a = addr → addr ∈ rc.replicas := fun heq => heq ▸ ha
      simpa [known] using himp
    · rw [known, mem_append, mem_singleton, Bool.or_eq_true, decide_eq_true_iff, beq_iff_eq,
        eq_comm (a := addr)]
  | notifyLeader oldAddr newAddr =>
    show addr ∈ rc.replicas.erase oldAddr ↔ _
    rw [known, h.mem_erase_iff, Bool.and_eq_true, decide_eq_true_iff, bne_iff_ne, ne_comm,
      and_comm]
  | select =>
    show addr ∈ rc.pickReplica.2.replicas ↔ _
    simp [replicas_pickReplica, known]

theorem mem_replicas_iff (addr : Bytes) (changes : List Change) (h : rc.replicas.Nodup) :
    addr ∈ (changes.foldl step rc).replicas ↔
      changes.foldl (known addr) (decide (addr ∈ rc.replicas)) = true := by
  induction changes generalizing rc with
  | nil => exact decide_eq_true_iff.symm
  | cons c changes ih =>
    have hnext : decide (addr ∈ (rc.step c).replicas) =
        known addr (decide (addr ∈ rc.replicas)) c := by
      rw [Bool.eq_iff_iff, decide_eq_true_iff, mem_step h]
    rw [foldl_cons, foldl_cons, ih (nodup_step h c), hnext]

/-- The cursor goes round the list. -/
theorem picks_eq (hne : rc.replicas ≠ []) (m : Nat) : rc.picks m =
    (range m).map fun i => (rc.replicas[(rc.rrIdx + i) % rc.replicas.length]?).getD [] := by
  induction m generalizing rc with
  | zero => rfl
  | succ m ih =>
    have hpick : rc.pickReplica = _ := if_neg hne
    rw [picks, ih (by rwa [replicas_pickReplica]), range_succ_eq_map, map_cons, map_map, hpick]
    simp only [Nat.add_zero, Nat.mod_add_mod]
    refine congrArg _ (map_congr_left fun i _ => ?_)
    rw [Function.comp_apply, Nat.add_right_comm]
    rfl

/-- One round, from wherever the cursor is. -/
theorem picks_round (hne : rc.replicas ≠ []) :
    rc.picks rc.replicas.length = rc.replicas.rotate rc.rrIdx := by
  rw [picks_eq hne]
  refine ext_getElem (by simp) fun i hi hi' => ?_
  have hlt := Nat.mod_lt (rc.rrIdx + i) (length_pos_of_ne_nil hne)
  simp [getElem_rotate, Nat.add_comm i, hlt]

/-- **Fairness.**  Whatever nodes were registered and became leader before, the replicas are the
nodes that are known, none is listed twice, and `k` rounds of `SELECT`s go to every replica `k`
times. -/
theorem reads_round_robin (changes : List Change) :
    let rc := changes.foldl step empty
    (∀ addr, addr ∈ rc.replicas ↔ changes.foldl (known addr) false = true) ∧ rc.replicas.Nodup ∧
      ∀ k, ∀ addr ∈ rc.replicas, (rc.picks (k * rc.replicas.length)).count addr = k := by
  have hnodup : (changes.foldl step empty).replicas.Nodup := by
    refine foldlRecOn changes step (b := empty) (motive := fun rc => rc.replicas.Nodup) nodup_nil ?_
    exact fun rc h c _ => nodup_step h c
  refine ⟨fun addr => mem_replicas_iff addr changes nodup_nil, hnodup, ?_⟩
  generalize changes.foldl step empty = rc at hnodup ⊢
  intro k addr haddr
  have hne := ne_nil_of_mem haddr
  have hround := (rotate_perm rc.replicas rc.rrIdx).count_eq addr
  rw [count_eq_one_of_mem hnodup haddr, ← picks_round hne, picks_eq hne] at hround
  rw [picks_eq hne]
  induction k with
  | zero => simp
  | succ k ih =>
    -- one more round starts at the same place
    rw [Nat.succ_mul, range_add, map_append, count_append, ih, map_map]
    simp [Function.comp_def, ← Nat.add_assoc, Nat.add_right_comm _ (k * _),
      Nat.add_mul_mod_self_right, hround]

/-- Two nodes are registered, and a third takes the place of the first. -/
example : ([.registerNode [1] true, .registerNode [2] false, .registerNode [3] false, .select,
    .notifyLeader [1] [3]].foldl step empty).picks 4 = [[3], [2], [3], [2]] := by
  decide

end ReplicaCoordinator
end NyxDb.Server
