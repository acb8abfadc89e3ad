import NyxDb.Catalog.Metadata
import NyxDb.Server.ReplicaCoordinator

/-!
# Failover notices

A node that is promoted tells the shard coordinator and the replica coordinator: it names itself
and the leader of its own configuration, which never changes.  The notice has no term.  The shard
coordinator redirects the partitions that have the old address, the replica coordinator takes
every new address.  The notices of several promotions arrive in any order.
-/

namespace NyxDb

namespace Server

/-! ## The nodes of a shard group -/

/-- What the notices of a node depend on. -/
structure NodeConfig where
  port : UInt16
  isLeader : Bool
  leaderAddr : Bytes
  deriving DecidableEq, Repr

def nodeAddr (port : UInt16) : Bytes :=
  ascii "127.0.0.1:" ++ decimal port.toNat

/-- The frames `NOTIFY_LEADER` and `REGISTER_NODE`. -/
inductive Notice where
  | notifyLeader (oldAddr newAddr : Bytes)
  | registerNode (addr : Bytes) (isLeader : Bool)
  deriving DecidableEq, Repr

/-- What has been sent to the two coordinators. -/
structure Notices where
  toShard : List (Bytes × Bytes)
  toReplica : List Notice
  deriving DecidableEq, Repr

namespace ReplicationManager

/-- A node registers with the replica coordinator when it starts. -/
def start (cfg : NodeConfig) : Notice :=
  .registerNode (nodeAddr cfg.port) cfg.isLeader

/-- The notices of a promotion.  Without a configured leader the shard coordinator gets none. -/
def becomeLeader (cfg : NodeConfig) (sent : Notices) : Notices where
  toShard :=
    if cfg.leaderAddr = [] then sent.toShard
    else sent.toShard ++ [(cfg.leaderAddr, nodeAddr cfg.port)]
  toReplica := sent.toReplica ++ [.notifyLeader cfg.leaderAddr (nodeAddr cfg.port)]

end ReplicationManager

/-- The first node of a group starts as leader, the others as followers pointed at it.  A node is
known by its port. -/
structure Group where
  leader : UInt16
  followers : List UInt16
  distinct : leader ∉ followers

/-- What happens to the role of a node; a promotion is for a term. -/
inductive RoleEvent where
  | becomeLeader (term : Nat) (port : UInt16)
  | becomeFollower (port : UInt16)
  deriving DecidableEq, Repr

namespace Group

variable (g : Group)

def config (port : UInt16) : NodeConfig :=
  if port = g.leader then ⟨port, true, []⟩ else ⟨port, false, nodeAddr g.leader⟩

/-- The flag `leader_` of every node and the notices so far. -/
structure State where
  leading : UInt16 → Bool
  sent : Notices

def init : State where
  leading port := decide (port = g.leader)
  sent := ⟨[], (g.leader :: g.followers).map fun port => ReplicationManager.start (g.config port)⟩

/-- A node that leads already sends nothing. -/
def step (s : State) : RoleEvent → State
  | .becomeLeader _ port =>
    if s.leading port then s
    else
      ⟨Function.update s.leading port true, ReplicationManager.becomeLeader (g.config port) s.sent⟩
  | .becomeFollower port => { s with leading := Function.update s.leading port false }

def run (events : List RoleEvent) : State :=
  events.foldl g.step g.init

/-- The leader of the highest term, the first one before any promotion. -/
def topLeader (events : List RoleEvent) : UInt16 :=
  (events.foldl (fun best e =>
    match e with
    | .becomeLeader term port => if best.1 ≤ term then (term, port) else best
    | .becomeFollower _ => best) (0, g.leader)).2

end Group

/-! ## The coordinators -/

/-- `ShardCoordinator::notify_leader` for one address. -/
def redirected (notice : Bytes × Bytes) (addr : Bytes) : Bytes :=
  if addr = notice.1 then notice.2 else addr

end Server

/-- The map with the partitions of one node given to another. -/
def ShardMap.redirect (notice : Bytes × Bytes) (m : ShardMap) : ShardMap :=
  { m with
    partitions := m.partitions.map fun p =>
      { p with nodeAddr := Server.redirected notice p.nodeAddr } }

namespace Server

/-- A map that does not change is not written. -/
def notifyTable (notice : Bytes × Bytes) (c : FullCatalog) (name : Bytes) : FullCatalog :=
  match c.shardMapOf name with
  | none => c
  | some m =>
    if m.partitions.any fun p => decide (p.nodeAddr = notice.1) then
      (exec (FullCatalog.setShardMap name (m.redirect notice)) c).2
    else c

/-- `ShardCoordinator::notify_leader`. -/
def notifyLeader (notice : Bytes × Bytes) (c : FullCatalog) : FullCatalog :=
  c.tableNames.foldl (notifyTable notice) c

/-- A frame at the replica coordinator. -/
def ReplicaCoordinator.receive (rc : ReplicaCoordinator) : Notice → ReplicaCoordinator
  | .notifyLeader oldAddr newAddr => rc.notifyLeader oldAddr newAddr
  | .registerNode addr isLeader => rc.registerNode addr isLeader

/-! ## What a notice changes -/

/-- The tables are kept by canonical name, each once. -/
structure Keyed (c : FullCatalog) : Prop where
  nodup : c.tableNames.Nodup
  canonical : ∀ name ∈ c.tableNames, canonicalize name = name

theorem redirect_eq_self {notice : Bytes × Bytes} {m : ShardMap}
    (h : ¬ (m.partitions.any fun p => decide (p.nodeAddr = notice.1)) = true) :
    m.redirect notice = m := by
  have hsame : ∀ p ∈ m.partitions,
      { p with nodeAddr := redirected notice p.nodeAddr } = p := by
    intro p hp
    have hne : p.nodeAddr ≠ notice.1 := by
      intro heq
      exact h (List.any_eq_true.2 ⟨p, hp, by simpa using heq⟩)
    rw [redirected, if_neg hne]
  unfold ShardMap.redirect
  rw [List.map_congr_left hsame, List.map_id']

variable {c : FullCatalog}

section

variable (notice : Bytes × Bytes)

theorem notifyTable_eq {name : Bytes}
    (hname : name ∈ c.tableNames) (hcanonical : canonicalize name = name) :
    (notifyTable notice c name).base = c.base ∧ (notifyTable notice c name).shardMaps =
        Function.update c.shardMaps name ((c.shardMaps name).map (·.redirect notice)) := by
  unfold notifyTable FullCatalog.shardMapOf
  rw [hcanonical]
  cases hm : c.shardMaps name with
  | none =>
    have hsame := Function.update_eq_self name c.shardMaps
    rw [hm] at hsame
    exact ⟨rfl, hsame.symm⟩
  | some m =>
    dsimp only
    by_cases hany : (m.partitions.any fun p => decide (p.nodeAddr = notice.1)) = true
    · obtain ⟨e, he, heq⟩ := List.mem_map.1 hname
      obtain ⟨e, hfind⟩ : ∃ e, c.base.find (canonicalize name) = some e := by
        rw [hcanonical, ← Option.isSome_iff_exists, Catalog.find, List.find?_isSome]
        exact ⟨e, he, by simpa using heq⟩
      have hexec : exec (FullCatalog.setShardMap name (m.redirect notice)) c = (.ok (), { c with
            shardMapFiles := Function.update c.shardMapFiles name (some (m.redirect notice))
            shardMaps := Function.update c.shardMaps name (some (m.redirect notice)) }) := by
        unfold FullCatalog.setShardMap
        rw [exec_get_bind, hfind, hcanonical]
        rfl
      rw [if_pos hany, hexec]
      exact ⟨rfl, rfl⟩
    · rw [if_neg hany, Option.map_some, redirect_eq_self hany, ← hm, Function.update_eq_self]
      exact ⟨rfl, rfl⟩

theorem foldl_notifyTable_eq {names : List Bytes}
    (hnodup : names.Nodup) (hknown : ∀ name ∈ names, name ∈ c.tableNames)
    (hcanonical : ∀ name ∈ names, canonicalize name = name) :
    (names.foldl (notifyTable notice) c).base = c.base ∧
      ∀ name, (names.foldl (notifyTable notice) c).shardMaps name =
        if name ∈ names then (c.shardMaps name).map (·.redirect notice) else c.shardMaps name := by
  induction names generalizing c with
  | nil => exact ⟨rfl, fun _ => rfl⟩
  | cons x xs ih =>
    obtain ⟨hx, hxs⟩ := List.nodup_cons.1 hnodup
    obtain ⟨hbase, hmaps⟩ := notifyTable_eq notice (hknown x List.mem_cons_self)
      (hcanonical x List.mem_cons_self)
    have hnames : (notifyTable notice c x).tableNames = c.tableNames := by
      unfold FullCatalog.tableNames
      rw [hbase]
    obtain ⟨hbase', hmaps'⟩ := ih (c := notifyTable notice c x) hxs
      (fun name h => hnames ▸ hknown name (List.mem_cons_of_mem _ h))
      (fun name h => hcanonical name (List.mem_cons_of_mem _ h))
    refine ⟨hbase'.trans hbase, fun name => ?_⟩
    rw [List.foldl_cons, hmaps', hmaps]
    by_cases heq : name = x
    · subst heq
      simp [hx]
    · simp [heq]

theorem notifyLeader_eq (h : Keyed c) : (notifyLeader notice c).base = c.base ∧
      ∀ name ∈ c.tableNames, (notifyLeader notice c).shardMaps name =
        (c.shardMaps name).map (·.redirect notice) := by
  obtain ⟨hbase, hmaps⟩ := foldl_notifyTable_eq notice h.nodup (fun _ hname => hname) h.canonical
  refine ⟨hbase, fun name hname => ?_⟩
  rw [notifyLeader, hmaps, if_pos hname]

end

/-- The address of a partition after notices in their order of arrival. -/
def redirectedAll (notices : List (Bytes × Bytes)) (addr : Bytes) : Bytes :=
  notices.foldl (fun a notice => redirected notice a) addr

/-- The partitions after all notices. -/
theorem partition_after (notices : List (Bytes × Bytes)) (h : Keyed c)
    {name : Bytes} (hname : name ∈ c.tableNames) {m : ShardMap} (hm : c.shardMaps name = some m)
    {i : Nat} {p : PartitionDef} (hp : m.partitions[i]? = some p) :
    ∃ m', (notices.foldl (fun c notice => notifyLeader notice c) c).shardMaps name = some m' ∧
      m'.partitions[i]? = some { p with nodeAddr := redirectedAll notices p.nodeAddr } := by
  induction notices generalizing c m p with
  | nil => exact ⟨m, hm, hp⟩
  | cons notice notices ih =>
    obtain ⟨hbase, hmaps⟩ := notifyLeader_eq notice h
    have hnames : (notifyLeader notice c).tableNames = c.tableNames := by
      unfold FullCatalog.tableNames
      rw [hbase]
    have hkeyed : Keyed (notifyLeader notice c) := ⟨hnames ▸ h.nodup, hnames ▸ h.canonical⟩
    have hm' : (notifyLeader notice c).shardMaps name = some (m.redirect notice) := by
      rw [hmaps name hname, hm, Option.map_some]
    exact ih hkeyed (hnames ▸ hname) hm' (p := { p with nodeAddr := redirected notice p.nodeAddr })
      (by simp [ShardMap.redirect, hp])

/-! ## The order of arrival -/

theorem nodeAddr_injective {p q : UInt16} (h : nodeAddr p = nodeAddr q) : p = q := by
  have hdecimal : decimal p.toNat = decimal q.toNat := List.append_cancel_left h
  have hnat := congrArg natOfDigits hdecimal
  rw [natOfDigits_decimal, natOfDigits_decimal] at hnat
  exact UInt16.toNat_inj.1 hnat

theorem nodeAddr_ne_nil (p : UInt16) : nodeAddr p ≠ [] := by
  simp [nodeAddr, decimal_ne_nil]

/-- All notices take partitions away from the address. -/
def Replacing (addr : Bytes) (notices : List (Bytes × Bytes)) : Prop :=
  ∀ notice ∈ notices, notice.1 = addr ∧ notice.2 ≠ addr

theorem Group.toShard_step (g : Group) (s : Group.State) (e : RoleEvent)
    (h : Replacing (nodeAddr g.leader) s.sent.toShard) :
    Replacing (nodeAddr g.leader) (g.step s e).sent.toShard := by
  cases e with
  | becomeFollower port => exact h
  | becomeLeader term port =>
    rw [Group.step]
    split_ifs
    · exact h
    intro notice hmem
    rw [ReplicationManager.becomeLeader, Group.config] at hmem
    by_cases hport : port = g.leader
    · -- The first leader has no leader in its configuration.
      rw [if_pos hport] at hmem
      exact h notice hmem
    · rw [if_neg hport] at hmem
      rw [if_neg (nodeAddr_ne_nil _), List.mem_append, List.mem_singleton] at hmem
      rcases hmem with hmem | rfl
      · exact h notice hmem
      · exact ⟨rfl, fun heq => hport (nodeAddr_injective heq)⟩

/-- The notices to the shard coordinator all name the first leader as the old one. -/
theorem Group.toShard_run (g : Group) (events : List RoleEvent) :
    Replacing (nodeAddr g.leader) (g.run events).sent.toShard := by
  unfold Group.run
  have hinit : Replacing (nodeAddr g.leader) g.init.sent.toShard := nofun
  generalize g.init = s at hinit
  induction events generalizing s with
  | nil => exact hinit
  | cons e events ih => exact ih _ (g.toShard_step s e hinit)

/-- The first notice that arrives decides; the old address is not met again. -/
theorem redirectedAll_eq {notices : List (Bytes × Bytes)} {addr : Bytes}
    (h : Replacing addr notices) : redirectedAll notices addr =
    (notices.head?.map Prod.snd).getD addr := by
  cases notices with
  | nil => rfl
  | cons notice notices =>
    obtain ⟨hold, hnew⟩ := h notice List.mem_cons_self
    have hstay : ∀ ns : List (Bytes × Bytes), (∀ n ∈ ns, n.1 = addr) →
        redirectedAll ns notice.2 = notice.2 := by
      intro ns hns
      induction ns with
      | nil => rfl
      | cons n ns ih =>
        have hne : notice.2 ≠ n.1 := by
          rw [hns n List.mem_cons_self]
          exact hnew
        unfold redirectedAll at ih ⊢
        rw [List.foldl_cons, redirected, if_neg hne]
        exact ih fun n' hn' => hns n' (List.mem_cons_of_mem _ hn')
    show redirectedAll notices (redirected notice addr) = notice.2
    rw [redirected, if_pos hold.symm]
    exact hstay notices fun n hn => (h n (List.mem_cons_of_mem _ hn)).1

/-- The leader that a frame to the replica coordinator names. -/
def Notice.leader : Notice → Option Bytes
  | .notifyLeader _ newAddr => some newAddr
  | .registerNode addr isLeader => if isLeader then some addr else none

/-- The last frame that names a leader decides. -/
theorem leaderAddr_foldl_receive (frames : List Notice) (rc : ReplicaCoordinator) :
    (frames.foldl ReplicaCoordinator.receive rc).leaderAddr =
      (frames.filterMap Notice.leader).getLast?.getD rc.leaderAddr := by
  induction frames generalizing rc with
  | nil => rfl
  | cons f frames ih =>
    rw [List.foldl_cons, ih]
    cases f with
    | notifyLeader oldAddr newAddr =>
      simp [Notice.leader, ReplicaCoordinator.receive, ReplicaCoordinator.notifyLeader,
        List.getLast?_cons]
    | registerNode addr isLeader =>
      cases isLeader with
      | false =>
        simp [Notice.leader, ReplicaCoordinator.receive, ReplicaCoordinator.registerNode]
      | true =>
        simp [Notice.leader, ReplicaCoordinator.receive, ReplicaCoordinator.registerNode,
          List.getLast?_cons]

/-- The partitions that the group had are at the address. -/
def PartitionsAt (g : Group) (c c' : FullCatalog) (addr : Bytes) : Prop :=
  ∀ name ∈ c.tableNames, ∀ m, c.shardMaps name = some m →
    ∀ (i : Nat) (p : PartitionDef), m.partitions[i]? = some p → p.nodeAddr = nodeAddr g.leader →
      ∃ (m' : ShardMap) (p' : PartitionDef), c'.shardMaps name = some m' ∧
        m'.partitions[i]? = some p' ∧ p'.nodeAddr = addr

/-- Every frame that was sent has arrived, in some order. -/
structure Delivered (sent : Notices) (toShard : List (Bytes × Bytes)) (toReplica : List Notice) :
    Prop where
  shard : toShard.Perm sent.toShard
  replica : toReplica.Perm sent.toReplica

/-- Both coordinators name the leader of the highest term after the frames have arrived. -/
def Converged (g : Group) (events : List RoleEvent) (c : FullCatalog)
    (toShard : List (Bytes × Bytes)) (toReplica : List Notice) : Prop :=
  PartitionsAt g c (toShard.foldl (fun c notice => notifyLeader notice c) c)
      (nodeAddr (g.topLeader events)) ∧
    (toReplica.foldl ReplicaCoordinator.receive .empty).leaderAddr = nodeAddr (g.topLeader events)

/-- **The coordinators converge** exactly if the shard coordinator gets the notice of the highest
term first, and the replica coordinator gets it last. -/
theorem failover_converges_iff (g : Group) (events : List RoleEvent) {c : FullCatalog}
    (hkeyed : Keyed c) {toShard : List (Bytes × Bytes)} {toReplica : List Notice}
    (hdelivered : Delivered (g.run events).sent toShard toReplica)
    (hgroup : ∃ name ∈ c.tableNames, ∃ m, c.shardMaps name = some m ∧
      ∃ p ∈ m.partitions, p.nodeAddr = nodeAddr g.leader) :
    Converged g events c toShard toReplica ↔
      (toShard.head?.map Prod.snd).getD (nodeAddr g.leader) = nodeAddr (g.topLeader events) ∧
        (toReplica.filterMap Notice.leader).getLast? = some (nodeAddr (g.topLeader events)) := by
  have hold : Replacing (nodeAddr g.leader) toShard := fun notice hmem =>
    g.toShard_run events notice (hdelivered.shard.mem_iff.1 hmem)
  have hparts : PartitionsAt g c (toShard.foldl (fun c notice => notifyLeader notice c) c)
      (nodeAddr (g.topLeader events)) ↔
      (toShard.head?.map Prod.snd).getD (nodeAddr g.leader) = nodeAddr (g.topLeader events) := by
    rw [← redirectedAll_eq hold]
    constructor
    · intro hat
      obtain ⟨name, hname, m, hm, p, hp, haddr⟩ := hgroup
      obtain ⟨i, hi⟩ := List.mem_iff_getElem?.1 hp
      obtain ⟨m', _, hm', hp', haddr'⟩ := hat name hname m hm i p hi haddr
      obtain ⟨_, hm'', hp''⟩ := partition_after toShard hkeyed hname hm hi
      cases hm'.symm.trans hm''
      cases hp'.symm.trans hp''
      rw [← haddr', ← haddr]
    · -- Every partition of the group has gone through the same notices.
      intro heq name hname m hm i p hp haddr
      obtain ⟨m', hm', hp'⟩ := partition_after toShard hkeyed hname hm hp
      exact ⟨m', _, hm', hp', by rw [haddr, heq]⟩
  have hleader : (toReplica.foldl ReplicaCoordinator.receive .empty).leaderAddr =
      nodeAddr (g.topLeader events) ↔
      (toReplica.filterMap Notice.leader).getLast? = some (nodeAddr (g.topLeader events)) := by
    rw [leaderAddr_foldl_receive]
    cases (toReplica.filterMap Notice.leader).getLast? with
    | none => simpa [ReplicaCoordinator.empty] using (nodeAddr_ne_nil _).symm
    | some addr => simp
  unfold Converged
  rw [hparts, hleader]

/-- A group of two nodes, with all rows of `t` at the first one. -/
def twoNodes : Group := ⟨1, [2], by decide⟩

def oneShard : FullCatalog :=
  (exec (FullCatalog.runCreateTable ⟨ascii "t", [⟨ascii "a", .int32, true, 0, none⟩], [],
      some ⟨ascii "a", 0, [⟨ascii "p", true, .null, nodeAddr 1⟩]⟩⟩) .empty).2

theorem keyed_oneShard : Keyed oneShard where
  nodup := by decide +kernel
  canonical := by decide +kernel

theorem partition_oneShard : ∃ name ∈ oneShard.tableNames, ∃ m,
    oneShard.shardMaps name = some m ∧ ∃ p ∈ m.partitions, p.nodeAddr = nodeAddr 1 :=
  ⟨ascii "t", by decide +kernel, ⟨ascii "a", 0, [⟨ascii "p", true, .null, nodeAddr 1⟩]⟩,
    by decide +kernel, _, List.mem_cons_self, rfl⟩

/-- The frames of these promotions, as they were sent. -/
def sentBy (events : List RoleEvent) : Notices :=
  (twoNodes.run events).sent

theorem failover_converges_once :
    Converged twoNodes [.becomeLeader 1 2] oneShard (sentBy [.becomeLeader 1 2]).toShard
      (sentBy [.becomeLeader 1 2]).toReplica :=
  (failover_converges_iff twoNodes [.becomeLeader 1 2] keyed_oneShard ⟨.refl _, .refl _⟩
    partition_oneShard).2 (by decide +kernel)

/-- Node 2 is promoted, and after it node 1 again. -/
def thereAndBack : List RoleEvent :=
  [.becomeFollower 1, .becomeLeader 1 2, .becomeFollower 2, .becomeLeader 2 1]

/-- Node 1 was the first leader and has none in its configuration, so it tells the shard coordinator
nothing.  The frames arrive as they were sent, and the partition stays at node 2. -/
theorem failover_stays_behind : ∃ toShard toReplica,
      Delivered (sentBy thereAndBack) toShard toReplica ∧
        ¬ Converged twoNodes thereAndBack oneShard toShard toReplica := by
  refine ⟨_, _, ⟨.refl _, .refl _⟩, ?_⟩
  intro hconverged
  obtain ⟨m, p, hm, hp, haddr⟩ := hconverged.1 (ascii "t") (by decide +kernel)
    ⟨ascii "a", 0, [⟨ascii "p", true, .null, nodeAddr 1⟩]⟩ (by decide +kernel) 0 _ rfl rfl
  have hafter : ((sentBy thereAndBack).toShard.foldl
      (fun c notice => notifyLeader notice c) oneShard).shardMaps (ascii "t") =
      some ⟨ascii "a", 0, [⟨ascii "p", true, .null, nodeAddr 2⟩]⟩ := by
    decide +kernel
  cases hafter.symm.trans hm
  cases hp
  revert haddr
  decide +kernel

end Server

end NyxDb
