import NyxDb.Replication.ElectionState
import Mathlib.Data.Finset.Card

/-!
# One leader per term

A cluster is its nodes and the messages that were ever sent: a message may be delivered any
number of times and in any order, or never.  Beside what the program keeps, the system records
the votes that were cast and the granted answers that were delivered, since the handler of an
answer is not told who gave it.

A node has won a term with a majority of votes; term 1 is won by the configured leader.  Winning
is a fact about votes, which are never taken back, so it outlives the leader, and two winners of
a term share a voter if majorities overlap.
-/

namespace NyxDb.Replication

open ElectionManager List Run

/-- A cluster.  Every node finds every node once in its list of peers. -/
structure Cluster where
  ids : List Bytes
  leaderId : Bytes
  peers : Bytes → List Bytes
  nodup : ids.Nodup
  named : ∀ i ∈ ids, i ≠ []
  short : ∀ i ∈ ids, i.length < 2 ^ 16
  leader_mem : leaderId ∈ ids
  hosts : ∀ i ∈ ids, ((peers i).map parseAddr).Perm ids

/-- What travels between nodes.  The voter of an answer is not in the message. -/
inductive Message where
  | frame (frame : Frame)
  | voteResp (voter : Bytes) (term : Nat) (granted : Bool)
  deriving DecidableEq, Repr

structure System where
  nodes : Bytes → ElectionManager
  /-- All messages so far, with the nodes they go to. -/
  sent : List (Bytes × Message)
  /-- Voter, term and candidate of all votes so far. -/
  votes : List (Bytes × Nat × Bytes)
  /-- Voter, candidate and term of the granted answers that were delivered. -/
  counted : List (Bytes × Bytes × Nat)

/-- A timeout and a delivery come with what `get_wal_lsn` returns. -/
inductive Action where
  | timeout (id : Bytes) (walLsn : Nat)
  | deliver (id : Bytes) (message : Message) (myLsn : Nat)
  | restart (id : Bytes)
  deriving DecidableEq, Repr

namespace Message

/-- What a message is to the node it reaches. -/
def event (myLsn : Nat) : Message → Event
  | .frame (.heartbeat term leaderId) => .heartbeat term leaderId
  | .frame (.voteReq term candidate walLsn) => .voteReq myLsn term candidate walLsn
  | .voteResp _ term granted => .voteResp term granted

end Message

namespace Action

/-- The node that acts. -/
def node : Action → Bytes
  | .timeout id _ => id
  | .deliver id _ _ => id
  | .restart id => id

/-- What happens to it. -/
def event : Action → Event
  | .timeout _ walLsn => .timeout walLsn
  | .deliver _ message myLsn => message.event myLsn
  | .restart _ => .restart

end Action

namespace Cluster

def config (C : Cluster) (i : Bytes) : NodeConfig :=
  ⟨i, if i = C.leaderId then .leader else .follower, C.peers i⟩

/-- All nodes start without a state file. -/
def init (C : Cluster) : System :=
  ⟨fun i => (create (C.config i) none).start, [], [], []⟩

end Cluster

namespace System

/-- The answers of a node, to the candidate that asked. -/
def answers (id : Bytes) (m : ElectionManager) (outputs : List Output) :
    Event → List (Bytes × Message)
  | .voteReq _ _ candidate _ =>
    (responsesOf outputs).map fun granted => (candidate, .voteResp id m.currentTerm granted)
  | _ => []

def act (s : System) (id : Bytes) (e : Event) (counted : List (Bytes × Bytes × Nat)) : System :=
  let (m, outputs) := (s.nodes id).handle e
  { nodes := Function.update s.nodes id m
    sent := s.sent ++ ((framesOf outputs).map (fun x => (parseAddr x.1, .frame x.2)) ++
      answers id m outputs e)
    votes := s.votes ++ ((s.nodes id).supports e).map fun x => (id, x)
    counted := s.counted ++ counted }

def step (s : System) : Action → System
  | .timeout id walLsn => s.act id (.timeout walLsn) []
  | .deliver id (.voteResp voter term true) myLsn =>
    s.act id ((Message.voteResp voter term true).event myLsn) [(voter, id, term)]
  | .deliver id message myLsn => s.act id (message.event myLsn) []
  | .restart id => s.act id .restart []

/-- The nodes act, and only what was sent is delivered. -/
def Possible (C : Cluster) (s : System) : Action → Prop
  | .timeout id _ => id ∈ C.ids
  | .deliver id message _ => id ∈ C.ids ∧ (id, message) ∈ s.sent
  | .restart id => id ∈ C.ids

/-- The steps of the runs: a node asks for votes only after it has entered a term, an answer
is not counted twice, and the configured leader restarts in term 1 or as the leader it was. -/
def CountsVotesOnce (C : Cluster) (s : System) : Action → Prop
  | .timeout id _ => (s.nodes id).role = .leader ∨
      0 < (s.nodes id).currentTerm ∧ (s.nodes id).currentTerm + 1 < 2 ^ 64
  | .deliver id (.voteResp voter term granted) _ =>
    granted = true → (voter, id, term) ∉ s.counted
  | .deliver _ (.frame _) _ => True
  | .restart id => id = C.leaderId → (readState (s.nodes id).stateFile).1 ≤ 1 ∨
      (s.nodes id).role = .leader ∧ (s.nodes id).currentTerm = (readState (s.nodes id).stateFile).1

instance (C : Cluster) (s : System) : DecidablePred (s.Possible C) := fun a => by
  cases a <;> dsimp only [Possible] <;> infer_instance

instance (C : Cluster) (s : System) : DecidablePred (s.CountsVotesOnce C) := fun a => by
  rcases a with _ | ⟨_, _ | _, _⟩ | _ <;> dsimp only [CountsVotesOnce] <;> infer_instance

end System

/-! ## Winning a term -/

section Winning

variable {C : Cluster} {votes votes' : List (Bytes × Nat × Bytes)}

/-- A node has the votes of a majority in a term, or is the configured leader in term 1. -/
def Won (C : Cluster) (votes : List (Bytes × Nat × Bytes)) (i : Bytes) (t : Nat) : Prop :=
  (t = 1 ∧ i = C.leaderId) ∨
    2 ≤ t ∧ ∃ V : Finset Bytes, (∀ v ∈ V, (v, t, i) ∈ votes) ∧ (C.ids.length + 1) / 2 ≤ V.card

theorem Won.mono (hsub : votes ⊆ votes') {i : Bytes} {t : Nat} (h : Won C votes i t) :
    Won C votes' i t := by
  rcases h with h | ⟨ht, V, hV, hcard⟩
  · exact .inl h
  · exact .inr ⟨ht, V, fun v hv => hsub (hV v hv), hcard⟩

/-- The votes are of nodes for nodes, after term 1, and a node has one vote in a term. -/
structure VotesOk (C : Cluster) (votes : List (Bytes × Nat × Bytes)) : Prop where
  member : ∀ v t c, (v, t, c) ∈ votes → v ∈ C.ids ∧ c ∈ C.ids ∧ 2 ≤ t
  single : ∀ v t c c', (v, t, c) ∈ votes → (v, t, c') ∈ votes → c = c'

/-- Two winners of a term share a voter. -/
theorem Won.unique (hodd : C.ids.length % 2 = 1) (hvotes : VotesOk C votes) {i j : Bytes} {t : Nat}
    (hi : Won C votes i t) (hj : Won C votes j t) : i = j := by
  rcases hi with ⟨rfl, rfl⟩ | ⟨ht, V, hV, hcardV⟩ <;> rcases hj with ⟨_, rfl⟩ | ⟨_, W, hW, _⟩
  · rfl
  · omega
  · omega
  have hsub : ∀ {U} {k}, (∀ v ∈ U, (v, t, k) ∈ votes) →
      U ⊆ C.ids.toFinset := by
    intro U k hU v hv
    exact mem_toFinset.mpr (hvotes.member v t k (hU v hv)).1
  have hsize : C.ids.toFinset.card = C.ids.length := toFinset_card_of_nodup C.nodup
  obtain ⟨v, hv⟩ := Finset.inter_nonempty_of_card_lt_card_add_card (hsub hV) (hsub hW) (by omega)
  obtain ⟨hvV, hvW⟩ := Finset.mem_inter.mp hv
  exact hvotes.single v t i j (hV v hvV) (hW v hvW)

end Winning

/-! ## The invariant -/

section Invariant

variable {C : Cluster} {votes votes' : List (Bytes × Nat × Bytes)}
  {counted counted' : List (Bytes × Bytes × Nat)} {i name : Bytes}

/-- A term and a vote that know of every vote of the node. -/
def Records (votes : List (Bytes × Nat × Bytes)) (i : Bytes) (pair : Nat × Bytes) : Prop :=
  ∀ t c, (i, t, c) ∈ votes → t ≤ pair.1 ∧ (pair.1 = t → pair.2 = c)

theorem Records.later {term term' : Nat} {name' : Bytes}
    (h : Records votes i (term, name)) (hlt : term < term') : Records votes i (term', name') := by
  intro t c hmem
  obtain ⟨_, -⟩ := h t c hmem
  exact ⟨by change t ≤ term'; omega, fun heq => by change term' = t at heq; omega⟩

variable {c : Bytes} {t lsn myLsn : Nat} {m : ElectionManager} {s : System}

/-- A node votes for a candidate in a term in which it has no other vote. -/
theorem Records.vote {term : Nat} (hvotes : VotesOk C votes)
    (h : Records votes i (term, name)) (hle : term ≤ t) (hfree : t = term → name = [] ∨ name = c) :
    Records (votes ++ [(i, t, c)]) i (t, c) := by
  intro t' c' hmem
  rcases mem_append.mp hmem with hmem | hmem
  · obtain ⟨hle', hname⟩ := h t' c' hmem
    refine ⟨Nat.le_trans hle' hle, fun heq => ?_⟩
    have hterm : term = t' := by omega
    have hc' : name = c' := hname hterm
    have hne : c' ≠ [] := C.named c' (hvotes.member i t' c' hmem).2.1
    rcases hfree (heq.trans hterm.symm) with hnil | hsame
    · exact absurd (hc'.symm.trans hnil) hne
    · exact hsame.symm.trans hc'
  · rw [mem_singleton] at hmem
    cases hmem
    exact ⟨Nat.le_refl _, fun _ => rfl⟩

/-- A vote of another node is no concern. -/
theorem Records.append {new : List (Bytes × Nat × Bytes)} {pair : Nat × Bytes}
    (h : Records votes i pair) (hnew : ∀ t c, (i, t, c) ∉ new) :
    Records (votes ++ new) i pair := by
  intro t c hmem
  rcases mem_append.mp hmem with hmem | hmem
  · exact h t c hmem
  · exact absurd hmem (hnew t c)

/-- A node of such a run. -/
structure NodeOk (C : Cluster) (votes : List (Bytes × Nat × Bytes))
    (counted : List (Bytes × Bytes × Nat)) (i : Bytes) (m : ElectionManager) : Prop where
  config : m.config = C.config i
  bound : m.currentTerm < 2 ^ 64
  disk : Records votes i (readState m.stateFile)
  memory : Records votes i (m.currentTerm, m.votedFor)
  /-- A candidate has counted itself and answers of different voters. -/
  candidate : m.role = .candidate → 2 ≤ m.currentTerm ∧ ∃ V : Finset Bytes,
    (∀ v ∈ V, (v, m.currentTerm, i) ∈ votes ∧ (v = i ∨ (v, i, m.currentTerm) ∈ counted)) ∧
      m.votesReceived ≤ V.card
  leader : m.role = .leader → Won C votes i m.currentTerm

/-- What a message tells is so. -/
def PacketOk (C : Cluster) (votes : List (Bytes × Nat × Bytes)) : Bytes × Message → Prop
  | (_, .frame (.heartbeat t l)) => t < 2 ^ 64 ∧ Won C votes l t
  | (dest, .frame (.voteReq t c _)) => c ∈ C.ids ∧ c ≠ dest ∧ 2 ≤ t ∧ t < 2 ^ 64
  | (dest, .voteResp v t granted) =>
    t < 2 ^ 64 ∧ (granted = true → (v, t, dest) ∈ votes ∧ v ≠ dest)

theorem PacketOk.mono (hsub : votes ⊆ votes') {p : Bytes × Message} (h : PacketOk C votes p) :
    PacketOk C votes' p := by
  obtain ⟨_, message⟩ := p
  cases message with
  | frame f =>
    cases f with
    | heartbeat t l => exact ⟨h.1, h.2.mono hsub⟩
    | voteReq t c lsn => exact h
  | voteResp v t granted => exact ⟨h.1, fun hg => ⟨hsub (h.2 hg).1, (h.2 hg).2⟩⟩

structure Safe (C : Cluster) (s : System) : Prop where
  nodes : ∀ i ∈ C.ids, NodeOk C s.votes s.counted i (s.nodes i)
  votes : VotesOk C s.votes
  sent : ∀ p ∈ s.sent, PacketOk C s.votes p
  counted : ∀ v c t, (v, c, t) ∈ s.counted → (v, t, c) ∈ s.votes ∧ v ≠ c

/-- More votes and answers, and maybe another vote of the node itself. -/
theorem NodeOk.grow (h : NodeOk C votes counted i m) (hsub : votes ⊆ votes')
    (hcounted : counted ⊆ counted') {file : Option Bytes}
    (hdisk : Records votes' i (readState file)) (hmemory : Records votes' i (m.currentTerm, name)) :
    NodeOk C votes' counted' i { m with votedFor := name, stateFile := file } := by
  refine ⟨h.config, h.bound, hdisk, hmemory, fun hrole => ?_, fun hrole => ?_⟩
  · obtain ⟨hterm, V, hV, hcard⟩ := h.candidate hrole
    refine ⟨hterm, V, fun v hv => ⟨hsub (hV v hv).1, ?_⟩, hcard⟩
    exact (hV v hv).2.imp id fun hmem => hcounted hmem
  · exact (h.leader hrole).mono hsub

/-- The other nodes, after votes of one node and answers for one node. -/
theorem NodeOk.frame {j : Bytes} {new : List (Nat × Bytes)} (h : NodeOk C votes counted j m)
    (hne : j ≠ i) : NodeOk C (votes ++ new.map fun x => (i, x)) (counted ++ counted') j m := by
  have hnew : ∀ t c, (j, t, c) ∉ new.map fun x => (i, x) := by
    intro t c hmem
    obtain ⟨x, -, hx⟩ := mem_map.mp hmem
    exact hne (congrArg Prod.fst hx).symm
  exact h.grow (subset_append_left _ _) (subset_append_left _ _) (h.disk.append hnew)
    (h.memory.append hnew)

/-- What one node has to show for the system to be safe after its step. -/
structure StepOk (C : Cluster) (s : System) (m : ElectionManager) (i : Bytes)
    (e : Event) (counted : List (Bytes × Bytes × Nat)) : Prop where
  node : NodeOk C (s.votes ++ (m.supports e).map fun x => (i, x))
    (s.counted ++ counted) i (m.handle e).1
  votes : VotesOk C (s.votes ++ (m.supports e).map fun x => (i, x))
  frames : ∀ x ∈ framesOf (m.handle e).2,
    PacketOk C (s.votes ++ (m.supports e).map fun x => (i, x)) (parseAddr x.1, .frame x.2)
  answers : ∀ p ∈ System.answers i (m.handle e).1 (m.handle e).2 e,
    PacketOk C (s.votes ++ (m.supports e).map fun x => (i, x)) p
  counted : ∀ v c t, (v, c, t) ∈ counted → (v, t, c) ∈ s.votes ∧ v ≠ c

theorem Safe.act (hs : Safe C s) {e : Event} (h : StepOk C s (s.nodes i) i e counted) :
    Safe C (s.act i e counted) := by
  have hsub := subset_append_left s.votes (((s.nodes i).supports e).map fun x => (i, x))
  constructor
  · intro j hj
    show NodeOk C _ _ j (Function.update s.nodes i _ j)
    by_cases hji : j = i
    · subst hji
      rw [Function.update_self]
      exact h.node
    · rw [Function.update_of_ne hji]
      exact (hs.nodes j hj).frame hji
  · exact h.votes
  · intro p hp
    rcases mem_append.mp hp with hp | hp
    · exact (hs.sent p hp).mono hsub
    · rcases mem_append.mp hp with hp | hp
      · obtain ⟨x, hx, rfl⟩ := mem_map.mp hp
        exact h.frames x hx
      · exact h.answers p hp
  · intro v c t hmem
    rcases mem_append.mp hmem with hmem | hmem
    · exact ⟨hsub (hs.counted v c t hmem).1, (hs.counted v c t hmem).2⟩
    · exact ⟨hsub (h.counted v c t hmem).1, (h.counted v c t hmem).2⟩

/-! ## The handlers -/

theorem Cluster.eq_leaderId (hrole : (C.config i).role = .leader) : i = C.leaderId := by
  by_contra hne
  change (if i = C.leaderId then NodeRole.leader else .follower) = .leader at hrole
  rw [if_neg hne] at hrole
  cases hrole

theorem NodeOk.nodeId (h : NodeOk C votes counted i m) : m.config.nodeId = i := by
  rw [h.config]
  rfl

/-- A follower only has to know of its votes. -/
theorem nodeOk_of_follower (hconfig : m.config = C.config i) (hbound : m.currentTerm < 2 ^ 64)
    (hdisk : Records votes i (readState m.stateFile))
    (hmemory : Records votes i (m.currentTerm, m.votedFor)) (hrole : m.role = .follower) :
    NodeOk C votes counted i m := by
  refine ⟨hconfig, hbound, hdisk, hmemory, fun h => ?_, fun h => ?_⟩
  · rw [hrole] at h
    cases h
  · rw [hrole] at h
    cases h

theorem VotesOk.vote (h : VotesOk C votes) (hi : i ∈ C.ids) (hc : c ∈ C.ids) (ht : 2 ≤ t)
    (hrec : Records (votes ++ [(i, t, c)]) i (t, c)) : VotesOk C (votes ++ [(i, t, c)]) := by
  have hmix : ∀ v t' c' c'', (v, t', c') ∈ votes → (v, t', c'') = (i, t, c) → c' = c'' := by
    intro v t' c' c'' hold hnew
    cases hnew
    exact ((hrec _ _ (mem_append_left _ hold)).2 rfl).symm
  constructor
  · intro v t' c' hmem
    rcases mem_append.mp hmem with hmem | hmem
    · exact h.member v t' c' hmem
    · rw [mem_singleton] at hmem
      cases hmem
      exact ⟨hi, hc, ht⟩
  · intro v t' c' c'' h' h''
    rcases mem_append.mp h' with h' | h' <;> rcases mem_append.mp h'' with h'' | h''
    · exact h.single v t' c' c'' h' h''
    · exact hmix v t' c' c'' h' (mem_singleton.mp h'')
    · exact (hmix v t' c'' c' h'' (mem_singleton.mp h')).symm
    · exact congrArg (fun x => x.2.2) ((mem_singleton.mp h').trans (mem_singleton.mp h'').symm)

theorem NodeOk.noticeTerm (h : NodeOk C votes counted i m) (ht : t < 2 ^ 64) :
    NodeOk C votes counted i (m.noticeTerm t) := by
  by_cases hlt : m.currentTerm < t
  · rw [noticeTerm_of_lt hlt]
    exact nodeOk_of_follower h.config ht h.disk (h.memory.later hlt) rfl
  · rwa [noticeTerm_of_le (Nat.not_lt.mp hlt)]

theorem majority_config (hsize : C.ids.length + 1 < 2 ^ 32) (hi : i ∈ C.ids) :
    (C.config i).majority = (C.ids.length + 1) / 2 := by
  have hpos : 0 < C.ids.length := length_pos_of_mem hi
  have hmod : C.ids.length % 2 ^ 32 = C.ids.length := Nat.mod_eq_of_lt (by omega)
  have hcluster : (C.config i).clusterSize = C.ids.length := by
    show (if (C.peers i).length % 2 ^ 32 = 0 then 1 else (C.peers i).length % 2 ^ 32) = _
    have hpeers : (C.peers i).length = C.ids.length := by simpa using (C.hosts i hi).length_eq
    rw [hpeers, hmod, if_neg (by omega)]
  rw [NodeConfig.majority, hcluster, Nat.mod_eq_of_lt hsize]

theorem packetOk_sendHeartbeats (hconfig : m.config = C.config i) (hbound : m.currentTerm < 2 ^ 64)
    (hwon : Won C votes i m.currentTerm) (x : Bytes × Frame) (hx : x ∈ framesOf m.sendHeartbeats) :
    PacketOk C votes (parseAddr x.1, .frame x.2) := by
  unfold sendHeartbeats at hx
  split_ifs at hx
  · rw [framesOf_sendToPeers] at hx
    obtain ⟨-, -, rfl⟩ := mem_map.mp hx
    rw [hconfig]
    exact ⟨hbound, hwon⟩
  · cases hx

/-- A candidate has asked the other nodes. -/
theorem packetOk_broadcastVoteReq (hi : i ∈ C.ids) (hconfig : m.config = C.config i)
    (h2 : 2 ≤ m.currentTerm) (hbound : m.currentTerm < 2 ^ 64) (x : Bytes × Frame)
    (hx : x ∈ framesOf (m.broadcastVoteReq lsn)) :
    PacketOk C votes (parseAddr x.1, .frame x.2) := by
  unfold broadcastVoteReq at hx
  rw [framesOf_sendToPeers, hconfig] at hx
  obtain ⟨peer, hpeer, rfl⟩ := mem_map.mp hx
  have hother : parseAddr peer ≠ i := of_decide_eq_true (mem_filter.mp hpeer).2
  exact ⟨hi, Ne.symm hother, h2, hbound⟩

variable {e : Event}

/-- The handler is looked at branch by branch, with the votes that there are after it. -/
theorem StepOk.of_handled (hvotes : s.votes ++ (m.supports e).map (fun x => (i, x)) = votes)
    (hok : VotesOk C votes)
    (h : ∀ {m' frames new}, Handled m e m' frames new →
      NodeOk C votes (s.counted ++ counted) i m' ∧
        ∀ x ∈ frames, PacketOk C votes (parseAddr x.1, .frame x.2))
    (hanswers : ∀ p ∈ System.answers i (m.handle e).1 (m.handle e).2 e, PacketOk C votes p)
    (hcounted : ∀ v c t, (v, c, t) ∈ counted → (v, t, c) ∈ s.votes ∧ v ≠ c) :
    StepOk C s m i e counted := by
  subst hvotes
  obtain ⟨hnode, hframes⟩ := h (handled m e)
  exact ⟨hnode, hok, hframes, hanswers, hcounted⟩

section Steps

variable (hs : Safe C s) (hnode : NodeOk C s.votes s.counted i m)
include hs hnode

theorem stepOk_heartbeat (hodd : C.ids.length % 2 = 1) {l : Bytes} (ht : t < 2 ^ 64)
    (hwon : Won C s.votes l t) : StepOk C s m i (.heartbeat t l) [] := by
  refine StepOk.of_handled (append_nil _) hs.votes (fun h => ?_) nofun nofun
  rw [append_nil]
  cases h with
  | ignored => exact ⟨hnode, nofun⟩
  | entered hgt =>
    have hlater : Records s.votes i (t, []) := hnode.memory.later hgt
    refine ⟨nodeOk_of_follower hnode.config ht ?_ hlater rfl, nofun⟩
    show Records s.votes i (readState (some (stateBytes t [])))
    rwa [readState_stateBytes ht (by decide)]
  | followed =>
    exact ⟨nodeOk_of_follower hnode.config hnode.bound hnode.disk hnode.memory rfl, nofun⟩
  | deposed hrole hid =>
    -- two leaders of one term: there is none but this node
    rw [hnode.nodeId] at hid
    exact absurd (hwon.unique hodd hs.votes (hnode.leader hrole)) hid

theorem stepOk_voteReq (hi : i ∈ C.ids) (hc : c ∈ C.ids) (hne : c ≠ i) (h2 : 2 ≤ t)
    (ht : t < 2 ^ 64) : StepOk C s m i (.voteReq myLsn t c lsn) [] := by
  replace hnode := hnode.noticeTerm ht
  have hanswers : System.answers i (m.handle (.voteReq myLsn t c lsn)).1
      (m.handle (.voteReq myLsn t c lsn)).2 (.voteReq myLsn t c lsn) =
      [(c, .voteResp i (m.handle (.voteReq myLsn t c lsn)).1.currentTerm
        ((m.noticeTerm t).grants myLsn t c lsn))] := by
    show (responsesOf (m.handleVoteReq myLsn t c lsn).2).map _ = _
    rw [responsesOf_handleVoteReq]
    rfl
  have hfst : (m.handle (.voteReq myLsn t c lsn)).1 =
      if (m.noticeTerm t).grants myLsn t c lsn then (m.noticeTerm t).vote c else m.noticeTerm t :=
    handleVoteReq_fst _ _ _ _ _
  have hvotes := supports_voteReq m myLsn t c lsn
  by_cases hgrant : (m.noticeTerm t).grants myLsn t c lsn = true
  · rw [if_pos hgrant] at hfst hvotes
    have hterm := currentTerm_of_grants hgrant
    have hrec : Records (s.votes ++ [(i, t, c)]) i (t, c) :=
      hnode.memory.vote hs.votes (Nat.le_of_eq hterm) fun _ => (grants_iff.mp hgrant).2.2
    refine StepOk.of_handled (by rw [hvotes]; rfl) (hs.votes.vote hi hc h2 hrec) (fun h => ?_) ?_
      nofun
    · cases h with
      | refused hrefused => exact absurd hgrant hrefused
      | granted =>
        -- the role stays: a candidate or leader of this term keeps what it has
        refine ⟨hnode.grow (subset_append_left _ _) (subset_append_left _ _) ?_
          (hterm.symm ▸ hrec), nofun⟩
        rw [hterm, readState_stateBytes ht (C.short c hc)]
        exact hrec
    · rw [hanswers, hfst]
      intro p hp
      rw [mem_singleton.mp hp]
      show (m.noticeTerm t).currentTerm < 2 ^ 64 ∧
        (_ → (i, (m.noticeTerm t).currentTerm, c) ∈ s.votes ++ [(i, t, c)] ∧ i ≠ c)
      rw [hterm]
      exact ⟨ht, fun _ => ⟨mem_append_right _ mem_cons_self, Ne.symm hne⟩⟩
  · rw [if_neg hgrant] at hfst hvotes
    refine StepOk.of_handled (by rw [hvotes, map_nil, append_nil]) hs.votes (fun h => ?_) ?_ nofun
    · rw [append_nil]
      cases h with
      | granted hgranted => exact absurd hgranted hgrant
      | refused => exact ⟨hnode, nofun⟩
    · rw [hanswers, hfst]
      intro p hp
      rw [mem_singleton.mp hp]
      exact ⟨hnode.bound, fun h => absurd h hgrant⟩

theorem stepOk_voteResp (hsize : C.ids.length + 1 < 2 ^ 32) (hi : i ∈ C.ids)
    {v : Bytes} {granted : Bool} (ht : t < 2 ^ 64)
    (hvote : granted = true → (v, t, i) ∈ s.votes ∧ v ≠ i)
    (hfresh : granted = true → (v, i, t) ∉ s.counted) :
    StepOk C s m i (.voteResp t granted) (if granted = true then [(v, i, t)] else []) := by
  -- the votes of a candidate with the answer that is counted now
  have hcount : t = m.currentTerm → m.role = .candidate → granted = true →
      2 ≤ t ∧ ∃ V : Finset Bytes, (∀ w ∈ V, (w, t, i) ∈ s.votes ∧
        (w = i ∨ (w, i, t) ∈ s.counted ++ [(v, i, t)])) ∧
        m.countVote.votesReceived ≤ V.card := by
    rintro rfl hrole hgranted
    obtain ⟨h2, V, hV, hcard⟩ := hnode.candidate hrole
    have hnot : v ∉ V := by
      intro hmem
      rcases (hV v hmem).2 with hself | hold
      · exact (hvote hgranted).2 hself
      · exact hfresh hgranted hold
    refine ⟨h2, insert v V, fun w hw => ?_, ?_⟩
    · rcases Finset.mem_insert.mp hw with rfl | hw
      · exact ⟨(hvote hgranted).1, .inr (mem_append_right _ mem_cons_self)⟩
      · exact ⟨(hV w hw).1, (hV w hw).2.imp id (mem_append_left _)⟩
    · rw [Finset.card_insert_of_notMem hnot]
      exact Nat.le_trans (Nat.mod_le _ _) (Nat.succ_le_succ hcard)
  have hwon : t = m.currentTerm → m.role = .candidate → granted = true →
      m.config.majority ≤ m.countVote.votesReceived → Won C s.votes i t := by
    intro heq hrole hgranted hmaj
    obtain ⟨h2, V, hV, hcard⟩ := hcount heq hrole hgranted
    rw [hnode.config, majority_config hsize hi] at hmaj
    exact .inr ⟨h2, V, fun w hw => (hV w hw).1, Nat.le_trans hmaj hcard⟩
  refine StepOk.of_handled (append_nil _) hs.votes (fun h => ?_) nofun fun w c t' hmem => ?_
  · cases h with
    | stale =>
      exact ⟨hnode.grow (Subset.refl _) (subset_append_left _ _) hnode.disk hnode.memory, nofun⟩
    | lost hlt =>
      exact ⟨nodeOk_of_follower hnode.config ht hnode.disk (hnode.memory.later hlt) rfl, nofun⟩
    | counted hrole =>
      refine ⟨{ hnode with candidate := fun _ => ?_, leader := fun h => ?_ }, nofun⟩
      · exact hcount rfl hrole rfl
      · exact absurd (hrole.symm.trans h) (by decide)
    | elected hrole hmaj =>
      have hwon := hwon rfl hrole rfl hmaj
      exact ⟨{ hnode with candidate := nofun, leader := fun _ => hwon },
        packetOk_sendHeartbeats (m := m.countVote.elected) hnode.config hnode.bound hwon⟩
  · split_ifs at hmem with hgranted
    · rw [mem_singleton] at hmem
      cases hmem
      exact hvote hgranted
    · cases hmem

theorem stepOk_timeout (hsize : C.ids.length + 1 < 2 ^ 32) (hi : i ∈ C.ids)
    (hcond : m.role = .leader ∨ 0 < m.currentTerm ∧ m.currentTerm + 1 < 2 ^ 64) :
    StepOk C s m i (.timeout lsn) [] := by
  by_cases hrole : m.role = .leader
  · have hnone : m.supports (.timeout lsn) = [] := if_pos hrole
    refine StepOk.of_handled (by rw [hnone, map_nil, append_nil]) hs.votes (fun h => ?_) nofun nofun
    rw [append_nil]
    cases h with
    | led => exact ⟨hnode, packetOk_sendHeartbeats hnode.config hnode.bound (hnode.leader hrole)⟩
    | stood hother | acclaimed hother => exact absurd hrole hother
  obtain ⟨_, hroom⟩ := hcond.resolve_left hrole
  have hid := hnode.nodeId
  have hterm := currentTerm_candidacy hroom
  have hvote : m.supports (.timeout lsn) = [(m.currentTerm + 1, i)] := by
    rw [← hterm, ← hid]
    exact if_neg hrole
  have hvotes : s.votes ++ (m.supports (.timeout lsn)).map (fun x => (i, x)) =
      s.votes ++ [(i, m.currentTerm + 1, i)] := by
    rw [hvote]
    rfl
  have hrec : Records (s.votes ++ [(i, m.currentTerm + 1, i)]) i (m.currentTerm + 1, i) := by
    apply Records.vote hs.votes hnode.memory (Nat.le_succ _)
    omega
  have hok := hs.votes.vote hi hi (by omega) hrec
  have hself : (i, m.currentTerm + 1, i) ∈ s.votes ++ [(i, m.currentTerm + 1, i)] :=
    mem_append_right _ mem_cons_self
  generalize s.votes ++ [(i, m.currentTerm + 1, i)] = votes at hvotes hrec hok hself
  -- the votes of the new term are the one of the node itself
  have hcand : NodeOk C votes s.counted i m.candidacy := by
    constructor
    · exact hnode.config
    · rw [hterm]
      exact hroom
    · show Records _ i (readState (some (stateBytes m.candidacy.currentTerm m.config.nodeId)))
      rw [hterm, hid, readState_stateBytes hroom (C.short i hi)]
      exact hrec
    · show Records _ i (m.candidacy.currentTerm, m.config.nodeId)
      rw [hterm, hid]
      exact hrec
    · intro _
      rw [hterm]
      refine ⟨by omega, {i}, fun w hw => ?_, Nat.le_refl 1⟩
      rw [Finset.mem_singleton.mp hw]
      exact ⟨hself, .inl rfl⟩
    · exact fun h => nomatch h
  have hrequest : ∀ x ∈ framesOf (m.candidacy.broadcastVoteReq lsn),
      PacketOk C votes (parseAddr x.1, .frame x.2) := by
    apply packetOk_broadcastVoteReq hi hcand.config
    · omega
    · rw [hterm]
      exact hroom
  refine StepOk.of_handled hvotes hok (fun h => ?_) nofun nofun
  rw [append_nil]
  cases h with
  | led hlead => exact absurd hlead hrole
  | stood => exact ⟨hcand, hrequest⟩
  | acclaimed _ hone =>
    -- one vote is a majority
    have hwon : Won C votes i m.candidacy.currentTerm := by
      rw [hnode.config, majority_config hsize hi] at hone
      rw [hterm]
      refine .inr ⟨by omega, {i}, fun w hw => ?_, hone⟩
      rw [Finset.mem_singleton.mp hw]
      exact hself
    refine ⟨{ hcand with candidate := nofun, leader := fun _ => hwon }, fun x hx => ?_⟩
    rcases mem_append.mp hx with hx | hx
    · exact hrequest x hx
    · exact packetOk_sendHeartbeats (m := m.candidacy.elected) hcand.config hcand.bound hwon x hx

theorem stepOk_restart (hcond : i = C.leaderId → (readState m.stateFile).1 ≤ 1 ∨
      m.role = .leader ∧ m.currentTerm = (readState m.stateFile).1) :
    StepOk C s m i .restart [] := by
  have hbound : (readState m.stateFile).1 < 2 ^ 64 := readState_lt _
  refine StepOk.of_handled (append_nil _) hs.votes (fun h => ?_) nofun nofun
  rw [append_nil]
  cases h with
  | restarted => exact ⟨nodeOk_of_follower hnode.config hbound hnode.disk hnode.disk rfl, nofun⟩
  | resumed hrole =>
    have hlead : i = C.leaderId := Cluster.eq_leaderId (hnode.config ▸ hrole)
    refine ⟨⟨hnode.config, ?_, hnode.disk, ?_, fun h => (nomatch h), fun _ => ?_⟩, nofun⟩
    · show (if (readState m.stateFile).1 = 0 then 1 else (readState m.stateFile).1) < 2 ^ 64
      split_ifs
      · decide
      · exact hbound
    · show Records s.votes i (if (readState m.stateFile).1 = 0 then 1
        else (readState m.stateFile).1, (readState m.stateFile).2)
      split_ifs with hzero
      · have hdisk : Records s.votes i (0, (readState m.stateFile).2) := by
          rw [← hzero]
          exact hnode.disk
        exact hdisk.later Nat.one_pos
      · exact hnode.disk
    · show Won C s.votes i (if (readState m.stateFile).1 = 0 then 1 else (readState m.stateFile).1)
      split_ifs with hzero
      · exact .inl ⟨rfl, hlead⟩
      · rcases hcond hlead with _ | ⟨hwas, heq⟩
        · exact .inl ⟨by omega, hlead⟩
        · rw [← heq]
          exact hnode.leader hwas

end Steps

/-! ## Runs -/

theorem Safe.step (hodd : C.ids.length % 2 = 1) (hsize : C.ids.length + 1 < 2 ^ 32) (hs : Safe C s)
    {a : Action} (hpossible : s.Possible C a) (hcond : s.CountsVotesOnce C a) :
    Safe C (s.step a) := by
  cases a with
  | timeout id walLsn => exact hs.act (stepOk_timeout hs
    (hs.nodes id hpossible) hsize hpossible hcond)
  | restart id => exact hs.act (stepOk_restart hs (hs.nodes id hpossible) hcond)
  | deliver id message myLsn =>
    obtain ⟨hid, hsent⟩ := hpossible
    have hpacket := hs.sent _ hsent
    cases message with
    | frame f =>
      cases f with
      | heartbeat t l => exact hs.act (stepOk_heartbeat hs
        (hs.nodes id hid) hodd hpacket.1 hpacket.2)
      | voteReq t c lsn =>
        obtain ⟨hc, hne, h2, ht⟩ := hpacket
        exact hs.act (stepOk_voteReq hs (hs.nodes id hid) hid hc hne h2 ht)
    | voteResp v t granted =>
      have h := stepOk_voteResp hs (hs.nodes id hid) hsize hid hpacket.1 hpacket.2 hcond
      cases granted with
      | true => exact hs.act h
      | false => exact hs.act h

theorem step_eq_act (s : System) (a : Action) :
    ∃ counted, s.step a = s.act a.node a.event counted := by
  rcases a with _ | ⟨_, _ | ⟨_, _, _ | _⟩, _⟩ | _ <;> exact ⟨_, rfl⟩

theorem votes_step_subset (s : System) (a : Action) : s.votes ⊆ (s.step a).votes := by
  obtain ⟨_, hact⟩ := step_eq_act s a
  rw [hact]
  exact subset_append_left _ _

theorem init_safe (C : Cluster) : Safe C C.init := by
  constructor
  · intro i _
    show NodeOk C [] [] i (create (C.config i) none).start
    by_cases hlead : i = C.leaderId
    · rw [start_of_leader (m := create (C.config i) none) (if_pos hlead)]
      exact ⟨rfl, show 1 < 2 ^ 64 by decide, nofun, nofun, nofun, fun _ => .inl ⟨rfl, hlead⟩⟩
    · have hrole : (C.config i).role ≠ .leader := by
        show (if i = C.leaderId then NodeRole.leader else .follower) ≠ .leader
        rw [if_neg hlead]
        decide
      rw [start_of_ne_leader (m := create (C.config i) none) hrole]
      exact nodeOk_of_follower rfl (Nat.two_pow_pos 64) nofun nofun rfl
  · exact ⟨nofun, nofun⟩
  · exact nofun
  · exact nofun

end Invariant

/-- **Election safety.**  In a cluster of odd size, every run of such steps has at most one leader
for any term, over the whole run. -/
theorem one_leader_per_term (C : Cluster) (hodd : C.ids.length % 2 = 1)
    (hsize : C.ids.length + 1 < 2 ^ 32) (actions : List Action)
    (hrun : Along System.step (fun s a => s.Possible C a ∧ s.CountsVotesOnce C a) C.init actions) :
    ∀ s ∈ states System.step C.init actions, ∀ s' ∈ states System.step C.init actions,
      ∀ i ∈ C.ids, ∀ j ∈ C.ids, (s.nodes i).role = .leader → (s'.nodes j).role = .leader →
        (s.nodes i).currentTerm = (s'.nodes j).currentTerm → i = j := by
  have hstep : ∀ s a, Safe C s → s.Possible C a ∧ s.CountsVotesOnce C a → Safe C (s.step a) :=
    fun s a hs h => hs.step hodd hsize h.1 h.2
  have hall := hrun.invariant hstep (init_safe C)
  -- whoever leads has won, and has still won at the end of the run
  have hwon : ∀ s ∈ states System.step C.init actions, ∀ i ∈ C.ids, (s.nodes i).role = .leader →
      Won C (final System.step C.init actions).votes i (s.nodes i).currentTerm := by
    intro s hs i hi hrole
    refine hrun.final_of_mem (P := fun s' => Won C s'.votes i (s.nodes i).currentTerm) hstep
      (fun s' a _ _ h => h.mono (votes_step_subset s' a)) (init_safe C) hs ?_
    exact ((hall s hs).nodes i hi).leader hrole
  have hfinal := hall _ (final_mem_states C.init actions)
  intro s hs s' hs' i hi j hj hleadi hleadj hterm
  have hwj := hwon s' hs' j hj hleadj
  rw [← hterm] at hwj
  exact (hwon s hs i hi hleadi).unique hodd hfinal.votes hwj

/-! ## Two clusters -/

def nodeA : Bytes := ascii "a"
def nodeB : Bytes := ascii "b"
def nodeC : Bytes := ascii "c"

def threeNodes : Cluster where
  ids := [nodeA, nodeB, nodeC]
  leaderId := nodeA
  peers := fun _ => [ascii "a:4433", ascii "b:4433", ascii "c:4433"]
  nodup := by decide
  named := by decide
  short := by decide
  leader_mem := by decide
  hosts := fun _ _ => Perm.of_eq (by decide)

/-- `b` follows `a`, then wins term 2 with the vote of `c`; `a` steps down. -/
def handover : List Action :=
  [.timeout nodeA 6, .deliver nodeB (.frame (.heartbeat 1 nodeA)) 6, .timeout nodeB 6,
    .deliver nodeC (.frame (.voteReq 2 nodeB 6)) 6,
    .deliver nodeB (.voteResp nodeC 2 true) 6,
    .deliver nodeA (.frame (.heartbeat 2 nodeB)) 6,
    .restart nodeB]

theorem one_leader_per_term_handover :
    Along System.step (fun s a => s.Possible threeNodes a ∧ s.CountsVotesOnce threeNodes a)
      threeNodes.init handover ∧
    ∀ s ∈ states System.step threeNodes.init handover,
      ∀ s' ∈ states System.step threeNodes.init handover,
      ∀ i ∈ threeNodes.ids, ∀ j ∈ threeNodes.ids, (s.nodes i).role = .leader →
        (s'.nodes j).role = .leader → (s.nodes i).currentTerm = (s'.nodes j).currentTerm → i = j :=
  ⟨by decide, one_leader_per_term threeNodes (by decide) (by decide) handover (by decide)⟩

def twoNodes : Cluster where
  ids := [nodeA, nodeB]
  leaderId := nodeA
  peers := fun _ => [ascii "a:4433", ascii "b:4433"]
  nodup := by decide
  named := by decide
  short := by decide
  leader_mem := by decide
  hosts := fun _ _ => Perm.of_eq (by decide)

/-- The follower of a cluster of two times out before it has heard of its leader: its own vote is
a majority of two, and the leader was configured for the same term. -/
theorem two_leaders_of_term_one :
    Along System.step (fun s a => s.Possible twoNodes a) twoNodes.init [.timeout nodeB 6] ∧
    ((final System.step twoNodes.init [.timeout nodeB 6]).nodes nodeA).role = .leader ∧
    ((final System.step twoNodes.init [.timeout nodeB 6]).nodes nodeB).role = .leader ∧
    ((final System.step twoNodes.init [.timeout nodeB 6]).nodes nodeA).currentTerm = 1 ∧
    ((final System.step twoNodes.init [.timeout nodeB 6]).nodes nodeB).currentTerm = 1 := by
  decide

end NyxDb.Replication
