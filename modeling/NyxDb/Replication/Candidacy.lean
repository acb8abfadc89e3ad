import NyxDb.Replication.ElectionSafety

/-!
# Candidates

A node is a candidate of a term from the timeout in which it votes for itself until it leaves the
role; nobody has voted for it in this term before.  This is what leader completeness needs of the
election beside its safety.
-/

namespace NyxDb.Replication

open ElectionManager List

/-! ## What the handlers make of a role -/

section Handlers

variable {m : ElectionManager} {e : Event}

/-- Heartbeats ask for no votes. -/
theorem not_voteReq_of_sendHeartbeats {peer c : Bytes} {t lsn : Nat} :
    (peer, Frame.voteReq t c lsn) ∉ framesOf m.sendHeartbeats := by
  intro hx
  unfold sendHeartbeats at hx
  split_ifs at hx
  · rw [framesOf_sendToPeers] at hx
    obtain ⟨_, -, heq⟩ := mem_map.mp hx
    cases heq
  · cases hx

variable {m' : ElectionManager} {frames : List (Bytes × Frame)} {votes : List (Nat × Bytes)}
  (h : Handled m e m' frames votes)
include h

/-- Who asks for votes stands now, with the size of its log, and has voted for itself. -/
theorem ElectionManager.Handled.voted {peer c : Bytes}
    {t lsn : Nat} (hx : (peer, Frame.voteReq t c lsn) ∈ frames) :
    c = m.config.nodeId ∧ (t, c) ∈ votes ∧ e = .timeout lsn ∧ m.role ≠ .leader := by
  -- the request of the candidacy is the only one
  have hown : ∀ {walLsn}, (peer, Frame.voteReq t c lsn) ∈
      framesOf (m.candidacy.broadcastVoteReq walLsn) → c = m.config.nodeId ∧
        (t, c) ∈ [(m.candidacy.currentTerm, m.config.nodeId)] ∧ walLsn = lsn := by
    intro walLsn hreq
    unfold broadcastVoteReq at hreq
    rw [framesOf_sendToPeers] at hreq
    obtain ⟨_, -, heq⟩ := mem_map.mp hreq
    cases heq
    exact ⟨rfl, mem_singleton.mpr rfl, rfl⟩
  cases h with
  | elected | led => exact absurd hx not_voteReq_of_sendHeartbeats
  | stood hrole =>
    obtain ⟨hc, hvote, rfl⟩ := hown hx
    exact ⟨hc, hvote, rfl, hrole⟩
  | acclaimed hrole =>
    obtain ⟨hc, hvote, rfl⟩ :=
      hown ((mem_append.mp hx).resolve_right not_voteReq_of_sendHeartbeats)
    exact ⟨hc, hvote, rfl, hrole⟩
  | _ => cases hx

/-- Who supports another node has been asked to. -/
theorem ElectionManager.Handled.asked {t : Nat} {c : Bytes}
    (hx : (t, c) ∈ votes) (hne : c ≠ m.config.nodeId) : ∃ myLsn lsn,
      e = .voteReq myLsn t c lsn ∧ (m.noticeTerm t).grants myLsn t c lsn = true := by
  cases h with
  | granted hgrant =>
    cases mem_singleton.mp hx
    exact ⟨_, _, rfl, hgrant⟩
  | stood | acclaimed =>
    cases mem_singleton.mp hx
    exact absurd rfl hne
  | _ => cases hx

/-- What an event makes of the role of a node. -/
inductive RoleAfter (m : ElectionManager) (e : Event) (m' : ElectionManager) : Prop where
  | follows : m'.role = .follower → RoleAfter m e m'
  | stays : m'.role = m.role → m'.currentTerm = m.currentTerm → RoleAfter m e m'
  | stands (walLsn : Nat) : e = .timeout walLsn → m.role ≠ .leader →
      m'.currentTerm = m.candidacy.currentTerm → RoleAfter m e m'
  | wins : m.role = .candidate → m'.role = .leader → m'.currentTerm = m.currentTerm →
      RoleAfter m e m'
  | leads : e = .restart → m.config.role = .leader → m'.role = .leader → m'.currentTerm =
      (if (readState m.stateFile).1 = 0 then 1 else (readState m.stateFile).1) → RoleAfter m e m'

theorem ElectionManager.Handled.role : RoleAfter m e m' := by
  cases h with
  | ignored | stale | counted | led => exact .stays rfl rfl
  | entered | followed | lost | restarted => exact .follows rfl
  | deposed => split_ifs <;> exact .follows rfl
  | @granted _ t | @refused _ t =>
    by_cases hlt : m.currentTerm < t
    · rw [noticeTerm_of_lt hlt]
      exact .follows rfl
    · rw [noticeTerm_of_le (Nat.not_lt.mp hlt)]
      exact .stays rfl rfl
  | elected hrole => exact .wins hrole rfl rfl
  | stood hrole | acclaimed hrole => exact .stands _ rfl hrole rfl
  | resumed hrole => exact .leads rfl hrole rfl rfl

end Handlers

/-! ## Requests and votes -/

/-- A candidate that is asked for or voted for has voted for itself. -/
structure Announced (s : System) : Prop where
  sent : ∀ dest t c lsn, (dest, Message.frame (.voteReq t c lsn)) ∈ s.sent → (c, t, c) ∈ s.votes
  votes : ∀ v t c, (v, t, c) ∈ s.votes → (c, t, c) ∈ s.votes

section Announced

variable {C : Cluster} {s : System} {i : Bytes}

theorem Announced.act (h : Announced s) {e : Event} {counted : List (Bytes × Bytes × Nat)}
    (hid : (s.nodes i).config.nodeId = i)
    (hvote : ∀ t c, (t, c) ∈ (s.nodes i).supports e → c = i ∨ (c, t, c) ∈ s.votes) :
    Announced (s.act i e counted) := by
  have hsub := subset_append_left s.votes (((s.nodes i).supports e).map fun x => (i, x))
  constructor
  · intro dest t c lsn hmem
    rcases mem_append.mp hmem with hmem | hmem
    · exact hsub (h.sent dest t c lsn hmem)
    · rcases mem_append.mp hmem with hmem | hmem
      · obtain ⟨⟨_, _⟩, hx, heq⟩ := mem_map.mp hmem
        cases heq
        obtain ⟨hc, hsupport, -⟩ := (handled _ _).voted hx
        rw [hid] at hc
        subst hc
        exact mem_append_right _ (mem_map.mpr ⟨_, hsupport, rfl⟩)
      · -- an answer is no request
        cases e with
        | voteReq myLsn term candidate walLsn =>
          obtain ⟨_, -, heq⟩ := mem_map.mp hmem
          cases heq
        | _ => cases hmem
  · intro v t c hmem
    rcases mem_append.mp hmem with hmem | hmem
    · exact hsub (h.votes v t c hmem)
    · obtain ⟨x, hx, heq⟩ := mem_map.mp hmem
      cases heq
      rcases hvote t c hx with rfl | hold
      · exact mem_append_right _ (mem_map.mpr ⟨_, hx, rfl⟩)
      · exact hsub hold

end Announced

/-! ## Votes for the candidates of a state -/

theorem Action.eq_of_event (a : Action) :
    (∀ walLsn, a.event = .timeout walLsn → a = .timeout a.node walLsn) ∧
      (a.event = .restart → a = .restart a.node) ∧ ∀ myLsn t c lsn,
        a.event = .voteReq myLsn t c lsn →
          a = .deliver a.node (.frame (.voteReq t c lsn)) myLsn := by
  rcases a with _ | ⟨_, (_ | _) | _, _⟩ | _ <;> refine ⟨?_, ?_, ?_⟩ <;> intros <;>
    simp_all [event, node, Message.event]

section Candidates

variable {C : Cluster} {s : System} {a : Action} {v c : Bytes} {t : Nat}

theorem node_mem_of_possible (hpossible : s.Possible C a) : a.node ∈ C.ids := by
  cases a with
  | timeout id walLsn => exact hpossible
  | restart id => exact hpossible
  | deliver id message myLsn => exact hpossible.1

theorem nodes_step_of_ne (hne : c ≠ a.node) : (s.step a).nodes c = s.nodes c := by
  obtain ⟨_, hact⟩ := step_eq_act s a
  rw [hact]
  exact Function.update_of_ne hne _ _

theorem nodes_step_self : (s.step a).nodes a.node = ((s.nodes a.node).handle a.event).1 := by
  obtain ⟨_, hact⟩ := step_eq_act s a
  rw [hact]
  exact Function.update_self _ _ _

/-- A request for votes was sent before, or its candidate stands now. -/
theorem mem_sent_step {dest : Bytes} {lsn : Nat}
    (hid : (s.nodes a.node).config.nodeId = a.node)
    (hmem : (dest, Message.frame (.voteReq t c lsn)) ∈ (s.step a).sent) :
    (dest, Message.frame (.voteReq t c lsn)) ∈ s.sent ∨
      a = .timeout c lsn ∧ (s.nodes c).role ≠ .leader := by
  obtain ⟨_, hact⟩ := step_eq_act s a
  rw [hact] at hmem
  rcases mem_append.mp hmem with hold | hnew
  · exact .inl hold
  rcases mem_append.mp hnew with hnew | hnew
  · obtain ⟨⟨_, _⟩, hx, heq⟩ := mem_map.mp hnew
    cases heq
    obtain ⟨hc, -, hevent, hrole⟩ := (handled _ _).voted hx
    obtain rfl : c = a.node := hc.trans hid
    exact .inr ⟨a.eq_of_event.1 lsn hevent, hrole⟩
  · -- an answer is no request
    generalize a.event = e at hnew
    cases e with
    | voteReq myLsn term candidate walLsn =>
      obtain ⟨_, -, heq⟩ := mem_map.mp hnew
      cases heq
    | _ => cases hnew

/-- A vote was there before, or it is one of the acting node. -/
theorem mem_votes_step (hmem : (v, t, c) ∈ (s.step a).votes) :
    (v, t, c) ∈ s.votes ∨ v = a.node ∧ (t, c) ∈ (s.nodes a.node).supports a.event := by
  obtain ⟨_, hact⟩ := step_eq_act s a
  rw [hact] at hmem
  rcases mem_append.mp hmem with hold | hnew
  · exact .inl hold
  · obtain ⟨x, hx, heq⟩ := mem_map.mp hnew
    cases heq
    exact .inr ⟨rfl, hx⟩

/-- The vote of a node for another one is the answer to a request. -/
theorem granted_of_supports (hid : (s.nodes a.node).config.nodeId = a.node)
    (hx : (t, c) ∈ (s.nodes a.node).supports a.event) (hne : c ≠ a.node) :
    ∃ myLsn lsn, a = .deliver a.node (.frame (.voteReq t c lsn)) myLsn ∧
      ((s.nodes a.node).noticeTerm t).grants myLsn t c lsn = true := by
  obtain ⟨myLsn, lsn, hevent, hgrant⟩ := (handled _ _).asked hx (by rwa [hid])
  exact ⟨myLsn, lsn, a.eq_of_event.2.2 _ _ _ _ hevent, hgrant⟩

variable (h : Announced s) (hs : Safe C s)
include h hs

theorem Announced.step (hpossible : s.Possible C a) : Announced (s.step a) := by
  have hid := (hs.nodes a.node (node_mem_of_possible hpossible)).nodeId
  obtain ⟨_, hact⟩ := step_eq_act s a
  rw [hact]
  refine h.act hid fun t c hx => ?_
  by_cases hc : c = a.node
  · exact .inl hc
  · obtain ⟨_, lsn, heq, -⟩ := granted_of_supports hid hx hc
    rw [heq] at hpossible
    exact .inr (h.sent _ t c lsn hpossible.2)

/-- A candidacy starts a term in which the node has no votes of others. -/
theorem not_vote_of_candidacy (hi : c ∈ C.ids) (hcond : (s.nodes c).role = .leader ∨
      0 < (s.nodes c).currentTerm ∧ (s.nodes c).currentTerm + 1 < 2 ^ 64)
    (hrole : (s.nodes c).role ≠ .leader) : (v, (s.nodes c).candidacy.currentTerm, c) ∉ s.votes := by
  obtain ⟨-, hroom⟩ := hcond.resolve_left hrole
  intro hmem
  obtain ⟨hle, -⟩ := (hs.nodes c hi).memory _ c (h.votes v _ c hmem)
  rw [currentTerm_candidacy hroom] at hle
  omega

/-- Who has the vote of another node as a candidate had it before, or is granted it now. -/
theorem candidate_step (hpossible : s.Possible C a)
    (hcond : s.CountsVotesOnce C a) (hmem : (v, t, c) ∈ (s.step a).votes) (hne : v ≠ c)
    (hrole : ((s.step a).nodes c).role = .candidate)
    (hterm : ((s.step a).nodes c).currentTerm = t) :
    ((v, t, c) ∈ s.votes ∧ (s.nodes c).role = .candidate ∧ (s.nodes c).currentTerm = t) ∨
      ∃ myLsn lsn, a = .deliver v (.frame (.voteReq t c lsn)) myLsn ∧
        ((s.nodes v).noticeTerm t).grants myLsn t c lsn = true := by
  have hnode := node_mem_of_possible hpossible
  by_cases hc : c = a.node
  · -- the votes of others are old
    subst hc
    have hold : (v, t, a.node) ∈ s.votes :=
      (mem_votes_step hmem).resolve_right fun hnew => hne hnew.1
    rw [nodes_step_self] at hrole hterm
    cases (handled (s.nodes a.node) a.event).role with
    | follows hfollows => cases hfollows.symm.trans hrole
    | stays hwas hsame => exact .inl ⟨hold, hwas.symm.trans hrole, hsame.symm.trans hterm⟩
    | stands walLsn hevent hlead hnext =>
      rw [← hterm, hnext] at hold
      refine absurd hold (not_vote_of_candidacy h hs hnode ?_ hlead)
      rwa [a.eq_of_event.1 walLsn hevent] at hcond
    | wins _ hlead _ => cases hlead.symm.trans hrole
    | leads _ _ hlead _ => cases hlead.symm.trans hrole
  · rw [nodes_step_of_ne hc] at hrole hterm
    rcases mem_votes_step hmem with hold | ⟨rfl, hsupport⟩
    · exact .inl ⟨hold, hrole, hterm⟩
    · exact .inr (granted_of_supports (hs.nodes a.node hnode).nodeId hsupport hc)

/-- Who is elected has the votes of others since it is a candidate. -/
theorem elected_step (hpossible : s.Possible C a)
    (hcond : s.CountsVotesOnce C a) (hlead : ((s.step a).nodes c).role = .leader)
    (hnot : (s.nodes c).role ≠ .leader) (h2 : 2 ≤ ((s.step a).nodes c).currentTerm)
    (hmem : (v, ((s.step a).nodes c).currentTerm, c) ∈ (s.step a).votes) (hne : v ≠ c) :
    (v, (s.nodes c).currentTerm, c) ∈ s.votes ∧ (s.nodes c).role = .candidate := by
  have hnode := node_mem_of_possible hpossible
  obtain rfl : c = a.node := by
    by_contra hc
    rw [nodes_step_of_ne hc] at hlead
    exact hnot hlead
  have hold := (mem_votes_step hmem).resolve_right fun hnew => hne hnew.1
  rw [nodes_step_self] at hlead h2 hold
  cases (handled (s.nodes a.node) a.event).role with
  | follows hfollows => cases hfollows.symm.trans hlead
  | stays hwas _ => exact absurd (hwas.symm.trans hlead) hnot
  | wins hrole _ hterm =>
    rw [hterm] at hold
    exact ⟨hold, hrole⟩
  | stands walLsn hevent _ hterm =>
    rw [hterm] at hold
    refine absurd hold (not_vote_of_candidacy h hs hnode ?_ hnot)
    rwa [a.eq_of_event.1 walLsn hevent] at hcond
  | leads hevent hconfig _ hterm =>
    -- the configured leader restarts in term 1
    rw [a.eq_of_event.2.1 hevent] at hcond
    rw [(hs.nodes a.node hnode).config] at hconfig
    rcases hcond (Cluster.eq_leaderId hconfig) with _ | ⟨hwas, -⟩
    · rw [hterm] at h2
      split_ifs at h2 <;> omega
    · exact absurd hwas hnot

end Candidates

end NyxDb.Replication
