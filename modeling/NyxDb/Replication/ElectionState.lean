import NyxDb.Lib.Run
import NyxDb.Replication.Election

/-!
# What a restart finds of an election

`Durable` says that `election_state.bin` holds the term and the vote of the node.  Three handlers
can break it, and `Keeps` says exactly when: a request of a later term that is refused and an
answer of a later term change the term in memory only, and a leader that meets another leader of
its term empties the vote in the file only; a configured leader that starts without a term gives
itself one.  As long as the steps keep the file, a node's term never falls, and it supports one
candidate per term, across every restart.
-/

namespace NyxDb.Replication.ElectionManager

open List Run

/-! ## Events -/

/-- What happens to a node.  A request comes with what `get_wal_lsn` returns to the voter. -/
inductive Event where
  | heartbeat (term : Nat) (leaderId : Bytes)
  | voteReq (myLsn term : Nat) (candidate : Bytes) (walLsn : Nat)
  | voteResp (term : Nat) (granted : Bool)
  | timeout (walLsn : Nat)
  | restart
  deriving DecidableEq, Repr

def handle (m : ElectionManager) : Event → ElectionManager × List Output
  | .heartbeat term leaderId => m.handleHeartbeat term leaderId
  | .voteReq myLsn term candidate walLsn => m.handleVoteReq myLsn term candidate walLsn
  | .voteResp term granted => m.handleVoteResp term granted
  | .timeout walLsn => m.onTimeout walLsn
  | .restart => (m.restart, [])

/-- The candidates a node supports in a step: the one whose request it grants, or itself. -/
def supports (m : ElectionManager) : Event → List (Nat × Bytes)
  | .voteReq myLsn term candidate walLsn =>
    let (m', outputs) := m.handleVoteReq myLsn term candidate walLsn
    if responsesOf outputs = [true] then [(m'.currentTerm, candidate)] else []
  | .timeout _ => if m.role = .leader then [] else [(m.candidacy.currentTerm, m.config.nodeId)]
  | _ => []

/-- Terms and names as the frames carry them, and a candidate that has a name. -/
def Event.FromFrame : Event → Prop
  | .heartbeat term _ => term < 2 ^ 64
  | .voteReq _ term candidate _ => term < 2 ^ 64 ∧ candidate.length < 2 ^ 16 ∧ candidate ≠ []
  | .voteResp term _ => term < 2 ^ 64
  | _ => True

instance : DecidablePred Event.FromFrame := fun e => by
  cases e <;> dsimp only [Event.FromFrame] <;> infer_instance

/-! ## The file and the memory -/

/-- A restart would find the term and the vote of the node. -/
def Durable (m : ElectionManager) : Prop :=
  readState m.stateFile = (m.currentTerm, m.votedFor)

instance : DecidablePred Durable := fun m =>
  inferInstanceAs (Decidable (readState m.stateFile = (m.currentTerm, m.votedFor)))

/-- The node starts with a term of its own unless it has to lead without one. -/
def StartKeeps (config : NodeConfig) (stateFile : Option Bytes) : Prop :=
  ¬(config.role = .leader ∧ (readState stateFile).1 = 0)

/-- The steps after which the file still holds the state. -/
def Keeps (m : ElectionManager) : Event → Prop
  | .heartbeat term leaderId =>
    ¬(term = m.currentTerm ∧ 0 < term ∧ m.role = .leader ∧ leaderId ≠ m.config.nodeId ∧
      m.votedFor ≠ [])
  | .voteReq myLsn term _ walLsn => ¬(m.currentTerm < term ∧ walLsn < myLsn)
  | .voteResp term _ => term ≤ m.currentTerm
  | .timeout _ => True
  | .restart => ¬(m.config.role = .leader ∧ m.currentTerm = 0)

instance (m : ElectionManager) : DecidablePred m.Keeps := fun e => by
  cases e <;> dsimp only [Keeps] <;> infer_instance

variable {term : Nat} {m m' : ElectionManager} {e : Event}

theorem readState_stateBytes {name : Bytes} (hterm : term < 2 ^ 64) (hname : name.length < 2 ^ 16) :
    readState (some (stateBytes term name)) = (term, name) := by
  have hterm' : term < 256 ^ 8 := hterm
  have hname' : name.length < 256 ^ 2 := hname
  have hlen : ¬(stateBytes term name).length < 10 := by
    rw [stateBytes, length_append, length_append, length_leBytes, length_leBytes]
    omega
  have htake : (stateBytes term name).take 8 = leBytes 8 term := by
    rw [stateBytes, take_left' (length_leBytes 8 term)]
  have hdrop : (stateBytes term name).drop 8 = leBytes 2 name.length ++ name := by
    rw [stateBytes, drop_left' (length_leBytes 8 term)]
  have hrest : (stateBytes term name).drop 10 = name := by
    rw [show 10 = 8 + 2 from rfl, ← drop_drop, hdrop, drop_left' (length_leBytes 2 _)]
  unfold readState
  simp [if_neg hlen, htake, hdrop, hrest, take_left' (length_leBytes 2 _),
    leNat_leBytes_of_lt hterm', leNat_leBytes_of_lt hname', take_length]

/-- The term of a file has 64 bits. -/
theorem readState_lt (stateFile : Option Bytes) : (readState stateFile).1 < 2 ^ 64 := by
  cases stateFile with
  | none => exact Nat.two_pow_pos 64
  | some bs =>
    by_cases hlen : bs.length < 10
    · rw [readState, if_pos hlen]
      exact Nat.two_pow_pos 64
    · rw [readState, if_neg hlen]
      have h := leNat_lt (bs.take 8)
      rwa [length_take, Nat.min_eq_left (by omega)] at h

/-- The file is as it was, so it does not hold a new term. -/
theorem not_durable_of_term (hd : m.Durable) (hfile : m'.stateFile = m.stateFile)
    (hterm : m'.currentTerm ≠ m.currentTerm) : ¬m'.Durable := by
  intro hd'
  unfold Durable at hd hd'
  rw [hfile, hd] at hd'
  exact hterm (congrArg Prod.fst hd').symm

theorem Durable.congr (hd : m.Durable) (hfile : m'.stateFile = m.stateFile)
    (hterm : m'.currentTerm = m.currentTerm) (hvote : m'.votedFor = m.votedFor) : m'.Durable := by
  unfold Durable at hd ⊢
  rw [hfile, hterm, hvote, hd]

/-! ## One step -/

/-- A granted request is of the term the voter is in. -/
theorem currentTerm_of_grants {myLsn walLsn : Nat} {c : Bytes}
    (h : (m.noticeTerm term).grants myLsn term c walLsn = true) :
    (m.noticeTerm term).currentTerm = term := by
  by_cases hlt : m.currentTerm < term
  · rw [noticeTerm_of_lt hlt]
    rfl
  · have hle := Nat.not_lt.mp hlt
    rw [noticeTerm_of_le hle] at h ⊢
    exact Nat.le_antisymm (grants_iff.mp h).1 hle

/-- All that an event can do to a node, with the frames that are sent and the candidates that are
supported.  No later proof looks into a handler. -/
inductive Handled (m : ElectionManager) :
    Event → ElectionManager → List (Bytes × Frame) → List (Nat × Bytes) → Prop where
  | ignored {t : Nat} {l : Bytes} : m.Keeps (.heartbeat t l) → Handled m (.heartbeat t l) m [] []
  | entered {t : Nat} {l : Bytes} : m.currentTerm < t →
      Handled m (.heartbeat t l) (((m.enterTerm t).follow l).persistState t []) [] []
  | followed {l : Bytes} : m.role ≠ .leader →
      Handled m (.heartbeat m.currentTerm l) (m.follow l) [] []
  | deposed {l : Bytes} : m.role = .leader → l ≠ m.config.nodeId →
      Handled m (.heartbeat m.currentTerm l) (if 0 < m.currentTerm then
        (m.follow l).persistState m.currentTerm [] else m.follow l) [] []
  | granted {myLsn t lsn : Nat} {c : Bytes} : (m.noticeTerm t).grants myLsn t c lsn = true →
      Handled m (.voteReq myLsn t c lsn) ((m.noticeTerm t).vote c) [] [(t, c)]
  | refused {myLsn t lsn : Nat} {c : Bytes} : ¬(m.noticeTerm t).grants myLsn t c lsn = true →
      Handled m (.voteReq myLsn t c lsn) (m.noticeTerm t) [] []
  | stale {t : Nat} {granted : Bool} : t ≤ m.currentTerm → Handled m (.voteResp t granted) m [] []
  | lost {t : Nat} {granted : Bool} : m.currentTerm < t →
      Handled m (.voteResp t granted) { m.enterTerm t with currentLeader := [] } [] []
  | counted : m.role = .candidate → Handled m (.voteResp m.currentTerm true) m.countVote [] []
  | elected : m.role = .candidate → m.config.majority ≤ m.countVote.votesReceived →
      Handled m (.voteResp m.currentTerm true) m.countVote.elected
        (framesOf m.countVote.elected.sendHeartbeats) []
  | led {lsn : Nat} : m.role = .leader → Handled m (.timeout lsn) m (framesOf m.sendHeartbeats) []
  | stood {lsn : Nat} : m.role ≠ .leader → Handled m (.timeout lsn) m.candidacy
      (framesOf (m.candidacy.broadcastVoteReq lsn)) [(m.candidacy.currentTerm, m.config.nodeId)]
  | acclaimed {lsn : Nat} : m.role ≠ .leader → m.config.majority ≤ 1 →
      Handled m (.timeout lsn) m.candidacy.elected
        (framesOf (m.candidacy.broadcastVoteReq lsn) ++ framesOf m.candidacy.elected.sendHeartbeats)
        [(m.candidacy.currentTerm, m.config.nodeId)]
  | restarted : m.config.role ≠ .leader →
      Handled m .restart (create m.config m.stateFile).loadState [] []
  | resumed : m.config.role = .leader →
      Handled m .restart (create m.config m.stateFile).loadState.lead [] []

section

variable (m : ElectionManager)

theorem handled_heartbeat (term : Nat) (leaderId : Bytes) :
    Handled m (.heartbeat term leaderId) (m.handleHeartbeat term leaderId).1
      (framesOf (m.handleHeartbeat term leaderId).2) [] := by
  unfold handleHeartbeat
  rcases Nat.lt_trichotomy term m.currentTerm with hlt | rfl | hgt
  · rw [if_pos hlt]
    exact .ignored fun h => absurd h.1 (Nat.ne_of_lt hlt)
  · rw [if_neg (Nat.lt_irrefl _), if_neg (Nat.lt_irrefl _)]
    cases hrole : m.role with
    | follower => exact .followed (by simp [hrole])
    | candidate =>
      rw [framesOf_steppedDown]
      exact .followed (by simp [hrole])
    | leader =>
      by_cases hid : leaderId = m.config.nodeId
      · simp only [ne_eq, hid, not_true_eq_false, if_false]
        exact .ignored fun h => h.2.2.2.1 rfl
      · simp only [ne_eq, hid, not_false_eq_true, if_true]
        rw [framesOf_steppedDown]
        exact .deposed hrole hid
  · rw [if_neg (Nat.lt_asymm hgt), if_pos hgt]
    rw [framesOf_steppedDown]
    exact .entered hgt

theorem supports_voteReq (myLsn term : Nat) (c : Bytes) (walLsn : Nat) :
    m.supports (.voteReq myLsn term c walLsn) =
      if (m.noticeTerm term).grants myLsn term c walLsn then [(term, c)] else [] := by
  show (if responsesOf (m.handleVoteReq myLsn term c walLsn).2 = [true]
    then [((m.handleVoteReq myLsn term c walLsn).1.currentTerm, c)] else []) = _
  rw [responsesOf_handleVoteReq, handleVoteReq_fst]
  by_cases h : (m.noticeTerm term).grants myLsn term c walLsn = true
  · rw [if_pos (by rw [h]), if_pos h, if_pos h]
    show [((m.noticeTerm term).currentTerm, c)] = _
    rw [currentTerm_of_grants h]
  · rw [if_neg fun hresp => h (cons.inj hresp).1, if_neg h]

theorem handled_voteResp (term : Nat) (granted : Bool) :
    Handled m (.voteResp term granted) (m.handleVoteResp term granted).1
      (framesOf (m.handleVoteResp term granted).2) [] := by
  unfold handleVoteResp loseTerm
  by_cases hlt : m.currentTerm < term
  · simp only [if_pos hlt]
    exact .lost hlt
  simp only [if_neg hlt]
  by_cases hout : m.role ≠ .candidate ∨ term < m.currentTerm
  · rw [if_pos hout]
    exact .stale (Nat.not_lt.mp hlt)
  obtain ⟨hrole, -⟩ := not_or.mp hout
  obtain rfl : term = m.currentTerm := by omega
  rw [if_neg hout]
  cases granted with
  | false => exact .stale (Nat.le_refl _)
  | true =>
    by_cases hfew : m.countVote.votesReceived < m.config.majority
    · rw [if_pos hfew]
      exact .counted (not_not.mp hrole)
    · rw [if_neg hfew]
      exact .elected (not_not.mp hrole) (Nat.not_lt.mp hfew)

theorem handled_timeout (walLsn : Nat) :
    Handled m (.timeout walLsn) (m.onTimeout walLsn).1 (framesOf (m.onTimeout walLsn).2)
      (m.supports (.timeout walLsn)) := by
  show Handled m _ _ _ (if m.role = .leader then [] else [(m.candidacy.currentTerm,
    m.config.nodeId)])
  unfold onTimeout startElection
  by_cases hrole : m.role = .leader
  · rw [if_pos hrole, if_pos hrole]
    exact .led hrole
  rw [if_neg hrole, if_neg hrole]
  by_cases hone : m.config.majority ≤ 1
  · rw [if_pos hone, framesOf, filterMap_append]
    exact .acclaimed hrole hone
  · rw [if_neg hone]
    exact .stood hrole

theorem handled (e : Event) :
    Handled m e (m.handle e).1 (framesOf (m.handle e).2) (m.supports e) := by
  cases e with
  | heartbeat term leaderId => exact handled_heartbeat m term leaderId
  | voteReq myLsn term c walLsn =>
    show Handled m _ (m.handleVoteReq myLsn term c walLsn).1
      (framesOf (m.handleVoteReq _ _ _ _).2) _
    rw [framesOf_handleVoteReq, supports_voteReq, handleVoteReq_fst]
    split_ifs with h
    · exact .granted h
    · exact .refused h
  | voteResp term granted => exact handled_voteResp m term granted
  | timeout walLsn => exact handled_timeout m walLsn
  | restart =>
    show Handled m .restart m.restart [] []
    by_cases hrole : m.config.role = .leader
    · rw [restart, start_of_leader (m := create m.config m.stateFile) hrole]
      exact .resumed hrole
    · rw [restart, start_of_ne_leader (m := create m.config m.stateFile) hrole]
      exact .restarted hrole

end

theorem candidacy_durable (hid : m.config.nodeId.length < 2 ^ 16) : m.candidacy.Durable :=
  readState_stateBytes (Nat.mod_lt _ (by decide)) hid

theorem start_durable_iff (config : NodeConfig) (stateFile : Option Bytes) :
    (create config stateFile).start.Durable ↔ StartKeeps config stateFile := by
  by_cases hrole : config.role = .leader
  · rw [start_of_leader (m := create config stateFile) hrole]
    show readState stateFile = (if (readState stateFile).1 = 0 then 1 else (readState stateFile).1,
      (readState stateFile).2) ↔ _
    by_cases hzero : (readState stateFile).1 = 0
    · rw [if_pos hzero]
      refine ⟨fun h => ?_, fun h => absurd ⟨hrole, hzero⟩ h⟩
      rw [h] at hzero
      cases hzero
    · rw [if_neg hzero]
      exact ⟨fun _ h => hzero h.2, fun _ => rfl⟩
  · rw [start_of_ne_leader (m := create config stateFile) hrole]
    exact ⟨fun _ h => hrole h.1, fun _ => rfl⟩

variable {frames : List (Bytes × Frame)} {votes : List (Nat × Bytes)} {stateFile : Option Bytes}

/-- **The steps that keep the file** are exactly those of `Keeps`. -/
theorem Handled.durable_iff (h : Handled m e m' frames votes) (hd : m.Durable)
    (hid : m.config.nodeId.length < 2 ^ 16) (hfits : e.FromFrame) : m'.Durable ↔ m.Keeps e := by
  cases h with
  | ignored hkeeps | stale hkeeps => exact ⟨fun _ => hkeeps, fun _ => hd⟩
  | entered hgt =>
    exact ⟨fun _ h => absurd h.1 (Nat.ne_of_gt hgt),
      fun _ => readState_stateBytes hfits (by decide)⟩
  | followed hrole => exact ⟨fun _ h => hrole h.2.2.1, fun _ => hd.congr rfl rfl rfl⟩
  | deposed hrole hother =>
    by_cases hpos : 0 < m.currentTerm
    · -- the file now has this term and no vote
      have hread : readState (some (stateBytes m.currentTerm [])) = (m.currentTerm, []) :=
        readState_stateBytes hfits (by decide)
      rw [if_pos hpos]
      change readState (some (stateBytes m.currentTerm [])) = (m.currentTerm, m.votedFor) ↔ _
      rw [hread]
      constructor
      · intro h hbad
        exact hbad.2.2.2.2 (congrArg Prod.snd h).symm
      · intro h
        by_contra hne
        exact h ⟨rfl, hpos, hrole, hother, fun hnil => hne (by rw [hnil])⟩
    · rw [if_neg hpos]
      exact ⟨fun _ h => hpos h.2.1, fun _ => hd.congr rfl rfl rfl⟩
  | granted hgrant =>
    have hlsn := (grants_iff.mp hgrant).2.1
    have hterm := currentTerm_of_grants hgrant
    refine ⟨fun _ h => absurd h.2 (Nat.not_lt.mpr hlsn), fun _ => ?_⟩
    exact readState_stateBytes (hterm.symm ▸ hfits.1) hfits.2.1
  | @refused myLsn t lsn c hrefused =>
    by_cases hlt : m.currentTerm < t
    · -- the term is entered and the request refused: the file knows nothing of it
      rw [noticeTerm_of_lt hlt] at hrefused ⊢
      have hnot : ¬(m.enterTerm t).Durable := not_durable_of_term hd rfl (Nat.ne_of_gt hlt)
      refine ⟨fun h => absurd h hnot, fun h => absurd ⟨hlt, Nat.not_le.mp fun hlsn => ?_⟩ h⟩
      exact hrefused (grants_iff.mpr ⟨Nat.le_refl _, hlsn, .inl rfl⟩)
    · rw [noticeTerm_of_le (Nat.not_lt.mp hlt)]
      exact ⟨fun _ h => hlt h.1, fun _ => hd⟩
  | lost hlt =>
    refine ⟨fun h => absurd h ?_, fun h => absurd hlt (Nat.not_lt.mpr h)⟩
    exact not_durable_of_term hd rfl (Nat.ne_of_gt hlt)
  | counted | elected => exact ⟨fun _ => Nat.le_refl _, fun _ => hd.congr rfl rfl rfl⟩
  | led => exact ⟨fun _ => trivial, fun _ => hd⟩
  | stood => exact ⟨fun _ => trivial, fun _ => candidacy_durable hid⟩
  | acclaimed => exact ⟨fun _ => trivial, fun _ => (candidacy_durable hid).congr rfl rfl rfl⟩
  | restarted hrole => exact ⟨fun _ h => hrole h.1, fun _ => rfl⟩
  | resumed hrole =>
    have h := start_durable_iff m.config m.stateFile
    unfold StartKeeps at h
    rwa [hd, start_of_leader (m := create m.config m.stateFile) hrole] at h

theorem Handled.config (h : Handled m e m' frames votes) : m'.config = m.config := by
  cases h with
  | deposed => split_ifs <;> rfl
  | granted | refused =>
    unfold noticeTerm
    split_ifs <;> rfl
  | _ => rfl

/-! ## Terms and votes over a step -/

/-- What a step does to the term and the vote: the term never falls, and a vote of a term stays
as long as the term. -/
structure Advances (m m' : ElectionManager) : Prop where
  term : m.currentTerm ≤ m'.currentTerm
  vote : m'.currentTerm = m.currentTerm → m.votedFor ≠ [] → m'.votedFor = m.votedFor

theorem Advances.of_lt (h : m.currentTerm < m'.currentTerm) : Advances m m' :=
  ⟨Nat.le_of_lt h, fun heq => absurd heq (Nat.ne_of_gt h)⟩

theorem Advances.of_eq (hterm : m'.currentTerm = m.currentTerm) (hvote : m'.votedFor = m.votedFor) :
    Advances m m' :=
  ⟨Nat.le_of_eq hterm.symm, fun _ _ => hvote⟩

theorem currentTerm_candidacy (hroom : m.currentTerm + 1 < 2 ^ 64) :
    m.candidacy.currentTerm = m.currentTerm + 1 :=
  Nat.mod_eq_of_lt hroom

theorem Handled.advances (h : Handled m e m' frames votes) (hd : m.Durable) (hkeeps : m.Keeps e)
    (hroom : m.currentTerm + 1 < 2 ^ 64) : Advances m m' := by
  have hlater : m.currentTerm < m.candidacy.currentTerm := by
    rw [currentTerm_candidacy hroom]
    exact Nat.lt_succ_self _
  cases h with
  | entered hlt | lost hlt => exact .of_lt hlt
  -- the file may lose the vote, the node does not
  | deposed => split_ifs <;> exact .of_eq rfl rfl
  | @granted _ t _ _ hgrant =>
    by_cases hlt : m.currentTerm < t
    · rw [noticeTerm_of_lt hlt]
      exact .of_lt hlt
    · rw [noticeTerm_of_le (Nat.not_lt.mp hlt)] at hgrant ⊢
      refine ⟨Nat.le_refl _, fun _ hne => ?_⟩
      exact ((grants_iff.mp hgrant).2.2.resolve_left hne).symm
  | @refused _ t =>
    by_cases hlt : m.currentTerm < t
    · rw [noticeTerm_of_lt hlt]
      exact .of_lt hlt
    · rw [noticeTerm_of_le (Nat.not_lt.mp hlt)]
      exact .of_eq rfl rfl
  | stood | acclaimed => exact .of_lt hlater
  | restarted => exact .of_eq (congrArg Prod.fst hd) (congrArg Prod.snd hd)
  | resumed hrole =>
    refine .of_eq ?_ (congrArg Prod.snd hd)
    show (if (readState m.stateFile).1 = 0 then 1 else (readState m.stateFile).1) = _
    rw [hd]
    exact if_neg fun hzero => hkeeps ⟨hrole, hzero⟩
  | _ => exact .of_eq rfl rfl

/-- A candidate that a node supports is its vote of its term; it had no other one. -/
theorem Handled.vote (h : Handled m e m' frames votes) (hfits : e.FromFrame)
    (hid : m.config.nodeId ≠ []) (hroom : m.currentTerm + 1 < 2 ^ 64) {t : Nat} {c : Bytes}
    (hx : (t, c) ∈ votes) : t = m'.currentTerm ∧ m'.votedFor = c ∧ c ≠ [] ∧
      (t = m.currentTerm → m.votedFor = [] ∨ m.votedFor = c) := by
  cases h with
  | granted hgrant =>
    cases mem_singleton.mp hx
    refine ⟨(currentTerm_of_grants hgrant).symm, rfl, hfits.2.2, fun hterm => ?_⟩
    rw [noticeTerm_of_le (Nat.le_of_eq hterm)] at hgrant
    exact (grants_iff.mp hgrant).2.2
  | stood | acclaimed =>
    cases mem_singleton.mp hx
    refine ⟨rfl, rfl, hid, fun hterm => ?_⟩
    rw [currentTerm_candidacy hroom] at hterm
    omega
  | _ => cases hx

/-! ## Runs -/

/-- A node with the candidates it has supported, by term. -/
structure History where
  node : ElectionManager
  supported : List (Nat × Bytes)

namespace History

def record (h : History) (e : Event) : History :=
  ⟨(h.node.handle e).1, h.supported ++ h.node.supports e⟩

/-- The first start on a state file. -/
def init (config : NodeConfig) (stateFile : Option Bytes) : History :=
  ⟨(create config stateFile).start, []⟩

/-- One candidate per term. -/
def Single (supported : List (Nat × Bytes)) : Prop :=
  ∀ t c c', (t, c) ∈ supported → (t, c') ∈ supported → c = c'

/-- What is supported is of this term or an earlier one, and the support of this term is the
vote. -/
structure Backed (h : History) : Prop where
  durable : h.node.Durable
  config : h.node.config.nodeId ≠ []
  short : h.node.config.nodeId.length < 2 ^ 16
  named : ∀ t c, (t, c) ∈ h.supported → c ≠ []
  term : ∀ t c, (t, c) ∈ h.supported → t ≤ h.node.currentTerm
  vote : ∀ c, (h.node.currentTerm, c) ∈ h.supported → h.node.votedFor = c
  single : Single h.supported

theorem Backed.record {h : History} (hb : Backed h) {e : Event} (hfits : e.FromFrame)
    (hkeeps : h.node.Keeps e) (hroom : h.node.currentTerm + 1 < 2 ^ 64) :
    Backed (h.record e) := by
  have hh := handled h.node e
  have hadv := hh.advances hb.durable hkeeps hroom
  have hnew : ∀ {t c}, (t, c) ∈ h.node.supports e → _ :=
    fun hmem => hh.vote hfits hb.config hroom hmem
  -- an old support of the new term was the vote before the step, and still is
  have hold : ∀ c, ((h.node.handle e).1.currentTerm, c) ∈ h.supported →
      h.node.votedFor = c ∧ (h.node.handle e).1.votedFor = c := by
    intro c hc
    have hle := hb.term _ c hc
    have heq : (h.node.handle e).1.currentTerm = h.node.currentTerm :=
      Nat.le_antisymm hle hadv.term
    have hvote := hb.vote c (heq ▸ hc)
    have hne : h.node.votedFor ≠ [] := hvote ▸ hb.named _ c hc
    exact ⟨hvote, (hadv.vote heq hne).trans hvote⟩
  have hmix : ∀ t c c', (t, c) ∈ h.supported → (t, c') ∈ h.node.supports e → c = c' := by
    intro t c c' hc hc'
    obtain ⟨rfl, hvote, -, -⟩ := hnew hc'
    exact (hold c hc).2.symm.trans hvote
  constructor
  · exact (hh.durable_iff hb.durable hb.short hfits).mpr hkeeps
  · show (h.node.handle e).1.config.nodeId ≠ []
    rw [hh.config]
    exact hb.config
  · show (h.node.handle e).1.config.nodeId.length < 2 ^ 16
    rw [hh.config]
    exact hb.short
  · intro t c hmem
    rcases mem_append.mp hmem with hmem | hmem
    · exact hb.named t c hmem
    · exact (hnew hmem).2.2.1
  · intro t c hmem
    rcases mem_append.mp hmem with hmem | hmem
    · exact Nat.le_trans (hb.term t c hmem) hadv.term
    · exact Nat.le_of_eq (hnew hmem).1
  · intro c hmem
    rcases mem_append.mp hmem with hmem | hmem
    · exact (hold c hmem).2
    · exact (hnew hmem).2.1
  · intro t c c' hc hc'
    rcases mem_append.mp hc with hc | hc <;> rcases mem_append.mp hc' with hc' | hc'
    · exact hb.single t c c' hc hc'
    · exact hmix t c c' hc hc'
    · exact (hmix t c' c hc' hc).symm
    · exact (hnew hc).2.1.symm.trans (hnew hc').2.1

theorem config_start (config : NodeConfig) (stateFile : Option Bytes) :
    (create config stateFile).start.config = config := by
  unfold start
  split_ifs <;> rfl

theorem init_backed {config : NodeConfig} (hid : config.nodeId ≠ [])
    (hshort : config.nodeId.length < 2 ^ 16) (hstart : StartKeeps config stateFile) :
    Backed (init config stateFile) := by
  have hconfig : (init config stateFile).node.config = config := config_start config stateFile
  constructor
  · exact (start_durable_iff config stateFile).mpr hstart
  · rwa [hconfig]
  · rwa [hconfig]
  · exact nofun
  · exact nofun
  · exact nofun
  · exact nofun

/-- The runs in which the file always holds the state. -/
theorem forall_durable_iff {config : NodeConfig} {events : List Event}
    (hshort : config.nodeId.length < 2 ^ 16) (hfits : ∀ e ∈ events, e.FromFrame) :
    (∀ h ∈ states record (init config stateFile) events, h.node.Durable) ↔
      StartKeeps config stateFile ∧
        Along record (fun h e => h.node.Keeps e) (init config stateFile) events := by
  have hconfig : ∀ h ∈ states record (init config stateFile) events,
      h.node.config = config := by
    refine Along.invariant (I := fun h : History => h.node.config = config) (fun h e hc _ => ?_)
      (config_start config stateFile) (along_of_forall hfits)
    exact (handled h.node e).config.trans hc
  have hrun : StartKeeps config stateFile →
      ((∀ h ∈ states record (init config stateFile) events,
        h.node.Durable ∧ h.node.config = config) ↔
        Along record (fun h e => h.node.Keeps e) (init config stateFile) events) := by
    intro hstart
    refine forall_states_iff (Q := Event.FromFrame) (fun h e hinv he => ?_)
      ⟨(start_durable_iff config stateFile).mpr hstart, config_start config stateFile⟩ hfits
    have hkeeps := (handled h.node e).durable_iff hinv.1 (hinv.2 ▸ hshort) he
    exact ⟨fun h' => hkeeps.mp h'.1,
      fun h' => ⟨hkeeps.mpr h', (handled h.node e).config.trans hinv.2⟩⟩
  constructor
  · intro hall
    have hstart : StartKeeps config stateFile :=
      (start_durable_iff config stateFile).mp (hall _ (mem_states_self _ _))
    exact ⟨hstart, (hrun hstart).mp fun h hh => ⟨hall h hh, hconfig h hh⟩⟩
  · rintro ⟨hstart, halong⟩ h hh
    exact ((hrun hstart).mpr halong h hh).1

/-- **Durable election state.**  The file holds the term and the vote after every handler of a
run exactly if every step of the run keeps it; then the term never falls and the node supports
one candidate per term, whatever restarts the run has. -/
theorem electionState_durable_iff (config : NodeConfig) (stateFile : Option Bytes)
    (events : List Event) (hid : config.nodeId ≠ []) (hshort : config.nodeId.length < 2 ^ 16)
    (hfits : ∀ e ∈ events, e.FromFrame) :
    ((∀ h ∈ states record (init config stateFile) events, h.node.Durable) ↔
      StartKeeps config stateFile ∧
        Along record (fun h e => h.node.Keeps e) (init config stateFile) events) ∧
    (StartKeeps config stateFile →
      Along record (fun h e => h.node.Keeps e ∧ h.node.currentTerm + 1 < 2 ^ 64)
        (init config stateFile) events →
      (states record (init config stateFile) events).Pairwise
        (fun h h' => h.node.currentTerm ≤ h'.node.currentTerm) ∧
      ∀ h ∈ states record (init config stateFile) events, Single h.supported) := by
  refine ⟨forall_durable_iff hshort hfits, fun hstart halong => ?_⟩
  have hfrom := init_backed hid hshort hstart
  have hok := halong.and (along_of_forall hfits)
  constructor
  · refine Along.pairwise (I := Backed)
      (R := fun h h' => h.node.currentTerm ≤ h'.node.currentTerm) (fun _ _ _ => Nat.le_trans)
      (fun h e hb hok => ?_) hfrom hok
    exact ⟨hb.record hok.2 hok.1.1 hok.1.2,
      ((handled h.node e).advances hb.durable hok.1.1 hok.1.2).term⟩
  · intro h hh
    exact (Along.invariant (I := Backed)
      (fun h e hb hok => hb.record hok.2 hok.1.1 hok.1.2) hfrom hok h hh).single

/-- A follower of a cluster of three. -/
def followerB : NodeConfig :=
  ⟨ascii "b", .follower, [ascii "a:4433", ascii "b:4433", ascii "c:4433"]⟩

/-- A run that keeps its file: a heartbeat, a candidacy, a vote in a later term, a restart. -/
def keptRun : List Event :=
  [.heartbeat 1 (ascii "a"), .timeout 6, .voteReq 6 4 (ascii "c") 9, .restart,
    .voteReq 6 4 (ascii "a") 9]

theorem electionState_durable_keptRun :
    (∀ h ∈ states record (init followerB none) keptRun, h.node.Durable) ∧
    ∀ h ∈ states record (init followerB none) keptRun, Single h.supported := by
  have h := electionState_durable_iff followerB none keptRun (by decide) (by decide) (by decide)
  have hstart : StartKeeps followerB none := by
    unfold StartKeeps
    decide
  exact ⟨h.1.mpr ⟨hstart, by decide⟩, (h.2 hstart (by decide)).2⟩

/-- A request of term 5 that is refused for its log: the term is entered in memory only, and a
restart brings back term 0, in which the node then votes as if it had seen nothing. -/
theorem refused_request_not_durable :
    (final record (init followerB none) [.voteReq 10 5 (ascii "c") 6]).node.currentTerm = 5 ∧
    ¬(final record (init followerB none) [.voteReq 10 5 (ascii "c") 6]).node.Durable ∧
    (final record (init followerB none)
      [.voteReq 10 5 (ascii "c") 6, .restart]).node.currentTerm = 0 := by
  decide

end History
end NyxDb.Replication.ElectionManager
