import NyxDb.Replication.ClusterData

/-!
# Leader completeness

When a candidate stands, a node with a log that is not longer has nothing the candidate lacks.
Until the request arrives, either this stays so or the node comes to refuse it, by its term or by
the size of its log (`Shielded`).  So the test of the voter, which compares sizes only, finds a
candidate that has all records of the voter; and as the voter applies nothing while the candidate
waits for votes, this still holds when the candidate is elected (`Covered`).  A record of a majority
is a record of a voter.

* `Matched`: followers are where their offsets say, so a pull gives the records that come next.
* `Ready`: everything that a step keeps; `leader_completeness` is read off it.
-/

namespace NyxDb.Replication

open LogRecord List Run

variable {l : LeaderNode}

theorem DataNode.withLog_cases {d : DataNode} (hl : l.wal = none ∨ l.wal = d.leader.wal) :
    ((d.withLog l).removed = d.removed ∧ l.records = d.leader.records) ∨
      (d.withLog l).removed = d.removed + 1 ∧ l.records = [] := by
  by_cases hgone : d.leader.wal.isSome ∧ l.wal.isNone
  · right
    constructor
    · exact if_pos hgone
    · rw [LeaderNode.records, Option.isNone_iff_eq_none.mp hgone.2]
      rfl
  · left
    constructor
    · exact if_neg hgone
    · rcases hl with hnone | hsame
      · -- a log that is not there cannot be removed
        have hwas : d.leader.wal = none := by
          by_contra hsome
          exact hgone ⟨Option.isSome_iff_ne_none.mpr hsome, Option.isNone_iff_eq_none.mpr hnone⟩
        rw [LeaderNode.records, LeaderNode.records, hnone, hwas]
      · rw [LeaderNode.records, LeaderNode.records, hsame]

namespace ReplicatedCluster

/-! ## Followers and their offsets -/

/-- What a follower lacks is the rest of the log from its offset on. -/
def Aligned (l f : DataNode) : Prop :=
  ∃ k ≤ l.leader.records.length, f.confirmedLsn = offsetOf l.leader.records k ∧
    l.records = f.records ++ (l.leader.records.drop k).map content

/-- Who follows a log that was not removed since is at a record of it. -/
structure Matched (s : ReplicatedCluster) : Prop where
  valid : ∀ i, ∀ r ∈ (s.data i).leader.records, r.Valid
  counted : ∀ i j n, (s.data j).source = some (i, n) → n ≤ (s.data i).removed
  aligned : ∀ i j, (s.data j).source = some (i, (s.data i).removed) →
    Aligned (s.data i) (s.data j)

section Data

variable {s : ReplicatedCluster} {id i j : Bytes} {d : DataNode} {r : LogRecord}

theorem data_setData_self : (s.setData id d).data id = d :=
  Function.update_self _ _ _

theorem data_setData_of_ne (hne : j ≠ id) : (s.setData id d).data j = s.data j :=
  Function.update_of_ne hne _ _

theorem applied_setData_of_ne (hne : j ≠ id) : (s.setData id d).applied j = s.applied j :=
  congrArg DataNode.records (data_setData_of_ne hne)

/-- What holds of the new data of a node and of the data of the others. -/
theorem forall_setData {P : Bytes → DataNode → Prop} (hself : P id d)
    (hother : ∀ j ≠ id, P j (s.data j)) (j : Bytes) : P j ((s.setData id d).data j) := by
  by_cases hj : j = id
  · subst hj
    rwa [data_setData_self]
  · rw [data_setData_of_ne hj]
    exact hother j hj

theorem applied_withLog (s : ReplicatedCluster) (id v : Bytes) (l : LeaderNode) :
    (s.setData id ((s.data id).withLog l)).applied v = s.applied v :=
  forall_setData (P := fun v d => d.records = s.applied v) (d := (s.data id).withLog l) rfl
    (fun _ _ => rfl) v

theorem wal_flushAll (d : DataNode) (isLeader : Bool) :
    (if isLeader then d.leader.checkpoint else { d.leader with wal := none }).wal = none ∨
      (if isLeader then d.leader.checkpoint else { d.leader with wal := none }).wal =
        d.leader.wal := by
  cases isLeader with
  | true => exact Stream.wal_checkpoint d.leader
  | false => exact .inl rfl

theorem applied_flushAll (s : ReplicatedCluster) (id v : Bytes) :
    (s.flushAll id).applied v = s.applied v :=
  applied_withLog s id v _

theorem applied_log (s : ReplicatedCluster) (id v : Bytes) (r : LogRecord) :
    (s.log id r).applied v = if v = id then s.applied id ++ [r.content] else s.applied v := by
  unfold ReplicatedCluster.log applied
  dsimp only
  by_cases hv : v = id
  · subst hv
    rw [if_pos rfl, data_setData_self]
  · rw [if_neg hv, data_setData_of_ne hv]

theorem restart_eq {kept : Nat} (hkept : (s.applied id).length ≤ kept) : (s.data id).restart kept =
      (s.data id).withLog ⟨none, [], (s.data id).leader.maxWalLagBytes⟩ := by
  change (s.data id).records.length ≤ kept at hkept
  unfold DataNode.restart
  rw [take_of_length_le hkept]
  rfl

/-- A node keeps what it has applied, and who applies more has voted for no candidate. -/
structure Extends (s s' : ReplicatedCluster) : Prop where
  matched : Matched s'
  grows : ∀ v, s.applied v <+: s'.applied v
  idle : ∀ v, s'.applied v = s.applied v ∨ s.Unpledged v

theorem extends_of_same {s' : ReplicatedCluster} (h : Matched s')
    (hsame : ∀ v, s'.applied v = s.applied v) : Extends s s' := by
  constructor
  · exact h
  · intro v
    rw [hsame v]
  · exact fun v => .inl (hsame v)

theorem extends_of_one {s' : ReplicatedCluster} (h : Matched s') (hfree : s.Unpledged id)
    (hgrows : s.applied id <+: s'.applied id)
    (hother : ∀ v, v ≠ id → s'.applied v = s.applied v) : Extends s s' := by
  constructor
  · exact h
  · intro v
    by_cases hv : v = id
    · subst hv
      exact hgrows
    · rw [hother v hv]
  · intro v
    by_cases hv : v = id
    · subst hv
      exact .inr hfree
    · exact .inl (hother v hv)

/-! ## What one step keeps -/

section

variable (h : Matched s)
include h

/-- It is enough to look at the node that changes and at those that follow it. -/
theorem Matched.setData (hvalid : ∀ r ∈ d.leader.records, r.Valid)
    (hremoved : (s.data id).removed ≤ d.removed)
    (hsource : ∀ i n, d.source = some (i, n) → n ≤ ((s.setData id d).data i).removed ∧
      (n = ((s.setData id d).data i).removed → Aligned ((s.setData id d).data i) d))
    (hfollow : ∀ j, (s.data j).source = some (id, d.removed) → Aligned d (s.data j)) :
    Matched (s.setData id d) := by
  constructor
  · exact forall_setData (P := fun _ d => ∀ r ∈ d.leader.records, r.Valid) hvalid
      fun i _ => h.valid i
  · intro i
    refine forall_setData (P := fun _ x => ∀ n, x.source = some (i, n) → n ≤ _)
      (fun n hsrc => (hsource i n hsrc).1) ?_
    intro j _ n hsrc
    have hgrown := forall_setData (P := fun i x => (s.data i).removed ≤ x.removed) hremoved
      (fun _ _ => Nat.le_refl _) i
    exact Nat.le_trans (h.counted i j n hsrc) hgrown
  · intro i
    refine forall_setData (P := fun _ x => x.source = some (i, _) → Aligned _ x)
      (fun hsrc => (hsource i _ hsrc).2 rfl) ?_
    intro j _
    exact forall_setData (P := fun i x => (s.data j).source = some (i, x.removed) →
      Aligned x (s.data j)) (hfollow j) (fun i _ => h.aligned i j) i

/-- A node removes its log or keeps it. -/
theorem Matched.withLog (hl : l.wal = none ∨ l.wal = (s.data id).leader.wal) :
    Matched (s.setData id ((s.data id).withLog l)) := by
  have hcases := DataNode.withLog_cases hl
  have hremoved : (s.data id).removed ≤ ((s.data id).withLog l).removed := by
    rcases hcases with ⟨hcount, -⟩ | ⟨hcount, -⟩ <;> omega
  have hfollow : ∀ j, (s.data j).source = some (id, ((s.data id).withLog l).removed) →
      Aligned ((s.data id).withLog l) (s.data j) := by
    intro j hsource
    rcases hcases with ⟨hcount, hrecords⟩ | ⟨hcount, -⟩
    · rw [hcount] at hsource
      change ∃ k ≤ l.records.length, _ = offsetOf l.records k ∧
        _ = _ ++ (l.records.drop k).map content
      rw [hrecords]
      exact h.aligned id j hsource
    · -- nobody was told of the new count
      have hle := h.counted id j _ hsource
      omega
  refine h.setData ?_ hremoved ?_ hfollow
  · intro r hr
    change r ∈ l.records at hr
    rcases hcases with ⟨-, hrecords⟩ | ⟨-, hnil⟩
    · rw [hrecords] at hr
      exact h.valid id r hr
    · rw [hnil] at hr
      cases hr
  · intro i n
    refine forall_setData (P := fun i x => (s.data id).source = some (i, n) → n ≤ x.removed ∧
      (n = x.removed → Aligned x (s.data id))) ?_ ?_ i
    · intro hsource
      exact ⟨Nat.le_trans (h.counted id id n hsource) hremoved, fun hn => hfollow id (hn ▸ hsource)⟩
    · intro i _ hsource
      exact ⟨h.counted i id n hsource, fun hn => h.aligned i id (hn ▸ hsource)⟩

theorem Matched.flushAll (id : Bytes) : Matched (s.flushAll id) :=
  h.withLog (wal_flushAll _ _)

/-! ## Logging -/

theorem Matched.log (hr : r.Valid) : Matched (s.log id r) := by
  refine h.setData ?_ (Nat.le_refl _) (fun _ _ => nofun) ?_
  · exact forall_mem_concat (h.valid id) hr
  · -- the record is in the log and among the records of the node
    intro j hsource
    obtain ⟨k, hk, hoff, hrest⟩ := h.aligned id j hsource
    change ∃ k ≤ ((s.data id).leader.records ++ [r]).length, _ = offsetOf (_ ++ [r]) k ∧
      s.applied id ++ [r.content] = s.applied j ++ ((_ ++ [r]).drop k).map content
    refine ⟨k, ?_, ?_, ?_⟩
    · rw [length_append]
      omega
    · rw [offsetOf_append hk]
      exact hoff
    · rw [drop_append_of_le_length hk, map_append, applied, hrest, append_assoc]
      rfl

/-! ## Pulling -/

theorem Matched.follow (hne : id ≠ i) {k : Nat}
    (hvalid : ∀ r ∈ d.leader.records, r.Valid)
    (hremoved : (s.data id).removed < d.removed) (hsource : d.source = some (i, (s.data i).removed))
    (hk : k ≤ (s.data i).leader.records.length)
    (hoff : d.confirmedLsn = offsetOf (s.data i).leader.records k)
    (hrest : s.applied i = d.records ++ ((s.data i).leader.records.drop k).map content) :
    Matched (s.setData id d) := by
  refine h.setData hvalid hremoved.le ?_ ?_
  · intro x n hsrc
    rw [hsource] at hsrc
    cases hsrc
    rw [data_setData_of_ne (Ne.symm hne)]
    exact ⟨Nat.le_refl _, fun _ => ⟨k, hk, hoff, hrest⟩⟩
  · -- nobody was told of the new count
    intro j hsrc
    have hle := h.counted id j _ hsrc
    omega

theorem Matched.snapshot (hne : id ≠ i) :
    Matched (s.setData id ((s.data id).snapshot i (s.data i) [])) := by
  refine h.follow hne ?_ (Nat.lt_succ_self _) rfl (Nat.le_refl _) (Stream.resumeLsn_eq _) ?_
  · exact nofun
  · show s.applied i = (s.applied i ++ []) ++ _
    rw [drop_length, append_nil, map_nil, append_nil]

theorem Matched.applyBatch (hne : id ≠ i) {maxBytes : Nat} {failAt : Option Nat}
    (hdata : (s.data i).leader.getBatch (s.data id).confirmedLsn maxBytes ≠ [])
    (hsource : (s.data id).source = some (i, (s.data i).removed))
    (hends : (s.data i).leader.EndsOnRecord (s.data id).confirmedLsn maxBytes)
    (hfail : failAt = none ∨ failAt = some 0) :
    Matched (s.setData id ((s.data id).applyBatch (s.data id).confirmedLsn
      ((s.data i).leader.getBatch (s.data id).confirmedLsn maxBytes) failAt)) := by
  obtain ⟨k, hk, hoff, hrest⟩ := h.aligned i id hsource
  rw [hoff] at hdata hends ⊢
  obtain ⟨m, hm, hbytes⟩ := Stream.getBatch_whole hdata hends
  have hvalid : ∀ r ∈ ((s.data i).leader.records.drop k).take m, r.Valid := fun r hr =>
    h.valid i r (mem_of_mem_drop (mem_of_mem_take hr))
  rw [hbytes] at hdata ⊢
  unfold DataNode.applyBatch
  rcases hfail with rfl | rfl
  · rw [Stream.applyBatch_logBody hvalid]
    refine h.follow hne (h.valid id) (Nat.lt_succ_self _) hsource hm ?_ ?_
    · rw [offsetOf_add]
    · show s.applied i = (s.applied id ++ _) ++ _
      rw [applied, hrest, append_assoc, ← map_append, ← drop_drop, take_append_drop]
      rfl
  · rw [Stream.applyBatch_fails (batchRecords_ne_nil hvalid hdata)]
    refine h.follow hne (h.valid id) (Nat.lt_succ_self _) hsource hk hoff ?_
    show s.applied i = (s.applied id ++ []) ++ _
    rw [append_nil]
    exact hrest

theorem Matched.extends_withLog
    (hl : l.wal = none ∨ l.wal = (s.data id).leader.wal) :
    Extends s (s.setData id ((s.data id).withLog l)) := by
  exact extends_of_same (h.withLog hl) fun v => applied_withLog s id v l

theorem Matched.extends_log (hr : r.Valid)
    (hfree : s.Unpledged id) : Extends s (s.log id r) := by
  apply extends_of_one (h.log hr) hfree
  · rw [applied_log, if_pos rfl]
    exact prefix_append _ _
  · intro v hv
    rw [applied_log, if_neg hv]

theorem Matched.extends_pull (hne : id ≠ i) {maxBytes : Nat} {failAt : Option Nat}
    {replayed : List (Bytes × WalBody)} (hfree : s.Unpledged id)
    (hreceives : s.Receives id i maxBytes failAt replayed
      ((s.data i).leader.servePull (s.data id).confirmedLsn maxBytes)) :
    Extends s (s.pull id i maxBytes failAt replayed) := by
  unfold ReplicatedCluster.pull
  unfold LeaderNode.servePull at hreceives ⊢
  by_cases hstale : (s.data id).confirmedLsn = 0 ∨ 0 < (s.data i).leader.walSize ∧
      (s.data i).leader.walSize < (s.data id).confirmedLsn
  · rw [if_pos hstale] at hreceives ⊢
    obtain ⟨hbegin, rfl⟩ := hreceives
    apply extends_of_one ((h.flushAll i).snapshot hne) hfree
    · unfold applied
      rw [data_setData_self]
      show s.applied id <+: (s.flushAll i).applied i ++ []
      rw [append_nil, applied_flushAll]
      exact hbegin
    · intro v hv
      rw [applied_setData_of_ne hv, applied_flushAll]
  · rw [if_neg hstale] at hreceives ⊢
    dsimp only
    by_cases hdata : (s.data i).leader.getBatch (s.data id).confirmedLsn maxBytes = []
    · rw [if_pos hdata]
      exact extends_of_same h fun _ => rfl
    · rw [if_neg hdata]
      obtain ⟨hsource, hends, hfail⟩ := hreceives.resolve_left hdata
      apply extends_of_one (h.applyBatch hne hdata hsource hends hfail) hfree
      · unfold applied
        rw [data_setData_self]
        exact prefix_append _ _
      · intro v hv
        exact applied_setData_of_ne hv

theorem Matched.handleData {e : ClusterEvent} (hlogged : Logged e)
    (hstreams : s.Streams e) (hkeeps : s.Keeps e) : Extends s (s.handleData e) := by
  cases e with
  | timeout id => exact extends_of_same h fun _ => rfl
  | deliver id message => exact extends_of_same h fun _ => rfl
  | restart id kept =>
    show Extends s (s.setData id ((s.data id).restart kept))
    rw [restart_eq hkeeps]
    exact h.extends_withLog (.inl rfl)
  | log id r => exact h.extends_log hlogged hkeeps
  | flushAll id => exact h.extends_withLog (wal_flushAll _ _)
  | ack id nodeId confirmedLsn =>
    show Extends s (s.setData id { s.data id with
      leader := (s.data id).leader.serveAck nodeId confirmedLsn })
    have hsame : Extends s (s.setData id
        ((s.data id).withLog ((s.data id).leader.serveAck nodeId confirmedLsn))) :=
      h.extends_withLog (.inr rfl)
    unfold DataNode.withLog at hsame
    rwa [if_neg] at hsame
    rintro ⟨hsome, hnone⟩
    change (s.data id).leader.wal.isNone = true at hnone
    rw [Option.isNone_iff_eq_none.mp hnone] at hsome
    cases hsome
  | pull id source maxBytes failAt replayed => exact h.extends_pull hstreams.1 hkeeps.1 hkeeps.2

end

/-- An event of the election changes no records. -/
theorem applied_of_action {e : ClusterEvent} {a : Action} (ha : s.action e = some a)
    (hkeeps : s.Keeps e) (v : Bytes) : (s.handleData e).applied v = s.applied v := by
  cases e with
  | timeout id => rfl
  | deliver id message => rfl
  | restart id kept =>
    show (s.setData id ((s.data id).restart kept)).applied v = _
    rw [restart_eq hkeeps, applied_withLog]
  | _ => cases ha

end Data

/-! ## Votes and records -/

variable {C : Cluster} {s : ReplicatedCluster} {e : ClusterEvent}

/-- A candidate has the records of the nodes that have voted for it. -/
def Covered (s : ReplicatedCluster) : Prop :=
  ∀ v t c, (v, t, c) ∈ s.sys.votes → v ≠ c → (s.sys.nodes c).role = .candidate →
    (s.sys.nodes c).currentTerm = t → s.applied v <+: s.applied c

/-- A node refuses a request on its way to it, or the candidate has all its records. -/
def Shielded (C : Cluster) (s : ReplicatedCluster) : Prop :=
  ∀ v ∈ C.ids, ∀ x ∈ s.requests v, x.2.1 ≠ v → s.Refuses v x ∨ s.applied v <+: s.applied x.2.1

structure Ready (C : Cluster) (s : ReplicatedCluster) : Prop where
  safe : Safe C s.sys
  announced : Announced s.sys
  matched : Matched s
  shielded : Shielded C s
  covered : Covered s

/-- The step taken with an action of the election, or without one. -/
theorem step_of_action {a : Action} (ha : s.action e = some a) :
    s.step e = { s.handleData e with sys := s.sys.step a } := by
  unfold step
  rw [ha]

theorem step_of_none (hnone : s.action e = none) : s.step e = s.handleData e := by
  unfold step
  rw [hnone]

theorem sys_handleData (s : ReplicatedCluster) (e : ClusterEvent) :
    (s.handleData e).sys = s.sys := by
  cases e with
  | pull id source maxBytes failAt replayed =>
    show (s.pull id source maxBytes failAt replayed).sys = _
    unfold ReplicatedCluster.pull
    split
    · rfl
    · split_ifs <;> rfl
  | _ => rfl

theorem init_ready (C : Cluster) (maxWalLagBytes : Nat) : Ready C (init C maxWalLagBytes) := by
  constructor
  · exact init_safe C
  · exact ⟨nofun, nofun⟩
  · exact ⟨nofun, nofun, nofun⟩
  · exact nofun
  · exact nofun

/-- The event makes the node the leader of a term it was voted for. -/
def Elected (s : ReplicatedCluster) (e : ClusterEvent) (id : Bytes) : Prop :=
  (s.sys.nodes id).role ≠ .leader ∧ ((s.step e).sys.nodes id).role = .leader ∧
    2 ≤ ((s.step e).sys.nodes id).currentTerm

instance (s : ReplicatedCluster) (e : ClusterEvent) (id : Bytes) : Decidable (s.Elected e id) :=
  inferInstanceAs (Decidable (_ ∧ _ ∧ _))

theorem mem_requests {id : Bytes} {t lsn : Nat} {c : Bytes} :
    (t, c, lsn) ∈ s.requests id ↔ (id, .frame (.voteReq t c lsn)) ∈ s.sys.sent := by
  unfold requests
  rw [mem_filterMap]
  constructor
  · rintro ⟨⟨dest, message⟩, hmem, hx⟩
    rcases message with (_ | _) | _
    · cases hx
    · dsimp only at hx
      split_ifs at hx with hdest
      cases hx
      exact hdest ▸ hmem
    · cases hx
  · intro hmem
    exact ⟨_, hmem, if_pos rfl⟩

/-- A voter has nothing the candidate lacks: otherwise its term or its log makes it refuse. -/
theorem Ready.granted (h : Ready C s) (hpossible : s.Possible C e) {v c : Bytes}
    (hgranted : (v, c) ∈ s.granted e) : s.applied v <+: s.applied c := by
  by_cases hne : c = v
  · rw [hne]
  cases e with
  | deliver id message =>
    rcases message with (_ | ⟨t, c', lsn⟩) | _
    · cases hgranted
    · change (v, c) ∈ if ((s.sys.nodes id).noticeTerm t).grants (s.currentWalLsn id) t c' lsn
        then [(id, c')] else [] at hgranted
      by_cases hgrant : ((s.sys.nodes id).noticeTerm t).grants (s.currentWalLsn id) t c' lsn = true
      · rw [if_pos hgrant] at hgranted
        cases mem_singleton.mp hgranted
        obtain ⟨hmem, hsent⟩ := hpossible.1 _ rfl
        obtain ⟨hterm, hlsn, -⟩ := ElectionManager.grants_iff.mp hgrant
        refine (h.shielded v hmem _ (mem_requests.mpr hsent) hne).resolve_left ?_
        rintro (hold | hshort)
        · rw [ElectionManager.noticeTerm_of_le (Nat.le_of_lt hold)] at hterm
          exact Nat.not_lt.mpr hterm hold
        · exact Nat.not_lt.mpr hlsn hshort
      · rw [if_neg hgrant] at hgranted
        cases hgranted
    · cases hgranted
  | _ => cases hgranted

/-- The request behind an action of the election. -/
theorem granted_of_action {v c : Bytes} {t lsn myLsn : Nat}
    (ha : s.action e = some (.deliver v (.frame (.voteReq t c lsn)) myLsn))
    (hgrant : ((s.sys.nodes v).noticeTerm t).grants myLsn t c lsn = true) :
    (v, c) ∈ s.granted e := by
  cases e with
  | deliver id message =>
    cases ha
    show (v, c) ∈ if ((s.sys.nodes v).noticeTerm t).grants (s.currentWalLsn v) t c lsn then [(v, c)]
      else []
    rw [if_pos hgrant]
    exact mem_singleton.mpr rfl
  | _ => cases ha

section

variable (h : Ready C s) (hlogged : Logged e) (hpossible : s.Possible C e)
  (hpledges : s.KeepsPledges C e)
include h hlogged hpossible hpledges

theorem Ready.extends : Extends s (s.step e) := by
  have hext := h.matched.handleData hlogged hpossible.2 hpledges.2.2.2
  cases ha : s.action e with
  | none =>
    rw [step_of_none ha]
    exact hext
  | some a =>
    rw [step_of_action ha]
    obtain ⟨hmatched, hgrows, hidle⟩ := hext
    exact ⟨{ hmatched with }, hgrows, hidle⟩

theorem Ready.shielded_step : Shielded C (s.step e) := by
  intro v hv x hx hne
  obtain ⟨t, c, lsn⟩ := x
  have hext := h.extends hlogged hpossible hpledges
  obtain ⟨-, hstands, hchanged, -⟩ := hpledges
  -- a new request is that of a node that stands, which is foremost
  have hold : (t, c, lsn) ∈ s.requests v ∨
      (s.step e).Refuses v (t, c, lsn) ∨ (s.step e).applied v <+: (s.step e).applied c := by
    rw [mem_requests] at hx ⊢
    cases ha : s.action e with
    | none =>
      rw [step_of_none ha, sys_handleData] at hx
      exact .inl hx
    | some a =>
      have hact : (s.step e).sys = s.sys.step a := by rw [step_of_action ha]
      rw [hact] at hx
      have hnode := node_mem_of_possible (hpossible.1 a ha)
      refine (mem_sent_step (h.safe.nodes _ hnode).nodeId hx).imp_right ?_
      rintro ⟨rfl, hrole⟩
      cases e with
      | timeout id =>
        cases ha
        have hfore : s.Foremost C c := hstands.resolve_left hrole
        rcases Nat.lt_or_ge (s.currentWalLsn c) (s.currentWalLsn v) with hlt | hle
        · exact .inl (.inr hlt)
        · exact .inr (hfore v hv hle)
      | _ => cases ha
  rcases hold with hold | hdone
  · rcases hchanged v hv with ⟨happlied, hsize, hterm⟩ | hunasked
    · refine (h.shielded v hv _ hold hne).imp (fun hrefuses => ?_) fun hbegin => ?_
      · exact hrefuses.imp (fun hlt => Nat.lt_of_lt_of_le hlt hterm)
          fun hlt => Nat.lt_of_lt_of_le hlt hsize
      · rw [happlied]
        exact hbegin.trans (hext.grows c)
    · -- who follows the log of the candidate has some of its records
      refine (hunasked _ hx hne).imp_right fun hsource => ?_
      obtain ⟨k, -, -, hrest⟩ := hext.matched.aligned c v hsource
      exact ⟨_, hrest.symm⟩
  · exact hdone

theorem Ready.covered_step : Covered (s.step e) := by
  have hext := h.extends hlogged hpossible hpledges
  intro v t c hmem hne hrole hterm
  cases ha : s.action e with
  | none =>
    -- who has voted for the candidate has applied nothing
    have hsys : (s.step e).sys = s.sys := by
      rw [step_of_none ha]
      exact sys_handleData s e
    rw [hsys] at hmem hrole hterm
    have hold := h.covered v t c hmem hne hrole hterm
    rcases hext.idle v with hsame | hfree
    · rw [hsame]
      exact hold.trans (hext.grows c)
    · exact absurd hterm (hfree (v, t, c) hmem rfl (Ne.symm hne) hrole)
  | some a =>
    have hsame : ∀ x, (s.step e).applied x = s.applied x := by
      rw [step_of_action ha]
      exact applied_of_action ha hpledges.2.2.2
    have hsys : (s.step e).sys = s.sys.step a := by
      rw [step_of_action ha]
    rw [hsys] at hmem hrole hterm
    rw [hsame v, hsame c]
    rcases candidate_step h.announced h.safe (hpossible.1 a ha) (hpledges.1 a ha) hmem hne hrole
      hterm with ⟨hold, hwas, hthen⟩ | ⟨myLsn, lsn, rfl, hgrant⟩
    · exact h.covered v t c hold hne hwas hthen
    · exact h.granted hpossible (granted_of_action ha hgrant)

theorem Ready.step (hodd : C.ids.length % 2 = 1) (hsize : C.ids.length + 1 < 2 ^ 32) :
    Ready C (s.step e) := by
  have hmatched := (h.extends hlogged hpossible hpledges).matched
  have hcovered := h.covered_step hlogged hpossible hpledges
  have hsys : Safe C (s.step e).sys ∧ Announced (s.step e).sys := by
    cases ha : s.action e with
    | none =>
      rw [step_of_none ha, sys_handleData]
      exact ⟨h.safe, h.announced⟩
    | some a =>
      rw [step_of_action ha]
      exact ⟨h.safe.step hodd hsize (hpossible.1 a ha) (hpledges.1 a ha),
        h.announced.step h.safe (hpossible.1 a ha)⟩
  exact ⟨hsys.1, hsys.2, hmatched, h.shielded_step hlogged hpossible hpledges, hcovered⟩

/-- Who is elected has the records of a majority. -/
theorem Ready.elected (hodd : C.ids.length % 2 = 1) (hsize : C.ids.length + 1 < 2 ^ 32)
    {b : Bytes} (hb : b ∈ C.ids) (helected : s.Elected e b) :
    ∃ V : Finset Bytes, V ⊆ C.ids.toFinset ∧ (C.ids.length + 1) / 2 ≤ V.card ∧
      ∀ v ∈ V, s.applied v <+: s.applied b := by
  obtain ⟨hnot, hlead, h2⟩ := helected
  have hnext := h.step hlogged hpossible hpledges hodd hsize
  rcases (hnext.safe.nodes b hb).leader hlead with ⟨_, -⟩ | ⟨-, V, hV, hcard⟩
  · omega
  refine ⟨V, fun v hv => ?_, hcard, fun v hv => ?_⟩
  · exact mem_toFinset.mpr (hnext.safe.votes.member v _ b (hV v hv)).1
  · by_cases hvb : v = b
    · rw [hvb]
    have hvote := hV v hv
    cases ha : s.action e with
    | none =>
      rw [step_of_none ha, sys_handleData] at hlead
      exact absurd hlead hnot
    | some a =>
      rw [step_of_action ha] at hlead h2 hvote
      obtain ⟨hold, hrole⟩ := elected_step h.announced h.safe (hpossible.1 a ha)
        (hpledges.1 a ha) hlead hnot h2 hvote hvb
      exact h.covered v _ b hold hvb hrole rfl

end

/-- A record is held by a majority at a place. -/
def Acknowledged (C : Cluster) (s : ReplicatedCluster) (k : Nat) (r : Bytes × WalBody) : Prop :=
  C.ids.length < 2 * (C.ids.filter fun i => (s.applied i)[k]? = some r).length

instance (C : Cluster) (s : ReplicatedCluster) (k : Nat) (r : Bytes × WalBody) :
    Decidable (s.Acknowledged C k r) :=
  inferInstanceAs (Decidable (_ < _))

/-- `a` logs two records, of which `b` applies both and `c` the first; then `a` removes its log,
and `c` votes for `b`. -/
def promotion : List ClusterEvent :=
  [.timeout nodeA, .deliver nodeB (.frame (.heartbeat 1 nodeA)),
    .deliver nodeC (.frame (.heartbeat 1 nodeA)), .log nodeA (Stream.deleteOf 1),
    .pull nodeC nodeA (2 ^ 20) none [], .pull nodeB nodeA (2 ^ 20) none [],
    .log nodeA (Stream.deleteOf 2), .pull nodeB nodeA (2 ^ 20) none [], .flushAll nodeA,
    .timeout nodeB, .deliver nodeC (.frame (.voteReq 2 nodeB 0))]

/-- `a` logs a record and `c` applies it.  The log of `c` has the size of the log of `b`, as
neither has one, so `c` votes for `b`, and the record of a majority is not with the leader. -/
def overtaking : List ClusterEvent :=
  [.timeout nodeA, .deliver nodeB (.frame (.heartbeat 1 nodeA)),
    .deliver nodeC (.frame (.heartbeat 1 nodeA)), .pull nodeC nodeA (2 ^ 20) none [],
    .log nodeA (Stream.deleteOf 1), .pull nodeC nodeA (2 ^ 20) none [], .timeout nodeB]

end ReplicatedCluster
end NyxDb.Replication
