import NyxDb.Replication.Stream

/-!
# What a follower receives

The runs are those that pull once per answer, cut batches between records and meet errors only at
the first record of a batch (`PullsWholeRecords`); and a follower whose offset is of a removed log
pulls only while the new log is shorter than this offset.  In such a run the follower has applied
the records of the leader from its start or its last snapshot on, each once and in order, and every
batch it parses starts with the record it needs next.

That alone would hold of a leader that never sends anything.  So two more properties of every state
say that records do move: `Serves` (a pull is answered with the bytes of the records that the
follower does not have) and `HandsOver` (a batch that is received without an error is applied, and
the offset moves behind it).

The proofs keep one invariant, `FollowsLog`, with one lemma per event; the two main theorems read
their parts off it.
-/

namespace NyxDb.Replication

open LogRecord List LeaderNode Run

/-! ## Bytes of a log -/

section Logs

variable {log log' : List LogRecord}

theorem logBody_append (log log' : List LogRecord) :
    logBody (log ++ log') = logBody log ++ logBody log' :=
  flatMap_append

theorem logBody_cons (r : LogRecord) (log : List LogRecord) :
    logBody (r :: log) = recordBytes r.payload ++ logBody log :=
  flatMap_cons

theorem logBody_singleton (r : LogRecord) : logBody [r] = recordBytes r.payload :=
  flatMap_singleton _ _

theorem length_logBytes (log : List LogRecord) :
    (logBytes log).length = walHeaderSize + (logBody log).length :=
  length_append

theorem length_logBytes_pos (log : List LogRecord) : 0 < (logBytes log).length := by
  rw [length_logBytes]
  exact Nat.add_pos_left (by decide) _

/-- The bytes of a log split where a record starts. -/
theorem drop_offsetOf (log : List LogRecord) (j : Nat) :
    (logBytes log).drop (offsetOf log j) = logBody (log.drop j) := by
  have hsplit : logBytes log = logBytes (log.take j) ++ logBody (log.drop j) := by
    conv_lhs => rw [← take_append_drop j log]
    rw [logBytes, logBody_append]
    rfl
  rw [offsetOf, hsplit, drop_left]

theorem offsetOf_append {j : Nat} (hj : j ≤ log.length) :
    offsetOf (log ++ log') j = offsetOf log j := by
  rw [offsetOf, offsetOf, take_append_of_le_length hj]

section

variable (log : List LogRecord)

theorem offsetOf_length : offsetOf log log.length = (logBytes log).length := by
  rw [offsetOf, take_length]

/-- The offset after some more records. -/
theorem offsetOf_add (j m : Nat) :
    offsetOf log (j + m) = offsetOf log j + (logBody ((log.drop j).take m)).length := by
  rw [offsetOf, offsetOf, length_logBytes, length_logBytes, take_add, logBody_append,
    length_append, Nat.add_assoc]

theorem offsetOf_mono {i j : Nat} (hij : i ≤ j) : offsetOf log i ≤ offsetOf log j := by
  obtain ⟨m, rfl⟩ := Nat.le.dest hij
  rw [offsetOf_add]
  exact Nat.le_add_right _ _

end

theorem size_pos (r : LogRecord) : 0 < r.size := by
  rw [size, recordBytes, length_append]
  exact Nat.lt_of_lt_of_le (by decide) (Nat.le_add_left 8 _)

theorem length_le_length_logBody (log : List LogRecord) : log.length ≤ (logBody log).length := by
  induction log with
  | nil => exact Nat.le_refl 0
  | cons r log ih =>
    have hr : 0 < (recordBytes r.payload).length := size_pos r
    rw [length_cons, logBody_cons, length_append]
    omega

variable (hvalid : ∀ r ∈ log, r.Valid)
include hvalid

/-- A log file of valid records is read as these records. -/
theorem exists_logHolds : ∃ recs, LogHolds (logBytes log) recs ∧
      recs.map (fun r => (r.tableName, r.body)) = log.map content := by
  induction log using reverseRecOn with
  | nil => exact ⟨[], LogHolds.empty, rfl⟩
  | append_singleton log r ih =>
    obtain ⟨recs, hholds, hmap⟩ := ih fun x hx => hvalid x (mem_append_left _ hx)
    have hr := hvalid r (mem_append_right _ mem_cons_self)
    refine ⟨recs ++ [⟨(logBytes log).length, r.name, r.body⟩], ?_, ?_⟩
    · have h := LogHolds.append hholds hr
      rwa [logBytes, append_assoc, ← logBody_singleton, ← logBody_append] at h
    · rw [map_append, map_append, hmap]
      rfl

theorem batchRecords_logBody : batchRecords (logBody log) = log.map content := by
  obtain ⟨recs, hholds, hmap⟩ := exists_logHolds hvalid
  have hread : readAll (walHeader ++ logBody log) = .ok recs := readAll_of_logHolds hholds
  unfold batchRecords
  rw [hread]
  exact hmap

theorem batchRecords_ne_nil (hdata : logBody log ≠ []) : batchRecords (logBody log) ≠ [] := by
  rw [batchRecords_logBody hvalid]
  intro hnil
  rw [map_eq_nil_iff.mp hnil] at hdata
  exact hdata rfl

/-- Whole records are used up. -/
theorem consumedFrom_logBody {fuel : Nat}
    (hfuel : log.length ≤ fuel) : consumedFrom fuel (logBody log) = (logBody log).length := by
  induction log generalizing fuel with
  | nil => cases fuel <;> rfl
  | cons r log ih =>
    obtain ⟨n, rfl⟩ : ∃ n, fuel = n + 1 := ⟨fuel - 1, by rw [length_cons] at hfuel; omega⟩
    have hread := reads_walRecord (hvalid r mem_cons_self) (logBody log)
    rw [logBody_cons, consumedFrom, hread]
    show (recordBytes r.payload ++ logBody log).length - (logBody log).length + _ = _
    rw [ih (fun x hx => hvalid x (mem_cons_of_mem _ hx)) (Nat.le_of_succ_le_succ hfuel),
      length_append, Nat.add_sub_cancel]

theorem bytesConsumed_logBody :
    bytesConsumed (walHeader ++ logBody log) = (logBody log).length := by
  apply consumedFrom_logBody hvalid
  have := length_le_length_logBody log
  rw [length_append]
  omega

end Logs

/-- The batch at an offset ends where a record ends. -/
def LeaderNode.EndsOnRecord (l : LeaderNode) (fromOffset maxBytes : Nat) : Prop :=
  ∃ j ≤ l.records.length, fromOffset + (l.getBatch fromOffset maxBytes).length =
    offsetOf l.records j

instance (l : LeaderNode) (fromOffset maxBytes : Nat) :
    Decidable (l.EndsOnRecord fromOffset maxBytes) := by
  dsimp only [LeaderNode.EndsOnRecord]
  infer_instance

/-! ## The runs -/

namespace Stream

/-- The number of records of the leader that the follower has. -/
def received (s : Stream) : Nat :=
  s.base + s.applied.length

/-- The writer logs what can be read back. -/
def Logged : StreamEvent → Prop
  | .log r => r.Valid
  | _ => True

/-- A pull is sent when no answer is on its way, for an offset that is of this log or beyond it, and
cuts the log between records; an error comes before anything of the batch is applied. -/
def PullsWholeRecords (s : Stream) : StreamEvent → Prop
  | .pull maxBytes => s.follower.inbox = [] ∧
      (s.epoch = s.removed ∨ s.leader.walSize = 0 ∨ s.leader.walSize < s.follower.confirmedLsn) ∧
      (s.leader.getBatch s.follower.confirmedLsn maxBytes = [] ∨
        s.leader.EndsOnRecord s.follower.confirmedLsn maxBytes)
  | .receive failAt => failAt = none ∨ failAt = some 0
  | _ => True

instance (s : Stream) : DecidablePred s.PullsWholeRecords := fun e => by
  cases e <;> dsimp only [PullsWholeRecords] <;> infer_instance

/-! ## The invariant -/

/-- The follower has applied the records from its start on. -/
def Exact (s : Stream) : Prop :=
  s.applied <+: (s.history.drop s.base).map content

/-- An answer on its way holds the records the follower needs next. -/
def AnswerOk (s : Stream) : Answer → Prop
  | .stale => True
  | .batch fromOffset data => data ≠ [] → fromOffset ≠ 0 ∧
      fromOffset = s.follower.confirmedLsn ∧
      ∃ m ≤ s.history.length - s.received, data = logBody ((s.history.drop s.received).take m)

/-- What every step keeps: the follower has some of the records of the leader and nothing else, its
offset is where the next one starts, and the answer on its way, if any, starts there too. -/
structure FollowsLog (s : Stream) : Prop where
  valid : ∀ r ∈ s.history, r.Valid
  suffix : s.leader.records <:+ s.history
  received : s.received ≤ s.history.length
  applied : s.applied = ((s.history.drop s.base).take s.applied.length).map content
  epoch : s.epoch ≤ s.removed
  /-- The offset is that of the next record, unless it is of a removed log. -/
  aligned : s.epoch = s.removed → s.follower.confirmedLsn = 0 ∨
    ∃ j ≤ s.leader.records.length, s.follower.confirmedLsn = offsetOf s.leader.records j ∧
      s.leader.records.drop j = s.history.drop s.received
  inbox : s.follower.inbox.length ≤ 1
  answers : ∀ a ∈ s.follower.inbox, s.AnswerOk a

variable {s : Stream} {l : LeaderNode} {j maxBytes : Nat}

theorem FollowsLog.exact (h : FollowsLog s) : s.Exact := by
  rw [Exact, h.applied]
  exact ( take_prefix _ _).map _

/-- Where the follower is in the log of the leader. -/
theorem FollowsLog.position (h : FollowsLog s) (hepoch : s.epoch = s.removed)
    (hne : s.follower.confirmedLsn ≠ 0) :
    ∃ j, s.follower.confirmedLsn = offsetOf s.leader.records j ∧
      s.leader.records.drop j = s.history.drop s.received ∧
      j + (s.history.length - s.received) = s.leader.records.length := by
  obtain ⟨j, _, hoff, hdrop⟩ := (h.aligned hepoch).resolve_left hne
  have hlen := congrArg length hdrop
  rw [length_drop, length_drop] at hlen
  exact ⟨j, hoff, hdrop, by omega⟩

theorem walSize_of_wal {log : List LogRecord} (h : l.wal = some log) :
    l.walSize = (logBytes log).length := by
  rw [walSize, h]

theorem records_of_wal {log : List LogRecord} (h : l.wal = some log) : l.records = log := by
  rw [records, h]
  rfl

/-! ## One step -/

/-- The records the follower needs next, after one more was logged. -/
theorem drop_take_append {history : List LogRecord} (r : LogRecord) {n m : Nat}
    (hn : n + m ≤ history.length) :
    ((history ++ [r]).drop n).take m = (history.drop n).take m := by
  rw [drop_append_of_le_length (by omega), take_append_of_le_length]
  rw [length_drop]
  omega

theorem FollowsLog.log (h : FollowsLog s) {r : LogRecord} (hr : r.Valid) :
    FollowsLog (s.step (.log r)) := by
  have hreceived := h.received
  refine { h with
    valid := ?_, suffix := ?_, received := ?_, applied := ?_, aligned := ?_, answers := ?_ }
  · exact forall_mem_concat h.valid hr
  · obtain ⟨pre, hpre⟩ := h.suffix
    exact ⟨pre, by
      show pre ++ (s.leader.records ++ [r]) = s.history ++ [r]
      rw [← append_assoc, hpre]⟩
  · show s.received ≤ (s.history ++ [r]).length
    rw [length_append]
    omega
  · show s.applied = (((s.history ++ [r]).drop s.base).take s.applied.length).map content
    rw [drop_take_append r h.received]
    exact h.applied
  -- The record is added behind the place of the follower.
  · intro hepoch
    rcases h.aligned hepoch with hzero | ⟨j, hj, hoff, hdrop⟩
    · exact .inl hzero
    · refine .inr ⟨j, ?_, ?_, ?_⟩
      · show j ≤ (s.leader.records ++ [r]).length
        rw [length_append]
        omega
      · show s.follower.confirmedLsn = offsetOf (s.leader.records ++ [r]) j
        rw [offsetOf_append hj]
        exact hoff
      · show (s.leader.records ++ [r]).drop j = (s.history ++ [r]).drop s.received
        rw [drop_append_of_le_length hj, drop_append_of_le_length hreceived, hdrop]
  · intro a ha
    have hok := h.answers a ha
    cases a with
    | stale => trivial
    | batch fromOffset data =>
      intro hdata
      obtain ⟨hne, hfrom, m, _, hbytes⟩ := hok hdata
      refine ⟨hne, hfrom, m, ?_, ?_⟩
      · show m ≤ (s.history ++ [r]).length - s.received
        rw [length_append]
        omega
      · show data = logBody (((s.history ++ [r]).drop s.received).take m)
        rw [drop_take_append r (by omega)]
        exact hbytes

/-- The leader keeps its log or removes it. -/
theorem FollowsLog.withLeader (h : FollowsLog s) (hl : l.wal = none ∨ l.wal = s.leader.wal) :
    FollowsLog (s.withLeader l) := by
  have hcount : (s.withLeader l).removed =
      if s.leader.wal.isSome ∧ l.wal.isNone then s.removed + 1 else s.removed := rfl
  rcases Decidable.em (l.wal = s.leader.wal) with heq | hne
  · have hrecords : l.records = s.leader.records := by
      rw [records, records, heq]
    have hsame : (s.withLeader l).removed = s.removed := by
      rw [hcount, heq, if_neg (by cases s.leader.wal <;> simp)]
    refine { h with suffix := ?_, epoch := ?_, aligned := ?_ }
    · show l.records <:+ s.history
      rw [hrecords]
      exact h.suffix
    · rw [hsame]
      exact h.epoch
    · rw [hsame]
      show s.epoch = s.removed → s.follower.confirmedLsn = 0 ∨ ∃ j ≤ l.records.length,
        s.follower.confirmedLsn = offsetOf l.records j ∧
          l.records.drop j = s.history.drop s.received
      rw [hrecords]
      exact h.aligned
  · -- a log that was removed leaves no record to be aligned with
    have hnone : l.wal = none := hl.resolve_right hne
    have hsome : s.leader.wal.isSome := Option.isSome_iff_ne_none.mpr fun hwas =>
      hne (hnone.trans hwas.symm)
    have hmore : s.epoch < (s.withLeader l).removed := by
      rw [hcount, hnone, if_pos ⟨hsome, rfl⟩]
      exact Nat.lt_succ_of_le h.epoch
    refine { h with suffix := ?_, epoch := Nat.le_of_lt hmore, aligned := ?_ }
    · show l.records <:+ s.history
      rw [records, hnone]
      exact nil_suffix
    · exact fun heq => absurd heq (Nat.ne_of_lt hmore)

theorem wal_checkpoint (l : LeaderNode) : l.checkpoint.wal = none ∨ l.checkpoint.wal = l.wal := by
  unfold checkpoint
  split_ifs
  · exact .inl rfl
  · exact .inr rfl

theorem FollowsLog.setInbox (h : FollowsLog s) :
    FollowsLog { s with follower := { s.follower with inbox := [] } } :=
  { h with inbox := Nat.zero_le 1, answers := nofun }

theorem resumeLsn_eq (l : LeaderNode) : l.resumeLsn = offsetOf l.records l.records.length := by
  rw [offsetOf_length]
  unfold LeaderNode.resumeLsn records
  cases hwal : l.wal with
  | none =>
    rw [walSize, hwal]
    rfl
  | some log =>
    rw [walSize, hwal]
    rfl

/-- A snapshot is as good as a start. -/
theorem FollowsLog.snapshotResync (h : FollowsLog s) (hinbox : s.follower.inbox = []) :
    FollowsLog s.snapshotResync := by
  refine { h.withLeader (wal_checkpoint s.leader) with
    received := Nat.le_refl _, applied := rfl, epoch := Nat.le_refl _, aligned := ?_, inbox := ?_,
    answers := ?_ }
  · intro _
    right
    have hall : s.history.drop (s.history.length + 0) = [] :=
      drop_of_length_le (Nat.le_refl _)
    show ∃ j ≤ s.leader.checkpoint.records.length,
      s.leader.checkpoint.resumeLsn = offsetOf s.leader.checkpoint.records j ∧
        s.leader.checkpoint.records.drop j = s.history.drop (s.history.length + 0)
    rw [hall]
    exact ⟨s.leader.checkpoint.records.length, Nat.le_refl _, resumeLsn_eq _, drop_length⟩
  · show s.follower.inbox.length ≤ 1
    rw [hinbox]
    exact Nat.zero_le 1
  · intro a ha
    change a ∈ s.follower.inbox at ha
    rw [hinbox] at ha
    cases ha

/-- The part of a log that is cut after whole records. -/
theorem take_logBody {log : List LogRecord}
    (hlen : ((logBody log).take maxBytes).length = (logBody (log.take j)).length) :
    (logBody log).take maxBytes = logBody (log.take j) := by
  have hsplit : logBody log = logBody (log.take j) ++ logBody (log.drop j) := by
    rw [← logBody_append, take_append_drop]
  have hcut : (logBody log).take maxBytes <+: logBody log := take_prefix _ _
  have hwhole : logBody (log.take j) <+: logBody log := ⟨_, hsplit.symm⟩
  exact (prefix_of_prefix_length_le hcut hwhole (Nat.le_of_eq hlen)).eq_of_length hlen

theorem exists_wal {fromOffset : Nat} (hdata : l.getBatch fromOffset maxBytes ≠ []) :
    ∃ log, l.wal = some log := by
  cases hwal : l.wal with
  | none =>
    rw [getBatch, hwal] at hdata
    exact absurd rfl hdata
  | some log => exact ⟨log, rfl⟩

/-- A batch that starts and ends with a record holds whole records. -/
theorem getBatch_whole {k : Nat} (hdata : l.getBatch (offsetOf l.records k) maxBytes ≠ [])
    (hends : ∃ j ≤ l.records.length, offsetOf l.records k +
      (l.getBatch (offsetOf l.records k) maxBytes).length = offsetOf l.records j) :
    ∃ m, k + m ≤ l.records.length ∧
      l.getBatch (offsetOf l.records k) maxBytes = logBody ((l.records.drop k).take m) := by
  obtain ⟨_, hwal⟩ := exists_wal hdata
  have hbatch : l.getBatch (offsetOf l.records k) maxBytes =
      (logBody (l.records.drop k)).take maxBytes := by
    rw [getBatch, hwal, records_of_wal hwal, ← drop_offsetOf]
  obtain ⟨j, hj, hend⟩ := hends
  have hle : k ≤ j := by
    by_contra hlt
    have hmono := offsetOf_mono l.records (Nat.le_of_lt (Nat.not_le.mp hlt))
    have hlen := length_pos_of_ne_nil hdata
    omega
  obtain ⟨m, rfl⟩ := Nat.le.dest hle
  refine ⟨m, hj, ?_⟩
  rw [hbatch]
  apply take_logBody
  rw [offsetOf_add, hbatch] at hend
  omega

theorem FollowsLog.pull (h : FollowsLog s) (hpulls : s.PullsWholeRecords (.pull maxBytes)) :
    FollowsLog (s.pull maxBytes) := by
  obtain ⟨hinbox, hcurrent, hends⟩ := hpulls
  have hanswer : s.AnswerOk (s.leader.servePull s.follower.confirmedLsn maxBytes) := by
    unfold servePull
    split_ifs with hstale
    · trivial
    intro hdata
    refine ⟨fun hzero => hstale (.inl hzero), rfl, ?_⟩
    obtain ⟨log, hwal⟩ := exists_wal hdata
    have hpos : 0 < s.leader.walSize := walSize_of_wal hwal ▸ length_logBytes_pos log
    -- the log is the one the offset is of
    have hepoch : s.epoch = s.removed := by
      rcases hcurrent with hepoch | _ | hshort
      · exact hepoch
      · omega
      · exact absurd (.inr ⟨hpos, hshort⟩) hstale
    obtain ⟨j, hoff, hdrop, _⟩ := h.position hepoch fun hzero => hstale (.inl hzero)
    have hend := hends.resolve_left hdata
    unfold LeaderNode.EndsOnRecord at hend
    rw [hoff] at hdata hend ⊢
    obtain ⟨m, _, hbytes⟩ := getBatch_whole hdata hend
    exact ⟨m, by omega, by rw [hbytes, hdrop]⟩
  refine { h with inbox := ?_, answers := ?_ }
  · show (s.follower.inbox ++ [_]).length ≤ 1
    rw [hinbox]
    exact Nat.le_refl 1
  · intro a ha
    change a ∈ s.follower.inbox ++ [_] at ha
    rw [hinbox] at ha
    rw [mem_singleton.mp ha]
    exact hanswer

/-- What a batch of whole records does to the follower. -/
theorem applyBatch_logBody {log : List LogRecord} (hvalid : ∀ r ∈ log, r.Valid) (f : FollowerNode)
    (fromOffset : Nat) :
    applyBatch f fromOffset (logBody log) none = (log.map content,
      { f with confirmedLsn := fromOffset + (logBody log).length }) := by
  unfold applyBatch
  rw [batchRecords_logBody hvalid, bytesConsumed_logBody hvalid]
  rfl

/-- An error at the first record leaves everything to the next try. -/
theorem applyBatch_fails {data : Bytes} (hrecords : batchRecords data ≠ []) (f : FollowerNode)
    (fromOffset : Nat) : applyBatch f fromOffset data (some 0) = ([], ⟨f.confirmedLsn, []⟩) := by
  have hpos := length_pos_of_ne_nil hrecords
  have hfilter : (some 0).filter (fun i => decide (i < (batchRecords data).length)) = some 0 :=
    Option.filter_some_pos (decide_eq_true hpos)
  unfold applyBatch
  dsimp only
  rw [hfilter]
  rfl

theorem FollowsLog.applied_append (h : FollowsLog s) (hne : s.follower.confirmedLsn ≠ 0) {m : Nat}
    (hm : m ≤ s.history.length - s.received) :
    FollowsLog { s with
      applied := s.applied ++ ((s.history.drop s.received).take m).map content
      follower := ⟨s.follower.confirmedLsn +
        (logBody ((s.history.drop s.received).take m)).length, []⟩ } := by
  have hlen : ((s.history.drop s.received).take m).length = m := by
    rw [length_take, length_drop, Nat.min_eq_left hm]
  have hcount : (s.applied ++ ((s.history.drop s.received).take m).map content).length =
      s.applied.length + m := by
    rw [length_append, length_map, hlen]
  have hreceived := h.received
  refine { h with
    received := ?_, applied := ?_, aligned := ?_, inbox := Nat.zero_le 1, answers := nofun }
  · show s.base + (s.applied ++ _).length ≤ s.history.length
    change s.base + s.applied.length ≤ _ at hreceived
    change m ≤ s.history.length - (s.base + s.applied.length) at hm
    omega
  · rw [hcount, take_add, map_append, ← h.applied, drop_drop]
    rfl
  · intro hepoch
    obtain ⟨j, hoff, hdrop, _⟩ := h.position hepoch hne
    refine .inr ⟨j + m, show j + m ≤ s.leader.records.length by omega, ?_, ?_⟩
    · rw [offsetOf_add, hdrop, hoff]
    · show s.leader.records.drop (j + m) = s.history.drop (s.base + (s.applied ++ _).length)
      rw [hcount, ← drop_drop, hdrop, drop_drop, Stream.received, Nat.add_assoc]

theorem FollowsLog.receive (h : FollowsLog s) {failAt : Option Nat}
    (hpulls : failAt = none ∨ failAt = some 0) :
    FollowsLog (s.receive failAt) := by
  have hone := h.inbox
  cases hinbox : s.follower.inbox with
  | nil =>
    unfold Stream.receive
    rwa [hinbox]
  | cons a inbox =>
    -- there is no second answer
    obtain rfl : inbox = [] := by
      rw [hinbox, length_cons] at hone
      exact length_eq_zero_iff.mp (by omega)
    have hok := h.answers a (by rw [hinbox]; exact mem_cons_self)
    cases a with
    | stale =>
      unfold Stream.receive
      rw [hinbox]
      exact h.setInbox.snapshotResync rfl
    | batch fromOffset data =>
      unfold Stream.receive
      rw [hinbox]
      dsimp only
      by_cases hdata : data = []
      · rw [if_pos hdata]
        exact h.setInbox
      rw [if_neg hdata]
      obtain ⟨hne, rfl, m, hm, rfl⟩ := hok hdata
      have hvalid : ∀ r ∈ (s.history.drop s.received).take m, r.Valid := fun r hr =>
        h.valid r (mem_of_mem_drop (mem_of_mem_take hr))
      rcases hpulls with rfl | rfl
      · rw [applyBatch_logBody hvalid]
        exact h.applied_append hne hm
      · rw [applyBatch_fails (batchRecords_ne_nil hvalid hdata), append_nil]
        exact h.setInbox

theorem FollowsLog.step (h : FollowsLog s) {e : StreamEvent} (hlogged : Logged e)
    (hpulls : s.PullsWholeRecords e) :
    FollowsLog (s.step e) := by
  cases e with
  | log r => exact h.log hlogged
  | flushAll => exact h.withLeader (wal_checkpoint s.leader)
  | ack nodeId confirmedLsn => exact { h with }
  | pull maxBytes => exact h.pull hpulls
  | receive failAt => exact h.receive hpulls
  | reconnect => exact h.setInbox

/-! ## Progress -/

/-- A pull is answered with the bytes of the records that the follower does not have, as many as it
asks for. -/
def Serves (s : Stream) : Prop :=
  ∀ maxBytes, s.leader.servePull s.follower.confirmedLsn maxBytes =
    .batch s.follower.confirmedLsn ((logBody (s.history.drop s.received)).take maxBytes)

/-- A batch on its way holds at least one record; received without an error its records, and only
these, are applied, and the offset moves behind them. -/
def HandsOver (s : Stream) : Prop :=
  ∀ fromOffset data, s.follower.inbox = [.batch fromOffset data] → data ≠ [] →
    ∃ m, 0 < m ∧ s.received + m ≤ s.history.length ∧
      data = logBody ((s.history.drop s.received).take m) ∧
      (s.receive none).applied =
        s.applied ++ ((s.history.drop s.received).take m).map content ∧
      (s.receive none).follower = ⟨s.follower.confirmedLsn + data.length, []⟩

/-- A follower whose offset is of the log of the leader is within it. -/
theorem FollowsLog.serves (h : FollowsLog s) (hcurrent : s.epoch = s.removed)
    (hne : s.follower.confirmedLsn ≠ 0) : s.Serves := by
  intro maxBytes
  obtain ⟨j, hoff, hdrop, hlen⟩ := h.position hcurrent hne
  have hbatch : s.leader.getBatch s.follower.confirmedLsn maxBytes =
      (logBody (s.history.drop s.received)).take maxBytes := by
    rw [getBatch, ← hdrop]
    cases hwal : s.leader.wal with
    | none => simp [records, hwal, logBody]
    | some log =>
      dsimp only
      rw [hoff, records_of_wal hwal, drop_offsetOf]
  rw [servePull, if_neg, hbatch]
  rintro (hzero | ⟨hpos, hbeyond⟩)
  · exact hne hzero
  cases hwal : s.leader.wal with
  | none =>
    rw [walSize, hwal] at hpos
    cases hpos
  | some log =>
    have hle := offsetOf_mono s.leader.records (show j ≤ s.leader.records.length by omega)
    rw [← hoff, offsetOf_length, records_of_wal hwal] at hle
    rw [walSize_of_wal hwal] at hbeyond
    omega

theorem FollowsLog.handsOver (h : FollowsLog s) : s.HandsOver := by
  intro fromOffset data hinbox hdata
  have hok := h.answers (.batch fromOffset data) (by rw [hinbox]; exact mem_cons_self)
  obtain ⟨-, rfl, m, hm, rfl⟩ := hok hdata
  have hvalid : ∀ r ∈ (s.history.drop s.received).take m, r.Valid := fun r hr =>
    h.valid r (mem_of_mem_drop (mem_of_mem_take hr))
  have hreceived := h.received
  have hpos : 0 < m := by
    rcases Nat.eq_zero_or_pos m with rfl | hpos
    · exact absurd rfl hdata
    · exact hpos
  refine ⟨m, hpos, by omega, rfl, ?_, ?_⟩
  all_goals
    unfold Stream.receive
    rw [hinbox]
    dsimp only
    rw [if_neg hdata, applyBatch_logBody hvalid]

/-! ## Runs without a checkpoint -/

/-- A follower that starts at record `j` of a log that was never removed. -/
def startOn (leader : LeaderNode) (j : Nat) : Stream :=
  ⟨leader, ⟨offsetOf leader.records j, []⟩, leader.records, 0, 0, j, []⟩

theorem startOn_followsLog {leader : LeaderNode} (hj : j ≤ leader.records.length)
    (hvalid : ∀ r ∈ leader.records, r.Valid) : FollowsLog (startOn leader j) :=
  ⟨hvalid, suffix_refl _, hj, rfl, Nat.le_refl _, fun _ => .inr ⟨j, hj, rfl, rfl⟩,
    Nat.zero_le 1, nofun⟩

/-- The whole history is still in the log, and the follower was never told to resync. -/
structure Kept (j : Nat) (s : Stream) : Prop where
  follows : FollowsLog s
  whole : s.history = s.leader.records
  current : s.epoch = s.removed
  base : s.base = j
  served : s.follower.confirmedLsn ≠ 0
  fresh : .stale ∉ s.follower.inbox

theorem Kept.offset (h : Kept j s) :
    s.follower.confirmedLsn = offsetOf s.leader.records s.received := by
  obtain ⟨i, hoff, -, hlen⟩ := h.follows.position h.current h.served
  have hreceived := h.follows.received
  rw [h.whole] at hreceived hlen
  rw [hoff, show i = s.received by omega]

theorem Kept.serves (h : Kept j s) : s.Serves :=
  h.follows.serves h.current h.served

theorem Kept.step (h : Kept j s) {e : StreamEvent} (hlogged : Logged e)
    (hpulls : s.PullsWholeRecords e)
    (hne : e ≠ .flushAll) : Kept j (s.step e) := by
  have hfollows := h.follows.step hlogged hpulls
  cases e with
  | log r =>
    refine { h with follows := hfollows, whole := ?_ }
    show s.history ++ [r] = s.leader.records ++ [r]
    rw [h.whole]
  | flushAll => exact absurd rfl hne
  | ack nodeId confirmedLsn => exact { h with follows := hfollows }
  | pull maxBytes =>
    refine { h with follows := hfollows, fresh := fun hmem => ?_ }
    rcases mem_append.mp hmem with hmem | hmem
    · exact h.fresh hmem
    · have hanswer := mem_singleton.mp hmem
      rw [h.serves maxBytes] at hanswer
      cases hanswer
  | reconnect => exact { h with follows := hfollows, fresh := not_mem_nil }
  | receive failAt =>
    show Kept j (s.receive failAt)
    change FollowsLog (s.receive failAt) at hfollows
    have hfresh := h.fresh
    unfold Stream.receive at hfollows ⊢
    cases hinbox : s.follower.inbox with
    | nil => exact h
    | cons a inbox =>
      rw [hinbox] at hfollows hfresh
      cases a with
      -- No answer on its way says that the offset is stale.
      | stale => exact absurd mem_cons_self hfresh
      | batch fromOffset data =>
        have hrest : Answer.stale ∉ inbox := fun hmem =>
          hfresh (mem_cons_of_mem _ hmem)
        dsimp only at hfollows ⊢
        by_cases hdata : data = []
        · rw [if_pos hdata] at hfollows ⊢
          exact { h with follows := hfollows, fresh := hrest }
        · have hok := h.follows.answers (.batch fromOffset data)
            (by rw [hinbox]; exact mem_cons_self)
          obtain ⟨hzero, -⟩ := hok hdata
          rw [if_neg hdata] at hfollows ⊢
          refine { h with follows := hfollows, served := ?_, fresh := ?_ }
          · unfold applyBatch
            dsimp only
            split
            · exact h.served
            · intro hsum
              exact hzero (Nat.eq_zero_of_add_eq_zero hsum).1
          · unfold applyBatch
            dsimp only
            split
            · exact not_mem_nil
            · exact hrest

/-- A `DELETE` of one row of the table `t`. -/
def deleteOf (row : Nat) : LogRecord :=
  ⟨deletePayload (ascii "t") [row], ascii "t", .delete [row]⟩

theorem deleteOf_valid {row : Nat} (hrow : row < 2 ^ 64) : (deleteOf row).Valid := by
  refine encodes_delete (by decide) (show 1 < 2 ^ 64 by decide) fun i hi => ?_
  rwa [mem_singleton.mp hi]

/-- A leader without a log. -/
def newLeader : LeaderNode := ⟨none, [], 4 * 2 ^ 30⟩

/-- Two records, streamed one by one; the first try of the second fails. -/
def steadyRun : List StreamEvent :=
  [.log (deleteOf 1), .pull (2 ^ 20), .receive none, .log (deleteOf 2), .pull (2 ^ 20),
    .receive (some 0), .pull (2 ^ 20), .receive none]

/-- A follower that has what its offset says, or that is new and will be told to resync. -/
structure Started (s : Stream) : Prop where
  valid : ∀ r ∈ s.history, r.Valid
  suffix : s.leader.records <:+ s.history
  base : s.base ≤ s.history.length
  applied : s.applied = []
  inbox : s.follower.inbox = []
  current : s.epoch = s.removed
  aligned : s.follower.confirmedLsn = 0 ∨ ∃ j ≤ s.leader.records.length,
    s.follower.confirmedLsn = offsetOf s.leader.records j ∧
      s.leader.records.drop j = s.history.drop s.base

theorem Started.followsLog (h : Started s) : FollowsLog s := by
  have hreceived : s.received = s.base := by
    rw [received, h.applied]
    rfl
  constructor
  · exact h.valid
  · exact h.suffix
  · rw [hreceived]
    exact h.base
  · rw [h.applied]
    rfl
  · exact Nat.le_of_eq h.current
  · rw [hreceived]
    exact fun _ => h.aligned
  · rw [h.inbox]
    exact Nat.zero_le 1
  · rw [h.inbox]
    exact nofun

/-- Every batch that will be parsed starts with the record the follower needs next. -/
def ParsesRecords (s : Stream) : Prop :=
  ∀ fromOffset data, .batch fromOffset data ∈ s.follower.inbox → data ≠ [] →
    data <+: logBody (s.history.drop s.received)

/-- A follower that has confirmed the end of the log has all records. -/
def Complete (s : Stream) : Prop :=
  s.epoch = s.removed → s.follower.confirmedLsn ≠ 0 →
    s.follower.confirmedLsn = s.leader.walSize → s.received = s.history.length

theorem FollowsLog.parsesRecords (h : FollowsLog s) : s.ParsesRecords := by
  intro fromOffset data hmem hdata
  have hok := h.answers _ hmem
  obtain ⟨-, -, m, -, rfl⟩ := hok hdata
  refine ⟨logBody ((s.history.drop s.received).drop m), ?_⟩
  rw [← logBody_append, take_append_drop]

theorem FollowsLog.complete (h : FollowsLog s) : s.Complete := by
  intro hcurrent hne hend
  obtain ⟨j, _, -, _⟩ := h.position hcurrent hne
  cases hwal : s.leader.wal with
  | none =>
    rw [walSize, hwal] at hend
    exact absurd hend hne
  | some log =>
    -- no byte of the log is left, so no record is
    rw [walSize_of_wal hwal, ← records_of_wal hwal] at hend
    have hsum := offsetOf_add s.leader.records j (s.leader.records.length - j)
    rw [Nat.add_sub_of_le (by omega), offsetOf_length, ← length_drop, take_length] at hsum
    have hle := length_le_length_logBody (s.leader.records.drop j)
    have hreceived := h.received
    rw [length_drop] at hle
    omega

/-- A new follower of a leader that has logged nothing. -/
def newFollower : Stream :=
  ⟨newLeader, ⟨0, []⟩, [], 0, 0, 0, []⟩

/-- A checkpoint after everything was confirmed, and a pull while the new log is short. -/
def resyncRun : List StreamEvent :=
  [.pull (2 ^ 20), .receive none, .log (deleteOf 1), .log (deleteOf 2), .pull (2 ^ 20),
    .receive none, .ack (ascii "b") 62, .flushAll, .log (deleteOf 3), .pull (2 ^ 20),
    .receive none, .log (deleteOf 4), .pull (2 ^ 20), .receive none]

end Stream

end NyxDb.Replication
