import NyxDb.Maintenance.Rewrite

/-!
# Crashes during a seal, a merge or a vacuum

The crash points of an operation are the directories it leaves behind after each of its file
operations.  `CrashAtomic` says that each of them opens as a table with the rows from before the
operation, and that later seals and merges keep these rows.

A vacuum has this property whenever it can read its bitmaps, since the manifest decides which
segments count.  A merge has it unless the directory it was going to use keeps bits that a later
seal, which takes the same id again, would find next to the rows of the write buffer.  A seal of
rows does not have it: it moves the column files of the write buffer away one by one, and between
the first of these moves and the manifest the table has no complete set of columns.

* `Intact` is the invariant: it holds the rows, survives opening (`Intact.reopened`), seals
  (`Intact.seal`) and merges (`Intact.merge`).
* `crashAtomic_iff` is the result.
-/

namespace NyxDb.Table

open List Proc Bitmap Ledger

variable {t : Table} {segs : List (List Row)} {wb : List Row} {dur : Nat} {rows : List Row}

/-! ## Maintenance -/

/-- The operations that reorganise the files of a table. -/
inductive Maintenance where
  | sealBuffer
  | merge (threshold : Nat)
  | vacuum
  deriving DecidableEq, Repr

namespace Maintenance

def op : Maintenance → Op Table Unit
  | .sealBuffer => flushWriteBuffer
  | .merge threshold => mergeSegments threshold
  | .vacuum => do
      let _ ← vacuumTable
      pure ()

/-- The table after the operation, whether it succeeds or not. -/
def after (t : Table) (m : Maintenance) : Table :=
  (exec m.op t).2

/-- The directories that a crash can leave. -/
def crashDirs (m : Maintenance) (t : Table) : List TableDir :=
  t.dir :: (trace m.op t).map dir

/-- A seal, or a merge of at least one segment. -/
def SealOrMerge : Maintenance → Prop
  | .sealBuffer => True
  | .merge threshold => 2 ≤ threshold
  | .vacuum => False

/-- Wherever the operation is interrupted, the table opens with the rows it had before, and every
further seal or merge keeps them; and the operation reads nothing past its end. -/
def CrashAtomic (m : Maintenance) (t : Table) : Prop :=
  (exec m.op t).1 ≠ .error .outOfBounds ∧ ∀ d ∈ m.crashDirs t, ∃ t', openDir d = .ok t' ∧
      ∀ ms : List Maintenance, (∀ m' ∈ ms, m'.SealOrMerge) →
        ∀ t'' ∈ Run.states after t' ms, t''.exposed = t.exposed

end Maintenance

/-! ## The invariant -/

/-- No directory that a seal may find has bits for the rows of the write buffer.  A seal takes
such bits for its own if the write buffer has no `deleted.bin`; the id of a directory can come
again only if it is above those of the segments. -/
def NoStaleBits (t : Table) : Prop :=
  t.deletedFile.isSome ∨ ∀ x ∈ t.unusedSegments, (∀ s ∈ t.segments, s.info.id < x.1) →
    ∀ l < t.wbRowCount, test (x.2.deleted.getD []) l = false

instance (t : Table) : Decidable (NoStaleBits t) :=
  inferInstanceAs (Decidable (_ ∨ _))

/-- The files of the table have the rows. -/
structure FilesHave (t : Table) (segs : List (List Row)) (wb rows : List Row) : Prop where
  holds : Holds t segs wb wb.length
  dirs : Dirs t
  values : (ledger t segs wb).values = rows

/-- The same, and nothing is in the way of a seal. -/
structure IntactWith (t : Table) (segs : List (List Row)) (wb rows : List Row) : Prop
    extends FilesHave t segs wb rows where
  stale : NoStaleBits t

def Intact (rows : List Row) (t : Table) : Prop :=
  ∃ segs wb, IntactWith t segs wb rows

theorem FilesHave.exposed (h : FilesHave t segs wb rows) : t.exposed = .ok rows := by
  rw [h.holds.exposed, h.values]

theorem Intact.exposed (h : Intact rows t) : t.exposed = .ok rows := by
  obtain ⟨_, _, h⟩ := h
  exact h.toFilesHave.exposed

theorem FilesHave.reopened (h : FilesHave t segs wb rows) :
    ∃ t', openDir t.dir = .ok t' ∧ Found t segs wb wb.length t' ∧ FilesHave t' segs wb rows := by
  obtain ⟨t', hopen, hf⟩ := h.holds.onFiles.openDir_found h.dirs
  have hbits : SameBits t t' := sameBits_of_bitmaps (hf.bits.trans h.holds.fileBitmaps)
  refine ⟨t', hopen, hf, hf.holds h.holds.onFiles (Nat.le_refl _), hf.dirs, ?_⟩
  rw [ledger_congr hbits, h.values]

/-- **An intact table opens** as an intact table with the same rows. -/
theorem Intact.reopened (h : Intact rows t) : ∃ t', openDir t.dir = .ok t' ∧ Intact rows t' := by
  obtain ⟨segs, wb, h⟩ := h
  obtain ⟨t', hopen, hf, hfiles⟩ := h.toFilesHave.reopened
  refine ⟨t', hopen, segs, wb, hfiles, ?_⟩
  rcases h.stale with hsome | hclear
  · left
    rw [hf.deleted]
    exact hsome
  · right
    intro x hx habove l hl
    rw [hf.unused] at hx
    rw [hfiles.holds.wbRowCount, ← h.holds.wbRowCount] at hl
    refine hclear x hx (fun s hs => ?_) l hl
    -- the segments have their ids again
    have hmem : s.info ∈ t'.segments.map Segment.info := by
      rw [hf.infos]
      exact mem_map_of_mem hs
    obtain ⟨s', hs', heq⟩ := mem_map.mp hmem
    rw [← heq]
    exact habove s' hs'

/-- Other directories that no segment uses, with ids that do not come again. -/
theorem Intact.withUnused (h : Intact rows t) {unused : List (Nat × SegmentDir)}
    (hunused : ∀ x ∈ unused, x ∈ t.unusedSegments ∨
      (∀ s ∈ t.segments, x.1 ≠ s.info.id) ∧ ∃ s ∈ t.segments, x.1 < s.info.id) :
    Intact rows { t with unusedSegments := unused } := by
  obtain ⟨segs, wb, h⟩ := h
  refine ⟨segs, wb, ⟨{ h.holds with }, { h.dirs with apart := ?_ }, h.values⟩, ?_⟩
  · intro x hx s hs
    rcases hunused x hx with hx | ⟨hne, -⟩
    · exact h.dirs.apart x hx s hs
    · exact hne s hs
  · rcases h.stale with hsome | hclear
    · exact Or.inl hsome
    · right
      intro x hx habove l hl
      rcases hunused x hx with hx | ⟨-, s, hs, _⟩
      · exact hclear x hx habove l hl
      · exact absurd (habove s hs) (by omega)

theorem FilesHave.skipId (h : FilesHave t segs wb rows) :
    FilesHave { t with nextSegmentId := t.nextSegmentId + 1 } segs wb rows where
  holds := { h.holds with }
  dirs := { h.dirs with fresh := fun s hs => Nat.lt_succ_of_lt (h.dirs.fresh s hs) }
  values := h.values

/-! ## Seals -/

variable {id base count n k : Nat} {sd : SegmentDir} {new : List Row} {seg : Segment} {t' : Table}

/-- The bits that the new segment of a seal gets are those of the write buffer. -/
theorem IntactWith.test_sealedDir (h : IntactWith t segs wb rows) {l : Nat} (hl : l < wb.length) :
    test (t.sealedDir.deleted.getD []) l = test t.wbDeleted l := by
  have hfile := h.holds.file
  show test ((t.deletedFile.or
    ((t.unusedSegments.lookup t.nextSegmentId).bind SegmentDir.deleted)).getD []) l = _
  cases hdel : t.deletedFile with
  | some bm =>
    rw [hdel] at hfile
    rw [Option.some_or, hfile]
  | none =>
    rw [hdel] at hfile
    rw [← hfile, Option.getD_none, test_nil]
    cases hlook : t.unusedSegments.lookup t.nextSegmentId with
    | none => exact test_nil l
    | some sd =>
      rcases h.stale with hsome | hclear
      · rw [hdel] at hsome
        cases hsome
      · refine hclear _ (mem_of_lookup hlook) h.dirs.fresh l ?_
        rwa [h.holds.wbRowCount]

/-- **A seal** of an intact table. -/
theorem Intact.seal (h : Intact rows t) : Intact rows (Maintenance.after t .sealBuffer) := by
  obtain ⟨segs, wb, hw⟩ := h
  by_cases hne : wb = []
  · subst hne
    have hrun : Maintenance.after t .sealBuffer = t := congrArg Prod.snd hw.holds.exec_seal_nil
    rw [hrun]
    exact ⟨segs, [], hw⟩
  · obtain ⟨cols, seg, cols', hexec, hinfo, hbits, -, hheld⟩ := hw.holds.exec_seal hne
    have hrun : Maintenance.after t .sealBuffer = (t.withColumns cols).sealed seg cols' :=
      congrArg Prod.snd hexec
    rw [hrun]
    refine ⟨segs ++ [wb], [], ⟨hheld, ?_, ?_⟩, ?_⟩
    · have hdirs : Dirs (t.withColumns cols) := { hw.dirs with }
      exact hdirs.sealed (congrArg SegmentMeta.id hinfo)
    · have hflags : flagged (fun l => test seg.deleted l) 0 wb =
          flagged (fun l => test t.wbDeleted l) 0 wb := by
        apply flagged_congr
        intro l _ hl
        rw [hbits]
        exact hw.test_sealedDir (by omega)
      rw [hw.holds.ledger_sealed, hflags, ← hw.holds.ledger_buffer, hw.values]
    · -- there are no rows in the new write buffer
      right
      intro x _ _ l hl
      rw [hheld.wbRowCount] at hl
      cases hl

/-! ## Replacements -/

/-- A table with a new segment in place of the first ones. -/
theorem FilesHave.replacedBy (h : FilesHave t segs wb rows)
    (hr : Rewrites t segs n sd ⟨t.nextSegmentId, base, count⟩ seg new) :
    FilesHave (t.replacedBy n seg) (new :: segs.drop n) wb rows where
  holds := h.holds.replacedBy hr.holds hr.conforms n
  dirs := h.dirs.replacedBy (congrArg SegmentMeta.id hr.info_eq) n
  values := by rw [hr.values_replacedBy h.holds, h.values]

theorem IntactWith.replacedBy (h : IntactWith t segs wb rows)
    (hr : Rewrites t segs n sd ⟨t.nextSegmentId, base, count⟩ seg new) :
    IntactWith (t.replacedBy n seg) (new :: segs.drop n) wb rows := by
  refine ⟨h.toFilesHave.replacedBy hr, h.stale.imp_right fun hclear => ?_⟩
  intro x hx habove l hl
  refine hclear x (mem_of_mem_filter (mem_of_mem_filter hx)) (fun s hs => ?_) l hl
  -- the new segment has the highest id
  have hnew : seg.info.id < x.1 := habove seg mem_cons_self
  have hold := h.dirs.fresh s hs
  rw [hr.info_eq] at hnew
  exact Nat.lt_trans hold hnew

theorem IntactWith.replaced (h : IntactWith t segs wb rows)
    (hr : Rewrites t segs n sd ⟨t.nextSegmentId, base, count⟩ seg new) :
    Intact rows (exec (swapSegments n sd base count) t).2 := by
  rw [exec_swapSegments]
  split
  · exact ⟨segs, wb, h.toFilesHave.skipId, h.stale⟩
  · rw [hr.opens]
    exact ⟨_, wb, h.replacedBy hr⟩

theorem mergeSegments_few (hk : t.segments.length < k) :
    mergeSegments k t = (pure () : Op Table Unit) t := by
  show (if t.segments.length < k then pure () else _ : Op Table Unit) t = _
  rw [if_pos hk]

/-- **A merge** of an intact table. -/
theorem Intact.merge (h : Intact rows t) (hk : 2 ≤ k) :
    Intact rows (Maintenance.after t (.merge k)) := by
  obtain ⟨segs, wb, hw⟩ := h
  show Intact rows (Table.mergeSegments k t).state
  by_cases hlen : t.segments.length < k
  · rw [mergeSegments_few hlen]
    exact ⟨segs, wb, hw⟩
  · obtain ⟨_, _, _, _, _, hrun, hr, -⟩ := hw.holds.mergeSegments hk (by omega)
    rw [hrun]
    exact hw.replaced hr

/-- **Seals and merges** keep an intact table intact. -/
theorem Intact.run (h : Intact rows t) {ms : List Maintenance} (hms : ∀ m ∈ ms, m.SealOrMerge) :
    ∀ t' ∈ Run.states Maintenance.after t ms, Intact rows t' := by
  have halong : Run.Along Maintenance.after (fun _ m => m.SealOrMerge) t ms :=
    Run.along_of_forall hms
  refine halong.invariant (I := Intact rows) (fun t m h hm => ?_) h
  cases m with
  | sealBuffer => exact h.seal
  | merge k => exact h.merge hm
  | vacuum => exact hm.elim

/-! ## The crash points of a replacement -/

/-- While old directories are removed, only these and their remains change. -/
theorem mem_trace_removeSegmentDirs {ss : List Segment}
    (h : t' ∈ trace (forEach ss removeSegmentDir) t) :
    ∃ unused, t' = { t with unusedSegments := unused } ∧
      ∀ x ∈ unused, x ∈ t.unusedSegments ∨ ∃ s ∈ ss, x.1 = s.info.id := by
  induction ss generalizing t with
  | nil => cases h
  | cons s ss ih =>
    rcases mem_trace_bind.mp h with hfirst | ⟨_, t₁, hexec, hrest⟩
    · rcases mem_trace_bind.mp hfirst with hsteps | ⟨_, t₁, hexec, hlast⟩
      · -- some files of the directory are gone
        obtain ⟨-, -, rfl⟩ := mem_map.mp hsteps
        refine ⟨_, rfl, fun x hx => ?_⟩
        rcases mem_cons.mp hx with rfl | hx
        · exact Or.inr ⟨s, mem_cons_self, rfl⟩
        · exact Or.inl (mem_of_mem_filter hx)
      · cases hexec
        cases mem_singleton.mp hlast
        exact ⟨_, rfl, fun x hx => Or.inl (mem_of_mem_filter hx)⟩
    · cases hexec
      obtain ⟨unused, rfl, hunused⟩ := ih hrest
      refine ⟨unused, rfl, fun x hx => ?_⟩
      rcases hunused x hx with hx | ⟨s', hs', heq⟩
      · exact Or.inl (mem_of_mem_filter hx)
      · exact Or.inr ⟨s', mem_cons_of_mem _ hs', heq⟩

section

variable (hopen : Segment.openDir sd t.schema ⟨t.nextSegmentId, base, count⟩ = .ok seg)
include hopen

/-- A replacement has two crash points. -/
theorem trace_replaceSegments :
    trace (replaceSegments n sd base count) t = if t.nextIdTaken then [] else
      [putUnused t.nextSegmentId sd { t with nextSegmentId := t.nextSegmentId + 1 },
        t.withReplaced n seg] := by
  show [] ++ ([] ++ trace (if t.nextIdTaken then _ else _ : Op Table Unit) _) = _
  split
  · rfl
  · rw [hopen]
    rfl

/-- The crash points of a replacement: the new directory is there and not used, or the manifest
has been written and old directories may be left. -/
theorem mem_trace_swapSegments (h : t' ∈ trace (swapSegments n sd base count) t) :
    t' = putUnused t.nextSegmentId sd { t with nextSegmentId := t.nextSegmentId + 1 } ∨
    ∃ unused, t' = { t.replacedBy n seg with unusedSegments := unused } ∧
      ∀ x ∈ unused, x ∈ t.unusedSegments ∧ x.1 ≠ t.nextSegmentId ∨
        ∃ s ∈ t.segments.take n, x.1 = s.info.id := by
  have hleft : ∀ x ∈ (t.withReplaced n seg).unusedSegments,
      x ∈ t.unusedSegments ∧ x.1 ≠ t.nextSegmentId ∨ ∃ s ∈ t.segments.take n, x.1 = s.info.id := by
    intro x hx
    rcases mem_append.mp hx with hx | hx
    · obtain ⟨s, hs, rfl⟩ := mem_map.mp hx
      exact Or.inr ⟨s, hs, rfl⟩
    · obtain ⟨hx, hne⟩ := mem_filter.mp hx
      exact Or.inl ⟨hx, by simpa using hne⟩
  change t' ∈ [] ++ trace (replaceSegments n sd base count >>= _) t at h
  rw [nil_append, mem_trace_bind, trace_replaceSegments hopen, exec_replaceSegments, hopen] at h
  split at h
  · rcases h with h | ⟨_, _, hexec, -⟩
    · cases h
    · cases hexec
  rcases h with h | ⟨_, _, hexec, h⟩
  · rcases mem_cons.mp h with rfl | h
    · exact Or.inl rfl
    · cases mem_singleton.mp h
      exact Or.inr ⟨_, rfl, hleft⟩
  · -- the manifest has been written
    cases hexec
    obtain ⟨unused, rfl, hunused⟩ := mem_trace_removeSegmentDirs h
    refine Or.inr ⟨unused, rfl, fun x hx => ?_⟩
    rcases hunused x hx with hx | hold
    · exact hleft x hx
    · exact Or.inr hold

end

/-- The new directory is there, but no segment uses it yet. -/
theorem FilesHave.renamed (h : FilesHave t segs wb rows) (sd : SegmentDir) :
    FilesHave (putUnused t.nextSegmentId sd { t with nextSegmentId := t.nextSegmentId + 1 }) segs wb
      rows := by
  have hskip := h.skipId
  refine ⟨{ hskip.holds with }, { hskip.dirs with apart := ?_ }, h.values⟩
  intro x hx s hs
  rcases mem_cons.mp hx with rfl | hx
  · exact Nat.ne_of_gt (h.dirs.fresh s hs)
  · exact h.dirs.apart x (mem_of_mem_filter hx) s hs

theorem IntactWith.renamed (h : IntactWith t segs wb rows) (hbits : t.deletedFile.isSome ∨
      ∀ l < t.wbRowCount, test (sd.deleted.getD []) l = false) :
    Intact rows (putUnused t.nextSegmentId sd { t with nextSegmentId := t.nextSegmentId + 1 }) := by
  refine ⟨segs, wb, h.toFilesHave.renamed sd, ?_⟩
  rcases hbits with hsome | hnew
  · exact Or.inl hsome
  · refine h.stale.imp_right fun hclear x hx habove l hl => ?_
    rcases mem_cons.mp hx with rfl | hx
    · exact hnew l hl
    · exact hclear x (mem_of_mem_filter hx) habove l hl

/-- **Every crash point of a replacement is intact** if the bits of the new segment do not fall on
rows of the write buffer. -/
theorem IntactWith.crash (h : IntactWith t segs wb rows)
    (hr : Rewrites t segs n sd ⟨t.nextSegmentId, base, count⟩ seg new)
    (hbits : t.deletedFile.isSome ∨ ∀ l < t.wbRowCount, test (sd.deleted.getD []) l = false)
    (ht' : t' ∈ trace (swapSegments n sd base count) t) : Intact rows t' := by
  rcases mem_trace_swapSegments hr.opens ht' with rfl | ⟨_, rfl, hunused⟩
  · exact h.renamed hbits
  · apply Intact.withUnused ⟨_, wb, h.replacedBy hr⟩
    intro x hx
    have hid : seg.info.id = t.nextSegmentId := congrArg SegmentMeta.id hr.info_eq
    rcases hunused x hx with ⟨hmem, hne⟩ | ⟨s, hs, heq⟩
    · left
      refine mem_filter.mpr ⟨mem_filter.mpr ⟨hmem, by simpa using hne⟩, ?_⟩
      simp only [Bool.not_eq_true', contains_eq_mem, decide_eq_false_iff_not]
      intro hold
      obtain ⟨s, hs, heq⟩ := mem_map.mp hold
      exact h.dirs.apart x hmem s (mem_of_mem_take hs) heq.symm
    · -- an old directory; its id is below that of the new segment
      right
      have hlt := h.dirs.fresh s (mem_of_mem_take hs)
      refine ⟨fun s' hs' => ?_, seg, mem_cons_self, by omega⟩
      rcases mem_cons.mp hs' with rfl | hs'
      · omega
      · have hids := h.dirs.ids
        rw [← take_append_drop n t.segments, map_append, nodup_append] at hids
        rw [heq]
        exact hids.2.2 _ (mem_map_of_mem (f := fun s => s.info.id) hs) _
          (mem_map_of_mem (f := fun s => s.info.id) hs')

/-- Intact crash points are all that is needed. -/
theorem Intact.crashAtomic (h : Intact rows t) {m : Maintenance}
    (hok : (exec m.op t).1 ≠ .error .outOfBounds)
    (hpoints : ∀ t' ∈ trace m.op t, Intact rows t') : m.CrashAtomic t := by
  refine ⟨hok, fun d hd => ?_⟩
  obtain ⟨t₁, ht₁, rfl⟩ : ∃ t₁, Intact rows t₁ ∧ t₁.dir = d := by
    rcases mem_cons.mp hd with rfl | hd
    · exact ⟨t, h, rfl⟩
    · obtain ⟨t₁, ht₁, rfl⟩ := mem_map.mp hd
      exact ⟨t₁, hpoints t₁ ht₁, rfl⟩
  obtain ⟨t', hopen, hintact⟩ := ht₁.reopened
  refine ⟨t', hopen, fun ms hms t'' ht'' => ?_⟩
  rw [(hintact.run hms t'' ht'').exposed, h.exposed]

/-! ## Which operations are safe -/

/-- The tables on which an operation may be interrupted.

A seal must have nothing to do.  A merge that replaces segments needs a threshold of two, and the
flags of the rows it merges, counted from the first one, must not be set where the write buffer has
rows; this does not matter if the write buffer has a `deleted.bin` of its own or if the directory
of the next id is in the way.  A vacuum needs bitmaps that have a bit for every row. -/
def Maintenance.Safe (t : Table) : Maintenance → Prop
  | .sealBuffer => t.wbRowCount = 0
  | .merge k => t.segments.length < k ∨ 2 ≤ k ∧ (t.nextIdTaken ∨ t.deletedFile.isSome ∨
      ∀ l < t.wbRowCount, (deadFlags (t.segments.take (k / 2))).getD l false = false)
  | .vacuum => SegmentsCovered t

instance (t : Table) (m : Maintenance) : Decidable (m.Safe t) := by
  cases m <;> dsimp only [Maintenance.Safe] <;> infer_instance

/-- An operation that does nothing may be interrupted. -/
theorem Intact.crashAtomic_quiet (h : Intact rows t) {m : Maintenance}
    (hrun : m.op t = (pure () : Op Table Unit) t) : m.CrashAtomic t := by
  refine h.crashAtomic ?_ ?_
  · rw [exec, hrun]
    intro herr
    cases herr
  · rw [trace, hrun]
    intro _ hmem
    cases hmem

theorem IntactWith.crashAtomic_seal (h : IntactWith t segs wb rows) (hempty : t.wbRowCount = 0) :
    Maintenance.CrashAtomic .sealBuffer t := by
  apply Intact.crashAtomic_quiet ⟨segs, wb, h⟩
  show (if t.wbRowCount = 0 then pure () else _ : Op Table Unit) t = _
  rw [if_pos hempty]

theorem trace_vacuum (t : Table) :
    trace (Maintenance.op .vacuum) t = trace vacuumTable t := by
  show trace (vacuumTable >>= fun _ => pure ()) t = _
  rw [trace_bind]
  rcases exec vacuumTable t with ⟨_ | _, -⟩ <;> exact append_nil _

theorem exec_vacuum_error (t : Table) (e : Error) :
    (exec (Maintenance.op .vacuum) t).1 = .error e ↔ (vacuumTable t).res = .error e := by
  show (exec (vacuumTable >>= fun _ => pure ()) t).1 = _ ↔ (exec vacuumTable t).1 = _
  rw [exec_bind]
  rcases exec vacuumTable t with ⟨_ | _, -⟩ <;> simp

theorem IntactWith.crashAtomic_vacuum (h : IntactWith t segs wb rows)
    (hcov : SegmentsCovered t) : Maintenance.CrashAtomic .vacuum t := by
  apply Intact.crashAtomic ⟨segs, wb, h⟩
  · rw [ne_eq, exec_vacuum_error]
    rcases h.holds.vacuumTable hcov with ⟨-, hrun⟩ |
      ⟨-, _, _, _, _, hrun, -⟩ <;> rw [hrun] <;> exact nofun
  · rw [trace_vacuum, trace]
    rcases h.holds.vacuumTable hcov with ⟨-, hrun⟩ |
      ⟨-, sd, base, count, seg, hrun, hr, hdel⟩
    · rw [hrun]
      intro _ hmem
      cases hmem
    · rw [hrun]
      intro t' ht'
      rcases mem_trace_bind.mp ht' with ht' | ⟨_, _, _, hnone⟩
      · refine h.crash hr (Or.inr fun l _ => ?_) ht'
        rw [hdel]
        exact test_nil l
      · cases hnone

theorem IntactWith.crashAtomic_merge (h : IntactWith t segs wb rows)
    (hsafe : Maintenance.Safe t (.merge k)) : Maintenance.CrashAtomic (.merge k) t := by
  by_cases hlen : t.segments.length < k
  · exact Intact.crashAtomic_quiet ⟨segs, wb, h⟩ (mergeSegments_few hlen)
  · obtain ⟨hk, hwhen⟩ := hsafe.resolve_left hlen
    obtain ⟨_, _, _, _, _, hrun, hr, hbits, -⟩ := h.holds.mergeSegments hk (by omega)
    apply Intact.crashAtomic ⟨segs, wb, h⟩
    · show (mergeSegments k t).res ≠ _
      rw [hrun]
      exact nofun
    · intro t' ht'
      change t' ∈ (mergeSegments k t).trace at ht'
      rw [hrun] at ht'
      rcases hwhen with htaken | hwhen
      · change t' ∈ [] ++ trace (replaceSegments _ _ _ _ >>= _) t at ht'
        rw [trace_bind, trace_replaceSegments hr.opens, exec_replaceSegments, if_pos htaken,
          if_pos htaken] at ht'
        cases ht'
      · refine h.crash hr (hwhen.imp_right fun hclear l hl => ?_) ht'
        rw [hbits, deletedFile_merge, test_mergeDeletedBitmaps]
        exact hclear l hl

/-! ## What goes wrong otherwise -/

/-- A directory without its first column file is not opened. -/
theorem openDir_without_column {d : TableDir} {bytes : Bytes} {files : List (Option ColumnDisk)}
    (hbytes : d.schema = some bytes) (hschema : readSchema bytes = .ok t.schema)
    (hne : t.schema ≠ []) (hcols : d.cols = none :: files) (t' : Table) : openDir d ≠ .ok t' := by
  intro hopen
  have hd := openDir_opens hopen
  have hread := hd.schema
  have hfirst := hd.columns
  rw [hbytes, Option.map_some, hschema] at hread
  obtain ⟨c, _, hcons⟩ := exists_cons_of_ne_nil hne
  rw [← Except.ok.inj (Option.some.inj hread), hcols, hcons] at hfirst
  cases hfirst

/-- The directory after the first column file has been moved is a crash point of a seal. -/
theorem renameColumn_mem_sealImages {schema : Schema} (hne : schema ≠ [])
    (hschema : t.schema = schema) :
    { t with moving := some (renameColumn t.nextSegmentId 0
      (makeSegmentDir t.nextSegmentId t.dir)) } ∈ sealImages t := by
  obtain ⟨c, _, rfl⟩ := exists_cons_of_ne_nil hne
  refine mem_map.mpr ⟨_, ?_, rfl⟩
  rw [hschema, sealMoves, length_cons, range_succ_eq_map, map_cons]
  simp only [cons_append, scanl_cons, tail_cons]
  apply mem_cons_of_mem
  generalize (map _ (map Nat.succ _) ++ _ ++ _ : List (TableDir → TableDir)) = moves
  cases moves with
  | nil => exact mem_cons_self
  | cons f moves =>
    rw [scanl_cons]
    exact mem_cons_self

/-- **A seal of rows is not crash-atomic**: after the first column file has been moved, the table
does not open. -/
theorem IntactWith.not_crashAtomic_seal (h : IntactWith t segs wb rows) (hne : t.wbRowCount ≠ 0) :
    ¬ Maintenance.CrashAtomic .sealBuffer t := by
  intro ⟨_, hatomic⟩
  obtain ⟨cols, hflush, -, heach⟩ := h.holds.exec_flush
  have hdir := dir_of_settled (t := t.withColumns cols) h.dirs.settled
  have himage := renameColumn_mem_sealImages (t := t.withColumns cols) h.holds.nonempty rfl
  have htrace : ∀ t' ∈ sealImages (t.withColumns cols), t' ∈ trace flushWriteBuffer t := by
    intro t' ht'
    refine mem_trace_of_ok (a := t) rfl ?_
    rw [if_neg hne]
    refine mem_trace_of_ok hflush (mem_trace_of_ok rfl ?_)
    exact mem_trace_bind.mpr (Or.inl ht')
  obtain ⟨t', hopen, -⟩ := hatomic _ (mem_cons_of_mem _ (mem_map_of_mem (htrace _ himage)))
  obtain ⟨col, cols', hcons⟩ : ∃ col cols', cols = col :: cols' := by
    apply exists_cons_of_ne_nil
    rintro rfl
    exact h.holds.nonempty (length_eq_zero_iff.mp heach.length.symm)
  have hbytes : (renameColumn t.nextSegmentId 0
      (makeSegmentDir t.nextSegmentId (t.withColumns cols).dir)).schema = some t.schemaFile := by
    rw [hdir]
    rfl
  have hmoved : (renameColumn t.nextSegmentId 0
      (makeSegmentDir t.nextSegmentId (t.withColumns cols).dir)).cols =
      none :: cols'.map fun c => some c.file := by
    rw [hdir, hcons]
    rfl
  exact openDir_without_column hbytes h.dirs.schema h.holds.nonempty hmoved t' hopen

/-- The directory `id`, which a seal can still reach, has a bit for a row of the write buffer. -/
structure Threatened (id : Nat) (rows : List Row) (t : Table) : Prop where
  files : ∃ segs wb, FilesHave t segs wb rows
  noFile : t.deletedFile = none
  many : 2 ≤ t.segments.length
  next : t.nextSegmentId ≤ id
  bit : ∃ sd, t.unusedSegments.lookup id = some sd ∧
    ∃ l < t.wbRowCount, test (sd.deleted.getD []) l = true

/-- A merge of one segment uses an id and changes nothing else. -/
theorem Threatened.merge (h : Threatened id rows t) (hlt : t.nextSegmentId < id) :
    Threatened id rows (Maintenance.after t (.merge 2)) ∧
      (Maintenance.after t (.merge 2)).nextSegmentId = t.nextSegmentId + 1 := by
  obtain ⟨segs, wb, hfiles⟩ := h.files
  obtain ⟨sd, hlook, hbit⟩ := h.bit
  obtain ⟨sd', base, count, seg, new, hrun, hr, -⟩ :=
    hfiles.holds.mergeSegments (Nat.le_refl 2) h.many
  have hafter : Maintenance.after t (.merge 2) = (exec (swapSegments 1 sd' base count) t).2 := by
    show (Table.mergeSegments 2 t).state = _
    rw [hrun]
    rfl
  rw [hafter, exec_swapSegments]
  split
  · exact ⟨⟨⟨segs, wb, hfiles.skipId⟩, h.noFile, h.many, hlt, sd, hlook, hbit⟩, rfl⟩
  · rw [hr.opens]
    refine ⟨⟨⟨_, wb, hfiles.replacedBy hr⟩, h.noFile, ?_, hlt, sd, ?_, hbit⟩, rfl⟩
    · show 2 ≤ (seg :: t.segments.drop 1).length
      have hmany := h.many
      rw [length_cons, length_drop]
      omega
    · -- neither the new segment nor the replaced one has this id
      have hne : (id != t.nextSegmentId) = true := bne_iff_ne.mpr (Nat.ne_of_gt hlt)
      have hold : (!((t.segments.take 1).map fun s => s.info.id).contains id) = true := by
        simp only [Bool.not_eq_true', contains_eq_mem, decide_eq_false_iff_not]
        intro hmem
        obtain ⟨s, hs, heq⟩ := mem_map.mp hmem
        exact hfiles.dirs.apart _ (mem_of_lookup hlook) s (mem_of_mem_take hs) heq.symm
      show ((t.unusedSegments.filter fun x => x.1 != t.nextSegmentId).filter fun x =>
        !((t.segments.take 1).map fun s => s.info.id).contains x.1).lookup id = _
      rw [lookup_filter_key fun i => !((t.segments.take 1).map fun s => s.info.id).contains i,
        if_pos hold, lookup_filter_key fun i => i != t.nextSegmentId, if_pos hne, hlook]

/-- A seal that finds the directory loses a row. -/
theorem Threatened.seal (h : Threatened t.nextSegmentId rows t) :
    (Maintenance.after t .sealBuffer).exposed ≠ .ok rows := by
  obtain ⟨_, wb, hfiles⟩ := h.files
  obtain ⟨sd, hlook, l, hl, hbit⟩ := h.bit
  rw [hfiles.holds.wbRowCount] at hl
  have hne : wb ≠ [] := ne_nil_of_length_pos (Nat.zero_lt_of_lt hl)
  obtain ⟨cols, seg, cols', hexec, -, hbits, -, hheld⟩ := hfiles.holds.exec_seal hne
  have hafter : Maintenance.after t .sealBuffer = (t.withColumns cols).sealed seg cols' :=
    congrArg Prod.snd hexec
  have hseg : seg.deleted = sd.deleted.getD [] := by
    rw [hbits, sealedDir, h.noFile, hlook]
    rfl
  -- the write buffer had no deletions
  have hclear : flagged (fun l => test t.wbDeleted l) 0 wb =
      wb.map fun row => (row, false) := by
    apply flagged_of_clear
    intro l _
    rw [← hfiles.holds.file, h.noFile]
    exact test_nil l
  have hvalues := hfiles.values
  rw [hfiles.holds.ledger_buffer, hclear, values_append, values_clear] at hvalues
  rw [hafter, hheld.exposed, hfiles.holds.ledger_sealed, values_append]
  intro hsame
  have hlost : (flagged (fun l => test seg.deleted l) 0 wb).values.length <
      wb.length := by
    apply length_values_flagged_lt (Nat.zero_le l) (by omega)
    rw [hseg]
    exact hbit
  have hlengths := congrArg List.length ((Except.ok.inj hsame).trans hvalues.symm)
  rw [length_append, length_append] at hlengths
  omega

/-- Merges bring the id up, and then a seal loses a row. -/
theorem Threatened.loses (h : Threatened id rows t) :
    ∃ ms : List Maintenance, (∀ m ∈ ms, m.SealOrMerge) ∧
      ∃ t' ∈ Run.states Maintenance.after t ms, t'.exposed ≠ .ok rows := by
  obtain ⟨n, hid⟩ := Nat.exists_eq_add_of_le h.next
  induction n generalizing t with
  | zero =>
    subst hid
    exact ⟨[.sealBuffer], forall_mem_singleton.2 trivial, _, mem_cons_of_mem _ mem_cons_self,
      h.seal⟩
  | succ n ih =>
    obtain ⟨hnext, _⟩ := h.merge (by omega)
    obtain ⟨ms, hms, t', ht', hlost⟩ := ih hnext (by omega)
    exact ⟨.merge 2 :: ms, forall_mem_cons.2 ⟨Nat.le_refl 2, hms⟩, t', mem_cons_of_mem _ ht', hlost⟩

/-- **An unsafe merge is not crash-atomic.** -/
theorem IntactWith.not_crashAtomic_merge (h : IntactWith t segs wb rows)
    (hbad : ¬ Maintenance.Safe t (.merge k)) : ¬ Maintenance.CrashAtomic (.merge k) t := by
  intro ⟨hok, hatomic⟩
  obtain ⟨hlen, hwhen⟩ := not_or.mp hbad
  rw [Nat.not_lt] at hlen
  by_cases hk : 2 ≤ k
  · obtain ⟨hfree, hwhen⟩ := not_or.mp fun hsafe => hwhen ⟨hk, hsafe⟩
    obtain ⟨hfile, hdead⟩ := not_or.mp hwhen
    obtain ⟨sd, base, count, _, _, hrun, hr, hbits, -⟩ := h.holds.mergeSegments hk hlen
    -- the crash comes after the rename
    have himage : putUnused t.nextSegmentId sd { t with nextSegmentId := t.nextSegmentId + 1 } ∈
        trace (Maintenance.op (.merge k)) t := by
      show _ ∈ (Table.mergeSegments k t).trace
      rw [hrun]
      show _ ∈ trace (swapSegments (k / 2) sd base count) t
      refine mem_trace_of_ok (a := t) rfl (mem_trace_bind.mpr (Or.inl ?_))
      change _ ∈ trace (replaceSegments _ _ _ _) t
      rw [trace_replaceSegments hr.opens, if_neg hfree]
      exact mem_cons_self
    obtain ⟨t', hopen, hkeeps⟩ := hatomic _ (mem_cons_of_mem _ (mem_map_of_mem himage))
    obtain ⟨t₁, hopen₁, hf, hfiles⟩ := (h.toFilesHave.renamed sd).reopened
    obtain rfl : t₁ = t' := Except.ok.inj (hopen₁.symm.trans hopen)
    have hnone : t.deletedFile = none := by simpa using hfile
    have hinfos := congrArg List.length hf.infos
    rw [length_map, length_map] at hinfos
    have hthreat : Threatened t.nextSegmentId rows t₁ := by
      refine ⟨⟨segs, wb, hfiles⟩, hf.deleted.trans hnone, ?_, ?_, sd, ?_, ?_⟩
      · rw [hinfos]
        exact Nat.le_trans hk hlen
      · rw [hf.next]
        apply foldl_max_le (Nat.zero_le _)
        intro m hm
        obtain ⟨s, hs, rfl⟩ := mem_map.mp hm
        exact h.dirs.fresh s hs
      · rw [hf.unused]
        show lookup _ ((t.nextSegmentId, sd) :: _) = _
        rw [lookup_cons, beq_self_eq_true]
      · rw [hfiles.holds.wbRowCount, ← h.holds.wbRowCount, hbits, deletedFile_merge]
        simp only [test_mergeDeletedBitmaps]
        push Not at hdead
        obtain ⟨l, hl, hbit⟩ := hdead
        exact ⟨l, hl, Bool.eq_true_of_not_eq_false hbit⟩
    obtain ⟨ms, hms, t'', ht'', hlost⟩ := hthreat.loses
    exact hlost ((hkeeps ms hms t'' ht'').trans h.toFilesHave.exposed)
  · -- there is no first segment to take
    apply hok
    have hhalf : k / 2 = 0 := by omega
    show (exec (if t.segments.length < k then pure () else _ : Op Table Unit) t).1 = _
    rw [if_neg (by omega), hhalf]
    rfl

theorem deadCount_of_not_covered {bm : Bytes} (hcov : ¬ (bm = [] ∨ n ≤ 8 * bm.length)) :
    deadCount bm n = .error .outOfBounds := by
  obtain ⟨hne, -⟩ := not_or.mp hcov
  have hlast : bitAt bm (n - 1) = .error .outOfBounds := by
    unfold bitAt
    rw [if_neg (by simpa using hne), if_neg (by omega)]
  have hbits : (range n).mapM (bitAt bm) = .error .outOfBounds := by
    apply mapM_eq_error (x := n - 1)
    · intro r _ e he
      unfold bitAt at he
      split at he
      · cases he
      · split at he
        · cases he
        · exact (Except.error.inj he).symm
    · rw [mem_range]
      omega
    · exact hlast ▸ nofun
  unfold deadCount
  rw [hbits]
  rfl

/-- **A vacuum with a short bitmap** reads past its end. -/
theorem not_crashAtomic_vacuum (hcov : ¬ SegmentsCovered t) :
    ¬ Maintenance.CrashAtomic .vacuum t := by
  intro ⟨hok, _⟩
  apply hok
  rw [exec_vacuum_error]
  unfold SegmentsCovered at hcov
  push Not at hcov
  obtain ⟨s, hs, hbad⟩ := hcov
  have hdead : (t.segments.mapM fun s => deadCount s.deleted s.info.rowCount) =
      .error .outOfBounds := by
    apply mapM_eq_error (x := s) _ hs
    · exact deadCount_of_not_covered hbad ▸ nofun
    · intro s' _ e he
      by_cases hcov : s'.deleted = [] ∨ s'.info.rowCount ≤ 8 * s'.deleted.length
      · rw [deadCount_of_covered hcov] at he
        cases he
      · rw [deadCount_of_not_covered hcov] at he
        exact (Except.error.inj he).symm
  cases hsegs : t.segments with
  | nil =>
    rw [hsegs] at hs
    cases hs
  | cons first rest =>
    rw [hsegs] at hdead
    rw [Table.vacuumTable, Proc.get_bind, hsegs]
    dsimp only
    rw [hdead]
    rfl

/-! ## The result -/

/-- **Which maintenance is crash-atomic.**  For a table that is on disk, with nothing in the way of
a seal, an operation is crash-atomic exactly if it is safe. -/
theorem crashAtomic_iff (h : Holds t segs wb wb.length) (hdirs : Dirs t) (hstale : NoStaleBits t)
    (m : Maintenance) : m.CrashAtomic t ↔ m.Safe t := by
  have hw : IntactWith t segs wb (ledger t segs wb).values := ⟨⟨h, hdirs, rfl⟩, hstale⟩
  cases m with
  | sealBuffer => exact ⟨not_imp_not.mp hw.not_crashAtomic_seal, hw.crashAtomic_seal⟩
  | merge k => exact ⟨not_imp_not.mp hw.not_crashAtomic_merge, hw.crashAtomic_merge⟩
  | vacuum => exact ⟨not_imp_not.mp not_crashAtomic_vacuum, hw.crashAtomic_vacuum⟩

/-- Two sealed segments, the first with a deletion, and a row in the write buffer: a merge and a
vacuum may be interrupted, a seal may not. -/
theorem crashAtomic_iff_twoSegments : ∃ t₀ t, create oneColumn 65536 = .ok t₀ ∧
      runActions [.insert [[.int32 1], [.int32 2]], .delete [1], .sealBuffer, .insert [[.int32 3]],
        .sealBuffer, .insert [[.int32 4]], .flush] t₀ = some t ∧
      Maintenance.CrashAtomic (.merge 2) t ∧ Maintenance.CrashAtomic .vacuum t ∧
      ¬ Maintenance.CrashAtomic .sealBuffer t := by
  refine ⟨_, _, rfl, rfl, ?_⟩
  have h₁ := (holds_oneColumn rfl).afterInsert [[.int32 1], [.int32 2]] (by decide) (by decide)
  have h₂ := h₁.afterDelete [1]
  have h₃ := h₂.afterSeal (by decide)
  have h₄ := h₃.afterInsert [[.int32 3]] (by decide) (by decide)
  have h₅ := h₄.afterSeal (by decide)
  have h₆ := h₅.afterInsert [[.int32 4]] (by decide) (by decide)
  have hiff := crashAtomic_iff h₆.afterFlush ⟨rfl, rfl, rfl, by decide, by decide, by decide⟩
    (by decide)
  exact ⟨(hiff (.merge 2)).mpr (by decide), (hiff .vacuum).mpr (by decide),
    fun hatomic => absurd ((hiff .sealBuffer).mp hatomic) (by decide)⟩

/-- A seal of the row 6 is interrupted after its column file was moved: the table does not open.
It is interrupted before the manifest is written: the table opens without the row.  A merge of the
first segment, whose only row is deleted, is interrupted before the manifest is written: the table
opens as it was, but the next seal finds the bit of the merge and deletes the row 6.  Of six rows
one is dead, too few for the worker to vacuum first. -/
theorem interrupted_maintenance_loses_row : ∃ t₀ t, create oneColumn 65536 = .ok t₀ ∧
      runActions [.insert (intRows [1]), .delete [0], .sealBuffer, .insert (intRows [2, 3, 4, 5]),
        .sealBuffer, .insert (intRows [6]), .flush] t₀ = some t ∧
      t.deadRowStats = .ok ⟨1, 6⟩ ∧ t.exposed = .ok (intRows [2, 3, 4, 5, 6]) ∧
      (∃ d ∈ Maintenance.crashDirs .sealBuffer t, ∃ e, openDir d = .error e) ∧
      (∃ d ∈ Maintenance.crashDirs .sealBuffer t, ∃ t', openDir d = .ok t' ∧
        t'.exposed = .ok (intRows [2, 3, 4, 5])) ∧
      ∃ d ∈ Maintenance.crashDirs (.merge 2) t, ∃ t', openDir d = .ok t' ∧
        t'.exposed = .ok (intRows [2, 3, 4, 5, 6]) ∧
        (Maintenance.after t' .sealBuffer).exposed = .ok (intRows [2, 3, 4, 5]) := by
  refine ⟨_, _, rfl, rfl, rfl, rfl, ?_, ?_, ?_⟩
  · exact ⟨_, mem_of_getElem? (i := 2) rfl, _, rfl⟩
  · exact ⟨_, mem_of_getElem? (i := 6) rfl, _, rfl, rfl⟩
  · exact ⟨_, mem_of_getElem? (i := 1) rfl, _, rfl, rfl, rfl⟩

end NyxDb.Table
