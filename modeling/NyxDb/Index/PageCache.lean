import Mathlib.Data.Fintype.Card
import NyxDb.Lib.PageFile
import NyxDb.Lib.Run
import NyxDb.Memory.BufferPool

/-!
# Pages of an index file

An index reads its pages through a buffer pool and writes them to the file directly.  A page that
is changed is changed in the pool first, by whoever holds it, and then written; new pages are
written without being in the pool.  `pages_coherent` says that the pool never shows anything but
what was written last.
-/

namespace NyxDb

open List BufferPool

/-- The pages of an open index file.  `handles` are the pages that the index holds at the moment,
one entry for each `fetch_page`. -/
structure IndexPages (P : Type) where
  pages : PageFile P
  nextPageId : Nat
  pool : BufferPool P
  handles : List Nat
  deriving DecidableEq, Repr

namespace IndexPages

variable {P : Type}

/-- `INDEX_POOL_CAPACITY`. -/
def poolCapacity : Nat := 64

def freshPool : BufferPool P :=
  .create poolCapacity 2

def openFile (pages : PageFile P) : IndexPages P :=
  ⟨pages, pages.length, freshPool, []⟩

/-- `DiskManager::read_page`. -/
def diskRead (c : IndexPages P) (id : Nat) : Except Error P :=
  if c.nextPageId ≤ id then .error (.pageOutOfRange id)
  else
    match c.pages.look id with
    | none => .error (.pageUnreadable id)
    | some page => .ok page

/-- What the index does with its pages. -/
inductive Use (P : Type) where
  | fetch (id : Nat)
  | release (id : Nat)
  | edit (id : Nat) (page : P)
  | reserve
  | writeNew (id : Nat) (page : P)
  | writeMeta (page : P)
  | resetTree (page : P)
  deriving DecidableEq, Repr

def fetchPage (c : IndexPages P) (id : Nat) : Except Error P × BufferPool P :=
  exec (BufferPool.fetchPage c.diskRead id) c.pool

/-- The holder of a page changes it where it is. -/
def editFrame (b : BufferPool P) (id : Nat) (page : P) : BufferPool P :=
  match b.pageTable.lookup id with
  | none => b
  | some slot =>
    match b.slots[slot]? with
    | some (some f) => { b with slots := b.slots.set slot (some { f with page }) }
    | _ => b

def step (c : IndexPages P) : Use P → IndexPages P
  | .fetch id =>
    match c.fetchPage id with
    | (.ok _, b) => { c with pool := b, handles := id :: c.handles }
    | (.error _, b) => { c with pool := b }
  | .release id =>
    { c with
      pool := (exec (unpinPage id) c.pool).2
      handles := c.handles.erase id }
  | .edit id page => { c with pool := editFrame c.pool id page, pages := c.pages.write id page }
  | .reserve => { c with nextPageId := c.nextPageId + 1 }
  | .writeNew id page => { c with pages := c.pages.write id page }
  | .writeMeta page => { c with pages := c.pages.write 0 page }
  | .resetTree page => ⟨(c.pages.resize 1).write 0 page, 1, freshPool, []⟩

/-- How the index uses its pages: the page of the metadata is not fetched, only pages that are held
are changed or given back, and what is new is written to a page that holds nothing. -/
def UsesHeldPages (c : IndexPages P) : Use P → Prop
  | .fetch id => id ≠ 0 ∧ c.handles.length < poolCapacity
  | .release id => id ∈ c.handles
  | .edit id _ => id ∈ c.handles
  | .writeNew id _ => id ≠ 0 ∧ id < c.nextPageId ∧ c.pages.look id = none
  | .resetTree _ => c.handles = []
  | _ => True

instance UsesHeldPages.decidable [DecidableEq P] (c : IndexPages P) :
    DecidablePred (UsesHeldPages c) := fun u => by
  cases u <;> dsimp only [UsesHeldPages] <;> infer_instance

/-! ## What was written last -/

/-- The contents of the pages, by what is written to them. -/
def written (w : Nat → Option P) : Use P → Nat → Option P
  | .edit id page => Function.update w id (some page)
  | .writeNew id page => Function.update w id (some page)
  | .writeMeta page => Function.update w 0 (some page)
  | .resetTree page => Function.update (fun _ => none) 0 (some page)
  | _ => w

/-- The file has the contents; the page of the metadata is never read from it. -/
structure Stored (w : Nat → Option P) (c : IndexPages P) : Prop where
  disk : ∀ id, c.pages.look id = w id
  bound : ∀ id, id ≠ 0 → w id ≠ none → id < c.nextPageId

/-- The pool shows the contents, and the pins are those of the handles. -/
structure Shows (w : Nat → Option P) (handles : List Nat) (b : BufferPool P) : Prop where
  parts : b.PartsAgree []
  size : b.slots.length = poolCapacity
  frames : ∀ (slot : Nat) (f : Frame P), b.slots[slot]? = some (some f) →
    f.id ≠ 0 ∧ w f.id = some f.page ∧ f.pins = handles.count f.id
  held : ∀ id ∈ handles, ∃ (slot : Nat) (f : Frame P), b.slots[slot]? = some (some f) ∧ f.id = id

structure Coherent (w : Nat → Option P) (c : IndexPages P) : Prop where
  stored : Stored w c
  shows : Shows w c.handles c.pool

variable {w w' : Nat → Option P} {c : IndexPages P} {id slot : Nat} {page : P}
  {handles handles' : List Nat} {b b' : BufferPool P} {f : Frame P}

theorem diskRead_eq_ok (h : Stored w c) (hid : id ≠ 0) :
    c.diskRead id = .ok page ↔ w id = some page := by
  unfold diskRead
  rw [h.disk]
  cases hw : w id with
  | none => split <;> simp
  | some p =>
    have hbound := h.bound id hid (by simp [hw])
    rw [if_neg (by omega)]
    simp

theorem shows_freshPool (w : Nat → Option P) : Shows w [] freshPool where
  parts := partsAgree_create _ _
  size := length_replicate
  frames slot f hf := by cases eq_of_mem_replicate (mem_of_getElem? hf)
  held _ h := by cases h

theorem coherent_openFile (pages : PageFile P) : Coherent pages.look (openFile pages) where
  stored :=
    { disk := fun _ => rfl
      bound := by
        intro id _ h
        by_contra hid
        apply h
        rw [PageFile.look, getElem?_eq_none (Nat.le_of_not_lt hid)]
        rfl }
  shows := shows_freshPool _

/-! ## One step -/

/-- One slot gets a frame, and only the contents and the handles of its page change. -/
theorem Shows.of_placed (h : Shows w handles b) (hplaced : Placed b b' slot f)
    (hlost : ∀ g : Frame P, b.slots[slot]? = some (some g) → g.id = f.id ∨ g.pins = 0)
    (hid : f.id ≠ 0) (hpage : w' f.id = some f.page) (hpins : f.pins = handles'.count f.id)
    (hw : ∀ k, k ≠ f.id → w' k = w k)
    (hhandles : ∀ k, k ≠ f.id → handles'.count k = handles.count k) : Shows w' handles' b' where
  parts := hplaced.parts
  size := hplaced.length.trans h.size
  frames i g hg := by
    by_cases hi : i = slot
    · subst hi
      cases hplaced.here.symm.trans hg
      exact ⟨hid, hpage, hpins⟩
    · have hne : g.id ≠ f.id := fun heq => hi (hplaced.parts.id_inj hg hplaced.here heq)
      rw [hw _ hne, hhandles _ hne]
      exact h.frames i g (hplaced.others i g hi hg)
  held k hk := by
    by_cases hkid : k = f.id
    · exact ⟨slot, f, hplaced.here, hkid.symm⟩
    · have hcount : handles.count k ≠ 0 := by
        rw [← hhandles k hkid]
        exact (count_pos_iff.2 hk).ne'
      obtain ⟨i, g, hg, rfl⟩ := h.held k (count_pos_iff.1 (Nat.pos_of_ne_zero hcount))
      obtain ⟨-, -, hgpins⟩ := h.frames i g hg
      have hi : i ≠ slot := by
        rintro rfl
        rcases hlost g hg with heq | hzero
        · exact hkid heq
        · exact hcount (hgpins ▸ hzero)
      exact ⟨i, g, hplaced.pinned i g hi hg (hgpins ▸ hcount), rfl⟩

/-- Pages that are pinned stay where they are. -/
def Keeps (b b' : BufferPool P) : Prop :=
  ∀ (slot : Nat) (f : Frame P), b.slots[slot]? = some (some f) → f.pins ≠ 0 →
    ∃ f' : Frame P, b'.slots[slot]? = some (some f') ∧ f'.id = f.id

theorem keeps_of_placed (hplaced : Placed b b' slot f)
    (hlost : ∀ g : Frame P, b.slots[slot]? = some (some g) → g.id = f.id ∨ g.pins = 0) :
    Keeps b b' := by
  intro i g hg hpins
  by_cases hi : i = slot
  · subst hi
    rcases hlost g hg with heq | hzero
    · exact ⟨f, hplaced.here, heq.symm⟩
    · exact absurd hzero hpins
  · exact ⟨g, hplaced.pinned i g hi hg hpins, rfl⟩

theorem lost_of_getElem? (hf : b.slots[slot]? = some (some f)) :
    ∀ g : Frame P, b.slots[slot]? = some (some g) → g.id = f.id ∨ g.pins = 0 := by
  intro g hg
  cases hf.symm.trans hg
  exact .inl rfl

/-- A page that is held has a slot, and it is pinned there. -/
theorem Shows.pinned (h : Shows w handles b) (hid : id ∈ handles) :
    ∃ (slot : Nat) (f : Frame P), b.slots[slot]? = some (some f) ∧ f.id = id ∧ f.pins ≠ 0 := by
  obtain ⟨slot, f, hf, rfl⟩ := h.held id hid
  refine ⟨slot, f, hf, rfl, ?_⟩
  rw [(h.frames slot f hf).2.2]
  exact (count_pos_iff.2 hid).ne'

/-- With fewer handles than slots some slot is not pinned. -/
theorem Shows.room (h : Shows w handles b) (hlen : handles.length < poolCapacity) :
    b.freshFree ≠ [] ∨ b.replacer.evictableCount ≠ 0 := by
  by_contra hroom
  -- Otherwise the slots have pages that are held, and no two have the same.
  have hall : ∀ i : Fin b.slots.length, ∃ f : Frame P,
      b.slots[i.val]? = some (some f) ∧ f.id ∈ handles := by
    intro i
    cases hx : b.slots[i] with
    | none =>
      refine absurd (h.parts.room (getElem?_eq_getElem i.isLt) ?_) hroom
      intro f hf
      exact absurd (hx.symm.trans hf) (by simp)
    | some f =>
      have hf : b.slots[i.val]? = some (some f) := by
        rw [getElem?_eq_getElem i.isLt]
        exact congrArg some hx
      refine ⟨f, hf, count_pos_iff.1 (Nat.pos_of_ne_zero ?_)⟩
      rw [← (h.frames i f hf).2.2]
      intro hzero
      refine hroom (h.parts.room hf ?_)
      rintro g ⟨⟩
      exact hzero
  choose frame hframe hheld using hall
  have hcard := Finset.card_le_card_of_injOn (s := Finset.univ) (t := handles.toFinset)
    (fun i => (frame i).id) (fun i _ => mem_toFinset.2 (hheld i))
    (fun i _ j _ heq => Fin.ext (h.parts.id_inj (hframe i) (hframe j) heq))
  have hdistinct := toFinset_card_le handles
  rw [Finset.card_univ, Fintype.card_fin, h.size] at hcard
  omega

theorem Coherent.fetch (h : Coherent w c) (hid : id ≠ 0) (hlen : c.handles.length < poolCapacity) :
    (∃ e b', c.fetchPage id = (.error e, b') ∧ w id = none ∧ Shows w c.handles b' ∧
        Keeps c.pool b') ∨
      ∃ page b', c.fetchPage id = (.ok page, b') ∧ w id = some page ∧
        Shows w (id :: c.handles) b' ∧ Keeps c.pool b' := by
  have hothers : ∀ k, k ≠ id → (id :: c.handles).count k = c.handles.count k :=
    fun k hk => count_cons_of_ne (Ne.symm hk)
  cases hlookup : c.pool.pageTable.lookup id with
  | some slot =>
    obtain ⟨f, hf, rfl⟩ := (h.shows.parts.table id slot).1 hlookup
    obtain ⟨b', hfetch, hplaced⟩ :=
      exec_fetchPage_hit c.diskRead h.shows.parts hf rfl
    obtain ⟨-, hpage, hpins⟩ := h.shows.frames slot f hf
    have hlost := lost_of_getElem? hf
    refine .inr ⟨f.page, b', hfetch, hpage, ?_, keeps_of_placed hplaced hlost⟩
    refine h.shows.of_placed hplaced hlost hid hpage ?_ (fun _ _ => rfl) hothers
    rw [count_cons_self, ← hpins]
  | none =>
    rcases exec_fetchPage_miss c.diskRead h.shows.parts (h.shows.room hlen) hlookup with
      ⟨e, b', hread, hfetch, hparts, hsize, hkept, hpinned⟩ |
      ⟨page, slot, b', hread, hfetch, hplaced, hzero⟩
    · refine .inl ⟨e, b', hfetch, ?_, ?_, fun i g hg hpins => ⟨g, hpinned i g hg hpins, rfl⟩⟩
      · cases hw : w id with
        | none => rfl
        | some page =>
          rw [(diskRead_eq_ok h.stored hid).2 hw] at hread
          cases hread
      · refine ⟨hparts, hsize.trans h.shows.size, fun i g hg => h.shows.frames i g (hkept i g hg),
          ?_⟩
        intro k hk
        obtain ⟨i, g, hg, hgid, hpins⟩ := h.shows.pinned hk
        exact ⟨i, g, hpinned i g hg hpins, hgid⟩
    · have hlost : ∀ g : Frame P, c.pool.slots[slot]? = some (some g) → g.id = id ∨ g.pins = 0 :=
        fun g hg => .inr (hzero g hg)
      have hpage := (diskRead_eq_ok h.stored hid).1 hread
      refine .inr ⟨page, b', hfetch, hpage, ?_, keeps_of_placed hplaced hlost⟩
      refine h.shows.of_placed hplaced hlost hid hpage ?_ (fun _ _ => rfl) hothers
      -- A page that is in no slot is not held.
      have hnot : id ∉ c.handles := by
        intro hmem
        obtain ⟨i, g, hg, hgid⟩ := h.shows.held id hmem
        rw [(h.shows.parts.table id i).2 ⟨g, hg, hgid⟩] at hlookup
        cases hlookup
      rw [count_cons_self, count_eq_zero.2 hnot]

theorem Shows.release (h : Shows w handles b) (hid : id ∈ handles) :
    Shows w (handles.erase id) (exec (unpinPage id) b).2 ∧
      Keeps b (exec (unpinPage id) b).2 := by
  obtain ⟨slot, f, hf, rfl, hpins⟩ := h.pinned hid
  obtain ⟨_, hunpin, hplaced⟩ := exec_unpinPage h.parts hf rfl hpins
  obtain ⟨hne, hpage, hcount⟩ := h.frames slot f hf
  have hlost := lost_of_getElem? hf
  rw [hunpin]
  refine ⟨h.of_placed hplaced hlost hne hpage ?_ (fun _ _ => rfl) ?_, keeps_of_placed hplaced hlost⟩
  · rw [count_erase_self, ← hcount]
  · intro k hk
    exact count_erase_of_ne hk

theorem Shows.edit (h : Shows w handles b) (hid : id ∈ handles) (page : P) :
    Shows (Function.update w id (some page)) handles (editFrame b id page) ∧
      Keeps b (editFrame b id page) := by
  obtain ⟨slot, f, hf, rfl, -⟩ := h.pinned hid
  obtain ⟨hne, -, hcount⟩ := h.frames slot f hf
  have hslot := lt_of_getElem? hf
  have hedit : editFrame b f.id page =
      { b with slots := b.slots.set slot (some { f with page }) } := by
    unfold editFrame
    rw [(h.parts.table f.id slot).2 ⟨f, hf, rfl⟩]
    dsimp only
    rw [hf]
  have hplaced : Placed b (editFrame b f.id page) slot { f with page } := by
    rw [hedit]
    exact placed_set hslot rfl (h.parts.refill_same hf _ rfl Iff.rfl)
  have hlost := lost_of_getElem? hf
  refine ⟨h.of_placed hplaced hlost hne ?_ hcount ?_ (fun _ _ => rfl),
    keeps_of_placed hplaced hlost⟩
  · exact Function.update_self _ _ _
  · intro k hk
    exact Function.update_of_ne hk _ _

theorem Stored.write (h : Stored w c) (hid : id = 0 ∨ id < c.nextPageId) (page : P)
    (b : BufferPool P) :
    Stored (Function.update w id (some page))
      { c with pool := b, pages := c.pages.write id page } where
  disk k := by
    rw [PageFile.look_write, Function.update_apply, h.disk]
  bound k hk hw := by
    by_cases heq : k = id
    · subst heq
      exact hid.resolve_left hk
    · rw [Function.update_of_ne heq] at hw
      exact h.bound k hk hw

theorem Shows.update (h : Shows w handles b) (page : P)
    (hid : ∀ (slot : Nat) f, b.slots[slot]? = some (some f) → f.id ≠ id) :
    Shows (Function.update w id (some page)) handles b := by
  refine ⟨h.parts, h.size, ?_, h.held⟩
  intro slot f hf
  rw [Function.update_of_ne (hid slot f hf)]
  exact h.frames slot f hf

theorem stored_resetTree (c : IndexPages P) (page : P) :
    Stored (Function.update (fun _ => none) 0 (some page)) (c.step (.resetTree page)) where
  disk k := by
    show ((c.pages.resize 1).write 0 page).look k = _
    rw [PageFile.look_write, Function.update_apply]
    by_cases hk : k = 0
    · rw [if_pos hk, if_pos hk]
    · rw [if_neg hk, if_neg hk, PageFile.look, PageFile.resize, getElem?_eq_none]
      · rfl
      · rw [length_append, length_take, length_replicate]
        omega
  bound k hk hw := absurd (Function.update_of_ne hk _ _) hw

theorem keeps_refl (b : BufferPool P) : Keeps b b :=
  fun _ f hf _ => ⟨f, hf, rfl⟩

/-- Every step of the index keeps the pool coherent, and the pages it holds where they are. -/
theorem Coherent.step (h : Coherent w c) (u : Use P) (hu : UsesHeldPages c u) :
    Coherent (written w u) (c.step u) ∧ Keeps c.pool (c.step u).pool := by
  cases u with
  | fetch id =>
    obtain ⟨hid, hlen⟩ := hu
    rcases h.fetch hid hlen with ⟨_, _, hfetch, -, hshows, hkeeps⟩ |
      ⟨_, _, hfetch, -, hshows, hkeeps⟩
    all_goals
      simp only [IndexPages.step, hfetch]
      exact ⟨⟨⟨h.stored.disk, h.stored.bound⟩, hshows⟩, hkeeps⟩
  | release id =>
    obtain ⟨hshows, hkeeps⟩ := h.shows.release hu
    exact ⟨⟨⟨h.stored.disk, h.stored.bound⟩, hshows⟩, hkeeps⟩
  | edit id page =>
    obtain ⟨hshows, hkeeps⟩ := h.shows.edit hu page
    -- A page that is held is in the file.
    obtain ⟨slot, f, hf, rfl⟩ := h.shows.held id hu
    obtain ⟨hid, hpage, -⟩ := h.shows.frames slot f hf
    have hbound := h.stored.bound f.id hid (by simp [hpage])
    exact ⟨⟨h.stored.write (.inr hbound) page _, hshows⟩, hkeeps⟩
  | reserve =>
    refine ⟨⟨⟨h.stored.disk, ?_⟩, h.shows⟩, keeps_refl _⟩
    intro id hid hw
    exact Nat.lt_succ_of_lt (h.stored.bound id hid hw)
  | writeNew id page =>
    obtain ⟨-, hbound, hlook⟩ := hu
    refine ⟨⟨h.stored.write (.inr hbound) page _, h.shows.update page ?_⟩, keeps_refl _⟩
    rintro slot f hf rfl
    rw [h.stored.disk, (h.shows.frames slot f hf).2.1] at hlook
    cases hlook
  | writeMeta page =>
    refine ⟨⟨h.stored.write (.inl rfl) page _, h.shows.update page ?_⟩, keeps_refl _⟩
    exact fun slot f hf => (h.shows.frames slot f hf).1
  | resetTree page =>
    refine ⟨⟨stored_resetTree c page, shows_freshPool _⟩, ?_⟩
    intro slot f hf hpins
    rw [(h.shows.frames slot f hf).2.2, show c.handles = [] from hu] at hpins
    exact absurd rfl hpins

/-! ## Runs -/

theorem coherent_run (h : Coherent w c) {uses : List (Use P)}
    (hrun : Run.Along step UsesHeldPages c uses) :
    Coherent (uses.foldl written w) (Run.final step c uses) := by
  induction uses generalizing w c with
  | nil => exact h
  | cons u uses ih => exact ih (h.step u hrun.1).1 hrun.2

/-- Whatever the index does with its pages, the parts of the pool agree, a page that is fetched has
what was written to it last, and a page that is held is in a slot and stays there. -/
theorem pages_coherent (pages : PageFile P) (uses : List (Use P))
    (hrun : Run.Along step UsesHeldPages (openFile pages) uses) :
    (Run.final step (openFile pages) uses).pool.PartsAgree [] ∧
      (∀ id ∈ (Run.final step (openFile pages) uses).handles, ∃ (slot : Nat) (f : Frame P),
        (Run.final step (openFile pages) uses).pool.slots[slot]? = some (some f) ∧ f.id = id) ∧
      (∀ id page, UsesHeldPages (Run.final step (openFile pages) uses) (.fetch id) →
        (((Run.final step (openFile pages) uses).fetchPage id).1 = .ok page ↔
          uses.foldl written pages.look id = some page)) ∧
      ∀ (slot : Nat) (f : Frame P),
        (Run.final step (openFile pages) uses).pool.slots[slot]? = some (some f) →
        f.pins = (Run.final step (openFile pages) uses).handles.count f.id ∧
          ∀ u, UsesHeldPages (Run.final step (openFile pages) uses) u → f.pins ≠ 0 →
            ∃ f' : Frame P, ((Run.final step (openFile pages) uses).step u).pool.slots[slot]? =
              some (some f') ∧ f'.id = f.id := by
  have h := coherent_run (coherent_openFile pages) hrun
  refine ⟨h.shows.parts, h.shows.held, ?_, ?_⟩
  · rintro id page ⟨hid, hlen⟩
    rcases h.fetch hid hlen with ⟨_, _, hfetch, hw, -⟩ | ⟨_, _, hfetch, hw, -⟩
    all_goals
      rw [hfetch, hw]
      simp
  · intro slot f hf
    exact ⟨(h.shows.frames slot f hf).2.2, fun u hu => (h.step u hu).2 slot f hf⟩

/-- A leaf is split: it is fetched, a page is reserved, both are written, and the new one is
fetched. -/
theorem pages_coherent_split : (Run.final step (openFile [some 7, some 8])
      [.writeMeta 6, .fetch 1, .reserve, .edit 1 5, .writeNew 2 4, .release 1] |>.fetchPage 2).1 =
        .ok 4 :=
  ((pages_coherent [some 7, some 8]
    [.writeMeta 6, .fetch 1, .reserve, .edit 1 5, .writeNew 2 4, .release 1]
    (by decide)).2.2.1 2 4 (by decide)).2 rfl

end IndexPages
end NyxDb
