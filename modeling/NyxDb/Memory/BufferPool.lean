import NyxDb.Memory.LruK
import NyxDb.Storage.Error

/-!
# The buffer pool

The pool keeps pages of a file in slots.  A page that is fetched is pinned until the caller gives it
back; a slot is taken from the free ones, or the page of the replacer's victim makes room.
`PartsAgree` says that page table, slots, free list and replacer agree, and `Idle` that nothing is
pinned; then a page that the file has can be fetched.
-/

namespace NyxDb

open List Proc

/-- A page in a slot. -/
structure Frame (P : Type) where
  id : Nat
  page : P
  pins : Nat
  deriving DecidableEq, Repr

/-- Of the pages that are not in a slot only the number is kept. -/
structure BufferPool (P : Type) where
  slots : List (Option (Frame P))
  freshFree : List Nat
  pageFree : Nat
  pageTable : List (Nat × Nat)
  replacer : LruK
  deriving DecidableEq, Repr

namespace BufferPool

variable {P : Type}

def create (freshCapacity k : Nat) : BufferPool P where
  slots := replicate freshCapacity none
  freshFree := range freshCapacity
  pageFree := freshCapacity
  pageTable := []
  replacer := .create freshCapacity k

def acquireFreshSlot : Op (BufferPool P) Nat := do
  let b ← get
  match b.freshFree with
  | slot :: rest => do
      modify fun b => { b with freshFree := rest }
      pure slot
  | [] =>
    match b.replacer.victim with
    | none => throw .poolFull
    | some (victim, replacer) =>
      match b.slots[victim]? with
      | some (some f) => do
          modify fun b =>
            { b with
              pageTable := b.pageTable.filter fun x => x.1 != f.id
              slots := b.slots.set victim none
              pageFree := b.pageFree + 1
              replacer := replacer }
          pure victim
      | _ => throw .outOfBounds

/-- A page, from its slot or from the file; it is pinned once more. -/
def fetchPage (read : Nat → Except Error P) (id : Nat) : Op (BufferPool P) P := do
  let b ← get
  match b.pageTable.lookup id with
  | some slot =>
    match b.slots[slot]? with
    | some (some f) => do
        modify fun b =>
          { b with
            slots := b.slots.set slot (some { f with pins := f.pins + 1 })
            replacer := (b.replacer.recordAccess slot).pin slot }
        pure f.page
    | _ => throw .outOfBounds
  | none => do
      let slot ← acquireFreshSlot
      let b ← get
      if b.pageFree = 0 then throw .outOfBounds
      else
        match read id with
        | .error e => do
            modify fun b => { b with freshFree := b.freshFree ++ [slot] }
            throw e
        | .ok page => do
            modify fun b =>
              { b with
                slots := b.slots.set slot (some ⟨id, page, 1⟩)
                pageFree := b.pageFree - 1
                pageTable := (id, slot) :: b.pageTable
                replacer := (b.replacer.recordAccess slot).pin slot }
            pure page

def unpinPage (id : Nat) : Op (BufferPool P) Unit := do
  let b ← get
  match b.pageTable.lookup id with
  | none => throw (.pageNotInPool id)
  | some slot =>
    match b.slots[slot]? with
    | some (some f) =>
      if f.pins = 0 then throw (.pageNotPinned id)
      else
        modify fun b =>
          { b with
            slots := b.slots.set slot (some { f with pins := f.pins - 1 })
            replacer := if f.pins - 1 = 0 then b.replacer.unpin slot else b.replacer }
    | _ => throw .outOfBounds

/-! ## Agreement of the parts -/

/-- What the replacer knows of a slot. -/
def Agrees (fd : FrameData) (x : Option (Frame P)) : Prop :=
  fd.tracked = x.isSome ∧ (fd.evictable = true ↔ ∃ f, x = some f ∧ f.pins = 0)

/-- The parts of the pool agree; the slots of `reserved` have been taken and not been filled. -/
structure PartsAgree (reserved : List Nat) (b : BufferPool P) : Prop where
  counted : b.replacer.Counted
  table : ∀ id slot, b.pageTable.lookup id = some slot ↔
    ∃ f, b.slots[slot]? = some (some f) ∧ f.id = id
  free : ∀ slot, slot ∈ b.freshFree ++ reserved ↔ b.slots[slot]? = some none
  nodup : (b.freshFree ++ reserved).Nodup
  pageFree : b.pageFree = (b.freshFree ++ reserved).length
  agrees : Forall₂ Agrees b.replacer.frames b.slots

theorem partsAgree_create (freshCapacity k : Nat) :
    PartsAgree [] (create freshCapacity k : BufferPool P) := by
  constructor
  · exact LruK.counted_create _ _
  · simp [create, getElem?_replicate]
  · simp [create, getElem?_replicate]
  · simp [create, nodup_range]
  · simp [create]
  · exact forall₂_replicate ⟨rfl, by simp⟩ _

variable {id slot i : Nat} {b : BufferPool P} {f : Frame P} {x : Option (Frame P)}
  {reserved : List Nat}

theorem PartsAgree.id_inj (h : PartsAgree reserved b) {j : Nat} {g : Frame P}
    (hf : b.slots[i]? = some (some f)) (hg : b.slots[j]? = some (some g)) (hid : f.id = g.id) :
    i = j := by
  have hi := (h.table f.id i).2 ⟨f, hf, rfl⟩
  have hj := (h.table f.id j).2 ⟨g, hg, hid.symm⟩
  rw [hi] at hj
  exact Option.some.inj hj

/-- A slot of the pool is there for the replacer also. -/
theorem PartsAgree.frame (h : PartsAgree reserved b) (hx : b.slots[slot]? = some x) :
    ∃ fd, b.replacer.frames[slot]? = some fd ∧ Agrees fd x :=
  forall₂_right h.agrees hx

/-- The slots after one slot has been given a page or has lost it. -/
theorem getElem?_set_iff {slots : List (Option (Frame P))} {y : Option (Frame P)}
    (hslot : slot < slots.length) : (slots.set slot x)[i]? = some y ↔
      (i = slot ∧ x = y) ∨ (i ≠ slot ∧ slots[i]? = some y) := by
  by_cases hi : i = slot
  · subst hi
    simp [getElem?_set_self hslot]
  · simp [getElem?_set_ne (Ne.symm hi), hi]

/-- The page table does not point to a slot whose page is another one. -/
theorem PartsAgree.lookup_ne (h : PartsAgree reserved b) (hx : b.slots[slot]? = some x)
    (hid : ∀ g, x = some g → g.id ≠ id) (hlookup : b.pageTable.lookup id = some i) : i ≠ slot := by
  rintro rfl
  obtain ⟨g, hg, hgid⟩ := (h.table id i).1 hlookup
  exact hid g (Option.some.inj (hx.symm.trans hg)) hgid

/-- The slots of a page after one slot has been given a page or has lost it. -/
theorem PartsAgree.holder_set (h : PartsAgree reserved b)
    (hslot : slot < b.slots.length) (x : Option (Frame P)) :
    (∃ g, (b.slots.set slot x)[i]? = some (some g) ∧ g.id = id) ↔
      (i = slot ∧ ∃ g, x = some g ∧ g.id = id) ∨ (i ≠ slot ∧ b.pageTable.lookup id = some i) := by
  by_cases hi : i = slot
  · subst hi
    simp [getElem?_set_self hslot]
  · simp [getElem?_set_ne (Ne.symm hi), hi, h.table]

/-! ## Taking a slot -/

theorem PartsAgree.evict (h : PartsAgree [] b) (hf : b.slots[slot]? = some (some f)) :
    PartsAgree [slot]
      { b with
        pageTable := b.pageTable.filter fun x => x.1 != f.id
        slots := b.slots.set slot none
        pageFree := b.pageFree + 1
        replacer := b.replacer.remove slot } := by
  have hslot := lt_of_getElem? hf
  obtain ⟨_, hfd, hagrees⟩ := h.frame hf
  have hnot : slot ∉ b.freshFree := by
    intro hmem
    have hnone := (h.free slot).1 (by simpa using hmem)
    rw [hf] at hnone
    cases hnone
  constructor
  · exact h.counted.remove slot
  -- The page table keeps the pages of the other slots.
  · intro id i
    rw [h.holder_set hslot, lookup_filter_key fun x => x != f.id]
    by_cases hid : id = f.id
    · rw [hid, (h.table f.id slot).2 ⟨f, hf, rfl⟩]
      simp [eq_comm]
    · have hne := h.lookup_ne (i := i) hf fun g hg => Option.some.inj hg ▸ Ne.symm hid
      rw [if_pos (bne_iff_ne.mpr hid)]
      simpa using hne
  · intro i
    rw [getElem?_set_iff hslot]
    have hfree : i ∈ b.freshFree ↔ b.slots[i]? = some none := by
      simpa using h.free i
    by_cases hi : i = slot
    · simp [hi]
    · simp [hi, hfree]
  · have hnodup := h.nodup
    rw [append_nil] at hnodup
    refine nodup_append.2 ⟨hnodup, by simp, ?_⟩
    intro a ha c hc
    rw [mem_singleton.1 hc]
    rintro rfl
    exact hnot ha
  · have hfree := h.pageFree
    simp [hfree]
  · rw [LruK.remove, hfd]
    dsimp only
    rw [if_pos (show _ = true from hagrees.1)]
    exact forall₂_set h.agrees slot ⟨rfl, by simp⟩

/-- A slot is there for the taking if one is free or a page can be evicted; no
other page is lost, and no page that is pinned. -/
theorem exec_acquireFreshSlot (h : PartsAgree [] b)
    (hroom : b.freshFree ≠ [] ∨ b.replacer.evictableCount ≠ 0) :
    ∃ slot b', exec acquireFreshSlot b = (.ok slot, b') ∧ PartsAgree [slot] b' ∧
      slot < b.slots.length ∧ b'.slots.length = b.slots.length ∧
      (∀ (i : Nat) f, b'.slots[i]? = some (some f) → b.slots[i]? = some (some f)) ∧
      ∀ (i : Nat) f, b.slots[i]? = some (some f) → f.pins ≠ 0 →
        b'.slots[i]? = some (some f) := by
  rw [acquireFreshSlot, exec_get_bind]
  cases hfree : b.freshFree with
  | cons slot rest =>
    have hnone : b.slots[slot]? = some none := by
      apply (h.free slot).1
      rw [hfree]
      simp
    have hperm : (rest ++ [slot]).Perm (b.freshFree ++ []) := by
      rw [hfree, append_nil]
      exact perm_append_singleton slot rest
    refine ⟨slot, { b with freshFree := rest }, rfl, ?_, (lt_of_getElem? hnone),
      rfl, fun i f hf => hf, fun i f hf _ => hf⟩
    constructor
    · exact h.counted
    · exact h.table
    · intro i
      rw [hperm.mem_iff]
      exact h.free i
    · exact hperm.nodup_iff.2 h.nodup
    · exact h.pageFree.trans hperm.length_eq.symm
    · exact h.agrees
  -- No slot is free: the victim of the replacer is not pinned, and its page goes.
  | nil =>
    have hpos : b.replacer.evictableCount ≠ 0 := by
      rcases hroom with hne | hpos
      · exact absurd hfree hne
      · exact hpos
    obtain ⟨slot, _, hvictim, hfd, -, hevictable, -⟩ :=
      LruK.victim_eq_some h.counted hpos
    obtain ⟨x, hx, hagrees⟩ := forall₂_left h.agrees hfd
    obtain ⟨f, rfl, hpins⟩ := hagrees.2.1 hevictable
    have hslot := lt_of_getElem? hx
    refine ⟨slot, _, ?_, h.evict hx, hslot, length_set, ?_, ?_⟩
    · rw [hvictim]
      dsimp only
      rw [hx]
      rfl
    · intro i g hg
      rcases (getElem?_set_iff hslot).1 hg with ⟨-, hnone⟩ | ⟨-, hg⟩
      · cases hnone
      · exact hg
    · intro i g hg hpinned
      refine (getElem?_set_iff hslot).2 (.inr ⟨?_, hg⟩)
      rintro rfl
      cases hx.symm.trans hg
      exact hpinned hpins

theorem PartsAgree.fill (h : PartsAgree [slot] b) (page : P) (hid : b.pageTable.lookup id = none) :
    PartsAgree []
      { b with
        slots := b.slots.set slot (some ⟨id, page, 1⟩)
        pageFree := b.pageFree - 1
        pageTable := (id, slot) :: b.pageTable
        replacer := (b.replacer.recordAccess slot).pin slot } := by
  have hnone : b.slots[slot]? = some none := (h.free slot).1 (by simp)
  have hslot := lt_of_getElem? hnone
  obtain ⟨_, hfd, -⟩ := h.frame hnone
  obtain ⟨g, hframes, htracked, hevictable⟩ := LruK.frames_access hfd
  have hnodup := h.nodup
  constructor
  · exact (h.counted.recordAccess slot).pin slot
  · intro k i
    rw [h.holder_set hslot]
    by_cases hk : k = id
    · rw [hk, hid]
      simp [eq_comm]
    · have hne : b.pageTable.lookup k = some i → i ≠ slot := h.lookup_ne hnone nofun
      rw [lookup_cons, beq_false_of_ne hk]
      simpa [Ne.symm hk] using hne
  · intro i
    rw [getElem?_set_iff hslot, ← h.free i]
    have hnot : slot ∉ b.freshFree := by
      intro hmem
      exact (nodup_append.1 hnodup).2.2 slot hmem slot (by simp) rfl
    by_cases hi : i = slot
    · simp [hi, hnot]
    · simp [hi]
  · rw [append_nil]
    exact (nodup_append.1 hnodup).1
  · rw [h.pageFree]
    simp
  · rw [hframes]
    refine forall₂_set h.agrees slot ⟨htracked, ?_⟩
    simp [hevictable]

theorem PartsAgree.release (h : PartsAgree [slot] b) :
    PartsAgree [] { b with freshFree := b.freshFree ++ [slot] } := by
  constructor
  · exact h.counted
  · exact h.table
  · simpa using h.free
  · simpa using h.nodup
  · simpa using h.pageFree
  · exact h.agrees

/-- The frame of a page changes, and the replacer is told of its pins. -/
theorem PartsAgree.refill (h : PartsAgree [] b) (hf : b.slots[slot]? = some (some f)) (f' : Frame P)
    (hid' : f'.id = f.id) {replacer : LruK} {g : FrameData} (hcounted : replacer.Counted)
    (hframes : replacer.frames = b.replacer.frames.set slot g) (htracked : g.tracked = true)
    (hevictable : g.evictable = true ↔ f'.pins = 0) :
    PartsAgree [] { b with slots := b.slots.set slot (some f'), replacer := replacer } := by
  have hslot := lt_of_getElem? hf
  constructor
  · exact hcounted
  · intro id i
    rw [h.holder_set hslot]
    by_cases hid : id = f.id
    · rw [hid, (h.table f.id slot).2 ⟨f, hf, rfl⟩]
      simp [hid', eq_comm]
    · have hne := h.lookup_ne (i := i) hf fun g hg => Option.some.inj hg ▸ Ne.symm hid
      simpa [hid', Ne.symm hid] using hne
  · intro i
    rw [getElem?_set_iff hslot, h.free i]
    by_cases hi : i = slot
    · simp [hi, hf]
    · simp [hi]
  · exact h.nodup
  · exact h.pageFree
  · rw [hframes]
    refine forall₂_set h.agrees slot ⟨htracked, ?_⟩
    rw [hevictable]
    simp

/-- As long as it does not matter to the replacer, it need not be told. -/
theorem PartsAgree.refill_same (h : PartsAgree [] b) (hf : b.slots[slot]? = some (some f))
    (f' : Frame P)
    (hid' : f'.id = f.id) (hpins : f'.pins = 0 ↔ f.pins = 0) :
    PartsAgree [] { b with slots := b.slots.set slot (some f') } := by
  obtain ⟨_, hfd, hagrees⟩ := h.frame hf
  obtain ⟨_, hget⟩ := List.getElem?_eq_some_iff.1 hfd
  refine h.refill hf f' hid' h.counted (by rw [← hget, set_getElem_self]) hagrees.1 ?_
  rw [hagrees.2, hpins]
  simp

/-! ## Fetching pages and giving them back -/

/-- The pool after `slot` was given a frame: the other pages are those of before, and none that is
pinned is missing. -/
structure Placed (b b' : BufferPool P) (slot : Nat) (f : Frame P) : Prop where
  parts : PartsAgree [] b'
  length : b'.slots.length = b.slots.length
  here : b'.slots[slot]? = some (some f)
  others : ∀ (i : Nat) (g : Frame P), i ≠ slot → b'.slots[i]? = some (some g) →
    b.slots[i]? = some (some g)
  pinned : ∀ (i : Nat) (g : Frame P), i ≠ slot → b.slots[i]? = some (some g) → g.pins ≠ 0 →
    b'.slots[i]? = some (some g)

theorem placed_set {b' : BufferPool P} (hslot : slot < b.slots.length)
    (hslots : b'.slots = b.slots.set slot (some f)) (h : PartsAgree [] b') :
    Placed b b' slot f where
  parts := h
  length := by rw [hslots, length_set]
  here := by
    rw [hslots]
    exact getElem?_set_self hslot
  others i g hi hg := by
    rwa [hslots, getElem?_set_ne (Ne.symm hi)] at hg
  pinned i g hi hg _ := by
    rwa [hslots, getElem?_set_ne (Ne.symm hi)]

theorem exec_fetchPage_hit (read : Nat → Except Error P) (h : PartsAgree [] b)
    (hf : b.slots[slot]? = some (some f)) (hid : f.id = id) :
    ∃ b', exec (fetchPage read id) b = (.ok f.page, b') ∧
      Placed b b' slot { f with pins := f.pins + 1 } := by
  have hslot := lt_of_getElem? hf
  obtain ⟨_, hfd, -⟩ := h.frame hf
  obtain ⟨g, hframes, htracked, hevictable⟩ := LruK.frames_access hfd
  have hlookup : b.pageTable.lookup id = some slot := (h.table id slot).2 ⟨f, hf, hid⟩
  refine ⟨_, ?_, placed_set hslot rfl (h.refill hf { f with pins := f.pins + 1 } rfl
    ((h.counted.recordAccess slot).pin slot) hframes htracked (by simp [hevictable]))⟩
  rw [fetchPage, exec_get_bind, hlookup]
  dsimp only
  rw [hf]
  rfl

/-- A page that is in no slot is read from the file; a failed read costs no page that is pinned. -/
theorem exec_fetchPage_miss (read : Nat → Except Error P) (h : PartsAgree [] b)
    (hroom : b.freshFree ≠ [] ∨ b.replacer.evictableCount ≠ 0)
    (hlookup : b.pageTable.lookup id = none) :
    (∃ e b', read id = .error e ∧ exec (fetchPage read id) b = (.error e, b') ∧
        PartsAgree [] b' ∧ b'.slots.length = b.slots.length ∧
        (∀ (i : Nat) g, b'.slots[i]? = some (some g) → b.slots[i]? = some (some g)) ∧
        ∀ (i : Nat) g, b.slots[i]? = some (some g) → g.pins ≠ 0 →
          b'.slots[i]? = some (some g)) ∨
      ∃ page slot b', read id = .ok page ∧ exec (fetchPage read id) b = (.ok page, b') ∧
        Placed b b' slot ⟨id, page, 1⟩ ∧
        ∀ g : Frame P, b.slots[slot]? = some (some g) → g.pins = 0 := by
  obtain ⟨slot, b₁, hacquire, hparts, _, hlen, hkept, hpinned⟩ := exec_acquireFreshSlot h hroom
  have hfree : b₁.pageFree ≠ 0 := by
    rw [hparts.pageFree]
    simp
  have hlookup₁ : b₁.pageTable.lookup id = none := by
    cases hcase : b₁.pageTable.lookup id with
    | none => rfl
    | some i =>
      obtain ⟨f, hf, hid⟩ := (hparts.table id i).1 hcase
      rw [(h.table id i).2 ⟨f, hkept i f hf, hid⟩] at hlookup
      cases hlookup
  rw [fetchPage, exec_get_bind, hlookup]
  rw [exec_bind_ok hacquire, exec_get_bind, if_neg hfree]
  cases hread : read id with
  | error e => exact .inl ⟨e, _, rfl, rfl, hparts.release, hlen, hkept, hpinned⟩
  | ok page =>
    have hplaced := placed_set (by rwa [hlen]) rfl (hparts.fill page hlookup₁)
    refine .inr ⟨page, slot, _, rfl, rfl, ⟨hplaced.parts, hplaced.length.trans hlen,
      hplaced.here, fun i g hi hg => hkept i g (hplaced.others i g hi hg),
      fun i g hi hg hpins => hplaced.pinned i g hi (hpinned i g hg hpins) hpins⟩, ?_⟩
    intro g hg
    by_contra hpins
    have hnone := (hparts.free slot).1 (by simp)
    rw [hpinned slot g hg hpins] at hnone
    cases hnone

theorem exec_unpinPage (h : PartsAgree [] b) (hf : b.slots[slot]? = some (some f)) (hid : f.id = id)
    (hpins : f.pins ≠ 0) :
    ∃ b', exec (unpinPage id) b = (.ok (), b') ∧
      Placed b b' slot { f with pins := f.pins - 1 } := by
  have hslot := lt_of_getElem? hf
  obtain ⟨_, hfd, hagrees⟩ := h.frame hf
  have hlookup : b.pageTable.lookup id = some slot := (h.table id slot).2 ⟨f, hf, hid⟩
  have hexec : exec (unpinPage id) b = (.ok (),
      { b with
        slots := b.slots.set slot (some { f with pins := f.pins - 1 })
        replacer := if f.pins - 1 = 0 then b.replacer.unpin slot else b.replacer }) := by
    rw [unpinPage, exec_get_bind, hlookup]
    dsimp only
    rw [hf]
    dsimp only
    rw [if_neg hpins]
    rfl
  refine ⟨_, hexec, placed_set hslot rfl ?_⟩
  by_cases hlast : f.pins - 1 = 0
  · rw [if_pos hlast]
    exact h.refill hf { f with pins := f.pins - 1 } rfl (h.counted.unpin slot)
      (LruK.frames_unpin hfd hagrees.1) hagrees.1 (by simp [hlast])
  · rw [if_neg hlast]
    exact h.refill_same hf _ rfl (iff_of_false hlast hpins)

/-! ## A pool in which nothing is pinned -/

/-- A page is in a slot. -/
def Cached (b : BufferPool P) (id : Nat) (page : P) : Prop :=
  ∃ (slot : Nat) (f : Frame P), b.slots[slot]? = some (some f) ∧ f.id = id ∧ f.page = page

/-- Nothing is pinned. -/
structure Idle (b : BufferPool P) : Prop where
  parts : PartsAgree [] b
  nonempty : b.slots ≠ []
  unpinned : ∀ (slot : Nat) (f : Frame P), b.slots[slot]? = some (some f) → f.pins = 0

/-- There is a slot for another page unless all slots have pages that are pinned. -/
theorem PartsAgree.room (h : PartsAgree [] b) (hslot : b.slots[slot]? = some x)
    (hx : ∀ f, x = some f → f.pins = 0) :
    b.freshFree ≠ [] ∨ b.replacer.evictableCount ≠ 0 := by
  by_cases hfree : b.freshFree = []
  · right
    obtain ⟨fd, hfd, hagrees⟩ := h.frame hslot
    cases x with
    | none =>
      have hmem := (h.free slot).2 hslot
      rw [hfree] at hmem
      cases hmem
    | some f =>
      have hevictable := hagrees.2.2 ⟨f, rfl, hx f rfl⟩
      rw [h.counted.count]
      exact Nat.ne_of_gt (countP_pos_iff.2 ⟨fd, mem_of_getElem? hfd, hevictable⟩)
  · exact .inl hfree

theorem Idle.room (h : Idle b) : b.freshFree ≠ [] ∨ b.replacer.evictableCount ≠ 0 := by
  obtain ⟨x, _, hslots⟩ := exists_cons_of_ne_nil h.nonempty
  have hx : b.slots[0]? = some x := by rw [hslots]; rfl
  refine h.parts.room hx ?_
  rintro f rfl
  exact h.unpinned 0 f hx

/-- A page is fetched and given back. -/
def withPage {α : Type} (read : Nat → Except Error P) (id : Nat) (use : P → α) :
    Op (BufferPool P) α := do
  let page ← fetchPage read id
  unpinPage id
  pure (use page)

/-- The pages in the slots are those of the file. -/
def Coherent (read : Nat → Except Error P) (b : BufferPool P) : Prop :=
  ∀ id page, Cached b id page → read id = .ok page

/-- What a pool in which nothing is pinned returns is what the file has.  No page but the one asked
for comes into the pool. -/
theorem exec_withPage {α : Type} {read : Nat → Except Error P} (h : Idle b)
    (hcoherent : Coherent read b) (id : Nat) (use : P → α) :
    ∃ b', exec (withPage read id use) b = ((read id).map use, b') ∧ Idle b' ∧
      Coherent read b' ∧ ∀ k page, Cached b' k page → Cached b k page ∨ k = id := by
  -- After the page has been fetched.
  have hdone : ∀ b₁ slot page,
      exec (fetchPage read id) b = (.ok page, b₁) → read id = .ok page →
      Placed b b₁ slot ⟨id, page, 1⟩ →
      ∃ b', exec (withPage read id use) b = ((read id).map use, b') ∧ Idle b' ∧
        Coherent read b' ∧ ∀ k page, Cached b' k page → Cached b k page ∨ k = id := by
    intro b₁ slot page hfetch hread hplaced
    obtain ⟨b', hunpin, hback⟩ := exec_unpinPage hplaced.parts hplaced.here rfl Nat.one_ne_zero
    have hfrom : ∀ (i : Nat) g, b'.slots[i]? = some (some g) →
        g = ⟨id, page, 0⟩ ∨ b.slots[i]? = some (some g) := by
      intro i g hg
      by_cases hi : i = slot
      · subst hi
        cases hback.here.symm.trans hg
        exact .inl rfl
      · exact .inr (hplaced.others i g hi (hback.others i g hi hg))
    refine ⟨b', ?_, ⟨hback.parts, ?_, ?_⟩, ?_, ?_⟩
    · rw [withPage, exec_bind_ok hfetch, exec_bind_ok hunpin, hread]
      rfl
    · rw [← length_pos_iff, hback.length, hplaced.length]
      exact length_pos_iff.2 h.nonempty
    · intro i g hg
      rcases hfrom i g hg with rfl | hg
      · rfl
      · exact h.unpinned i g hg
    · rintro k p ⟨i, g, hg, rfl, rfl⟩
      rcases hfrom i g hg with rfl | hg
      · exact hread
      · exact hcoherent _ _ ⟨i, g, hg, rfl, rfl⟩
    · rintro k p ⟨i, g, hg, rfl, rfl⟩
      rcases hfrom i g hg with rfl | hg
      · exact .inr rfl
      · exact .inl ⟨i, g, hg, rfl, rfl⟩
  cases hlookup : b.pageTable.lookup id with
  | some slot =>
    obtain ⟨f, hf, hid⟩ := (h.parts.table id slot).1 hlookup
    obtain ⟨b₁, hfetch, hplaced⟩ := exec_fetchPage_hit read h.parts hf hid
    have hframe : ({ f with pins := f.pins + 1 } : Frame P) = ⟨id, f.page, 1⟩ := by
      rw [h.unpinned slot f hf, hid]
    rw [hframe] at hplaced
    exact hdone b₁ slot f.page hfetch (hcoherent id f.page ⟨slot, f, hf, hid, rfl⟩) hplaced
  | none =>
    rcases exec_fetchPage_miss read h.parts h.room hlookup with
      ⟨e, b₁, hread, hfetch, hparts, hlen, hkept, -⟩ | ⟨page, slot, b₁, hread, hfetch, hplaced, -⟩
    · have hcached : ∀ k p, Cached b₁ k p → Cached b k p :=
        fun k p ⟨i, g, hg, hp⟩ => ⟨i, g, hkept i g hg, hp⟩
      refine ⟨b₁, ?_, ⟨hparts, ?_, fun i g hg => h.unpinned i g (hkept i g hg)⟩,
        fun k p hp => hcoherent k p (hcached k p hp), fun k p hp => .inl (hcached k p hp)⟩
      · rw [withPage, exec_bind_error hfetch, hread]
        rfl
      · rw [← length_pos_iff, hlen]
        exact length_pos_iff.2 h.nonempty
    · exact hdone b₁ slot page hfetch hread hplaced

end BufferPool
end NyxDb
