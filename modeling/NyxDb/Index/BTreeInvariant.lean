import NyxDb.Index.BTreeSim

/-!
# The invariant of an index

`Holds f es` says that the index file `f` stores a sound B+tree with the entries `es`, ordered as
soon as no key has a NaN component.  Every insertion keeps it: it puts one entry into the list, or
it is refused as a duplicate and changes nothing but the dirty flag (`exec_insert`).
-/

namespace NyxDb.BTreeIndex

open BPlus IndexFile List

/-- The pages of the file hold the tree `t`, with its root where the file says. -/
structure IsTree (f : IndexFile) {h : Nat} (t : Tree Bytes Nat h) : Prop where
  onPages : OnPages f.nodeCapacity f.nextPageId t
  stored : Stored f.look t
  root : f.rootPageId = rootId t

variable {h : Nat} {t : Tree Bytes Nat h} {f : IndexFile}

theorem IsTree.laid (ht : IsTree f t) : Laid f t :=
  ⟨ht.onPages.shape, ht.stored, ht.onPages.nodup, fun i hi => (ht.onPages.bound i hi).2⟩

theorem IsTree.root_ne (ht : IsTree f t) : f.rootPageId ≠ 0 := by
  rw [ht.root]
  exact Nat.ne_of_gt (ht.onPages.bound _ (rootId_mem_pageIds t)).1

/-- The keys are encodings of values without NaN, over columns with a width. -/
def AllGood (specs : List IndexColSpec) (es : List (Bytes × Nat)) : Prop :=
  WidthsPos specs ∧ ∀ e ∈ es, GoodKey specs e.1

/-- What the file of an index is like, whatever tree it stores. -/
structure FileOk (f : IndexFile) : Prop where
  length : f.disk.pages.length = f.nextPageId
  nonempty : 0 < f.nextPageId
  capacity : 0 < f.nodeCapacity
  header : if f.dirty then f.disk.header.dirty = true
    else f.disk.header = ⟨false, f.rootPageId, f.entryCount⟩

/-- The index stores the entries `es`. -/
structure Holds (f : IndexFile) (es : List (Bytes × Nat)) : Prop extends FileOk f where
  tree : (f.rootPageId = 0 ∧ es = []) ∨
    ∃ (h : Nat) (t : Tree Bytes Nat h), IsTree f t ∧ toList t = es ∧
      (AllGood f.cols es → Ordered (GoodKey f.cols) (keyLe f.cols) t)

/-- The order of the tree after an insertion at the root. -/
def OrderKept (specs : List IndexColSpec) {h h' : Nat} (t : Tree Bytes Nat h)
    (t' : Tree Bytes Nat h') : Prop :=
  AllGood specs (toList t') → Ordered (GoodKey specs) (keyLe specs) t →
    Ordered (GoodKey specs) (keyLe specs) t'

/-- What a successful insertion into the tree `t` leaves. -/
structure Inserted (f f' : IndexFile) {h : Nat} (t : Tree Bytes Nat h) (key : Bytes) (rowId : Nat)
    {m : Nat} (t' : Tree Bytes Nat m) : Prop where
  isTree : IsTree f' t'
  length : f'.disk.pages.length = f'.nextPageId
  nonempty : 0 < f'.nextPageId
  entries : ∃ X Y, toList t = X ++ Y ∧ toList t' = X ++ (key, rowId) :: Y
  order : OrderKept f.cols t t'
  dirty : f'.dirty = f.dirty
  header : f'.disk.header = f.disk.header
  keys : SameKeys f f'

section InsertRoot

variable {f : IndexFile} {h : Nat} {t : Tree Bytes Nat h} {key : Bytes} {rowId : Nat}

/-- The end of an insertion that leaves the root in place. -/
theorem inserted_of_none {f' : IndexFile} (ht : IsTree f t) (hf : FileOk f)
    (hrw : Rewrites f f' t (grown f key rowId t))
    (hr : (grown f key rowId t).1.right = none) :
    Inserted f f' t key rowId (grown f key rowId t).1.left := by
  have hslot := upperSlot_le f.cols key
  have honPages := onPages_insertAux (v := rowId) hslot hf.capacity ht.onPages hf.nonempty hr
  obtain ⟨X, Y, hX, hnew, _⟩ := insertAux_toList (v := rowId) hslot ht.onPages.shape f.nextPageId
  have htrees := Grown.trees_of_none hr
  rw [htrees, flatMap_singleton] at hnew
  have hle : f.nextPageId ≤ (grown f key rowId t).2 := le_grown ht.onPages.shape
  refine ⟨⟨?_, hrw.stored _ (by simp [htrees]), ?_⟩, ?_, ?_, ⟨X, Y, hX, hnew⟩, ?_, hrw.same.dirty,
    hrw.same.header, hrw.same.toSameKeys⟩
  · rw [hrw.same.nodeCapacity, hrw.next]
    exact honPages
  · rw [hrw.same.rootPageId, ht.root, insertAux_rootId]
  · rw [hrw.length, hrw.next]
  · rw [hrw.next]
    exact Nat.lt_of_lt_of_le hf.nonempty hle
  · intro hgood hord
    rw [hnew] at hgood
    exact insertAux_ordered hslot hf.capacity
      (upperSlot_places hgood.1 (hgood.2 (key, rowId) (by simp)))
      ht.onPages.shape hord hr

/-- The end of an insertion that split the root: a new root above the two halves. -/
theorem inserted_of_some {f₁ : IndexFile} (ht : IsTree f t) (hf : FileOk f)
    (hrw : Rewrites f f₁ t (grown f key rowId t))
    {q : Bytes} {u : Tree Bytes Nat h}
    (hr : (grown f key rowId t).1.right = some (q, u)) :
    ∃ f', exec (propagate [] q (rootId u)) f₁ = (.ok (), f') ∧
      Inserted f f' (m := h + 1) t key rowId (newRoot (grown f key rowId t).1 q u
          (grown f key rowId t).2) := by
  have hslot := upperSlot_le f.cols key
  have honPages := onPages_newRoot (v := rowId) hslot hf.capacity ht.onPages hf.nonempty hr
  obtain ⟨X, Y, hX, hnew, _⟩ := insertAux_toList (v := rowId) hslot ht.onPages.shape f.nextPageId
  have hpages : ∀ i ∈ (grown f key rowId t).1.trees.flatMap pageIds,
      0 < i ∧ i < (grown f key rowId t).2 := (insertAux_pages hslot ht.onPages hf.nonempty).2
  have hroot : rootId (grown f key rowId t).1.left = rootId t := insertAux_rootId t f.nextPageId
  have hord := fun (ho : AllGood f.cols (X ++ (key, rowId) :: Y)) hord =>
    newRoot_ordered (v := rowId) hslot hf.capacity
      (upperSlot_places ho.1 (ho.2 (key, rowId) (by simp)))
      ht.onPages.shape hord hr (grown f key rowId t).2
  set r := grown f key rowId t with hrdef
  have htrees := Grown.trees_of_some hr
  rw [htrees] at hnew hpages
  have hstored : ∀ d ∈ [r.1.left, u], Stored f₁.look d := fun d hd => hrw.stored d (htrees ▸ hd)
  obtain ⟨old, hold⟩ := (hstored r.1.left (by simp)).root
  have hrootlt : rootId r.1.left < r.2 :=
    (hpages _ (mem_flatMap.mpr ⟨r.1.left, by simp, rootId_mem_pageIds _⟩)).2
  have hroot₁ : f₁.rootPageId = rootId r.1.left := by
    rw [hrw.same.rootPageId, ht.root, hroot]
  have hnext := hrw.next
  -- The new root is written, then the old one is written back as it was.
  let f₃ := f₁.addPage (.internal [q] [f₁.rootPageId, rootId u])
  let f₄ := f₃.withPage f₁.rootPageId old
  have hlen₃ : f₃.disk.pages.length = f₃.nextPageId :=
    length_addPage (hrw.length.trans hnext.symm) _
  have hlook₃ : ∀ i < r.2, f₃.look i = f₁.look i := by
    intro i hi
    rw [look_addPage, if_neg (by omega)]
  have hold₃ : f₃.look f₁.rootPageId = some old := by
    rw [hroot₁, hlook₃ _ hrootlt, hold]
  have hlook₄ : ∀ i, f₄.look i = f₃.look i := look_withPage_self hold₃
  refine ⟨{ f₄ with rootPageId := r.2 }, ?_, ?_⟩
  · unfold propagate
    rw [exec_get_bind, exec_bind_ok (exec_reservePageId f₁),
      exec_bind_ok (exec_writePage _ _ _)]
    change exec (fetchPage f₁.rootPageId >>= _) f₃ = _
    rw [exec_bind_ok (exec_fetchPage hold₃), hnext]
    rfl
  · have hstored₄ : Stored f₄.look (h := h + 1) (newRoot r.1 q u r.2) := by
      constructor
      · show f₄.look r.2 = _
        rw [hlook₄, look_addPage, if_pos hnext.symm, hroot₁]
        rfl
      · intro d hd
        refine (hstored d hd).congr ?_
        intro i hi
        exact (hlook₄ i).trans (hlook₃ i (hpages i (mem_flatMap.mpr ⟨d, hd, hi⟩)).2)
    have hlist : toList (h := h + 1) (newRoot r.1 q u r.2) = X ++ (key, rowId) :: Y := by
      rw [toList_branch]
      exact hnew
    refine ⟨⟨?_, hstored₄, rfl⟩, length_withPage_of_lt hlen₃ ?_ old, Nat.succ_pos _,
      ⟨X, Y, hX, hlist⟩, ?_, hrw.same.dirty, hrw.same.header,
      hrw.same.toSameKeys.trans ⟨rfl, rfl, rfl, rfl, rfl, rfl⟩⟩
    · show OnPages f₁.nodeCapacity (f₁.nextPageId + 1) (h := h + 1) _
      rw [hrw.same.nodeCapacity, hnext]
      exact honPages
    · show f₁.rootPageId < f₁.nextPageId + 1
      omega
    · intro hgood hordt
      rw [hlist] at hgood
      exact hord hgood hordt

end InsertRoot

variable {f : IndexFile} {h : Nat} {es : List (Bytes × Nat)} {key : Bytes} {vals : List Value}

theorem IsTree.exec_findLeaf (ht : IsTree f t)
    (hlen : f.disk.pages.length = f.nextPageId) {leaf : Leaf Bytes Nat} {p : Path}
    (hd : descend (upperSlot f.cols) key t [] = some (leaf, p)) :
    exec (findLeaf key f.disk.pages.length f.rootPageId []) f = (.ok (leaf.id, p), f) := by
  rw [ht.root]
  exact BTreeIndex.exec_findLeaf ht.stored [] hd _ (by rw [hlen]; exact ht.onPages.height_lt)

/-- **Insertion below a root**: refused by the duplicate check at the leaf of the descent, or the
entry is put into the tree. -/
theorem exec_insertBelow (ht : IsTree f t) (hf : FileOk f) (key : Bytes) (rowId : Nat) :
    ∃ leaf p, descend (upperSlot f.cols) key t [] = some (leaf, p) ∧ leaf ∈ leaves t ∧
      (dupCheck f leaf.entries key = true →
        exec (insertBelow key rowId f.disk.pages.length f.rootPageId) f =
          (.error .indexDuplicateKey, f)) ∧ (dupCheck f leaf.entries key = false →
        ∃ f' h', ∃ t' : Tree Bytes Nat h', Inserted f f' t key rowId t' ∧
          exec (insertBelow key rowId f.disk.pages.length f.rootPageId) f = (.ok (), f') ∧
          (leaf.entries.length < f.nodeCapacity → f'.entryCount = f.entryCount + 1)) := by
  have hslot := upperSlot_le f.cols key
  obtain ⟨P, leaf, S, hdesc, hleaves, _⟩ :=
    insertAux_leaves (v := rowId) hslot ht.onPages.shape f.nextPageId
  obtain ⟨p, hp⟩ := hdesc []
  have hmem : leaf ∈ leaves t := by simp [hleaves]
  have hrun : exec (insertBelow key rowId f.disk.pages.length f.rootPageId) f =
      exec (insertIntoLeaf leaf.id key rowId >>= finish p) f := by
    unfold insertBelow
    rw [exec_bind_ok (ht.exec_findLeaf hf.length hp)]
    congr 2
  refine ⟨leaf, p, hp, hmem, ?_, ?_⟩
  · intro hdup
    rw [hrun]
    exact exec_bind_error (exec_insertIntoLeaf_dup (ht.stored.leaves leaf hmem) hdup) _
  · intro hdup
    -- a leaf with room is not split, so the insertion ends where it was counted
    have hcount : ∀ f', exec (insertIntoLeaf leaf.id key rowId >>= finish p) f = (.ok (), f') →
        leaf.entries.length < f.nodeCapacity → f'.entryCount = f.entryCount + 1 := by
      intro f' hexec hroom
      rw [exec_bind_ok (exec_insertIntoLeaf_room (ht.stored.leaves leaf hmem) hdup hroom)] at hexec
      cases hexec
      rfl
    obtain ⟨f₁, hrw, hexec⟩ := exec_insertIntoLeaf_finish rowId hf.length ht.laid [] hp hdup
    rw [hrun]
    cases hr : (grown f key rowId t).1.right with
    | none =>
      simp only [pushed, hr, Option.map_none] at hexec
      exact ⟨f₁, h, _, inserted_of_none ht hf hrw hr, hexec, hcount f₁ hexec⟩
    | some qu =>
      obtain ⟨f', hprop, hins⟩ := inserted_of_some ht hf hrw hr
      simp only [pushed, hr, Option.map_some] at hexec
      have hdone := hexec.trans hprop
      exact ⟨f', h + 1, _, hins, hdone, hcount f' hdone⟩

/-! ## The operation -/

/-- The file with its dirty flag set, in memory and on disk. -/
def dirtied (f : IndexFile) : IndexFile :=
  if f.dirty then f
  else { f with dirty := true, disk.header := ⟨true, f.rootPageId, f.entryCount⟩ }

theorem dirtied_sameKeys (f : IndexFile) : SameKeys f (dirtied f) := by
  unfold dirtied
  split
  · exact SameKeys.refl f
  · exact ⟨rfl, rfl, rfl, rfl, rfl, rfl⟩

theorem IsTree.dirtied (ht : IsTree f t) : IsTree (dirtied f) t := by
  unfold BTreeIndex.dirtied
  split
  · exact ht
  · exact { ht with }

theorem FileOk.dirtied (hf : FileOk f) : FileOk (dirtied f) ∧ (dirtied f).dirty = true := by
  unfold BTreeIndex.dirtied
  split
  · exact ⟨hf, ‹_›⟩
  · exact ⟨{ hf with header := rfl }, rfl⟩

theorem FileOk.holds (hf : FileOk f) (ht : IsTree f t)
    (hord : AllGood f.cols (toList t) → Ordered (GoodKey f.cols) (keyLe f.cols) t) :
    Holds f (toList t) :=
  { hf with tree := Or.inr ⟨h, t, ht, rfl, hord⟩ }

/-- The entries hold a key that a unique index refuses to take a second time. -/
def Duplicate (f : IndexFile) (es : List (Bytes × Nat)) (key : Bytes) : Prop :=
  f.isUnique = true ∧ keyHasNull f.cols key = false ∧ ∃ e ∈ es, compareKeys f.cols e.1 key = .eq

/-- The duplicate check only fires on a duplicate. -/
theorem duplicate_of_dupCheck {entries : List (Bytes × Nat)} (hsub : ∀ e ∈ entries, e ∈ es)
    (hdup : dupCheck f entries key = true) : Duplicate f es key := by
  simp only [dupCheck, Bool.and_eq_true, decide_eq_true_eq, Bool.not_eq_true', beq_iff_eq] at hdup
  obtain ⟨⟨⟨huniq, hslot⟩, hnull⟩, heq⟩ := hdup
  have hle := upperSlot_le f.cols key (entries.map Prod.fst)
  rw [length_map] at hle
  unfold findLeafInsertSlot at hslot heq
  have hlt : upperSlot f.cols (entries.map Prod.fst) key - 1 < entries.length := by omega
  rw [getD_eq_getElem?_getD, getElem?_eq_getElem hlt] at heq
  exact ⟨huniq, hnull, _, hsub _ (getElem_mem hlt), heq⟩

/-- On ordered entries the duplicate check finds every duplicate. -/
theorem dupCheck_of_duplicate (ht : IsTree f t)
    (hgood : AllGood f.cols (toList t)) (hkey : GoodKey f.cols key)
    (hord : Ordered (GoodKey f.cols) (keyLe f.cols) t) {leaf : Leaf Bytes Nat} {p : Path}
    (hd : descend (upperSlot f.cols) key t [] = some (leaf, p)) (hdup : Duplicate f
    (toList t) key) :
    dupCheck f leaf.entries key = true := by
  obtain ⟨huniq, hnull, e, he, heq⟩ := hdup
  have hplaces := upperSlot_places hgood.1 hkey
  obtain ⟨hek, hke⟩ := (compareKeys_eq_iff hgood.1 (hgood.2 e he) hkey).mp heq
  obtain ⟨g, hg, hget, hpos, hgk, heg⟩ := descend_pred (upperSlot_le f.cols key) hplaces
    ht.onPages.shape hord hd he hek
  have hkg : keyLe f.cols key g.1 :=
    hplaces.order.trans hkey (hgood.2 e he) (hgood.2 g hg) hke heg
  have hgeq := (compareKeys_eq_iff hgood.1 (hgood.2 g hg) hkey).mpr ⟨hgk, hkg⟩
  simp only [dupCheck, findLeafInsertSlot, Bool.and_eq_true, Bool.not_eq_true', beq_iff_eq]
  refine ⟨⟨⟨huniq, decide_eq_true hpos⟩, hnull⟩, ?_⟩
  rw [getD_eq_getElem?_getD, hget]
  exact hgeq

theorem exec_insert_empty (hf : Holds f []) (hroot : f.rootPageId = 0)
    (hkey : encodeKey f.cols vals = .ok key) (rowId : Nat) :
    ∃ f', exec (insert vals rowId) f = (.ok (), f') ∧ Holds f' [(key, rowId)] ∧
      SameKeys f f' ∧ f'.dirty = true ∧ f'.entryCount = 1 := by
  let f₁ : IndexFile := { f with dirty := true, disk.header := ⟨true, f.rootPageId, f.entryCount⟩ }
  let f₂ := f₁.addPage (.leaf [(key, rowId)] none)
  refine ⟨{ f₂ with rootPageId := f.nextPageId, entryCount := 1 }, ?_, ?_,
    ⟨rfl, rfl, rfl, rfl, rfl, rfl⟩, rfl, rfl⟩
  · unfold insert
    rw [exec_get_bind, hkey, exec_bind_ok (exec_ofExcept _ _), if_pos hroot]
    rfl
  · let t : Leaf Bytes Nat := ⟨f.nextPageId, [(key, rowId)], none⟩
    refine ⟨⟨length_addPage hf.length _, Nat.succ_pos _, hf.capacity, rfl⟩,
      Or.inr ⟨0, t, ⟨?_, ?_, rfl⟩, rfl, ?_⟩⟩
    · refine ⟨⟨by simp [t], hf.capacity⟩, rfl, by simp [t], ?_⟩
      intro i hi
      simp only [pageIds_leaf, mem_singleton, t] at hi
      subst hi
      exact ⟨hf.nonempty, Nat.lt_succ_self _⟩
    · exact (look_addPage _ _).trans (if_pos rfl)
    · intro hgood
      refine ⟨trivial, ⟨by simp [t], hgood.2⟩⟩

/-- Insertion into an index that has a root, whatever the order of its keys: the entry is put into
the tree, or the leaf of the descent holds a duplicate and the tree stays. -/
theorem exec_insert_tree (hf : FileOk f) (ht : IsTree f t)
    (hkey : encodeKey f.cols vals = .ok key) (rowId : Nat) :
    ∃ f' leaf p, SameKeys f f' ∧ FileOk f' ∧ f'.dirty = true ∧
      descend (upperSlot f.cols) key t [] = some (leaf, p) ∧ leaf ∈ leaves t ∧
      ((exec (insert vals rowId) f = (.error .indexDuplicateKey, f') ∧ IsTree f' t ∧
          f'.entryCount = f.entryCount ∧ dupCheck f leaf.entries key = true) ∨
        ∃ h', ∃ t' : Tree Bytes Nat h', exec (insert vals rowId) f = (.ok (), f') ∧ IsTree f' t' ∧
          (∃ X Y, toList t = X ++ Y ∧ toList t' = X ++ (key, rowId) :: Y) ∧ OrderKept f.cols t t' ∧
          dupCheck f leaf.entries key = false ∧
          (leaf.entries.length < f.nodeCapacity → f'.entryCount = f.entryCount + 1)) := by
  have hrun : exec (insert vals rowId) f =
      exec (insertBelow key rowId f.disk.pages.length f.rootPageId) (dirtied f) := by
    unfold insert dirtied
    rw [exec_get_bind, hkey, exec_bind_ok (exec_ofExcept _ _), if_neg ht.root_ne]
    cases f.dirty <;> rfl
  -- All that follows is about the file with its dirty flag set.
  have hk₀ := dirtied_sameKeys f
  obtain ⟨hf₀, hd₀⟩ := hf.dirtied
  obtain ⟨leaf, p, hdesc, hmem, hdupcase, hokcase⟩ := exec_insertBelow ht.dirtied hf₀ key rowId
  have hpages : (dirtied f).disk.pages = f.disk.pages := by unfold dirtied; split <;> rfl
  have hroot₀ : (dirtied f).rootPageId = f.rootPageId := by unfold dirtied; split <;> rfl
  have hcount₀ : (dirtied f).entryCount = f.entryCount := by unfold dirtied; split <;> rfl
  have hdup₀ : dupCheck (dirtied f) leaf.entries key = dupCheck f leaf.entries key := by
    simp [dupCheck, hk₀.cols, hk₀.isUnique]
  rw [hpages, hroot₀, hdup₀] at hdupcase
  rw [hpages, hroot₀, hdup₀, hcount₀, hk₀.nodeCapacity] at hokcase
  rw [hk₀.cols] at hdesc
  cases hdup : dupCheck f leaf.entries key with
  | true =>
    exact ⟨dirtied f, leaf, p, hk₀, hf₀, hd₀, hdesc, hmem,
      Or.inl ⟨hrun.trans (hdupcase hdup), ht.dirtied, hcount₀, hdup⟩⟩
  | false =>
    obtain ⟨f', h', t', hins, hexec, hcount⟩ := hokcase hdup
    have hd' : f'.dirty = true := hins.dirty.trans hd₀
    have hheader := hf₀.header
    have hkeys := hk₀.trans hins.keys
    have horder := hins.order
    rw [hd₀] at hheader
    rw [hk₀.cols] at horder
    refine ⟨f', leaf, p, hkeys, ⟨hins.length, hins.nonempty, ?_, ?_⟩, hd', hdesc, hmem,
      Or.inr ⟨h', t', hrun.trans hexec, hins.isTree, hins.entries, horder, hdup, hcount⟩⟩
    · rw [hkeys.nodeCapacity]
      exact hf.capacity
    · rw [hd', hins.header]
      exact hheader

/-- **Insertion keeps the invariant.**  It puts the entry into the list of entries, or it is
refused as a duplicate; the index is dirty afterwards. -/
theorem exec_insert (hf : Holds f es) (hkey : encodeKey f.cols vals = .ok key) (rowId : Nat) :
    ∃ f', SameKeys f f' ∧ f'.dirty = true ∧
      ((exec (insert vals rowId) f = (.error .indexDuplicateKey, f') ∧ Holds f' es ∧
          Duplicate f es key) ∨
        ∃ X Y, exec (insert vals rowId) f = (.ok (), f') ∧ es = X ++ Y ∧
          Holds f' (X ++ (key, rowId) :: Y) ∧
          (AllGood f.cols es → GoodKey f.cols key → ¬ Duplicate f es key)) := by
  rcases hf.tree with ⟨hroot, rfl⟩ | ⟨h, t, ht, rfl, hord⟩
  · obtain ⟨f', hexec, hf', hkeys, hdirty, -⟩ := exec_insert_empty hf hroot hkey rowId
    refine ⟨f', hkeys, hdirty, Or.inr ⟨[], [], hexec, rfl, hf', ?_⟩⟩
    rintro _ _ ⟨_, _, e, he, _⟩
    simp at he
  · obtain ⟨f', leaf, p, hkeys, hfile, hdirty, hdesc, hmem,
      ⟨hexec, ht', -, hdup⟩ | ⟨_, _, hexec, ht', ⟨X, Y, hX, hnew⟩, horder, hdup, -⟩⟩ :=
      exec_insert_tree hf.toFileOk ht hkey rowId
    · refine ⟨f', hkeys, hdirty, Or.inl ⟨hexec, hfile.holds ht' ?_, ?_⟩⟩
      · rw [hkeys.cols]
        exact hord
      · exact duplicate_of_dupCheck (fun e he => mem_flatMap.mpr ⟨leaf, hmem, he⟩) hdup
    · refine ⟨f', hkeys, hdirty, Or.inr ⟨X, Y, hexec, hX, hnew ▸ hfile.holds ht' ?_, ?_⟩⟩
      · rw [hkeys.cols]
        refine fun hgood => horder hgood (hord ⟨hgood.1, fun e he => hgood.2 e ?_⟩)
        rw [hX] at he
        rw [hnew]
        simp only [mem_append, mem_cons] at he ⊢
        exact he.imp_right Or.inr
      · intro hgood hgk hduplicate
        rw [dupCheck_of_duplicate ht hgood hgk (hord hgood) hdesc hduplicate] at hdup
        cases hdup

end NyxDb.BTreeIndex
