import NyxDb.Index.BTree
import Mathlib.Data.List.Nodup

/-!
# The index pages hold a B+tree

Insertion on pages simulates insertion into the B+tree that the pages store: `findLeaf` reaches the
leaf of the abstract descent (`exec_findLeaf`), and what follows rewrites the pages of the tree into
those of `BPlus.insertAux` (`exec_insertIntoLeaf_finish`), by induction on the height.
-/

namespace NyxDb

open BPlus List

namespace IndexFile

/-- The file after a page was written. -/
def withPage (f : IndexFile) (id : Nat) (p : IndexPage) : IndexFile :=
  { f with disk.pages := f.disk.pages.write id p }

variable {f : IndexFile} {id : Nat}

theorem look_withPage (p : IndexPage) (i : Nat) :
    (f.withPage id p).look i = if i = id then some p else f.look i :=
  PageFile.look_write p i

/-- Writing what is on a page already changes nothing. -/
theorem look_withPage_self {p : IndexPage} (h : f.look id = some p) (i : Nat) :
    (f.withPage id p).look i = f.look i := by
  rw [look_withPage]
  split
  · next hi => rw [hi, h]
  · rfl

theorem length_withPage_of_lt (hlen : f.disk.pages.length = f.nextPageId) (hid : id < f.nextPageId)
    (p : IndexPage) : (f.withPage id p).disk.pages.length = f.nextPageId := by
  refine (PageFile.length_write (by omega) p).trans ?_
  omega

/-- The file after a page was added. -/
def addPage (f : IndexFile) (p : IndexPage) : IndexFile :=
  { f with nextPageId := f.nextPageId + 1 }.withPage f.nextPageId p

theorem look_addPage (p : IndexPage) (i : Nat) :
    (f.addPage p).look i = if i = f.nextPageId then some p else f.look i :=
  look_withPage p i

theorem length_addPage (hlen : f.disk.pages.length = f.nextPageId) (p : IndexPage) :
    (f.addPage p).disk.pages.length = f.nextPageId + 1 := by
  refine (PageFile.length_write (Nat.le_of_eq hlen.symm) p).trans ?_
  omega

/-- The file after a split: the left half stays on the page, the right half is on a new one. -/
def splitPage (f : IndexFile) (id : Nat) (left right : IndexPage) : IndexFile :=
  (f.withPage id left).addPage right

theorem look_splitPage (left right : IndexPage) (i : Nat) :
    (f.splitPage id left right).look i =
      if i = f.nextPageId then some right else if i = id then some left else f.look i := by
  rw [splitPage, look_addPage, look_withPage]
  rfl

theorem length_splitPage (hlen : f.disk.pages.length = f.nextPageId) (hid : id < f.nextPageId)
    (left right : IndexPage) :
    (f.splitPage id left right).disk.pages.length = f.nextPageId + 1 :=
  length_addPage (length_withPage_of_lt hlen hid left) right

@[simp] theorem exec_writePage (id : Nat) (p : IndexPage) (f : IndexFile) :
    exec (writePage id p) f = (.ok (), f.withPage id p) := rfl

@[simp] theorem exec_reservePageId (f : IndexFile) :
    exec reservePageId f = (.ok f.nextPageId, { f with nextPageId := f.nextPageId + 1 }) :=
  rfl

@[simp] theorem exec_setDirty (d : Bool) (f : IndexFile) : exec (setDirty d) f =
      (.ok (), { f with dirty := d, disk.header := ⟨d, f.rootPageId, f.entryCount⟩ }) := rfl

theorem exec_fetchPage {p : IndexPage} (h : f.look id = some p) :
    exec (fetchPage id) f = (.ok p, f) := by
  unfold fetchPage
  rw [exec_get_bind, h]
  rfl

/-- Two states of an index with the same key columns. -/
structure SameKeys (f f' : IndexFile) : Prop where
  cols : f'.cols = f.cols
  colIndices : f'.colIndices = f.colIndices
  isUnique : f'.isUnique = f.isUnique
  diskCols : f'.disk.cols = f.disk.cols
  diskColIndices : f'.disk.colIndices = f.disk.colIndices
  diskIsUnique : f'.disk.isUnique = f.disk.isUnique

/-- Two states of an index that differ at most in their nodes and in the entry count. -/
structure SameIndex (f f' : IndexFile) : Prop extends SameKeys f f' where
  rootPageId : f'.rootPageId = f.rootPageId
  dirty : f'.dirty = f.dirty
  header : f'.disk.header = f.disk.header

theorem SameKeys.refl (f : IndexFile) : SameKeys f f :=
  ⟨rfl, rfl, rfl, rfl, rfl, rfl⟩

theorem SameIndex.refl (f : IndexFile) : SameIndex f f :=
  ⟨SameKeys.refl f, rfl, rfl, rfl⟩

theorem sameIndex_addPage (f : IndexFile) (p : IndexPage) : SameIndex f (f.addPage p) :=
  ⟨⟨rfl, rfl, rfl, rfl, rfl, rfl⟩, rfl, rfl, rfl⟩

theorem SameKeys.trans {g k : IndexFile} (h₁ : SameKeys f g) (h₂ : SameKeys g k) : SameKeys f k :=
  ⟨h₂.cols.trans h₁.cols, h₂.colIndices.trans h₁.colIndices, h₂.isUnique.trans h₁.isUnique,
    h₂.diskCols.trans h₁.diskCols, h₂.diskColIndices.trans h₁.diskColIndices,
    h₂.diskIsUnique.trans h₁.diskIsUnique⟩

theorem SameKeys.nodeCapacity {f' : IndexFile} (h : SameKeys f f') :
    f'.nodeCapacity = f.nodeCapacity := by
  unfold IndexFile.nodeCapacity IndexFile.keySize
  rw [h.cols]

theorem SameIndex.trans {g k : IndexFile} (h₁ : SameIndex f g) (h₂ : SameIndex g k) :
    SameIndex f k :=
  ⟨h₁.toSameKeys.trans h₂.toSameKeys, h₂.rootPageId.trans h₁.rootPageId,
    h₂.dirty.trans h₁.dirty, h₂.header.trans h₁.header⟩

end IndexFile

namespace BTreeIndex

open IndexFile

/-! ## Slots -/

theorem upperSlot_le (specs : List IndexColSpec) (key : Bytes) (keys : List Bytes) :
    upperSlot specs keys key ≤ keys.length :=
  (bsearch_mem _ _ _ _ (Nat.zero_le _)).2

variable {key : Bytes} {f : IndexFile} {rowId h : Nat} {t : Branch Bytes (Tree Bytes Nat h)}
  {specs : List IndexColSpec}

/-- In sorted keys without NaN the slot is the upper bound. -/
theorem upperSlot_places (hpos : WidthsPos specs)
    (hkey : GoodKey specs key) : Places (GoodKey specs) (keyLe specs) (upperSlot specs) key := by
  have ho := keyLe_orderOn hpos
  refine ⟨ho, fun ks hgood hsorted => ?_, hkey⟩
  let p : Nat → Bool := fun mid => compareKeys specs (ks.getD mid []) key != .gt
  have hp_iff : ∀ i, (hi : i < ks.length) → (p i = true ↔ keyLe specs ks[i] key) := by
    intro i hi
    simp [p, keyLe, hi]
  have hmono : ∀ i j, i ≤ j → j < ks.length → p j = true → p i = true := by
    intro i j hij hj hpj
    rw [hp_iff j hj] at hpj
    rw [hp_iff i (by omega)]
    rcases Nat.lt_or_eq_of_le hij with hlt | rfl
    · exact ho.trans (hgood _ (getElem_mem _)) (hgood _ (getElem_mem _)) hkey
        (pairwise_iff_getElem.mp hsorted i j (by omega) hj hlt) hpj
    · exact hpj
  obtain ⟨hlow, hhigh⟩ := bsearch_spec hmono ks.length 0 ks.length (by omega) (by omega)
    (Nat.le_refl _) (by omega) (by omega)
  change (∀ i < upperSlot specs ks key, p i = true) at hlow
  change ∀ i, upperSlot specs ks key ≤ i → i < ks.length → p i = false at hhigh
  constructor
  · intro x hx
    obtain ⟨i, hi, rfl⟩ := mem_take_iff_getElem.mp hx
    rw [← hp_iff i (by omega)]
    exact hlow i (by omega)
  · intro x hx
    obtain ⟨i, hi, rfl⟩ := mem_drop_iff_getElem.mp hx
    have hfalse := hhigh (upperSlot specs ks key + i) (by omega) (by omega)
    rw [← hp_iff _ (by omega), hfalse]
    simp

/-! ## Descent -/

theorem exec_findLeaf :
    {h : Nat} → {t : Tree Bytes Nat h} → Stored f.look t → (path : Path) → {leaf : Leaf Bytes Nat} →
      {p : Path} → descend (upperSlot f.cols) key t path = some (leaf, p) → (fuel : Nat) →
      h < fuel → exec (findLeaf key fuel (rootId t) path) f = (.ok (leaf.id, p), f)
  | 0, (t : Leaf Bytes Nat), hst, path, leaf, p, hd, fuel + 1, _ => by
    cases hd
    unfold findLeaf
    rw [rootId_leaf, exec_get_bind, exec_bind_ok (exec_fetchPage hst)]
    rfl
  | h + 1, (t : Branch Bytes (Tree Bytes Nat h)), hst, path, leaf, p, hd, fuel + 1, hfuel => by
    simp only [descend] at hd
    cases hget : t.kids[upperSlot f.cols t.keys key]? with
    | none => simp [hget] at hd
    | some c =>
      simp only [hget] at hd
      have hchild : (t.kids.map rootId).getD (upperSlot f.cols t.keys key) 0 = rootId c := by
        simp [hget]
      unfold findLeaf
      rw [rootId_branch, exec_get_bind, exec_bind_ok (exec_fetchPage hst.1)]
      simp only [findChildSlot, hchild]
      exact exec_findLeaf (hst.2 c (mem_of_getElem? hget)) _ hd fuel (by omega)

/-! ## Insertion -/

/-- The duplicate check of a unique index on the leaf that an insertion reaches. -/
def dupCheck (f : IndexFile) (entries : List (Bytes × Nat)) (key : Bytes) : Bool :=
  let slot := findLeafInsertSlot f.cols entries key
  f.isUnique && decide (0 < slot) && !keyHasNull f.cols key &&
    compareKeys f.cols (entries.getD (slot - 1) ([], 0)).1 key == .eq

/-- What follows the work on the leaf. -/
def finish (path : Path) : Option (Bytes × Nat) → Op IndexFile Unit
  | none => pure ()
  | some (sep, right) => propagate path sep right

theorem exec_insertIntoLeaf_dup {t : Leaf Bytes Nat} (hst : Stored f.look (h := 0) t)
    (hdup : dupCheck f t.entries key = true) :
    exec (insertIntoLeaf t.id key rowId) f = (.error .indexDuplicateKey, f) := by
  unfold insertIntoLeaf
  rw [exec_get_bind, exec_bind_ok (exec_fetchPage hst)]
  unfold dupCheck at hdup
  simp only [hdup, if_true]
  rfl

/-- With room in the leaf the entry is put into it and counted. -/
theorem exec_insertIntoLeaf_room {t : Leaf Bytes Nat}
    (hst : Stored f.look (h := 0) t) (hdup : dupCheck f t.entries key = false)
    (hroom : t.entries.length < f.nodeCapacity) :
    exec (insertIntoLeaf t.id key rowId) f = (.ok none, { f.withPage t.id (.leaf
      (t.entries.insertIdx (upperSlot f.cols (t.entries.map Prod.fst) key)
        (key, rowId)) t.next) with
        entryCount := f.entryCount + 1 }) := by
  unfold insertIntoLeaf
  rw [exec_get_bind, exec_bind_ok (exec_fetchPage hst)]
  unfold dupCheck at hdup
  simp only [hdup, if_pos hroom]
  rfl

/-- The temporary array of a leaf split holds the entries with the new one in its slot. -/
theorem splitLeaf_tmp {entries : List (Bytes × Nat)} {slot n : Nat} (hslot : slot ≤ entries.length)
    (hlen : entries.length ≤ n) (e : Bytes × Nat) :
    entries.take slot ++ e :: (entries.drop slot).take (n - slot) = entries.insertIdx slot e := by
  have htake : (entries.drop slot).take (n - slot) = entries.drop slot := by
    apply take_of_length_le
    rw [length_drop]
    omega
  rw [insertIdx_eq_take_drop hslot, htake]

theorem getD_of_drop {α : Type} {xs : List α} {i : Nat} {y : α} {ys : List α} (d : α)
    (h : xs.drop i = y :: ys) : xs.getD i d = y := by
  have hget : (xs.drop i)[0]? = some y := by rw [h]; rfl
  rw [getElem?_drop, Nat.add_zero] at hget
  simp [hget]

/-- The right neighbour that an insertion makes, as the code passes it on: its separator and its
page. -/
def pushed {h : Nat} (g : Grown Bytes (Tree Bytes Nat h)) : Option (Bytes × Nat) :=
  g.right.map fun r => (r.1, rootId r.2)

/-- What an insertion with the capacity and the pages of the file makes of a subtree. -/
abbrev grown (f : IndexFile) (key : Bytes) (rowId : Nat) {h : Nat} (t : Tree Bytes Nat h) :
    Grown Bytes (Tree Bytes Nat h) × Nat :=
  insertAux f.nodeCapacity (upperSlot f.cols) key rowId t f.nextPageId

theorem le_grown {f : IndexFile} {key : Bytes} {t : Tree Bytes Nat h}
    (hs : Shape f.nodeCapacity t) : f.nextPageId ≤ (grown f key rowId t).2 :=
  (insertAux_pageIds (upperSlot_le f.cols key) hs f.nextPageId).1

/-- What an insertion into the subtree `t` does to the pages. -/
structure Rewrites (f f' : IndexFile) {h : Nat} (t : Tree Bytes Nat h)
    (r : Grown Bytes (Tree Bytes Nat h) × Nat) : Prop where
  same : SameIndex f f'
  next : f'.nextPageId = r.2
  length : f'.disk.pages.length = r.2
  stored : ∀ u ∈ r.1.trees, Stored f'.look u
  frame : ∀ i < f.nextPageId, i ∉ pageIds t → f'.look i = f.look i

/-- The pages hold the subtree `t`. -/
structure Laid (f : IndexFile) {h : Nat} (t : Tree Bytes Nat h) : Prop where
  shape : Shape f.nodeCapacity t
  stored : Stored f.look t
  nodup : (pageIds t).Nodup
  bound : ∀ i ∈ pageIds t, i < f.nextPageId

theorem Laid.kid {c : Tree Bytes Nat h}
    (ht : Laid f (h := h + 1) t) (hc : c ∈ t.kids) : Laid f c where
  shape := ht.shape.2.2 c hc
  stored := ht.stored.2 c hc
  nodup := by
    have hnd := ht.nodup
    rw [pageIds_branch, nodup_cons] at hnd
    exact (nodup_flatMap.mp hnd.2).1 c hc
  bound i hi := ht.bound i (mem_cons_of_mem _ (mem_flatMap.mpr ⟨c, hc, hi⟩))

theorem exec_insertIntoLeaf (rowId : Nat) {t : Leaf Bytes Nat} (ht : Laid f (h := 0) t)
    (hlen : f.disk.pages.length = f.nextPageId) (hdup : dupCheck f t.entries key = false) :
    ∃ f', Rewrites f f' (h := 0) t (grown f key rowId (h := 0) t) ∧
      exec (insertIntoLeaf t.id key rowId) f =
        (.ok (pushed (grown f key rowId (h := 0) t).1), f') := by
  have hslot : upperSlot f.cols (t.entries.map Prod.fst) key ≤ t.entries.length := by
    simpa using upperSlot_le f.cols key (t.entries.map Prod.fst)
  have hle := ht.shape.2
  have hid : t.id < f.nextPageId := ht.bound t.id (by simp)
  have hlenes := length_insertIdx_of_le_length hslot (key, rowId)
  simp only [insertAux]
  rcases insertLeaf_cases (upperSlot_le f.cols key) f.nodeCapacity t f.nextPageId rfl with
    ⟨hroom, hg⟩ | ⟨hfull, e, fs, hdrop, hg⟩
  · refine ⟨_, ?_, (exec_insertIntoLeaf_room ht.stored hdup hroom).trans (by rw [hg]; rfl)⟩
    rw [hg]
    refine ⟨⟨⟨rfl, rfl, rfl, rfl, rfl, rfl⟩, rfl, rfl, rfl⟩, rfl,
      length_withPage_of_lt hlen hid _, ?_, ?_⟩
    · intro u hu
      rw [Grown.trees_none, mem_singleton] at hu
      subst hu
      exact (look_withPage _ _).trans (if_pos rfl)
    · intro i _ hi
      refine (look_withPage _ _).trans (if_neg ?_)
      simpa using hi
  · have hmid : (t.entries.insertIdx (upperSlot f.cols (t.entries.map Prod.fst) key)
        (key, rowId)).length / 2 = (f.nodeCapacity + 1) / 2 := by omega
    rw [hmid] at hdrop hg
    let left : IndexPage := .leaf ((t.entries.insertIdx
      (upperSlot f.cols (t.entries.map Prod.fst) key) (key, rowId)).take
        ((f.nodeCapacity + 1) / 2)) (some f.nextPageId)
    let right : IndexPage := .leaf (e :: fs) t.next
    refine ⟨f.splitPage t.id left right, ?_, ?_⟩
    · rw [hg]
      refine ⟨⟨⟨rfl, rfl, rfl, rfl, rfl, rfl⟩, rfl, rfl, rfl⟩, rfl, length_splitPage hlen hid _ _,
        ?_, ?_⟩
      · intro u hu
        simp only [Grown.trees_some, mem_cons, not_mem_nil, or_false] at hu
        rcases hu with rfl | rfl
        · exact (look_splitPage left right _).trans
            (by rw [if_neg (by simp only; omega), if_pos rfl])
        · exact (look_splitPage left right _).trans (if_pos rfl)
      · intro i hi hni
        rw [look_splitPage, if_neg (by omega), if_neg (by simpa using hni)]
    · unfold insertIntoLeaf
      rw [exec_get_bind, exec_bind_ok (exec_fetchPage ht.stored), hg]
      unfold dupCheck at hdup
      simp only [hdup, if_neg hfull, Bool.false_eq_true, if_false]
      have hsplit : exec (splitLeaf t.id (findLeafInsertSlot f.cols t.entries key) key rowId) f =
          (.ok (e.1, f.nextPageId), f.splitPage t.id left right) := by
        unfold splitLeaf
        rw [exec_get_bind, exec_bind_ok (exec_fetchPage ht.stored)]
        simp only [findLeafInsertSlot, splitLeaf_tmp hslot hle, hdrop, getD_of_drop _ hdrop]
        rfl
      rw [exec_bind_ok hsplit]
      rfl

/-- The pages of the trees that an insertion makes of `t`: pages of `t` or new ones. -/
theorem mem_pageIds_insertAux {cap : Nat} {t : Tree Bytes Nat h}
    {n : Nat} (hs : Shape cap t) {u : Tree Bytes Nat h}
    (hu : u ∈ (insertAux cap (upperSlot specs) key rowId t n).1.trees) {i : Nat}
    (hi : i ∈ pageIds u) :
    i ∈ pageIds t ∨ n ≤ i ∧ i < (insertAux cap (upperSlot specs) key rowId t n).2 := by
  obtain ⟨-, hperm⟩ := insertAux_pageIds (v := rowId) (upperSlot_le specs key) hs n
  have hmem := hperm.mem_iff.mp (mem_flatMap.mpr ⟨u, hu, hi⟩)
  rcases mem_append.mp hmem with h | h
  · exact Or.inl h
  · rw [mem_range'_1] at h
    exact Or.inr ⟨h.1, by omega⟩

/-- Pages of a branch that the child `c` does not use. -/
theorem notMem_child_of_nodup
    {A B : List (Tree Bytes Nat h)} {c : Tree Bytes Nat h} (hkids : t.kids = A ++ c :: B)
    (hnd : (pageIds (h := h + 1) t).Nodup) :
    (∀ d ∈ t.kids, t.id ∉ pageIds d) ∧ ∀ d ∈ A ++ B, (pageIds c).Disjoint (pageIds d) := by
  rw [pageIds_branch, nodup_cons, nodup_flatMap] at hnd
  refine ⟨fun d hd hid => hnd.1 (mem_flatMap.mpr ⟨d, hd, hid⟩), ?_⟩
  have hpair := hnd.2.2
  rw [hkids, pairwise_middle fun h => List.disjoint_symm h] at hpair
  exact (pairwise_cons.mp hpair).1

section ParentStep

variable {f : IndexFile} {h : Nat} {t : Branch Bytes (Tree Bytes Nat h)}
  {A B : List (Tree Bytes Nat h)} {c : Tree Bytes Nat h}

/-- After the work on the child, all children of the branch are stored, on pages other than
its own and below the next free one. -/
theorem stored_kids (ht : Laid f (h := h + 1) t) (hkids : t.kids = A ++ c :: B)
    (hrw : Rewrites f f₁ c (grown f key rowId c)) :
    ∀ d ∈ A ++ (grown f key rowId c).1.trees ++ B, Stored f₁.look d ∧ ∀ i ∈ pageIds d, i ≠ t.id ∧
        i < (grown f key rowId c).2 := by
  obtain ⟨hid, hsib⟩ := notMem_child_of_nodup hkids ht.nodup
  have hc : c ∈ t.kids := by simp [hkids]
  have hle : f.nextPageId ≤ (grown f key rowId c).2 := le_grown (ht.kid hc).shape
  -- the siblings are stored as before
  have hold : ∀ d ∈ A ++ B, Stored f₁.look d ∧ ∀ i ∈ pageIds d, i ≠ t.id ∧
      i < (grown f key rowId c).2 := by
    intro d hd
    have hdk : d ∈ t.kids := by
      rw [hkids, perm_middle.mem_iff]
      exact mem_cons_of_mem _ hd
    have hb := (ht.kid hdk).bound
    exact ⟨(ht.stored.2 d hdk).congr fun i hi => hrw.frame i (hb i hi) fun hic => hsib d hd hic hi,
      fun i hi => ⟨fun heq => hid d hdk (heq ▸ hi), Nat.lt_of_lt_of_le (hb i hi) hle⟩⟩
  intro d hd
  rw [mem_append, mem_append, or_right_comm, ← mem_append] at hd
  rcases hd with hd | hd
  · exact hold d hd
  · refine ⟨hrw.stored d hd, fun i hi => ?_⟩
    have hidn : t.id < f.nextPageId := ht.bound t.id (by simp)
    rcases mem_pageIds_insertAux (ht.kid hc).shape hd hi with h | h
    · exact ⟨fun heq => hid c hc (heq ▸ h), Nat.lt_of_lt_of_le ((ht.kid hc).bound i h) hle⟩
    · exact ⟨by omega, h.2⟩

/-- After the work on the child only the page of the branch and a new page are written. -/
theorem rewrites_parent (f₂ : IndexFile) (ht : Laid f (h := h + 1) t) (hkids : t.kids = A ++ c :: B)
    (hA : A.length = upperSlot f.cols t.keys key) (hrw : Rewrites f f₁ c (grown f key rowId c))
    (hsame : SameIndex f₁ f₂) (hnext : f₂.nextPageId = (grown f key rowId (h := h + 1) t).2)
    (hlen : f₂.disk.pages.length = f₂.nextPageId)
    (hlook : ∀ i < (grown f key rowId c).2, i ≠ t.id → f₂.look i = f₁.look i)
    (hnew : ∀ b ∈ (grown f key rowId (h := h + 1) t).1.trees,
      f₂.look b.id = some (.internal b.keys (b.kids.map rootId))) :
    Rewrites f f₂ (h := h + 1) t (grown f key rowId (h := h + 1) t) := by
  refine ⟨hrw.same.trans hsame, hnext, hlen.trans hnext, ?_, ?_⟩
  · intro b hb
    refine ⟨hnew b hb, fun d hd => ?_⟩
    have hmem := mem_flatMap.mpr ⟨b, hb, hd⟩
    rw [insertAux_branch hkids hA, insertBranch_kids _ hkids hA (upperSlot_le _ _ _)] at hmem
    obtain ⟨hst, hpages⟩ := stored_kids ht hkids hrw d hmem
    exact hst.congr fun i hi => hlook i (hpages i hi).2 (hpages i hi).1
  · intro i hi hni
    rw [pageIds_branch, hkids] at hni
    simp only [mem_cons, flatMap_append, flatMap_cons, mem_append, not_or] at hni
    have hc : c ∈ t.kids := by simp [hkids]
    have hle : f.nextPageId ≤ (grown f key rowId c).2 := le_grown (ht.kid hc).shape
    exact (hlook i (by omega) hni.1).trans (hrw.frame i hi hni.2.2.1)

/-- The step of an insertion at a branch, after the child in its slot has been worked on. -/
theorem parent_step (ht : Laid f (h := h + 1) t) (hkids : t.kids = A ++ c :: B)
    (hA : A.length = upperSlot f.cols t.keys key)
    (hrw : Rewrites f f₁ c (grown f key rowId c)) (path : Path) :
    ∃ f₂, Rewrites f f₂ (h := h + 1) t (grown f key rowId (h := h + 1) t) ∧
      exec (finish ((t.id, upperSlot f.cols t.keys key) :: path)
        (pushed (grown f key rowId c).1)) f₁ =
      exec (finish path (pushed (grown f key rowId (h := h + 1) t).1)) f₂ := by
  have hslot := upperSlot_le f.cols key t.keys
  have hc : c ∈ t.kids := by simp [hkids]
  have hroot : rootId (grown f key rowId c).1.left = rootId c := insertAux_rootId c f.nextPageId
  have hle : f.nextPageId ≤ (grown f key rowId c).2 := le_grown (ht.kid hc).shape
  have hidn : t.id < f.nextPageId := ht.bound t.id (by simp)
  have hget : t.kids[upperSlot f.cols t.keys key]? = some c := by rw [hkids, getElem?_middle hA]
  have hlook : f₁.look t.id = some (.internal t.keys (t.kids.map rootId)) :=
    (hrw.frame t.id hidn ((notMem_child_of_nodup hkids ht.nodup).1 c hc)).trans ht.stored.1
  have hcap := hrw.same.nodeCapacity
  have hnext := hrw.next
  have hlen : f₁.disk.pages.length = f₁.nextPageId := hrw.length.trans hnext.symm
  have hfinal := fun f₂ => rewrites_parent f₂ ht hkids hA hrw
  simp only [insertAux, hget] at hfinal ⊢
  set r := grown f key rowId c with hr
  set s := upperSlot f.cols t.keys key
  have hset : ∀ l : Tree Bytes Nat h, t.kids.set s l = A ++ l :: B := by
    intro l
    rw [hkids, set_middle hA]
  rcases hright : r.1 with ⟨l, _ | ⟨sep, u⟩⟩
  -- The child did not split: its root keeps its page, and the parent stays as it is.
  · rw [hright] at hroot hfinal
    refine ⟨f₁, hfinal f₁ ⟨SameKeys.refl f₁, rfl, rfl, rfl⟩ hnext hlen (fun _ _ _ => rfl) ?_, rfl⟩
    intro b hb
    simp only [insertBranch, Grown.trees_none, mem_singleton] at hb
    subst hb
    have hmap : (t.kids.set s l).map rootId = t.kids.map rootId := by
      rw [hset, hkids]
      simp [hroot]
    refine hlook.trans ?_
    rw [← hmap]
  -- The child split: the separator and the new child go into the parent.
  · rw [hright] at hroot hfinal
    have hins : A ++ l :: u :: B = (t.kids.set s l).insertIdx (s + 1) u := by
      rw [hset, insertIdx_middle hA]
    have hchildren : (t.kids.map rootId).insertIdx (s + 1) (rootId u) =
        (A ++ l :: u :: B).map rootId := by
      have hmap : t.kids.map rootId = A.map rootId ++ rootId l :: B.map rootId := by
        simp [hkids, hroot]
      rw [hmap, insertIdx_middle ((length_map _).trans hA)]
      simp
    change ∃ f₂, _ ∧ exec (propagate ((t.id, s) :: path) sep (rootId u)) f₁ = _
    unfold propagate
    rw [exec_get_bind, exec_bind_ok (exec_fetchPage hlook)]
    simp only [hcap]
    rcases insertBranch_cases f.nodeCapacity rfl hins (insertIdx_ne_nil hslot sep) r.2 with
      ⟨hroom, hg⟩ | ⟨hfull, q, qs, hdrop, hg⟩
    · rw [hg] at hfinal ⊢
      rw [if_pos hroom, hchildren]
      refine ⟨f₁.withPage t.id (.internal (t.keys.insertIdx s sep) ((A ++ l :: u :: B).map rootId)),
        hfinal _ ⟨⟨rfl, rfl, rfl, rfl, rfl, rfl⟩, rfl, rfl, rfl⟩ hnext
          (length_withPage_of_lt hlen (by omega) _) ?_ ?_, rfl⟩
      · intro i _ hne
        rw [look_withPage, if_neg hne]
      · intro b hb
        rw [Grown.trees_none, mem_singleton] at hb
        subst hb
        exact (look_withPage _ _).trans (if_pos rfl)
    -- The parent is full and splits in its turn; `q` goes up.
    · have hkeys := length_insertIdx_of_le_length hslot sep
      have hle' := ht.shape.1
      have hmid : (t.keys.insertIdx s sep).length / 2 = (f.nodeCapacity + 1) / 2 := by omega
      rw [hmid] at hdrop hg
      rw [hg] at hfinal ⊢
      rw [if_neg hfull]
      let mid := (f.nodeCapacity + 1) / 2
      let keys := t.keys.insertIdx s sep
      let left : IndexPage := .internal (keys.take mid)
        (((A ++ l :: u :: B).map rootId).take (mid + 1))
      let right : IndexPage :=
        .internal (keys.drop (mid + 1)) (((A ++ l :: u :: B).map rootId).drop (mid + 1))
      have hsplit : exec (splitInternal t.id s sep (rootId u)) f₁ =
          (.ok (q, r.2), f₁.splitPage t.id left right) := by
        unfold splitInternal
        rw [exec_get_bind, exec_bind_ok (exec_fetchPage hlook)]
        simp only [hcap, hchildren, getD_of_drop _ hdrop, ← hnext]
        rfl
      refine ⟨f₁.splitPage t.id left right, ?_, by rw [exec_bind_ok hsplit]; rfl⟩
      refine hfinal _ ⟨⟨rfl, rfl, rfl, rfl, rfl, rfl⟩, rfl, rfl, rfl⟩ (congrArg (· + 1) hnext)
        (length_splitPage hlen (by omega) _ _) ?_ ?_
      · intro i hi hne
        rw [look_splitPage, if_neg (by omega), if_neg hne]
      · intro b hb
        simp only [Grown.trees_some, mem_cons, not_mem_nil, or_false] at hb
        rcases hb with rfl | rfl
        · rw [look_splitPage, if_neg (by simp only; omega), if_pos rfl]
          simp [left, keys, mid, map_take]
        · rw [look_splitPage, if_pos hnext.symm]
          simp [right, keys, mid, map_drop]

end ParentStep

/-- **Insertion simulates the B+tree**: from the leaf that the descent reaches, the code turns the
pages of `t` into those of the tree after the insertion and goes on in the path above `t`. -/
theorem exec_insertIntoLeaf_finish (rowId : Nat) (hlen : f.disk.pages.length = f.nextPageId) :
    {h : Nat} → {t : Tree Bytes Nat h} → Laid f t → (path : Path) →
      {leaf : Leaf Bytes Nat} → {p : Path} →
      descend (upperSlot f.cols) key t path = some (leaf, p) →
      dupCheck f leaf.entries key = false →
      ∃ f', Rewrites f f' t (grown f key rowId t) ∧
        exec (insertIntoLeaf leaf.id key rowId >>= finish p) f =
          exec (finish path (pushed (grown f key rowId t).1)) f'
  | 0, (t : Leaf Bytes Nat), ht, path, leaf, p, hd, hdup => by
    cases hd
    obtain ⟨f', hrw, hexec⟩ := exec_insertIntoLeaf rowId ht hlen hdup
    exact ⟨f', hrw, exec_bind_ok hexec _⟩
  | h + 1, (t : Branch Bytes (Tree Bytes Nat h)), ht, path, leaf, p, hd, hdup => by
    obtain ⟨A, c, B, hkids, hA, _, hc⟩ := exists_kid ht.shape (upperSlot_le f.cols key t.keys)
    rw [descend_branch hkids hA] at hd
    obtain ⟨_, hrw, hexec⟩ := exec_insertIntoLeaf_finish rowId hlen (ht.kid hc)
      ((t.id, upperSlot f.cols t.keys key) :: path) hd hdup
    obtain ⟨f₂, hrw₂, hstep⟩ := parent_step ht hkids hA hrw path
    exact ⟨f₂, hrw₂, hexec.trans hstep⟩

end BTreeIndex
end NyxDb
