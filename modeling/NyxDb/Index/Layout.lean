import NyxDb.Index.BTreeSim
import NyxDb.Lib.Span
import NyxDb.Storage.PageImage

/-!
# Page layouts

Where the parts of a column page and of an index page lie in the payload of the page, and which
bytes an insertion, a split and a bulk build write.  `page_layouts_fit` says that the parts fit and
that nothing is written outside of them.
-/

namespace NyxDb

open List NyxDb.Span

/-! ## Column pages -/

/-- The header, the bitmap of NULLs and the slots of a new column page. -/
def columnSpans (s : ColumnSpec) : List Span :=
  let p := PageImage.init s
  ⟨0, 32⟩ :: ⟨32, p.nullBitmapBytes.toNat⟩ ::
    (range p.capacity.toNat).map fun i => ⟨32 + p.slotOffset i, p.slotSize⟩

theorem fit_columnSpans {s : ColumnSpec} (hcap : 1 ≤ s.capacity) :
    Fit 0 pagePayloadSize (columnSpans s) := by
  have hsized : s.elemSize ≠ 0 := by
    intro h
    simp [ColumnSpec.capacity, h] at hcap
  have hinit := PageImage.holds_init hsized
  have hfits := s.layout_fits
  have hfit : Fit 0 pagePayloadSize _ :=
    fit_three 32 s.nullBitmapBytes 1 s.elemSize s.capacity (by
      unfold pageArea at hfits
      unfold pagePayloadSize
      omega)
  unfold columnSpans
  simp only [hinit.bitmap, hinit.capacity, hinit.slotOffset, hinit.slotSize, ← Nat.add_assoc]
  simpa [row] using hfit

namespace BTreeIndex

open IndexFile

/-! ## Index pages -/

def leafEntryAt (keySize slot : Nat) : Nat :=
  indexPageHdrSize + 8 + slot * (keySize + 8)

def leafRowidAt (keySize slot : Nat) : Nat :=
  leafEntryAt keySize slot + keySize

def internalChildAt (i : Nat) : Nat :=
  indexPageHdrSize + i * 8

def internalKeyAt (keySize capacity i : Nat) : Nat :=
  indexPageHdrSize + (capacity + 1) * 8 + i * keySize

/-- The header, the right link and the entries of a leaf. -/
def leafSpans (k cap : Nat) : List Span :=
  ⟨0, indexPageHdrSize⟩ :: ⟨indexPageHdrSize, 8⟩ ::
    (range cap).map fun i => ⟨leafEntryAt k i, k + 8⟩

/-- The header, the child pointers and the keys of an internal node. -/
def internalSpans (k cap : Nat) : List Span :=
  ⟨0, indexPageHdrSize⟩ :: ((range (cap + 1)).map fun i => ⟨internalChildAt i, 8⟩) ++
    (range cap).map fun i => ⟨internalKeyAt k cap i, k⟩

theorem capacity_fits (k : Nat) :
    indexPageHdrSize + 8 + indexNodeCapacity k * (k + 8) ≤ pagePayloadSize := by
  have hmin : indexNodeCapacity k ≤ (pagePayloadSize - indexPageHdrSize - 8) / (k + 8) :=
    Nat.min_le_right _ _
  have hle := (Nat.mul_le_mul_right (k + 8) hmin).trans (Nat.div_mul_le_self _ _)
  unfold indexPageHdrSize pagePayloadSize at *
  omega

theorem fit_leafSpans (k : Nat) : Fit 0 pagePayloadSize (leafSpans k (indexNodeCapacity k)) := by
  have hfit := fit_three indexPageHdrSize 8 1 (k + 8) _ (capacity_fits k)
  simpa [row, leafSpans, leafEntryAt] using hfit

theorem fit_internalSpans (k : Nat) :
    Fit 0 pagePayloadSize (internalSpans k (indexNodeCapacity k)) := by
  have hfits := capacity_fits k
  rw [Nat.mul_add] at hfits
  have hfit : Fit 0 pagePayloadSize _ :=
    fit_three indexPageHdrSize 8 (indexNodeCapacity k + 1) k (indexNodeCapacity k) (by omega)
  simpa [row, internalSpans, internalChildAt, internalKeyAt] using hfit

/-! ## Writes -/

/-- A write behind the header of a node: the right link, slots from `i` on, or part of an entry. -/
inductive NodeWrite where
  | link
  | entries (i n : Nat)
  | entryKey (i : Nat)
  | entryRowid (i : Nat)
  | children (i n : Nat)
  | keys (i n : Nat)
  deriving DecidableEq, Repr

namespace NodeWrite

/-- The bytes that `memcpy`, `memmove` or `memset` is called for. -/
def span (k cap : Nat) : NodeWrite → Span
  | link => ⟨indexPageHdrSize, 8⟩
  | entries i n => ⟨leafEntryAt k i, n * (k + 8)⟩
  | entryKey i => ⟨leafEntryAt k i, k⟩
  | entryRowid i => ⟨leafRowidAt k i, 8⟩
  | children i n => ⟨internalChildAt i, n * 8⟩
  | keys i n => ⟨internalKeyAt k cap i, n * k⟩

/-- The slots are slots of a node. -/
def Within (cap : Nat) : NodeWrite → Prop
  | link => True
  | entries i n | keys i n => i + n ≤ cap
  | entryKey i | entryRowid i => i < cap
  | children i n => i + n ≤ cap + 1

theorem Within.inside {k : Nat} {w : NodeWrite} (h : w.Within (indexNodeCapacity k)) :
    (w.span k (indexNodeCapacity k)).Inside indexPageHdrSize pagePayloadSize := by
  have hfits := capacity_fits k
  cases w with
  | link => exact ⟨Nat.le_refl _, by simp [span, indexPageHdrSize, pagePayloadSize]⟩
  | entries i n =>
    have hmul := Nat.mul_le_mul_right (k + 8) h
    rw [Nat.add_mul] at hmul
    simp only [Inside, span, leafEntryAt]
    omega
  | entryKey i | entryRowid i =>
    have hmul := Nat.mul_le_mul_right (k + 8) (Nat.succ_le_of_lt h)
    rw [Nat.succ_mul] at hmul
    simp only [Inside, span, leafEntryAt, leafRowidAt]
    omega
  | children i n =>
    rw [Within] at h
    rw [Nat.mul_add] at hfits
    simp only [Inside, span, internalChildAt]
    omega
  | keys i n =>
    have hmul := Nat.mul_le_mul_right k h
    rw [Nat.add_mul] at hmul
    rw [Nat.mul_add] at hfits
    simp only [Inside, span, internalKeyAt]
    omega

end NodeWrite

open NodeWrite

def insertLeafEntry (slot count : Nat) : List NodeWrite :=
  (if slot < count then [entries (slot + 1) (count - slot)] else []) ++
    [entryKey slot, entryRowid slot]

def insertInternalEntry (slot nKeys : Nat) : List NodeWrite :=
  (if slot ≤ nKeys then [children (slot + 2) (nKeys - slot)] else []) ++
    children (slot + 1) 1 ::
    ((if slot < nKeys then [keys (slot + 1) (nKeys - slot)] else []) ++ [keys slot 1])

/-- The right link and the entries of a new leaf. -/
def newLeaf (n : Nat) : List NodeWrite :=
  link :: (range n).flatMap fun i => [entryKey i, entryRowid i]

/-- The children and the keys of an internal node. -/
def internalNode (nKeys : Nat) : List NodeWrite :=
  ((range (nKeys + 1)).map (children · 1)) ++ (range nKeys).map (keys · 1)

def splitLeafWrites (cap : Nat) : List NodeWrite :=
  let mid := (cap + 1) / 2
  -- the left half in place, then the new page
  entries 0 mid :: ((if mid < cap then [entries mid (cap - mid)] else []) ++
    [link, link, entries 0 (cap + 1 - mid)])

def splitInternalWrites (cap : Nat) : List NodeWrite :=
  let mid := (cap + 1) / 2
  -- the node is cleared before its left half is written
  children 0 (cap + 1) :: keys 0 cap :: (internalNode mid ++ internalNode (cap + 1 - mid - 1))

/-- The parents on a path, from the nearest up to the first with room, or a new root. -/
def propagateWrites (f : IndexFile) : Path → List NodeWrite
  | [] => internalNode 1
  | (parentId, childSlot) :: path =>
    match f.look parentId with
    | some (.internal ks _) =>
      if ks.length < f.nodeCapacity then insertInternalEntry childSlot ks.length
      else splitInternalWrites f.nodeCapacity ++ propagateWrites f path
    | _ => []

/-- The writes of an insertion.  No page of the path is written before it is its turn. -/
def insertWrites (f : IndexFile) (key : Bytes) : List NodeWrite :=
  if f.rootPageId = 0 then newLeaf 1
  else
    match (exec (findLeaf key f.disk.pages.length f.rootPageId []) f).1 with
    | .error _ => []
    | .ok (leafId, path) =>
      match f.look leafId with
      | some (.leaf es _) =>
        if dupCheck f es key then []
        else if es.length < f.nodeCapacity then
          insertLeafEntry (findLeafInsertSlot f.cols es key) es.length
        else splitLeafWrites f.nodeCapacity ++ propagateWrites f path
      | _ => []

/-- One turn of `buildLeaves`. -/
def buildLeafWrites (f : IndexFile) (es : List (Bytes × Nat)) : List NodeWrite :=
  newLeaf (es.take (max 1 (f.nodeCapacity * 3 / 4))).length

/-- One turn of `buildParents`. -/
def buildParentWrites (f : IndexFile) (level : List LevelEntry) : List NodeWrite :=
  internalNode ((level.take (f.nodeCapacity + 1)).length - 1)

variable {cap n slot : Nat}

theorem within_insertLeafEntry (hslot : slot ≤ n) (hroom : n < cap) :
    ∀ w ∈ insertLeafEntry slot n, w.Within cap := by
  unfold insertLeafEntry
  split_ifs <;> simp [Within] <;> omega

/-- A full node is split, so that `n` is below the capacity and the last child has a place. -/
theorem within_insertInternalEntry (hslot : slot ≤ n) (hroom : n < cap) :
    ∀ w ∈ insertInternalEntry slot n, w.Within cap := by
  unfold insertInternalEntry
  split_ifs <;> simp [Within] <;> omega

theorem within_newLeaf (h : n ≤ cap) : ∀ w ∈ newLeaf n, w.Within cap := by
  simp only [newLeaf, forall_mem_cons, forall_mem_flatMap, mem_range]
  exact ⟨trivial, fun i hi => by simp [Within]; omega⟩

theorem within_internalNode (h : n ≤ cap) : ∀ w ∈ internalNode n, w.Within cap := by
  simp only [internalNode, forall_mem_append, forall_mem_map, mem_range, Within]
  exact ⟨fun i hi => by omega, fun i hi => by omega⟩

theorem within_splitLeaf (hcap : 0 < cap) : ∀ w ∈ splitLeafWrites cap, w.Within cap := by
  unfold splitLeafWrites
  dsimp only
  split_ifs <;> simp [Within] <;> omega

theorem within_splitInternal (cap : Nat) : ∀ w ∈ splitInternalWrites cap, w.Within cap := by
  simp only [splitInternalWrites, forall_mem_append, forall_mem_cons, Within]
  exact ⟨by omega, by omega, within_internalNode (by omega), within_internalNode (by omega)⟩

/-- The slots on a path are slots of the children of their pages. -/
def SlotsOk (f : IndexFile) (path : Path) : Prop :=
  ∀ p ∈ path, ∀ ks children, f.look p.1 = some (.internal ks children) → p.2 ≤ ks.length

variable {f : IndexFile} {key : Bytes} {path path' : Path}

theorem slotsOk_findLeaf {fuel cur leafId : Nat}
    (h : (exec (findLeaf key fuel cur path) f).1 = .ok (leafId, path')) (hpath : SlotsOk f path) :
    SlotsOk f path' := by
  induction fuel generalizing cur path with
  | zero => cases h
  | succ fuel ih =>
    rw [findLeaf, exec_get_bind] at h
    cases hlook : f.look cur with
    | none =>
      rw [exec_bind, fetchPage, exec_get_bind, hlook] at h
      cases h
    | some page =>
      rw [exec_bind_ok (exec_fetchPage hlook)] at h
      cases page with
      | leaf es next =>
        cases h
        exact hpath
      | internal ks children =>
        refine ih h (forall_mem_cons.mpr ⟨fun ks' children' heq => ?_, hpath⟩)
        cases hlook.symm.trans heq
        exact upperSlot_le ..

theorem within_propagate (hcap : 0 < f.nodeCapacity) (hpath : SlotsOk f path) :
    ∀ w ∈ propagateWrites f path, w.Within f.nodeCapacity := by
  induction path with
  | nil => exact within_internalNode hcap
  | cons p path ih =>
    obtain ⟨hp, hpath⟩ := forall_mem_cons.mp hpath
    rw [propagateWrites]
    split
    case h_1 hlook =>
      split_ifs with hroom
      · exact within_insertInternalEntry (hp _ _ hlook) hroom
      · exact forall_mem_append.mpr ⟨within_splitInternal _, ih hpath⟩
    · exact nofun

theorem within_insert (hcap : 0 < f.nodeCapacity) (key : Bytes) :
    ∀ w ∈ insertWrites f key, w.Within f.nodeCapacity := by
  unfold insertWrites
  split_ifs
  · exact within_newLeaf hcap
  split
  · exact nofun
  case h_2 hfind =>
    split
    case h_1 es next _ =>
      have hslot := upperSlot_le f.cols key (es.map Prod.fst)
      rw [length_map] at hslot
      split_ifs with _ hroom
      · exact nofun
      · exact within_insertLeafEntry hslot hroom
      · exact forall_mem_append.mpr
          ⟨within_splitLeaf hcap, within_propagate hcap (slotsOk_findLeaf hfind nofun)⟩
    · exact nofun

/-- **Page layouts fit.**  The header, the bitmap and the slots of every column page with room for
a value lie in the payload and apart from each other.  So do the parts of a leaf and of an internal
node for every key that an index file is created with, and whatever is in the file, an insertion
and each turn of a bulk build write behind the header of a node and in its payload only. -/
theorem page_layouts_fit :
    (∀ s : ColumnSpec, 1 ≤ s.capacity → Fit 0 pagePayloadSize (columnSpans s)) ∧
      ∀ cols colIndices isUnique f₀, create cols colIndices isUnique = .ok f₀ →
        Fit 0 pagePayloadSize (leafSpans f₀.keySize f₀.nodeCapacity) ∧
        Fit 0 pagePayloadSize (internalSpans f₀.keySize f₀.nodeCapacity) ∧
        ∀ f : IndexFile, f.cols = f₀.cols → ∀ w : NodeWrite,
          ((∃ key, w ∈ insertWrites f key) ∨ (∃ es, w ∈ buildLeafWrites f es) ∨
            ∃ level, w ∈ buildParentWrites f level) →
          (w.span f.keySize f.nodeCapacity).Inside indexPageHdrSize pagePayloadSize := by
  refine ⟨fun s => fit_columnSpans, fun cols colIndices isUnique f₀ hcreate => ?_⟩
  refine ⟨fit_leafSpans _, fit_internalSpans _, fun f hcols w hw => ?_⟩
  have hcap : 0 < f.nodeCapacity := by
    unfold create at hcreate
    split_ifs at hcreate with _ _ _ hcap
    cases hcreate
    rw [nodeCapacity, keySize, hcols]
    exact Nat.pos_of_ne_zero hcap
  apply Within.inside
  change w.Within f.nodeCapacity
  rcases hw with ⟨key, hw⟩ | ⟨es, hw⟩ | ⟨level, hw⟩
  · exact within_insert hcap key w hw
  · refine within_newLeaf ?_ w hw
    rw [length_take]
    omega
  · refine within_internalNode ?_ w hw
    rw [length_take]
    omega

/-- A nullable INT column and an index over one INT column. -/
theorem page_layouts_fit_int : Fit 0 pagePayloadSize (columnSpans ⟨.int32, true, 0⟩) ∧
    ∃ f₀, create [⟨.int32, 0⟩] [0] true = .ok f₀ ∧ f₀.nodeCapacity = 627 ∧
      Fit 0 pagePayloadSize (leafSpans 5 627) ∧ Fit 0 pagePayloadSize (internalSpans 5 627) := by
  obtain ⟨hcolumn, hindex⟩ := page_layouts_fit
  obtain ⟨hleaf, hinternal, -⟩ := hindex [⟨.int32, 0⟩] [0] true _ rfl
  exact ⟨hcolumn _ (by decide), _, rfl, by decide, hleaf, hinternal⟩

end BTreeIndex
end NyxDb
