import NyxDb.Index.BTreeInvariant

/-!
# Range scans read the leaf chain

A range scan reads the entries of the leaf that its descent reaches, from the start slot on, and
then all entries of the leaves to its right, up to the upper end (`rangeScan_eq`).  Without bounds
it reads every entry of the index once, in the order of the tree (`rangeScan_unbounded`).
-/

namespace NyxDb

open List
namespace BPlus

variable {K V : Type}

theorem length_leaves_le : {h : Nat} → (t : Tree K V h) → (leaves t).length ≤ (pageIds t).length
  | 0, _ => by simp
  | h + 1, (t : Branch K (Tree K V h)) => by
    rw [leaves_branch, pageIds_branch, length_cons]
    have hkids : ∀ cs : List (Tree K V h),
        (cs.flatMap leaves).length ≤ (cs.flatMap pageIds).length := by
      intro cs
      induction cs with
      | nil => simp
      | cons c cs ih =>
        have hc := length_leaves_le c
        simp only [flatMap_cons, length_append]
        omega
    have := hkids t.kids
    omega

/-- In a linked list of leaves every suffix is linked, and the leaf before it leads to it. -/
theorem LinkedTo.suffix {stop : Option Nat} {P S : List (Leaf K V)} {l : Leaf K V}
    (hl : LinkedTo stop (P ++ l :: S)) :
    LinkedTo stop S ∧ l.next = (S.head?.map Leaf.id).or stop := by
  induction P with
  | nil =>
    cases S with
    | nil => exact ⟨trivial, hl⟩
    | cons m S => exact ⟨hl.2, by simpa using hl.1⟩
  | cons p P ih => cases P <;> exact ih hl.2

end BPlus

namespace BTreeIndex

open BPlus

variable {f : IndexFile} {lo hi : Option Bytes} {loIncl hiIncl : Bool}

theorem scanEntries_append (specs : List IndexColSpec) (hi : Option Bytes) (hiIncl : Bool)
    (xs ys : List (Bytes × Nat)) :
    (scanEntries specs hi hiIncl (xs ++ ys)).1 =
      if (scanEntries specs hi hiIncl xs).2 then (scanEntries specs hi hiIncl xs).1
      else (scanEntries specs hi hiIncl xs).1 ++ (scanEntries specs hi hiIncl ys).1 := by
  induction xs with
  | nil => simp [scanEntries]
  | cons e xs ih =>
    obtain ⟨k, -⟩ := e
    simp only [cons_append, scanEntries]
    by_cases hpast : pastHi specs hi hiIncl k = true
    · simp [hpast]
    · rw [if_neg hpast, if_neg hpast, ih]
      cases (scanEntries specs hi hiIncl xs).2 <;> simp

/-- Following the right links reads the entries of the leaves in turn. -/
theorem scanSiblings_eq (hi : Option Bytes) (hiIncl : Bool) {S : List (Leaf Bytes Nat)}
    (hl : LinkedTo none S)
    (hst : ∀ l ∈ S, Stored f.look (h := 0) l) (fuel : Nat) (hfuel : S.length ≤ fuel) :
    scanSiblings f hi hiIncl fuel (S.head?.map Leaf.id) =
      (scanEntries f.cols hi hiIncl (S.flatMap Leaf.entries)).1 := by
  induction S generalizing fuel with
  | nil => cases fuel <;> rfl
  | cons l S ih =>
    obtain ⟨fuel, rfl⟩ := Nat.exists_eq_succ_of_ne_zero
      (Nat.ne_of_gt (Nat.lt_of_lt_of_le (Nat.succ_pos _) hfuel))
    have hlook : f.look l.id = some (.leaf l.entries l.next) := hst l mem_cons_self
    obtain ⟨hlS, hnext⟩ := LinkedTo.suffix (P := []) hl
    rw [Option.or_none] at hnext
    have hrec := ih hlS (fun m hm => hst m (mem_cons_of_mem _ hm)) fuel (by simpa using hfuel)
    simp [head?_cons, Option.map_some, scanSiblings, hlook, flatMap_cons, scanEntries_append, hnext,
      hrec]

/-- The slot by which a scan descends. -/
def scanSlot (specs : List IndexColSpec) (lo : Option Bytes) (keys : List Bytes) (_ : Bytes) :
    Nat :=
  match lo with
  | none => 0
  | some lo => findChildSlot specs keys lo

theorem scanFrom_eq : {h : Nat} → {t : Tree Bytes Nat h} → Stored f.look t → (path : Path) →
    {old : Leaf Bytes Nat} → {p : Path} → descend (scanSlot f.cols lo) [] t path = some (old, p) →
    (fuel : Nat) → h < fuel →
    scanFrom f lo loIncl hi hiIncl fuel (rootId t) =
      if (scanEntries f.cols hi hiIncl (scanStart f.cols lo loIncl old.entries)).2 then
        (scanEntries f.cols hi hiIncl (scanStart f.cols lo loIncl old.entries)).1
      else (scanEntries f.cols hi hiIncl (scanStart f.cols lo loIncl old.entries)).1 ++
        scanSiblings f hi hiIncl f.disk.pages.length old.next
  | 0, (t : Leaf Bytes Nat), hst, _, _, _, hd, fuel + 1, _ => by
    cases hd
    have hlook : f.look t.id = some (.leaf t.entries t.next) := hst
    rw [rootId_leaf, scanFrom, hlook]
  | h + 1, (t : Branch Bytes (Tree Bytes Nat h)), hst, path, old, p, hd, fuel + 1, hfuel => by
    simp only [descend] at hd
    cases hget : t.kids[scanSlot f.cols lo t.keys []]? with
    | none => simp [hget] at hd
    | some c =>
      simp only [hget] at hd
      have hchild : (t.kids.map rootId).getD (scanSlot f.cols lo t.keys []) 0 = rootId c := by
        simp [hget]
      rw [rootId_branch, scanFrom, hst.1]
      change scanFrom f lo loIncl hi hiIncl fuel
        ((t.kids.map rootId).getD (scanSlot f.cols lo t.keys []) 0) = _
      rw [hchild]
      exact scanFrom_eq (hst.2 c (mem_of_getElem? hget)) _ hd fuel (by omega)

/-- **What a range scan reads**: the leaf of its descent from the start slot on, and the leaves to
the right of it, up to the upper end. -/
theorem rangeScan_eq {h : Nat} {t : Tree Bytes Nat h} (ht : IsTree f t)
    (hlen : f.disk.pages.length = f.nextPageId) {old : Leaf Bytes Nat} {p : Path}
    (hd : descend (scanSlot f.cols lo) [] t [] = some (old, p)) {P S : List (Leaf Bytes Nat)}
    (hleaves : leaves t = P ++ old :: S) :
    rangeScan f lo loIncl hi hiIncl = (scanEntries f.cols hi hiIncl
        (scanStart f.cols lo loIncl old.entries ++ S.flatMap Leaf.entries)).1 := by
  have hlinked := ht.onPages.linked
  rw [Linked, hleaves] at hlinked
  obtain ⟨hlS, hnext⟩ := hlinked.suffix
  rw [Option.or_none] at hnext
  have hcount : S.length ≤ f.disk.pages.length := by
    have h₁ := length_leaves_le t
    have h₂ := ht.onPages.length_pageIds_le
    rw [hleaves] at h₁
    simp only [length_append, length_cons] at h₁
    omega
  have hsib := scanSiblings_eq hi hiIncl hlS
    (fun l hl => ht.stored.leaves l (by simp [hleaves, hl])) _ hcount
  rw [rangeScan, if_neg ht.root_ne, ht.root,
    scanFrom_eq ht.stored [] hd _ (by rw [hlen]; exact ht.onPages.height_lt), scanEntries_append,
    hnext, hsib]

/-- A scan without a lower bound starts in the leftmost leaf. -/
theorem descend_leftmost {cap : Nat} (specs : List IndexColSpec) :
    {h : Nat} → {t : Tree Bytes Nat h} → Shape cap t → (path : Path) →
      ∃ old p S, descend (scanSlot specs none) [] t path = some (old, p) ∧ leaves t = old :: S
  | 0, t, _, path => ⟨t, path, [], rfl, rfl⟩
  | h + 1, (t : Branch Bytes (Tree Bytes Nat h)), hs, path => by
    obtain ⟨c, cs, hc⟩ := exists_cons_of_length_eq_add_one hs.2.1
    obtain ⟨old, p, S, hd, hS⟩ :=
      descend_leftmost specs (hs.2.2 c (by simp [hc])) ((t.id, 0) :: path)
    refine ⟨old, p, S ++ cs.flatMap leaves, ?_, by simp [hc, hS]⟩
    have hget : t.kids[scanSlot specs none t.keys []]? = some c := by
      simp [scanSlot, hc]
    simp only [descend, hget]
    exact hd

theorem scanEntries_unbounded (specs : List IndexColSpec) (hiIncl : Bool)
    (es : List (Bytes × Nat)) :
    scanEntries specs none hiIncl es = (es.map Prod.snd, false) := by
  induction es with
  | nil => rfl
  | cons e es ih =>
    simp [scanEntries, pastHi, ih]

theorem IsTree.rangeScan {h : Nat} {t : Tree Bytes Nat h} (ht : IsTree f t)
    (hlen : f.disk.pages.length = f.nextPageId) :
    rangeScan f none loIncl none hiIncl = (toList t).map Prod.snd := by
  obtain ⟨_, p, S, hd, hleaves⟩ := descend_leftmost f.cols ht.onPages.shape []
  rw [rangeScan_eq ht hlen hd (P := []) hleaves, scanEntries_unbounded]
  simp [scanStart, toList, hleaves]

/-- **A scan without bounds** yields the row ids of all entries, in the order of the tree. -/
theorem rangeScan_unbounded {es : List (Bytes × Nat)} (hf : Holds f es) :
    rangeScan f none loIncl none hiIncl = es.map Prod.snd := by
  rcases hf.tree with ⟨hroot, rfl⟩ | ⟨h, t, ht, rfl, _⟩
  · simp [BTreeIndex.rangeScan, hroot]
  · exact ht.rangeScan hf.length

end BTreeIndex
end NyxDb
