import NyxDb.Lib.BPlusTree
import Mathlib.Data.List.Perm.Subperm

/-!
# B+trees stored in pages

`Stored look t` says that reading pages with `look` finds every node of `t` on its page.  A
tree only depends on its own pages (`Stored.congr`), which is what lets one update of a page be
followed through a tree whose pages are pairwise distinct.
-/

namespace NyxDb.BPlus

open List

/-- The contents of a page: a leaf with its right link, or separators and child pages. -/
inductive Node (K V : Type) where
  | leaf (entries : List (K × V)) (next : Option Nat)
  | internal (keys : List K) (children : List Nat)
  deriving DecidableEq, Repr

variable {K V : Type} {look : Nat → Option (Node K V)}

/-- Every node of the tree is found on its page. -/
def Stored (look : Nat → Option (Node K V)) : {h : Nat} → Tree K V h → Prop
  | 0, (t : Leaf K V) => look t.id = some (.leaf t.entries t.next)
  | _ + 1, (t : Branch K _) =>
    look t.id = some (.internal t.keys (t.kids.map rootId)) ∧ ∀ c ∈ t.kids, Stored look c

theorem Stored.congr {look' : Nat → Option (Node K V)} :
    {h : Nat} → {t : Tree K V h} → Stored look t → (∀ i ∈ pageIds t, look' i = look i) →
      Stored look' t
  | 0, (t : Leaf K V), hs, heq => by
    have hid := heq t.id (by simp)
    exact hid.trans hs
  | h + 1, (t : Branch K (Tree K V h)), hs, heq => by
    refine ⟨(heq t.id (by simp)).trans hs.1, ?_⟩
    intro c hc
    refine Stored.congr (hs.2 c hc) ?_
    intro i hi
    exact heq i (by
      exact mem_cons_of_mem _ (mem_flatMap.mpr ⟨c, hc, hi⟩))

/-- The root of a stored tree is found on its page. -/
theorem Stored.root : {h : Nat} → {t : Tree K V h} → Stored look t → ∃ p, look (rootId t) = some p
  | 0, _, hs => ⟨_, hs⟩
  | _ + 1, _, hs => ⟨_, hs.1⟩

/-- The leaves of a stored tree are found on their pages. -/
theorem Stored.leaves :
    {h : Nat} → {t : Tree K V h} → Stored look t → ∀ l ∈ leaves t, Stored look (h := 0) l
  | 0, _, hs, l, hl => by
    rw [leaves_leaf, mem_singleton] at hl
    subst hl
    exact hs
  | h + 1, (t : Branch K (Tree K V h)), hs, l, hl => by
    obtain ⟨c, hc, hlc⟩ := mem_flatMap.mp hl
    exact Stored.leaves (hs.2 c hc) l hlc

/-- A tree has more pages than its height. -/
theorem height_lt_length {cap : Nat} :
    {h : Nat} → {t : Tree K V h} → Shape cap t → h < (pageIds t).length
  | 0, _, _ => by simp
  | h + 1, (t : Branch K (Tree K V h)), hs => by
    obtain ⟨c, _, hc⟩ := exists_cons_of_length_eq_add_one hs.2.1
    have hlt := height_lt_length (hs.2.2 c (by simp [hc]))
    simp only [pageIds_branch, hc, flatMap_cons, length_cons, length_append]
    omega

/-- A sound tree has at most as many nodes as there are pages. -/
theorem OnPages.length_pageIds_le {cap n h : Nat} {t : Tree K V h} (hs : OnPages cap n t) :
    (pageIds t).length ≤ n := by
  have hsub : pageIds t ⊆ range n := by
    intro i hi
    exact mem_range.mpr (hs.bound i hi).2
  have hle := (subperm_of_subset hs.nodup hsub).length_le
  rwa [length_range] at hle

/-- The height of a sound tree is below the number of pages. -/
theorem OnPages.height_lt {cap n h : Nat} {t : Tree K V h} (hs : OnPages cap n t) : h < n :=
  Nat.lt_of_lt_of_le (height_lt_length hs.shape) hs.length_pageIds_le

end NyxDb.BPlus
