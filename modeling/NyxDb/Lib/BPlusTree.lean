import Mathlib.Data.List.Flatten
import Mathlib.Data.List.Perm.Basic

/-!
# B+trees over a page numbering

A B+tree is indexed by its height, so that all leaves are at the same depth by
construction.  Every node carries the number of the page it lives on, and every leaf carries the
link to the next leaf.  The file fixes

* the contents of a tree: its leaves from left to right and their entries;
* the two invariants that do not mention an order (`Shape`: every node is within capacity,
  no leaf is empty; `Linked`: the leaf links follow the leaves from left to right) and the one
  that does (`Seps`: every separator is the first key of the subtree to its right);
* insertion with node splits, for an arbitrary choice of the slot inside a node.

The order on keys only enters through `UpperSlot`, which asks the slot to be an upper bound.
-/

namespace NyxDb.BPlus

open List

/-- A leaf: its page, its entries and the link to the next leaf. -/
structure Leaf (K V : Type) where
  id : Nat
  entries : List (K × V)
  next : Option Nat

/-- An internal node: its page, its separators and its children. -/
structure Branch (K T : Type) where
  id : Nat
  keys : List K
  kids : List T

/-- Trees of height `h` (a leaf has height `0`). -/
@[reducible] def Tree (K V : Type) : Nat → Type
  | 0 => Leaf K V
  | h + 1 => Branch K (Tree K V h)

/-- What an insertion makes of a subtree: the subtree itself, and after a split the pushed
separator with the new right neighbour. -/
structure Grown (K T : Type) where
  left : T
  right : Option (K × T)

namespace Grown

variable {K T : Type}

/-- The one or two subtrees after the insertion, from left to right. -/
def trees (g : Grown K T) : List T :=
  g.left :: (g.right.map Prod.snd).toList

@[simp] theorem trees_none (t : T) : (Grown.mk (K := K) t none).trees = [t] := rfl

@[simp] theorem trees_some (t u : T) (k : K) : (Grown.mk t (some (k, u))).trees = [t, u] := rfl

theorem trees_of_none {g : Grown K T} (hr : g.right = none) : g.trees = [g.left] := by
  simp [trees, hr]

theorem trees_of_some {g : Grown K T} {q : K} {u : T} (hr : g.right = some (q, u)) :
    g.trees = [g.left, u] := by
  simp [trees, hr]

end Grown

variable {K V : Type}

/-- The page of the root of a tree. -/
def rootId : {h : Nat} → Tree K V h → Nat
  | 0, (t : Leaf K V) => t.id
  | _ + 1, (t : Branch K _) => t.id

/-- The leaves from left to right. -/
def leaves : {h : Nat} → Tree K V h → List (Leaf K V)
  | 0, t => [t]
  | _ + 1, (t : Branch K _) => t.kids.flatMap leaves

/-- The entries from left to right. -/
def toList {h : Nat} (t : Tree K V h) : List (K × V) :=
  (leaves t).flatMap Leaf.entries

/-- The pages of a tree, every node before its children. -/
def pageIds : {h : Nat} → Tree K V h → List Nat
  | 0, (t : Leaf K V) => [t.id]
  | _ + 1, (t : Branch K _) => t.id :: t.kids.flatMap pageIds

/-- The key of the leftmost entry. -/
def firstKey {h : Nat} (t : Tree K V h) : Option K :=
  (toList t).head?.map Prod.fst

@[simp] theorem leaves_leaf (t : Leaf K V) : leaves (h := 0) t = [t] := rfl

variable {h cap : Nat}

@[simp] theorem leaves_branch (t : Branch K (Tree K V h)) :
    leaves (h := h + 1) t = t.kids.flatMap leaves := rfl

@[simp] theorem toList_leaf (t : Leaf K V) : toList (h := 0) t = t.entries := by
  simp [toList]

theorem flatMap_toList (ts : List (Tree K V h)) :
    ts.flatMap toList = (ts.flatMap leaves).flatMap Leaf.entries :=
  flatMap_assoc.symm

@[simp] theorem toList_branch (t : Branch K (Tree K V h)) :
    toList (h := h + 1) t = t.kids.flatMap toList :=
  (flatMap_toList _).symm

@[simp] theorem pageIds_leaf (t : Leaf K V) : pageIds (h := 0) t = [t.id] := rfl

@[simp] theorem pageIds_branch (t : Branch K (Tree K V h)) :
    pageIds (h := h + 1) t = t.id :: t.kids.flatMap pageIds := rfl

@[simp] theorem rootId_leaf (t : Leaf K V) : rootId (h := 0) t = t.id := rfl

@[simp] theorem rootId_branch (t : Branch K (Tree K V h)) : rootId (h := h + 1) t = t.id := rfl

theorem rootId_mem_pageIds : {h : Nat} → (t : Tree K V h) → rootId t ∈ pageIds t
  | 0, t => by simp [rootId, pageIds]
  | h + 1, t => by simp [rootId, pageIds]

/-! ## Invariants -/

/-- Every node holds at most `cap` keys, a branch has one child more than separators, and no
leaf is empty. -/
def Shape (cap : Nat) : {h : Nat} → Tree K V h → Prop
  | 0, (t : Leaf K V) => t.entries ≠ [] ∧ t.entries.length ≤ cap
  | _ + 1, (t : Branch K _) =>
    t.keys.length ≤ cap ∧ t.kids.length = t.keys.length + 1 ∧ ∀ c ∈ t.kids, Shape cap c

/-- Every separator is the first key of the subtree to its right. -/
def Seps : {h : Nat} → Tree K V h → Prop
  | 0, _ => True
  | _ + 1, (t : Branch K _) =>
    t.kids.tail.map firstKey = t.keys.map some ∧ ∀ c ∈ t.kids, Seps c

/-- The links of a list of leaves lead from each one to the next, and from the last to `stop`. -/
def LinkedTo (stop : Option Nat) : List (Leaf K V) → Prop
  | [] => True
  | [l] => l.next = stop
  | l :: m :: rest => l.next = some m.id ∧ LinkedTo stop (m :: rest)

/-- The leaf links follow the leaves from left to right and end after the last one. -/
def Linked {h : Nat} (t : Tree K V h) : Prop :=
  LinkedTo none (leaves t)

theorem toList_ne_nil : {h : Nat} → {t : Tree K V h} → Shape cap t → toList t ≠ []
  | 0, (t : Leaf K V), hs => by simpa using hs.1
  | h + 1, (t : Branch K (Tree K V h)), hs => by
    obtain ⟨_, hlen, hkids⟩ := hs
    obtain ⟨c, _, hc⟩ := exists_cons_of_length_eq_add_one hlen
    have hne := toList_ne_nil (hkids c (by simp [hc]))
    simp [hc, hne]

/-- The first key of a branch is the first key of its first child. -/
theorem firstKey_branch_cons {t : Branch K (Tree K V h)} {c : Tree K V h} {cs : List (Tree K V h)}
    (hkids : t.kids = c :: cs) (hc : Shape cap c) : firstKey (h := h + 1) t = firstKey c := by
  obtain ⟨e, _, he⟩ := exists_cons_of_ne_nil (toList_ne_nil hc)
  simp [firstKey, hkids, he]

/-- Trees that satisfy `Shape` have a first key. -/
theorem firstKey_eq_some {t : Tree K V h} (hs : Shape cap t) :
    ∃ e es, toList t = e :: es ∧ firstKey t = some e.1 := by
  obtain ⟨e, es, he⟩ := exists_cons_of_ne_nil (toList_ne_nil hs)
  exact ⟨e, es, he, by simp [firstKey, he]⟩

/-! ## Order

Keys are compared by a relation that is only asked to be a total preorder on the keys that
satisfy `good`; a comparison of machine values may well have inputs that it does not order. -/

/-- `le` is a total preorder on the keys that satisfy `good`. -/
structure OrderOn (good : K → Prop) (le : K → K → Prop) : Prop where
  trans : ∀ {a b c}, good a → good b → good c → le a b → le b c → le a c
  total : ∀ {a b}, good a → good b → le a b ∨ le b a

/-- The entries are in non-decreasing key order and all keys satisfy `good`. -/
structure Sorted (good : K → Prop) (le : K → K → Prop) (es : List (K × V)) : Prop where
  pairwise : es.Pairwise fun a b => le a.1 b.1
  good : ∀ e ∈ es, good e.1

/-- The slot chosen for `k` is the upper bound of `k`. -/
def UpperSlot (good : K → Prop) (le : K → K → Prop) (slot : List K → K → Nat) (k : K) : Prop :=
  ∀ ks : List K, (∀ x ∈ ks, good x) → ks.Pairwise le →
    (∀ x ∈ ks.take (slot ks k), le x k) ∧ ∀ x ∈ ks.drop (slot ks k), ¬ le x k

/-- A tree in key order. -/
structure Ordered (good : K → Prop) (le : K → K → Prop) {h : Nat} (t : Tree K V h) : Prop where
  seps : Seps t
  sorted : Sorted good le (toList t)

section Order

variable {good : K → Prop} {le : K → K → Prop} {es : List (K × V)} {slot : List K → K → Nat}

theorem OrderOn.refl (ho : OrderOn good le) {a : K} (ha : good a) : le a a :=
  (ho.total ha ha).elim id id

theorem mem_of_firstKey {t : Tree K V h} {q : K} (hq : firstKey t = some q) :
    ∃ e ∈ toList t, e.1 = q := by
  obtain ⟨e, he, rfl⟩ := Option.map_eq_some_iff.mp hq
  exact ⟨e, mem_of_mem_head? he, rfl⟩

theorem Sorted.append {fs : List (K × V)} (hs : Sorted good le (es ++ fs)) :
    Sorted good le es ∧ Sorted good le fs ∧ ∀ e ∈ es, ∀ f ∈ fs, le e.1 f.1 := by
  obtain ⟨hp, hg⟩ := hs
  obtain ⟨he, hf, hef⟩ := pairwise_append.mp hp
  exact ⟨⟨he, fun e h => hg e (mem_append_left _ h)⟩,
    ⟨hf, fun f h => hg f (mem_append_right _ h)⟩, hef⟩

/-- The first key of a sorted list is a lower bound of its keys. -/
theorem Sorted.head_le (ho : OrderOn good le) {e f : K × V} (hs : Sorted good le (e :: es))
    (hf : f ∈ e :: es) : le e.1 f.1 := by
  rcases mem_cons.mp hf with rfl | hf
  · exact ho.refl (hs.good _ mem_cons_self)
  · exact (pairwise_cons.mp hs.pairwise).1 f hf

/-- The slot of `k` parts the entries of a sorted list. -/
theorem Sorted.slot_bounds {k : K} (hs : Sorted good le es) (hup : UpperSlot good le slot k) :
    (∀ e ∈ es.take (slot (es.map Prod.fst) k), le e.1 k) ∧
      ∀ e ∈ es.drop (slot (es.map Prod.fst) k), ¬ le e.1 k := by
  obtain ⟨hlow, hhigh⟩ := hup (es.map Prod.fst)
    (by simpa using fun a b hab => hs.good (a, b) hab)
    (by simpa [pairwise_map] using hs.pairwise)
  rw [← map_take] at hlow
  rw [← map_drop] at hhigh
  exact ⟨fun e he => hlow e.1 (mem_map_of_mem he), fun e he => hhigh e.1 (mem_map_of_mem he)⟩

/-- The first key of a sorted tree is a lower bound of its keys. -/
theorem firstKey_le (ho : OrderOn good le) {t : Tree K V h} {q : K} (hs : Sorted good le (toList t))
    (hq : firstKey t = some q) : ∀ e ∈ toList t, le q e.1 := by
  obtain ⟨e₀, he₀, rfl⟩ := Option.map_eq_some_iff.mp hq
  obtain ⟨es, hes⟩ : ∃ es, toList t = e₀ :: es := head?_eq_some_iff.mp he₀
  intro e he
  rw [hes] at he hs
  exact hs.head_le ho he

variable {t : Branch K (Tree K V h)} {A B : List (Tree K V h)} {c : Tree K V h}

theorem toList_kids (hkids : t.kids = A ++ c :: B) :
    toList (h := h + 1) t = A.flatMap toList ++ (toList c ++ B.flatMap toList) := by
  simp [hkids]

/-- The subtrees of a sorted tree are sorted, and no key of one is above a key of a later one. -/
theorem Sorted.kids (hs : Sorted good le (toList (h := h + 1) t)) :
    (∀ c ∈ t.kids, Sorted good le (toList c)) ∧
      t.kids.Pairwise fun c d => ∀ e ∈ toList c, ∀ f ∈ toList d, le e.1 f.1 := by
  obtain ⟨hp, hg⟩ := hs
  rw [toList_branch] at hp hg
  obtain ⟨hin, hacross⟩ := pairwise_flatMap.mp hp
  exact ⟨fun c hc => ⟨hin c hc, fun e he => hg e (mem_flatMap.mpr ⟨c, hc, he⟩)⟩, hacross⟩

theorem Ordered.kid (ho : Ordered good le (h := h + 1) t) (hc : c ∈ t.kids) : Ordered good le c :=
  ⟨ho.seps.2 c hc, ho.sorted.kids.1 c hc⟩

theorem Ordered.keys_sorted (ho : Ordered good le (h := h + 1) t) :
    t.keys.Pairwise le ∧ ∀ x ∈ t.keys, good x := by
  obtain ⟨hseps, hs⟩ := ho
  obtain ⟨hin, hacross⟩ := hs.kids
  constructor
  · have htail : (t.kids.tail.map firstKey).Pairwise
        fun a b => ∀ x y, a = some x → b = some y → le x y := by
      rw [pairwise_map]
      refine (hacross.sublist (tail_sublist _)).imp ?_
      intro c d hcd x y hx hy
      obtain ⟨e, he, rfl⟩ := mem_of_firstKey hx
      obtain ⟨f, hf, rfl⟩ := mem_of_firstKey hy
      exact hcd e he f hf
    rw [hseps.1, pairwise_map] at htail
    exact htail.imp fun h => h _ _ rfl rfl
  · intro x hx
    have hmem : some x ∈ t.kids.tail.map firstKey := by
      rw [hseps.1]
      exact mem_map_of_mem hx
    obtain ⟨c, hc, hcx⟩ := mem_map.mp hmem
    obtain ⟨e, he, rfl⟩ := mem_of_firstKey hcx
    exact (hin c (mem_of_mem_tail hc)).good e he

/-- The separators to the left of a child end with its first key, those to its right are the
first keys of the children to its right. -/
theorem seps_split (hseps : Seps (h := h + 1) t) (hkids : t.kids = A ++ c :: B) :
    B.map firstKey = (t.keys.drop A.length).map some ∧
      (A ≠ [] → firstKey c ∈ (t.keys.take A.length).map some) := by
  have htail := hseps.1
  cases A with
  | nil =>
    rw [hkids] at htail
    simpa using htail
  | cons a A =>
    rw [hkids] at htail
    have hsplit : (a :: A ++ c :: B).tail = (A ++ [c]) ++ B := by simp
    have hlen : (a :: A).length = ((A ++ [c]).map firstKey).length := by simp
    rw [hsplit, map_append] at htail
    rw [map_drop, map_take, ← htail, hlen]
    constructor
    · rw [drop_left]
    · rw [take_left]
      simp

/-- Keys are ordered, `k` is one of them and its slots are upper bounds. -/
structure Places (good : K → Prop) (le : K → K → Prop) (slot : List K → K → Nat)
    (k : K) : Prop where
  order : OrderOn good le
  upper : UpperSlot good le slot k
  good : good k

/-- Descending by the upper bound of `k` leaves keys that are at most `k` on the left and keys
that are not on the right. -/
theorem branch_slot_bounds {cap : Nat} {k : K}
    (hk : Places good le slot k) (hshape : Shape cap (h := h + 1) t)
    (ho : Ordered good le (h := h + 1) t) (hkids : t.kids = A ++ c :: B)
    (hA : A.length = slot t.keys k) :
    (∀ e ∈ A.flatMap toList, le e.1 k) ∧ (∀ e ∈ B.flatMap toList, ¬ le e.1 k) ∧
      (A ≠ [] → ∃ q, firstKey c = some q ∧ le q k) := by
  obtain ⟨hksorted, hkgood⟩ := ho.keys_sorted
  obtain ⟨hseps, hs⟩ := ho
  obtain ⟨hlow, hhigh⟩ := hk.upper t.keys hkgood hksorted
  obtain ⟨hB, hc⟩ := seps_split hseps hkids
  rw [← hA] at hlow hhigh
  rw [toList_kids hkids] at hs
  obtain ⟨hsA, hsR, hAR⟩ := hs.append
  obtain ⟨hsc, hsB, _⟩ := hsR.append
  have hsep : A ≠ [] → ∃ q, firstKey c = some q ∧ le q k := by
    intro hne
    obtain ⟨q, hq, hqc⟩ := mem_map.mp (hc hne)
    exact ⟨q, hqc.symm, hlow q hq⟩
  refine ⟨?_, ?_, hsep⟩
  · intro e he
    have hne : A ≠ [] := by
      rintro rfl
      simp at he
    obtain ⟨q, hq, hqk⟩ := hsep hne
    obtain ⟨f, hf, rfl⟩ := mem_of_firstKey hq
    exact hk.order.trans (hsA.good e he) (hsc.good f hf) hk.good
      (hAR e he f (mem_append_left _ hf)) hqk
  · intro e he hek
    cases B with
    | nil => simp at he
    | cons b B =>
      obtain ⟨f, _, hf, hbf⟩ := firstKey_eq_some (hshape.2.2 b (by simp [hkids]))
      have hmem : f.1 ∈ t.keys.drop A.length := by
        have hsome : some f.1 ∈ (t.keys.drop A.length).map some := by
          rw [← hB, ← hbf]
          simp
        obtain ⟨x, _, hxf⟩ := mem_map.mp hsome
        rwa [← Option.some.inj hxf]
      have hgood := hsB.good e he
      rw [flatMap_cons, hf] at hsB he
      exact hhigh f.1 hmem (hk.order.trans (hsB.good f mem_cons_self) hgood hk.good
        (hsB.head_le hk.order he) hek)

/-- The keys of every node are sorted. -/
def NodesSorted (le : K → K → Prop) : {h : Nat} → Tree K V h → Prop
  | 0, (t : Leaf K V) => t.entries.Pairwise fun a b => le a.1 b.1
  | _ + 1, (t : Branch K _) => t.keys.Pairwise le ∧ ∀ c ∈ t.kids, NodesSorted le c

/-- Every separator bounds the keys of the subtrees on its two sides. -/
def SepsBound (le : K → K → Prop) : {h : Nat} → Tree K V h → Prop
  | 0, _ => True
  | _ + 1, (t : Branch K _) =>
    (∀ i k, t.keys[i]? = some k → (∀ c, t.kids[i]? = some c → ∀ e ∈ toList c, le e.1 k) ∧
        ∀ c, t.kids[i + 1]? = some c → ∀ e ∈ toList c, le k e.1) ∧
    ∀ c ∈ t.kids, SepsBound le c

theorem Ordered.nodesSorted : {h : Nat} → {t : Tree K V h} → Ordered good le t → NodesSorted le t
  | 0, (t : Leaf K V), ho => by
    have hp := ho.sorted.pairwise
    rwa [toList_leaf] at hp
  | h + 1, (t : Branch K (Tree K V h)), ho =>
    ⟨ho.keys_sorted.1, fun _ hc => (ho.kid hc).nodesSorted⟩

theorem Ordered.sepsBound (hle : OrderOn good le) :
    {h : Nat} → {t : Tree K V h} → Ordered good le t → SepsBound le t
  | 0, _, _ => trivial
  | h + 1, (t : Branch K (Tree K V h)), ho => by
    obtain ⟨hin, hacross⟩ := ho.sorted.kids
    refine ⟨?_, fun c hc => (ho.kid hc).sepsBound hle⟩
    intro i k hk
    -- the separator is the first key of the subtree to its right
    obtain ⟨d, hd, hdk⟩ : ∃ d, t.kids[i + 1]? = some d ∧ firstKey d = some k := by
      have hsome : (t.kids.tail.map firstKey)[i]? = some (some k) := by
        rw [ho.seps.1, getElem?_map, hk]
        rfl
      rw [getElem?_map, getElem?_tail] at hsome
      exact Option.map_eq_some_iff.mp hsome
    constructor
    · intro c hc e he
      obtain ⟨hi, rfl⟩ := List.getElem?_eq_some_iff.mp hc
      obtain ⟨hi', rfl⟩ := List.getElem?_eq_some_iff.mp hd
      obtain ⟨f, hf, rfl⟩ := mem_of_firstKey hdk
      exact pairwise_iff_getElem.mp hacross i (i + 1) hi hi' (by omega) e he f hf
    · intro c hc e he
      obtain rfl : d = c := Option.some.inj (hd.symm.trans hc)
      exact firstKey_le hle (hin d (mem_of_getElem? hd)) hdk e he

end Order

/-! ## Insertion -/

section Insert

variable (cap : Nat) (slot : List K → K → Nat) (k : K) (v : V)

/-- Insertion into a leaf; `n` is the page a split takes for the right half. -/
def insertLeaf (t : Leaf K V) (n : Nat) : Grown K (Leaf K V) :=
  let es := t.entries.insertIdx (slot (t.entries.map Prod.fst) k) (k, v)
  if t.entries.length < cap then
    ⟨{ t with entries := es }, none⟩
  else
    let mid := es.length / 2
    let right : Leaf K V := ⟨n, es.drop mid, t.next⟩
    ⟨⟨t.id, es.take mid, some n⟩, (es.drop mid).head?.map fun e => (e.1, right)⟩

/-- Put what became of the child in slot `s` back into a branch; `n` is the page a split takes
for the right half. -/
def insertBranch {T : Type} (t : Branch K T) (s : Nat) (g : Grown K T) (n : Nat) :
    Grown K (Branch K T) :=
  match g.right with
  | none => ⟨{ t with kids := t.kids.set s g.left }, none⟩
  | some (sep, r) =>
    let keys := t.keys.insertIdx s sep
    let kids := (t.kids.set s g.left).insertIdx (s + 1) r
    if t.keys.length < cap then
      ⟨{ t with keys := keys, kids := kids }, none⟩
    else
      let mid := keys.length / 2
      let right : Branch K T := ⟨n, keys.drop (mid + 1), kids.drop (mid + 1)⟩
      ⟨⟨t.id, keys.take mid, kids.take (mid + 1)⟩, (keys.drop mid).head?.map fun q => (q, right)⟩

/-- The number of pages an insertion has taken at the root of its result. -/
def Grown.fresh {T : Type} (g : Grown K T) (n : Nat) : Nat :=
  if g.right.isSome then n + 1 else n

/-- The leaf that a descent for `k` reaches, and the path to it: the pages of the inner nodes with
the slots taken, the nearest parent first. -/
def descend : {h : Nat} → Tree K V h → List (Nat × Nat) → Option (Leaf K V × List (Nat × Nat))
  | 0, t, path => some (t, path)
  | _ + 1, (t : Branch K _), path =>
    let s := slot t.keys k
    match t.kids[s]? with
    | none => none
    | some c => descend c ((t.id, s) :: path)

/-- Insertion into a tree.  The second component is the first page number not in use. -/
def insertAux : {h : Nat} → Tree K V h → Nat → Grown K (Tree K V h) × Nat
  | 0, t, n =>
    let g := insertLeaf cap slot k v t n
    (g, g.fresh n)
  | _ + 1, (t : Branch K _), n =>
    let s := slot t.keys k
    match t.kids[s]? with
    | none => (⟨t, none⟩, n)
    | some c =>
      let (g, n₁) := insertAux c n
      let b := insertBranch cap t s g n₁
      (b, b.fresh n₁)

end Insert

/-! ### Contents after an insertion -/

section InsertContents

variable {cap : Nat} {slot : List K → K → Nat} {k : K} {v : V}

variable {i h : Nat} {α : Type} {xs : List α}

theorem insertIdx_eq_take_drop (hi : i ≤ xs.length) (a : α) :
    xs.insertIdx i a = xs.take i ++ a :: xs.drop i := by
  induction i generalizing xs with
  | zero => simp
  | succ i ih =>
    cases xs with
    | nil => simp at hi
    | cons x xs => simp [ih (by simpa using hi)]

theorem insertIdx_length_append {ys : List α} (hi : xs.length = i) (a : α) :
    (xs ++ ys).insertIdx i a = xs ++ a :: ys := by
  subst hi
  rw [insertIdx_eq_take_drop (by simp)]
  simp

section Middle

variable {A B : List α} (hA : A.length = i) (c l : α)
include hA

theorem getElem?_middle : (A ++ c :: B)[i]? = some c := by
  rw [← hA]
  simp

theorem set_middle : (A ++ c :: B).set i l = A ++ l :: B := by
  rw [← hA]
  simp

theorem insertIdx_middle (r : α) : (A ++ l :: B).insertIdx (i + 1) r = A ++ l :: r :: B := by
  have hsplit : A ++ l :: B = (A ++ [l]) ++ B := by simp
  rw [hsplit, insertIdx_length_append (by simp [hA])]
  simp

end Middle

theorem insertIdx_ne_nil (hi : i ≤ xs.length) (a : α) : xs.insertIdx i a ≠ [] := by
  rw [insertIdx_eq_take_drop hi]
  simp

/-- The second half of a list that is cut in the middle is not empty. -/
theorem exists_cons_of_drop_half (hne : xs ≠ []) : ∃ y ys, xs.drop (xs.length / 2) = y :: ys := by
  apply exists_cons_of_ne_nil
  have hpos := length_pos_of_ne_nil hne
  rw [ne_eq, drop_eq_nil_iff]
  omega

section Branches

variable {T : Type} {t : Branch K T} {s : Nat} {A B : List T} {c l r d : T} {sep : K}
  {keys : List K} {kids : List T} {g : Grown K T}

/-- Putting a split child back into a branch either finds room or cuts the branch in the
middle, where the middle separator is pushed up. -/
theorem insertBranch_cases (cap : Nat) (hkeys : keys = t.keys.insertIdx s sep)
    (hkids : kids = (t.kids.set s l).insertIdx (s + 1) r) (hne : keys ≠ []) (n : Nat) :
    (t.keys.length < cap ∧ insertBranch cap t s ⟨l, some (sep, r)⟩ n = ⟨⟨t.id, keys, kids⟩, none⟩) ∨
    (¬ t.keys.length < cap ∧ ∃ q qs, keys.drop (keys.length / 2) = q :: qs ∧
      insertBranch cap t s ⟨l, some (sep, r)⟩ n =
        ⟨⟨t.id, keys.take (keys.length / 2), kids.take (keys.length / 2 + 1)⟩,
          some (q, ⟨n, keys.drop (keys.length / 2 + 1), kids.drop (keys.length / 2 + 1)⟩)⟩) := by
  by_cases hroom : t.keys.length < cap
  · exact Or.inl ⟨hroom, by simp [insertBranch, hroom, hkeys, hkids]⟩
  · obtain ⟨q, qs, hdrop⟩ := exists_cons_of_drop_half hne
    exact Or.inr ⟨hroom, q, qs, hdrop, by simp [insertBranch, hroom, ← hkeys, ← hkids, hdrop]⟩

/-- The separators of a branch with what became of the child in slot `s`. -/
def grownKeys (t : Branch K T) (s : Nat) (g : Grown K T) : List K :=
  g.right.elim t.keys fun p => t.keys.insertIdx s p.1

section

variable (cap : Nat) (hkids : t.kids = A ++ c :: B) (hA : A.length = s) (hslot : s ≤ t.keys.length)
  (g : Grown K T) (n : Nat)
include hkids hA hslot

/-- An insertion puts what became of the child in slot `s` in its place and cuts the branch in two
if it was full. -/
theorem insertBranch_eq :
    insertBranch cap t s g n = ⟨⟨t.id, grownKeys t s g, A ++ g.trees ++ B⟩, none⟩ ∧
      (t.keys.length ≤ cap → (grownKeys t s g).length ≤ cap) ∨
    (grownKeys t s g).length = t.keys.length + 1 ∧ ∃ m q qs, m = (grownKeys t s g).length / 2 ∧
      (grownKeys t s g).drop m = q :: qs ∧ insertBranch cap t s g n =
        ⟨⟨t.id, (grownKeys t s g).take m, (A ++ g.trees ++ B).take (m + 1)⟩, some (q, ⟨n,
          (grownKeys t s g).drop (m + 1), (A ++ g.trees ++ B).drop (m + 1)⟩)⟩ := by
  obtain ⟨l, _ | ⟨sep, r⟩⟩ := g
  · exact .inl ⟨by simp [insertBranch, grownKeys, hkids, set_middle hA], id⟩
  · have hins : A ++ l :: r :: B = (t.kids.set s l).insertIdx (s + 1) r := by
      rw [hkids, set_middle hA, insertIdx_middle hA]
    have hlen := length_insertIdx_of_le_length hslot sep
    rcases insertBranch_cases cap rfl hins (insertIdx_ne_nil hslot sep) n with
      ⟨hroom, hg⟩ | ⟨_, q, qs, hdrop, hg⟩
    · exact .inl ⟨by simp [hg, grownKeys], fun _ => hlen ▸ hroom⟩
    · exact .inr ⟨hlen, _, q, qs, rfl, hdrop, by simp [hg, grownKeys]⟩

/-- The children of the branches that an insertion makes of a branch: the old ones, with the
child in slot `s` replaced by what became of it. -/
theorem insertBranch_kids :
    (insertBranch cap t s g n).trees.flatMap Branch.kids = A ++ g.trees ++ B := by
  obtain ⟨hg, -⟩ | ⟨-, _, _, _, -, -, hg⟩ := insertBranch_eq cap hkids hA hslot g n
  · simp [hg]
  · simp [hg]

theorem insertBranch_ids : (insertBranch cap t s g n).trees.map Branch.id =
    t.id :: range' n ((insertBranch cap t s g n).fresh n - n) := by
  obtain ⟨hg, -⟩ | ⟨-, _, _, _, -, -, hg⟩ := insertBranch_eq cap hkids hA hslot g n
  · simp [hg, Grown.fresh]
  · simp [hg, Grown.fresh]

/-- The sizes of the branches that an insertion makes of a branch. -/
theorem insertBranch_sizes (hcap : t.keys.length ≤ cap)
    (hlen : t.kids.length = t.keys.length + 1) :
    ∀ b ∈ (insertBranch cap t s g n).trees,
      b.keys.length ≤ cap ∧ b.kids.length = b.keys.length + 1 := by
  have hsame : (A ++ g.trees ++ B).length = (grownKeys t s g).length + 1 := by
    rw [hkids] at hlen
    obtain ⟨l, _ | ⟨sep, r⟩⟩ := g
    · simpa [grownKeys] using hlen
    · have := length_insertIdx_of_le_length hslot sep
      simp [grownKeys] at hlen this ⊢
      omega
  obtain ⟨hg, hle⟩ | ⟨hone, m, q, qs, rfl, -, hg⟩ := insertBranch_eq cap hkids hA hslot g n
  · simpa [hg] using ⟨hle hcap, by simpa using hsame⟩
  · rw [hg]
    refine forall_mem_cons.2 ⟨?_, forall_mem_singleton.2 ?_⟩ <;>
      simp only [length_take, length_drop, hsame] <;> omega

end

/-- A child after the insertion is an old one or one of what became of the child in slot `s`. -/
theorem mem_insertBranch_kids (hkids : t.kids = A ++ c :: B) (hA : A.length = s) {n : Nat}
    (hkeys : s ≤ t.keys.length) {b : Branch K T} (hb : b ∈ (insertBranch cap t s g n).trees)
    (hd : d ∈ b.kids) : d ∈ t.kids ∨ d ∈ g.trees := by
  have hmem : d ∈ A ++ g.trees ++ B := by
    rw [← insertBranch_kids cap hkids hA hkeys g n]
    exact mem_flatMap.mpr ⟨b, hb, hd⟩
  simp only [mem_append, or_assoc] at hmem
  rw [hkids]
  rcases hmem with hd | hd | hd
  · exact .inl (by simp [hd])
  · exact .inr hd
  · exact .inl (by simp [hd])

variable {f : T → Option K}

/-- Cutting the separators and the children of a branch at one place keeps the separators in
front of their children; the separator at the cut belongs to the first child on the right. -/
theorem seps_cut (hseps : kids.tail.map f = keys.map some) (m : Nat) :
    (kids.take (m + 1)).tail.map f = (keys.take m).map some ∧
      (kids.drop (m + 1)).tail.map f = (keys.drop (m + 1)).map some ∧
      ∀ q qs, keys.drop m = q :: qs → ∃ x xs, kids.drop (m + 1) = x :: xs ∧ f x = some q := by
  cases kids with
  | nil =>
    have hkeys : keys = [] := map_eq_nil_iff.mp hseps.symm
    simp [hkeys]
  | cons x kids =>
    rw [tail_cons] at hseps
    refine ⟨?_, ?_, ?_⟩
    · rw [take_succ_cons, tail_cons, map_take, map_take, hseps]
    · rw [drop_succ_cons, tail_drop, map_drop, map_drop, hseps]
    · intro q qs hq
      have hmap : (kids.drop m).map f = some q :: qs.map some := by
        rw [map_drop, hseps, ← map_drop, hq, map_cons]
      obtain ⟨y, ys, hy, hfy, _⟩ := map_eq_cons_iff.mp hmap
      exact ⟨y, ys, by rw [drop_succ_cons, hy], hfy⟩

/-- The separators of a branch after one child was replaced by one with the same first key. -/
theorem seps_set (hseps : (A ++ c :: B).tail.map f = keys.map some) (hl : A ≠ [] → f l = f c) :
    (A ++ l :: B).tail.map f = keys.map some := by
  cases A with
  | nil => simpa using hseps
  | cons a A =>
    rw [← hseps]
    simp [hl]

/-- The separators of a branch after one child was replaced by two. -/
theorem seps_insert (hseps : (A ++ l :: B).tail.map f = keys.map some) (hr : f r = some sep) :
    (A ++ l :: r :: B).tail.map f = (keys.insertIdx A.length sep).map some := by
  have hsplit : (A ++ l :: B).tail = (A ++ [l]).tail ++ B := by
    cases A <;> simp
  have hsplit' : (A ++ l :: r :: B).tail = (A ++ [l]).tail ++ r :: B := by
    cases A <;> simp
  rw [hsplit, map_append] at hseps
  obtain ⟨ks, _, rfl, hks, hls⟩ := map_eq_append_iff.mp hseps.symm
  have hlen : ks.length = A.length := by
    have := congrArg length hks
    simpa using this
  rw [hsplit', insertIdx_length_append hlen]
  simp [hks, hls, hr]

theorem insertBranch_seps (cap : Nat) (hkids : t.kids = A ++ c :: B) (hA : A.length = s)
    (hslot : s ≤ t.keys.length) (hseps : t.kids.tail.map f = t.keys.map some) (g : Grown K T)
    (n : Nat) (hleft : A ≠ [] → f g.left = f c)
    (hright : ∀ q u, g.right = some (q, u) → f u = some q) :
    (∀ b ∈ (insertBranch cap t s g n).trees, b.kids.tail.map f = b.keys.map some) ∧
      ∀ q b, (insertBranch cap t s g n).right = some (q, b) →
        ∃ x xs, b.kids = x :: xs ∧ f x = some q := by
  have hnew : (A ++ g.trees ++ B).tail.map f = (grownKeys t s g).map some := by
    rw [hkids] at hseps
    have hset := seps_set hseps hleft
    obtain ⟨l, _ | ⟨sep, r⟩⟩ := g
    · simpa [grownKeys] using hset
    · simpa [grownKeys, hA] using seps_insert hset (hright sep r rfl)
  obtain ⟨hg, -⟩ | ⟨-, m, q, qs, -, hdrop, hg⟩ := insertBranch_eq cap hkids hA hslot g n
  · simpa [hg] using hnew
  · obtain ⟨hcutl, hcutr, hq⟩ := seps_cut hnew m
    rw [hg]
    refine ⟨forall_mem_cons.2 ⟨hcutl, forall_mem_singleton.2 hcutr⟩, fun q' b hb => ?_⟩
    cases hb
    exact hq q qs hdrop

theorem Grown.le_fresh (g : Grown K T) (n : Nat) : n ≤ g.fresh n := by
  unfold Grown.fresh
  split <;> omega

end Branches

section Kids

variable {t : Branch K (Tree K V h)} {A B : List (Tree K V h)} {c : Tree K V h}

/-- The child that a slot within the separators designates. -/
theorem exists_kid (hs : Shape cap (h := h + 1) t) (hi : i ≤ t.keys.length) :
    ∃ A c B, t.kids = A ++ c :: B ∧ A.length = i ∧ B.length = t.keys.length - i ∧ c ∈ t.kids := by
  have hlt : i < t.kids.length := by
    have := hs.2.1
    omega
  refine ⟨t.kids.take i, t.kids[i], t.kids.drop (i + 1), ?_, ?_, ?_, getElem_mem hlt⟩
  · rw [← drop_eq_getElem_cons hlt, take_append_drop]
  · rw [length_take]
    omega
  · rw [length_drop, hs.2.1]
    omega

/-- Insertion into a branch, with the designated child made explicit. -/
theorem insertAux_branch (hkids : t.kids = A ++ c :: B) (hA : A.length = slot t.keys k) (n : Nat) :
    (insertAux cap slot k v (h := h + 1) t n).1 =
      insertBranch cap t (slot t.keys k) (insertAux cap slot k v c n).1
        (insertAux cap slot k v c n).2 := by
  simp [insertAux, hkids, getElem?_middle hA]

theorem descend_branch (hkids : t.kids = A ++ c :: B) (hA : A.length = slot t.keys k)
    (path : List (Nat × Nat)) :
    descend slot k (h := h + 1) t path = descend slot k c ((t.id, slot t.keys k) :: path) := by
  simp [descend, hkids, getElem?_middle hA]

end Kids

/-- The left half of a split stays on its page. -/
theorem insertAux_rootId : {h : Nat} → (t : Tree K V h) → (n : Nat) →
    rootId (insertAux cap slot k v t n).1.left = rootId t
  | 0, (t : Leaf K V), n => by
    simp only [insertAux, insertLeaf]
    split <;> rfl
  | h + 1, (t : Branch K (Tree K V h)), n => by
    simp only [insertAux]
    cases t.kids[slot t.keys k]? with
    | none => rfl
    | some c =>
      simp only [insertBranch]
      cases (insertAux cap slot k v c n).1.right with
      | none => rfl
      | some p =>
        dsimp only
        split <;> rfl

/-- Replacing one leaf by leaves that start on its page and end with its link keeps the links. -/
theorem linkedTo_replace {stop : Option Nat} {P S : List (Leaf K V)} {old : Leaf K V}
    (hl : LinkedTo stop (P ++ old :: S)) {new : Leaf K V} {news : List (Leaf K V)}
    (hid : new.id = old.id) (hnew : LinkedTo old.next (new :: news)) :
    LinkedTo stop (P ++ (new :: news) ++ S) := by
  have hrun : ∀ new (news : List (Leaf K V)), LinkedTo old.next (new :: news) →
      LinkedTo stop (old :: S) → LinkedTo stop (new :: news ++ S) := by
    intro new news hnew hold
    induction news generalizing new with
    | nil =>
      cases S with
      | nil => exact hnew.trans hold
      | cons m S => exact ⟨hnew.trans hold.1, hold.2⟩
    | cons m news ih => exact ⟨hnew.1, ih m hnew.2⟩
  induction P with
  | nil => exact hrun new news hnew hl
  | cons p P ih =>
    cases P with
    | nil => exact ⟨by rw [hid]; exact hl.1, hrun new news hnew hl.2⟩
    | cons q P => exact ⟨hl.1, ih hl.2⟩

/-! ### Insertion with slots in bounds -/

variable {good : K → Prop} {le : K → K → Prop} {t : Tree K V h}
    (hslot : ∀ ks, slot ks k ≤ ks.length)
include hslot

theorem slot_le_length (es : List (K × V)) : slot (es.map Prod.fst) k ≤ es.length := by
  simpa using hslot (es.map Prod.fst)

/-- An insertion into a leaf either finds room or cuts the entries in the middle. -/
theorem insertLeaf_cases (cap : Nat) (t : Leaf K V) {es : List (K × V)} (n : Nat)
    (hes : es = t.entries.insertIdx (slot (t.entries.map Prod.fst) k) (k, v)) :
    (t.entries.length < cap ∧ insertLeaf cap slot k v t n = ⟨{ t with entries := es }, none⟩) ∨
    (¬ t.entries.length < cap ∧ ∃ e fs, es.drop (es.length / 2) = e :: fs ∧
      insertLeaf cap slot k v t n =
        ⟨⟨t.id, es.take (es.length / 2), some n⟩, some (e.1, ⟨n, e :: fs, t.next⟩)⟩) := by
  have hne : es ≠ [] := by
    rw [hes]
    exact insertIdx_ne_nil (slot_le_length hslot _) (k, v)
  by_cases hroom : t.entries.length < cap
  · exact Or.inl ⟨hroom, by simp [insertLeaf, hroom, hes]⟩
  · obtain ⟨e, fs, hdrop⟩ := exists_cons_of_drop_half hne
    exact Or.inr ⟨hroom, e, fs, hdrop, by simp [insertLeaf, hroom, ← hes, hdrop]⟩

/-- Inserting into a leaf puts the entry into its slot, whether or not the leaf splits. -/
theorem insertLeaf_entries (t : Leaf K V) (n : Nat) :
    (insertLeaf cap slot k v t n).trees.flatMap Leaf.entries =
      t.entries.insertIdx (slot (t.entries.map Prod.fst) k) (k, v) := by
  rcases insertLeaf_cases (v := v) hslot cap t n rfl with ⟨_, hg⟩ | ⟨_, e, _, hdrop, hg⟩
  · simp [hg]
  · simp [hg, ← hdrop]

/-- **The leaves after an insertion**: the leaf that the descent reaches is replaced by what the
insertion makes of it, all others stay as they are.  When the tree is in order and slots are upper
bounds, the keys of the leaves before it are at most `k` and those of the leaves after it are not,
and the leaf has a key that is at most `k` as soon as the tree has one. -/
theorem insertAux_leaves : {h : Nat} → {t : Tree K V h} → Shape cap t → (n : Nat) →
      ∃ P old S, (∀ path, ∃ p, descend slot k t path = some (old, p)) ∧ leaves t = P ++ old :: S ∧
        (insertAux cap slot k v t n).1.trees.flatMap leaves =
          P ++ (insertLeaf cap slot k v old n).trees ++ S ∧
        ∀ {good} {le}, Places good le slot k → Ordered good le t →
          (∀ e ∈ P.flatMap Leaf.entries, le e.1 k) ∧ (∀ e ∈ S.flatMap Leaf.entries, ¬ le e.1 k) ∧
          ((∃ e ∈ toList t, le e.1 k) → ∃ e ∈ old.entries, le e.1 k)
  | 0, (t : Leaf K V), _, n => by
    refine ⟨[], t, [], fun path => ⟨path, rfl⟩, rfl, ?_, by simp⟩
    have hid : (fun l : Leaf K V => leaves (h := 0) l) = fun l => [l] := rfl
    simp [insertAux, hid]
  | h + 1, (t : Branch K (Tree K V h)), hs, n => by
    obtain ⟨A, c, B, hkids, hA, _, hc⟩ := exists_kid hs (hslot t.keys)
    obtain ⟨P, old, S, hdesc, hold, hnew, hord⟩ := insertAux_leaves (hs.2.2 c hc) n
    refine ⟨A.flatMap leaves ++ P, old, S ++ B.flatMap leaves, ?_, ?_, ?_, ?_⟩
    · intro path
      rw [descend_branch hkids hA]
      exact hdesc _
    · simp [hkids, hold]
    · have hb := insertBranch_kids cap hkids hA (hslot t.keys) (insertAux cap slot k v c n).1
        (insertAux cap slot k v c n).2
      have hflat (bs : List (Branch K (Tree K V h))) :
          bs.flatMap (leaves (h := h + 1)) = (bs.flatMap Branch.kids).flatMap leaves := by
        rw [flatMap_assoc]
        rfl
      rw [insertAux_branch hkids hA, hflat, hb]
      simp [hnew]
    · intro good le hk ho
      obtain ⟨hlow, hhigh, hfirst⟩ := branch_slot_bounds hk hs ho hkids hA
      obtain ⟨hP, hS, hpos⟩ := hord hk (ho.kid hc)
      simp only [flatMap_append, ← flatMap_toList, forall_mem_append]
      refine ⟨⟨hlow, hP⟩, ⟨hS, hhigh⟩, ?_⟩
      · rintro ⟨e, he, hek⟩
        rw [toList_kids hkids, mem_append, mem_append] at he
        apply hpos
        rcases he with he | he | he
        -- Left of `c`: then the first key of `c` is not above `k` either.
        · have hne : A ≠ [] := by
            rintro rfl
            simp at he
          obtain ⟨q, hq, hqk⟩ := hfirst hne
          obtain ⟨f, hf, rfl⟩ := mem_of_firstKey hq
          exact ⟨f, hf, hqk⟩
        · exact ⟨e, he, hek⟩
        · exact absurd hek (hhigh e he)

/-- **The entries after an insertion**: the new entry is put in one place; with upper-bound
slots in a tree in order this place is the upper bound of its key. -/
theorem insertAux_toList (hs : Shape cap t) (n : Nat) :
    ∃ X Y, toList t = X ++ Y ∧
      (insertAux cap slot k v t n).1.trees.flatMap toList = X ++ (k, v) :: Y ∧
      ∀ {good} {le}, Places good le slot k → Ordered good le t →
        (∀ e ∈ X, le e.1 k) ∧ ∀ e ∈ Y, ¬ le e.1 k := by
  obtain ⟨P, old, S, _, hold, hnew, hord⟩ := insertAux_leaves (v := v) hslot hs n
  let i := slot (old.entries.map Prod.fst) k
  have hi : i ≤ old.entries.length := slot_le_length hslot _
  refine ⟨P.flatMap Leaf.entries ++ old.entries.take i,
    old.entries.drop i ++ S.flatMap Leaf.entries, ?_, ?_, ?_⟩
  · rw [toList, hold]
    simp only [flatMap_append, flatMap_cons, append_assoc]
    rw [← append_assoc (old.entries.take i), take_append_drop]
  · rw [flatMap_toList, hnew, flatMap_append, flatMap_append, insertLeaf_entries hslot,
      insertIdx_eq_take_drop hi]
    simp [i]
  · intro good le hk ho
    obtain ⟨hP, hS, -⟩ := hord hk ho
    have hsorted := ho.sorted
    rw [toList, hold, flatMap_append] at hsorted
    obtain ⟨hlow, hhigh⟩ := hsorted.append.2.1.append.1.slot_bounds hk.upper
    exact ⟨forall_mem_append.2 ⟨hP, hlow⟩, forall_mem_append.2 ⟨hhigh, hS⟩⟩

/-- The entry in front of the slot of `k`, in the leaf of the descent, is the greatest entry that
is at most `k`. -/
theorem descend_pred (hk : Places good le slot k) (hs : Shape cap t) (ho : Ordered good le t)
    {path : List (Nat × Nat)} {old : Leaf K V} {p : List (Nat × Nat)}
    (hd : descend slot k t path = some (old, p)) {e : K × V} (he : e ∈ toList t) (hek : le e.1 k) :
    ∃ f ∈ toList t, old.entries[slot (old.entries.map Prod.fst) k - 1]? = some f ∧
      0 < slot (old.entries.map Prod.fst) k ∧ le f.1 k ∧ le e.1 f.1 := by
  obtain ⟨P, old', S, hdesc, hleaves, _, hord⟩ := insertAux_leaves (v := e.2) hslot hs 0
  obtain ⟨_, hp'⟩ := hdesc path
  obtain rfl : old' = old := (Prod.mk.inj (Option.some.inj (hp'.symm.trans hd))).1
  obtain ⟨_, hS, hsome⟩ := hord hk ho
  obtain ⟨g, hg, hgk⟩ := hsome ⟨e, he, hek⟩
  have hlist : toList t = P.flatMap Leaf.entries ++ (old'.entries ++ S.flatMap Leaf.entries) := by
    simp [toList, hleaves]
  have hsorted := ho.sorted
  rw [hlist] at hsorted he ⊢
  obtain ⟨_, hsR, hPR⟩ := hsorted.append
  have hsold := hsR.append.1
  obtain ⟨hlow, hhigh⟩ := hsold.slot_bounds hk.upper
  set i := slot (old'.entries.map Prod.fst) k with hi
  have hilen : i ≤ old'.entries.length := slot_le_length hslot _
  have hpos : 0 < i := by
    rw [Nat.pos_iff_ne_zero]
    intro hzero
    rw [hzero] at hhigh
    exact hhigh g hg hgk
  have hlt : i - 1 < old'.entries.length := by omega
  -- The entries in front of the slot, with the last one split off.
  have hcut : old'.entries = old'.entries.take (i - 1) ++ old'.entries[i - 1] ::
      old'.entries.drop i := by
    have hsucc : i - 1 + 1 = i := by omega
    have hd' := drop_eq_getElem_cons hlt
    rw [hsucc] at hd'
    rw [← hd', take_append_drop]
  set f := old'.entries[i - 1] with hf
  have hfmem : f ∈ old'.entries := getElem_mem hlt
  have hfk : le f.1 k := hlow f (mem_take_iff_getElem.mpr ⟨i - 1, by omega, hf.symm⟩)
  refine ⟨f, by simp [hfmem], by rw [getElem?_eq_getElem hlt], hpos, hfk, ?_⟩
  rcases mem_append.mp he with he | he
  · exact hPR e he f (mem_append_left _ hfmem)
  · rcases mem_append.mp he with he | he
    · have hp := hsold.pairwise
      rw [hcut] at he hp
      rcases mem_append.mp he with he | he
      · exact (pairwise_append.mp hp).2.2 e he f mem_cons_self
      · rcases mem_cons.mp he with rfl | he
        · exact hk.order.refl (hsold.good _ hfmem)
        · exact absurd hek (hhigh e he)
    · exact absurd hek (hS e he)

/-! ### Invariants after an insertion -/

theorem insertLeaf_shape (hcap : 0 < cap) {t : Leaf K V} (hs : Shape cap (h := 0) t) (n : Nat) :
    ∀ l ∈ (insertLeaf cap slot k v t n).trees, Shape cap (h := 0) l := by
  have hi := slot_le_length hslot t.entries
  have hlen := length_insertIdx_of_le_length hi (k, v)
  have hle := hs.2
  intro l hl
  rcases insertLeaf_cases (v := v) hslot cap t n rfl with ⟨hroom, hg⟩ | ⟨_, e, fs, hdrop, hg⟩
  · rw [hg, Grown.trees_none, mem_singleton] at hl
    subst hl
    exact ⟨insertIdx_ne_nil hi (k, v), by rw [hlen]; exact hroom⟩
  · have hright := congrArg length hdrop
    rw [length_drop] at hright
    simp only [hg, Grown.trees_some, mem_cons, not_mem_nil, or_false] at hl
    rcases hl with rfl | rfl
    · refine ⟨ne_nil_of_length_pos ?_, ?_⟩ <;> simp only [length_take] <;> omega
    · refine ⟨by simp, ?_⟩
      change (e :: fs).length ≤ cap
      omega

theorem insertAux_shape (hcap : 0 < cap) : {h : Nat} → {t : Tree K V h} → Shape cap t → (n : Nat) →
      ∀ u ∈ (insertAux cap slot k v t n).1.trees, Shape cap u
  | 0, _, hs, n => insertLeaf_shape hslot hcap hs n
  | h + 1, (t : Branch K (Tree K V h)), hs, n => by
    obtain ⟨A, c, B, hkids, hA, _, hc⟩ := exists_kid hs (hslot t.keys)
    rw [insertAux_branch hkids hA]
    intro b hb
    obtain ⟨hkeys, hlen⟩ := insertBranch_sizes cap hkids hA (hslot t.keys) _ _ hs.1 hs.2.1 b hb
    refine ⟨hkeys, hlen, ?_⟩
    intro d hd
    rcases mem_insertBranch_kids hkids hA (hslot t.keys) hb hd with hd | hd
    · exact hs.2.2 d hd
    · exact insertAux_shape hcap (hs.2.2 c hc) n d hd

theorem insertLeaf_linked (cap : Nat) (t : Leaf K V) (n : Nat) :
    ∃ l ls, (insertLeaf cap slot k v t n).trees = l :: ls ∧ l.id = t.id ∧
      LinkedTo t.next (l :: ls) := by
  rcases insertLeaf_cases (v := v) hslot cap t n rfl with ⟨_, hg⟩ | ⟨_, e, _, _, hg⟩
  · rw [hg]
    exact ⟨_, _, rfl, rfl, rfl⟩
  · rw [hg]
    exact ⟨_, _, rfl, rfl, rfl, rfl⟩

theorem insertAux_linked (hs : Shape cap t) (hl : Linked t) (n : Nat) :
    LinkedTo none ((insertAux cap slot k v t n).1.trees.flatMap leaves) := by
  obtain ⟨P, old, S, _, hold, hnew, _⟩ := insertAux_leaves (v := v) hslot hs n
  obtain ⟨l, _, htrees, hid, hlink⟩ := insertLeaf_linked (v := v) hslot cap old n
  rw [Linked, hold] at hl
  rw [hnew, htrees]
  exact linkedTo_replace hl hid hlink

theorem insertLeaf_ids (cap : Nat) (t : Leaf K V) (n : Nat) :
    (insertLeaf cap slot k v t n).trees.map Leaf.id =
      t.id :: range' n ((insertLeaf cap slot k v t n).fresh n - n) := by
  rcases insertLeaf_cases (v := v) hslot cap t n rfl with ⟨_, hg⟩ | ⟨_, e, _, _, hg⟩
  · simp [hg, Grown.fresh]
  · simp [hg, Grown.fresh]

/-- **The pages after an insertion** are the old ones and the new ones from `n` on. -/
theorem insertAux_pageIds :
    {h : Nat} → {t : Tree K V h} → Shape cap t → (n : Nat) → n ≤ (insertAux cap slot k v t n).2 ∧
        ((insertAux cap slot k v t n).1.trees.flatMap pageIds).Perm
          (pageIds t ++ range' n ((insertAux cap slot k v t n).2 - n))
  | 0, (t : Leaf K V), _, n => by
    refine ⟨Grown.le_fresh _ n, ?_⟩
    have hids := insertLeaf_ids (v := v) hslot cap t n
    have hflat (ls : List (Leaf K V)) : ls.flatMap (pageIds (h := 0)) = ls.map Leaf.id := by
      induction ls with
      | nil => rfl
      | cons l ls ih => simp [ih]
    simp only [insertAux, hflat, hids]
    rfl
  | h + 1, (t : Branch K (Tree K V h)), hs, n => by
    obtain ⟨A, c, B, hkids, hA, _, hc⟩ := exists_kid hs (hslot t.keys)
    obtain ⟨_, ih⟩ := insertAux_pageIds (hs.2.2 c hc) n
    have hget : t.kids[slot t.keys k]? = some c := by rw [hkids, getElem?_middle hA]
    simp only [insertAux, hget]
    set g := (insertAux cap slot k v c n).1
    set n₁ := (insertAux cap slot k v c n).2
    have hids := insertBranch_ids cap hkids hA (hslot t.keys) g n₁
    have hkids' := insertBranch_kids cap hkids hA (hslot t.keys) g n₁
    set b := insertBranch cap t (slot t.keys k) g n₁ with hb
    have hle' := b.le_fresh n₁
    refine ⟨by omega, ?_⟩
    have hperm : (b.trees.flatMap (pageIds (h := h + 1))).Perm
        (b.trees.map Branch.id ++ (b.trees.flatMap Branch.kids).flatMap pageIds) := by
      rw [flatMap_assoc, map_eq_flatMap]
      exact (flatMap_append_perm b.trees (fun d => [d.id]) (fun d => d.kids.flatMap pageIds)).symm
    refine hperm.trans ?_
    rw [hids, hkids']
    -- The ids taken below and those taken here are adjacent ranges.
    have hrange : range' n (b.fresh n₁ - n) =
        range' n (n₁ - n) ++ range' n₁ (b.fresh n₁ - n₁) := by
      have hsum : b.fresh n₁ - n = (n₁ - n) + (b.fresh n₁ - n₁) := by omega
      have hstart : n₁ = n + 1 * (n₁ - n) := by omega
      rw [hsum, ← range'_append, ← hstart]
    simp only [hkids, pageIds_branch, flatMap_append, flatMap_cons, hrange,
      cons_append, append_assoc]
    refine Perm.cons _ (perm_iff_count.mpr ?_)
    intro a
    have hcount := ih.count_eq a
    simp only [count_append] at hcount ⊢
    omega

/-! ### Order after an insertion -/

theorem insertAux_sorted (hk : Places good le slot k) (hs : Shape cap t) (ho : Ordered good le t)
    (n : Nat) : Sorted good le ((insertAux cap slot k v t n).1.trees.flatMap toList) := by
  obtain ⟨X, Y, hXY, hnew, hord⟩ := insertAux_toList (v := v) hslot hs n
  obtain ⟨hX, hY⟩ := hord hk ho
  have hsorted := ho.sorted
  rw [hXY] at hsorted
  rw [hnew]
  obtain ⟨hsX, hsY, hcross⟩ := hsorted.append
  constructor
  · refine pairwise_append.mpr ⟨hsX.pairwise, pairwise_cons.mpr ⟨?_, hsY.pairwise⟩, ?_⟩
    · intro e he
      exact (hk.order.total (hsY.good e he) hk.good).resolve_left (hY e he)
    · exact fun e he => forall_mem_cons.2 ⟨hX e he, hcross e he⟩
  · exact forall_mem_append.2 ⟨hsX.good, forall_mem_cons.2 ⟨hk.good, hsY.good⟩⟩

variable (hcap : 0 < cap) (hk : Places good le slot k)
include hcap hk

/-- An insertion of a key that is not below the first key keeps the first key. -/
theorem insertAux_firstKey (hs : Shape cap t) (ho : Ordered good le t) (n : Nat) {q : K}
    (hq : firstKey t = some q) (hqk : le q k) :
    firstKey (insertAux cap slot k v t n).1.left = some q := by
  obtain ⟨X, Y, hXY, hnew, hord⟩ := insertAux_toList (v := v) hslot hs n
  obtain ⟨_, hY⟩ := hord hk ho
  obtain ⟨e, he, rfl⟩ := Option.map_eq_some_iff.mp hq
  obtain ⟨_, hes⟩ := head?_eq_some_iff.mp he
  cases X with
  | nil =>
    have : e ∈ Y := by
      rw [nil_append] at hXY
      simp [← hXY, hes]
    exact absurd hqk (hY e this)
  | cons x X =>
    have hx : x = e := by
      rw [hes] at hXY
      exact (cons.inj hXY).1.symm
    have hleft := insertAux_shape hslot hcap (v := v) hs n
      (insertAux cap slot k v t n).1.left (by simp [Grown.trees])
    obtain ⟨f, _, hf, hfirst⟩ := firstKey_eq_some hleft
    rw [Grown.trees, flatMap_cons, hf] at hnew
    rw [hfirst, (cons.inj hnew).1, hx]

theorem insertAux_seps :
    {h : Nat} → {t : Tree K V h} → Shape cap t → Ordered good le t → (n : Nat) →
      (∀ u ∈ (insertAux cap slot k v t n).1.trees, Seps u) ∧
        ∀ q u, (insertAux cap slot k v t n).1.right = some (q, u) → firstKey u = some q
  | 0, (t : Leaf K V), _, _, n => by
    refine ⟨fun _ _ => trivial, ?_⟩
    intro q u hu
    change (insertLeaf cap slot k v t n).right = some (q, u) at hu
    rcases insertLeaf_cases (v := v) hslot cap t n rfl with ⟨_, hg⟩ | ⟨_, e, _, -, hg⟩
    · simp [hg] at hu
    · rw [hg] at hu
      cases hu
      simp [firstKey]
  | h + 1, (t : Branch K (Tree K V h)), hs, ho, n => by
    obtain ⟨A, c, B, hkids, hA, _, hc⟩ := exists_kid hs (hslot t.keys)
    obtain ⟨_, _, hfirst⟩ := branch_slot_bounds hk hs ho hkids hA
    obtain ⟨hsub, hpush⟩ := insertAux_seps (hs.2.2 c hc) (ho.kid hc) n
    have hleft : A ≠ [] → firstKey (insertAux cap slot k v c n).1.left = firstKey c := by
      intro hne
      obtain ⟨q, hq, hqk⟩ := hfirst hne
      rw [hq]
      exact insertAux_firstKey hslot hcap hk (hs.2.2 c hc) (ho.kid hc) n hq hqk
    have hb := insertBranch_seps cap hkids hA (hslot t.keys) ho.seps.1
      (insertAux cap slot k v c n).1 (insertAux cap slot k v c n).2 hleft hpush
    have hshape := insertAux_shape (v := v) hslot hcap (h := h + 1) (t := t) hs n
    rw [insertAux_branch hkids hA] at hshape ⊢
    constructor
    · intro b hbmem
      refine ⟨hb.1 b hbmem, ?_⟩
      intro d hd
      exact (mem_insertBranch_kids hkids hA (hslot t.keys) hbmem hd).elim (ho.seps.2 d) (hsub d)
    · intro q b hbr
      obtain ⟨x, _, hx, hxq⟩ := hb.2 q b hbr
      have hbs := hshape b (by simp [Grown.trees, hbr])
      rw [firstKey_branch_cons hx (hbs.2.2 x (by simp [hx])), hxq]

end InsertContents

/-! ## Whole trees -/

/-- A tree on the pages below `n`, page `0` excluded: within capacity, its pages pairwise distinct
and its leaves linked. -/
structure OnPages (cap n : Nat) {h : Nat} (t : Tree K V h) : Prop where
  shape : Shape cap t
  linked : Linked t
  nodup : (pageIds t).Nodup
  bound : ∀ i ∈ pageIds t, 0 < i ∧ i < n

/-- The new root after an insertion that split the root. -/
def newRoot (g : Grown K (Tree K V h)) (q : K) (u : Tree K V h) (m : Nat) : Branch K (Tree K V h) :=
  ⟨m, [q], [g.left, u]⟩

section Root

variable {cap n : Nat} {slot : List K → K → Nat} {k q : K} {v : V} {h : Nat} {t u : Tree K V h}
  (hslot : ∀ ks, slot ks k ≤ ks.length)
include hslot

/-- The pages after an insertion are pairwise distinct, between page `0` and the next free one. -/
theorem insertAux_pages (hs : OnPages cap n t) (hn : 0 < n) :
    ((insertAux cap slot k v t n).1.trees.flatMap pageIds).Nodup ∧
      ∀ i ∈ (insertAux cap slot k v t n).1.trees.flatMap pageIds,
        0 < i ∧ i < (insertAux cap slot k v t n).2 := by
  obtain ⟨_, hperm⟩ := insertAux_pageIds (v := v) hslot hs.shape n
  constructor
  · rw [hperm.nodup_iff, nodup_append]
    refine ⟨hs.nodup, nodup_range', ?_⟩
    intro i hi j hj hij
    have hin := (hs.bound i hi).2
    rw [mem_range'_1] at hj
    omega
  · intro i hi
    rcases mem_append.mp (hperm.mem_iff.mp hi) with h | h
    · have hin := hs.bound i h
      omega
    · rw [mem_range'_1] at h
      omega

variable (hcap : 0 < cap)
include hcap

/-- An insertion that does not split the root keeps the tree sound. -/
theorem onPages_insertAux (hs : OnPages cap n t) (hn : 0 < n)
    (hr : (insertAux cap slot k v t n).1.right = none) :
    OnPages cap (insertAux cap slot k v t n).2 (insertAux cap slot k v t n).1.left := by
  have hlinked := insertAux_linked (v := v) hslot hs.shape hs.linked n
  have hshape := insertAux_shape (v := v) hslot hcap hs.shape n
  obtain ⟨hnd, hb⟩ := insertAux_pages (v := v) hslot hs hn
  rw [Grown.trees_of_none hr] at hlinked hshape hnd hb
  rw [flatMap_singleton] at hlinked hnd hb
  exact ⟨hshape _ mem_cons_self, hlinked, hnd, hb⟩

/-- A split of the root puts both halves under a new root. -/
theorem onPages_newRoot (hs : OnPages cap n t) (hn : 0 < n)
    (hr : (insertAux cap slot k v t n).1.right = some (q, u)) :
    OnPages cap ((insertAux cap slot k v t n).2 + 1) (h := h + 1)
      (newRoot (insertAux cap slot k v t n).1 q u (insertAux cap slot k v t n).2) := by
  have hlinked := insertAux_linked (v := v) hslot hs.shape hs.linked n
  have hshape := insertAux_shape (v := v) hslot hcap hs.shape n
  have hle := (insertAux_pageIds (v := v) hslot hs.shape n).1
  obtain ⟨hnd, hb⟩ := insertAux_pages (v := v) hslot hs hn
  rw [Grown.trees_of_some hr] at hlinked hshape hnd hb
  refine ⟨⟨hcap, rfl, hshape⟩, hlinked, ?_, ?_⟩
  · rw [pageIds_branch, nodup_cons]
    refine ⟨?_, hnd⟩
    intro hmem
    have := (hb _ hmem).2
    exact absurd this (Nat.lt_irrefl _)
  · intro i hi
    rcases mem_cons.mp hi with rfl | hi
    · exact ⟨Nat.lt_of_lt_of_le hn hle, Nat.lt_succ_self _⟩
    · exact ⟨(hb i hi).1, Nat.lt_succ_of_lt (hb i hi).2⟩

variable {good : K → Prop} {le : K → K → Prop} (hk : Places good le slot k) (hs : Shape cap t)
  (ho : Ordered good le t)
include hk hs ho

theorem insertAux_ordered (hr : (insertAux cap slot k v t n).1.right = none) :
    Ordered good le (insertAux cap slot k v t n).1.left := by
  have hseps := (insertAux_seps (v := v) hslot hcap hk hs ho n).1
  have hsorted := insertAux_sorted (v := v) hslot hk hs ho n
  rw [Grown.trees_of_none hr] at hseps hsorted
  rw [flatMap_singleton] at hsorted
  exact ⟨hseps _ mem_cons_self, hsorted⟩

theorem newRoot_ordered (hr : (insertAux cap slot k v t n).1.right = some (q, u)) (m : Nat) :
    Ordered good le (h := h + 1) (newRoot (insertAux cap slot k v t n).1 q u m) := by
  obtain ⟨hseps, hfirst⟩ := insertAux_seps (v := v) hslot hcap hk hs ho n
  have hsorted := insertAux_sorted (v := v) hslot hk hs ho n
  rw [Grown.trees_of_some hr] at hseps hsorted
  refine ⟨⟨?_, hseps⟩, ?_⟩
  · simp [newRoot, hfirst q u hr]
  · rw [toList_branch]
    exact hsorted

end Root

end NyxDb.BPlus
