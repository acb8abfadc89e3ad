import NyxDb.Index.BulkBuild
import NyxDb.Lib.Run

/-!
# The structure of a B+tree index over its whole life

An index is created, perhaps bulk loaded once, and then grows by insertions.  `WellFormed` says
what its pages must look like at any moment; `buildAndInsert_wellFormed` shows it for every such
life as long as no key component is NaN.  With a NaN the comparison of keys is no order any more,
and `buildAndInsert_nan_unsorted` shows a leaf that is out of order.
-/

namespace NyxDb.BTreeIndex

open BPlus IndexFile List

/-- The pages below the root form a B+tree over the entries `es`.  All leaves have the same depth
by the type of the tree. -/
structure WellFormedTree (f : IndexFile) (es : List (Bytes × Nat)) {h : Nat}
    (t : Tree Bytes Nat h) : Prop where
  stored : Stored f.look t
  root : f.rootPageId = rootId t
  capacity : Shape f.nodeCapacity t
  nodesSorted : NodesSorted (keyLe f.cols) t
  sepsBound : SepsBound (keyLe f.cols) t
  linked : Linked t
  entries : (toList t).Perm es
  scan : rangeScan f none true none true = (toList t).map Prod.snd
  sorted : (toList t).Pairwise fun a b => keyLe f.cols a.1 b.1

/-- An index without entries has no root page, any other is a B+tree. -/
def WellFormed (f : IndexFile) (es : List (Bytes × Nat)) : Prop :=
  (f.rootPageId = 0 ∧ es = [] ∧ rangeScan f none true none true = []) ∨
    ∃ (h : Nat) (t : Tree Bytes Nat h), WellFormedTree f es t

/-- The life of an index: one bulk load, then insertions. -/
def buildAndInsert (entries : List (Bytes × Nat)) (inserts : List (List Value × Nat)) :
    Op IndexFile Unit := do
  bulkBuild entries
  forEach inserts fun (vals, rowId) => insert vals rowId

/-- The entry that an insertion adds. -/
def entryOf (specs : List IndexColSpec) (ins : List Value × Nat) : Bytes × Nat :=
  (((encodeKey specs ins.1).toOption).getD [], ins.2)

variable {f : IndexFile} {es es' : List (Bytes × Nat)}

theorem create_eq_ok {cols : List IndexColSpec} {colIndices : List UInt8} {isUnique : Bool}
    (hc : create cols colIndices isUnique = .ok f) :
    Holds f [] ∧ f.cols = cols ∧ f.isUnique = isUnique ∧ f.disk.cols = f.cols ∧
      f.entryCount = 0 := by
  unfold create at hc
  split_ifs at hc with _ _ _ hcap
  cases hc
  exact ⟨⟨⟨rfl, by simp, Nat.pos_of_ne_zero hcap, rfl⟩, Or.inl ⟨rfl, rfl⟩⟩, rfl, rfl, rfl, rfl⟩

/-- An index that stores good entries is well formed. -/
theorem Holds.wellFormed {ins : List (Bytes × Nat)} (hf : Holds f es) (hgood : AllGood f.cols es)
    (hperm : es.Perm ins) : WellFormed f ins := by
  have hscan : rangeScan f none true none true = es.map Prod.snd := rangeScan_unbounded hf
  rcases hf.tree with ⟨hroot, rfl⟩ | ⟨h, t, ht, rfl, hord⟩
  · exact Or.inl ⟨hroot, nil_perm.mp hperm, hscan⟩
  · have ho := hord hgood
    exact Or.inr ⟨h, t, {
      stored := ht.stored
      root := ht.root
      capacity := ht.onPages.shape
      nodesSorted := ho.nodesSorted
      sepsBound := ho.sepsBound (keyLe_orderOn hgood.1)
      linked := ht.onPages.linked
      entries := hperm
      scan := hscan
      sorted := ho.sorted.pairwise }⟩

theorem Duplicate.perm {key : Bytes} (h : Duplicate f es key)
    (hp : es.Perm es') : Duplicate f es' key := by
  obtain ⟨huniq, hnull, e, he, heq⟩ := h
  exact ⟨huniq, hnull, e, hp.mem_iff.mp he, heq⟩

theorem Duplicate.congr {f' : IndexFile} {key : Bytes} (hs : SameKeys f f') :
    Duplicate f' es key ↔ Duplicate f es key := by
  rw [Duplicate, Duplicate, hs.cols, hs.isUnique]

theorem AllGood.perm {specs : List IndexColSpec} (h : AllGood specs es)
    (hp : es.Perm es') : AllGood specs es' :=
  ⟨h.1, fun e he => h.2 e (hp.mem_iff.mpr he)⟩

/-- An insertion after which everything went well: the entries are all there, and none of them was
a duplicate when it was inserted. -/
structure InsertedAll (f : IndexFile) (es : List (Bytes × Nat)) (inserts : List (List Value × Nat))
    (es' : List (Bytes × Nat)) : Prop where
  entries : es'.Perm (es ++ inserts.map (entryOf f.cols))
  fresh : AllGood f.cols (es ++ inserts.map (entryOf f.cols)) → ∀ done ins rest,
    inserts = done ++ ins :: rest →
      ¬ Duplicate f (es ++ done.map (entryOf f.cols)) (entryOf f.cols ins).1

/-- An insertion that was stopped by a duplicate. -/
structure Stopped (f : IndexFile) (es : List (Bytes × Nat)) (inserts : List (List Value × Nat))
    (es' : List (Bytes × Nat)) : Prop where
  entries : ∃ done ins rest, inserts = done ++ ins :: rest ∧
    es'.Perm (es ++ done.map (entryOf f.cols)) ∧ Duplicate f es' (entryOf f.cols ins).1

/-- **Insertions one after the other** succeed up to the first duplicate. -/
theorem exec_insertAll {f₀ : IndexFile} {inserts : List (List Value × Nat)} (hf : Holds f es)
    (hkeys : ∀ ins ∈ inserts, ∃ key, encodeKey f₀.cols ins.1 = .ok key) (hsame : SameKeys f₀ f) :
    ∃ f' es', Holds f' es' ∧ SameKeys f₀ f' ∧
      ((exec (forEach inserts fun (vals, rowId) => insert vals rowId) f =
          (.ok (), f') ∧ InsertedAll f₀ es inserts es') ∨
        (exec (forEach inserts fun (vals, rowId) => insert vals rowId) f =
          (.error .indexDuplicateKey, f') ∧ Stopped f₀ es inserts es')) := by
  induction inserts generalizing f es with
  | nil =>
    refine ⟨f, es, hf, hsame, Or.inl ⟨rfl, by simp, fun _ done ins rest h => ?_⟩⟩
    cases done <;> cases h
  | cons ins inserts ih =>
    obtain ⟨key, hkey⟩ := hkeys ins mem_cons_self
    have hentry : entryOf f₀.cols ins = (key, ins.2) := by
      rw [entryOf, hkey]
      rfl
    obtain ⟨f₁, hsame₁, _, ⟨hexec, hf₁, hdup⟩ | ⟨X, Y, hexec, rfl, hf₁, hfresh⟩⟩ :=
      exec_insert hf (hsame.cols.symm ▸ hkey) ins.2
    -- The first insertion is refused, and the others are not tried.
    · refine ⟨f₁, es, hf₁, hsame.trans hsame₁, Or.inr ⟨?_, [], ins, inserts, rfl, by simp, ?_⟩⟩
      · rw [exec_forEach_cons, exec_bind_error hexec]
      · rw [hentry]
        exact (Duplicate.congr hsame).1 hdup
    -- It is accepted, and its entry stands somewhere in the middle.
    · have hgrow : ∀ xs : List (List Value × Nat),
          (X ++ (key, ins.2) :: Y ++ xs.map (entryOf f₀.cols)).Perm
            (X ++ Y ++ (ins :: xs).map (entryOf f₀.cols)) := by
        intro xs
        rw [map_cons, hentry]
        exact (perm_middle.append_right _).trans perm_middle.symm
      obtain ⟨f', es', hf', hsame', hrest⟩ := ih hf₁ (fun i hi => hkeys i (mem_cons_of_mem _ hi))
        (hsame.trans hsame₁)
      refine ⟨f', es', hf', hsame', ?_⟩
      rw [exec_forEach_cons, exec_bind_ok hexec]
      rcases hrest with ⟨hok, hall⟩ | ⟨herr, done, i, rest, rfl, hperm, hdup⟩
      · refine Or.inl ⟨hok, hall.entries.trans (hgrow inserts),
          fun hgood done i rest hsplit hdup => ?_⟩
        cases done with
        | nil =>
          obtain ⟨rfl, rfl⟩ := cons.inj hsplit
          rw [map_nil, append_nil, hentry, ← Duplicate.congr hsame] at hdup
          rw [hsame.cols] at hfresh
          refine hfresh ⟨hgood.1, fun e he => hgood.2 e (mem_append_left _ he)⟩ ?_ hdup
          exact hgood.2 (key, ins.2) (by simp [hentry])
        | cons d done =>
          obtain ⟨rfl, rfl⟩ := cons.inj hsplit
          exact hall.fresh (hgood.perm (hgrow _).symm) done i rest rfl (hdup.perm (hgrow done).symm)
      · exact Or.inr ⟨herr, ins :: done, i, rest, rfl, hperm.trans (hgrow done), hdup⟩

/-- Insertions into an index that allows duplicates all succeed and add their entries. -/
theorem exec_inserts (hf : Holds f es) (huniq : f.isUnique = false)
    (inserts : List (List Value × Nat))
    (hkeys : ∀ ins ∈ inserts, ∃ key, encodeKey f.cols ins.1 = .ok key) :
    ∃ f' es', exec (forEach inserts fun (vals, rowId) => insert vals rowId) f = (.ok (), f') ∧
      Holds f' es' ∧ SameKeys f f' ∧ es'.Perm (es ++ inserts.map (entryOf f.cols)) := by
  obtain ⟨f', es', hf', hsame, ⟨hok, hall⟩ | ⟨_, _, _, _, _, _, hdup⟩⟩ :=
    exec_insertAll hf hkeys (SameKeys.refl f)
  · exact ⟨f', es', hok, hf', hsame, hall.entries⟩
  · rw [hdup.1] at huniq
    cases huniq

/-- Bulk loading also covers the empty list, which leaves the index as it is. -/
theorem exec_bulkBuild_sorted (hf : Holds f []) {entries : List (Bytes × Nat)}
    (hsorted : AllGood f.cols entries → entries.Pairwise fun a b => keyLe f.cols a.1 b.1) :
    ∃ f', exec (bulkBuild entries) f = (.ok (), f') ∧ Holds f' entries ∧ SameKeys f f' := by
  by_cases hne : entries = []
  · subst hne
    exact ⟨f, rfl, hf, SameKeys.refl f⟩
  · obtain ⟨f', hexec, hf', hsame⟩ := exec_bulkBuild hf hne hsorted
    exact ⟨f', hexec, hf', hsame⟩

/-- **Structure of the B+tree.**  For every layout that `create` accepts, every sorted list given
to `bulkBuild` and every sequence of insertions with duplicates allowed, everything succeeds and
leaves a well-formed tree of exactly the given entries, unless a key component is NaN. -/
theorem buildAndInsert_wellFormed {cols : List IndexColSpec} {colIndices : List UInt8}
    {f : IndexFile} (hcreate : create cols colIndices false = .ok f)
    (hwidths : WidthsPos cols)
    {entries : List (Bytes × Nat)} (hentries : ∀ e ∈ entries, GoodKey cols e.1)
    (hsorted : entries.Pairwise fun a b => keyLe cols a.1 b.1)
    {inserts : List (List Value × Nat)}
    (hinserts : ∀ ins ∈ inserts, (∃ key, encodeKey cols ins.1 = .ok key) ∧
      keyNaNFree cols ins.1 = true) :
    ∃ f', exec (buildAndInsert entries inserts) f = (.ok (), f') ∧
      WellFormed f' (entries ++ inserts.map (entryOf cols)) := by
  obtain ⟨hf, hcols, huniq, -⟩ := create_eq_ok hcreate
  obtain ⟨f₁, hbuild, hf₁, hsame⟩ := exec_bulkBuild_sorted hf fun _ => hcols.symm ▸ hsorted
  have hcols₁ : f₁.cols = cols := hsame.cols.trans hcols
  obtain ⟨f', _, hexec, hf', hsame', hperm⟩ := exec_inserts hf₁ (hsame.isUnique.trans huniq)
    inserts fun ins hins => hcols₁ ▸ (hinserts ins hins).1
  have hcols' : f'.cols = cols := hsame'.cols.trans hcols₁
  rw [hcols₁] at hperm
  refine ⟨f', ?_, hf'.wellFormed ?_ hperm⟩
  · rw [buildAndInsert, exec_bind_ok hbuild]
    exact hexec
  · rw [hcols']
    refine ⟨hwidths, fun e he => ?_⟩
    rcases mem_append.mp (hperm.mem_iff.mp he) with he | he
    · exact hentries e he
    · obtain ⟨ins, hins, rfl⟩ := mem_map.mp he
      obtain ⟨⟨key, hkey⟩, hnan⟩ := hinserts ins hins
      refine ⟨ins.1, ?_, hnan⟩
      rw [entryOf, hkey]
      rfl

/-- An index on one `INT32` column right after its creation. -/
def int32Index : IndexFile where
  disk := ⟨[⟨.int32, 0⟩], [0], false, ⟨false, 0, 0⟩, [none]⟩
  cols := [⟨.int32, 0⟩]
  colIndices := [0]
  isUnique := false
  rootPageId := 0
  entryCount := 0
  dirty := false
  nextPageId := 1

theorem int32Index_wellFormed :
    ∃ f', exec (buildAndInsert [([1, 3, 0, 0, 0], 0), ([1, 7, 0, 0, 0], 1)]
        [([.int32 5], 2), ([.int32 3], 3), ([.null], 4)]) int32Index = (.ok (), f') ∧
      WellFormed f' ([([1, 3, 0, 0, 0], 0), ([1, 7, 0, 0, 0], 1)] ++
        [([.int32 5], 2), ([.int32 3], 3), ([.null], 4)].map (entryOf [⟨.int32, 0⟩])) := by
  have hcreate : create [⟨.int32, 0⟩] [0] false = .ok int32Index := rfl
  refine buildAndInsert_wellFormed hcreate (by decide) ?_ (by decide) ?_
  · intro e he
    rcases mem_cons.mp he with rfl | he
    · exact ⟨[.int32 3], by decide, by decide⟩
    · obtain rfl := mem_singleton.mp he
      exact ⟨[.int32 7], by decide, by decide⟩
  · intro ins hins
    simp only [mem_cons, not_mem_nil, or_false] at hins
    rcases hins with rfl | rfl | rfl <;> exact ⟨⟨_, rfl⟩, by decide⟩

/-- The insertions of `1.0`, NaN and `0.5` into an index on one `DOUBLE` column. -/
def nanInserts : List (List Value × Nat) :=
  [([.double 0x3FF0000000000000], 0), ([.double 0x7FF8000000000000], 1),
    ([.double 0x3FE0000000000000], 2)]

/-- NaN compares equal to every number, so `0.5` is put after it and so after `1.0`. -/
theorem buildAndInsert_nan_unsorted : ∃ f f', create [⟨.double, 0⟩] [0] false = .ok f ∧
      exec (buildAndInsert [] nanInserts) f = (.ok (), f') ∧
      ¬ WellFormed f' (nanInserts.map (entryOf [⟨.double, 0⟩])) := by
  refine ⟨_, _, rfl, rfl, ?_⟩
  rintro (⟨_, hne, _⟩ | ⟨h, t, ht⟩)
  · cases hne
  · have hroot := ht.root
    have hstored := ht.stored
    have hsorted := ht.sorted
    cases h with
    | zero =>
      -- the root is the only page
      change 1 = t.id at hroot
      change look _ t.id = some (.leaf t.entries t.next) at hstored
      rw [toList_leaf] at hsorted
      rw [← hroot] at hstored
      obtain ⟨hes, _⟩ := Node.leaf.inj (Option.some.inj hstored)
      rw [← hes] at hsorted
      revert hsorted
      decide
    | succ h =>
      change 1 = Branch.id t at hroot
      have hpage := hstored.1
      rw [← hroot] at hpage
      cases hpage

/-! ## Unique indexes -/

/-- An insertion, whether it is refused or not. -/
def insertStep (f : IndexFile) (ins : List Value × Nat) : IndexFile :=
  (exec (insert ins.1 ins.2) f).2

/-- The values have a key, and none of them is a NaN. -/
def IsKey (cols : List IndexColSpec) (vals : List Value) : Prop :=
  (∃ key, encodeKey cols vals = .ok key) ∧ keyNaNFree cols vals = true

/-- The index has the key columns of `f₀` and stores entries without NaN. -/
def StoresGood (f₀ f : IndexFile) : Prop :=
  ∃ es, Holds f es ∧ AllGood f₀.cols es ∧ SameKeys f₀ f

theorem StoresGood.insertStep {f₀ : IndexFile} {ins : List Value × Nat} (h : StoresGood f₀ f)
    (hins : IsKey f₀.cols ins.1) : StoresGood f₀ (insertStep f ins) := by
  obtain ⟨es, hf, hgood, hkeys⟩ := h
  obtain ⟨⟨key, hkey⟩, hnan⟩ := hins
  obtain ⟨_, hsame, -, ⟨hexec, hf', -⟩ | ⟨X, Y, hexec, rfl, hf', -⟩⟩ :=
    exec_insert hf (hkeys.cols.symm ▸ hkey) ins.2
  · rw [BTreeIndex.insertStep, hexec]
    exact ⟨es, hf', hgood, hkeys.trans hsame⟩
  · rw [BTreeIndex.insertStep, hexec]
    have hgood' : AllGood f₀.cols ((key, ins.2) :: (X ++ Y)) :=
      ⟨hgood.1, forall_mem_cons.mpr ⟨⟨_, hkey, hnan⟩, hgood.2⟩⟩
    exact ⟨_, hf', hgood'.perm perm_middle.symm, hkeys.trans hsame⟩

/-- **Unique insertion.**  After any insertions into a new unique index, and as long as no key
component is NaN, an insertion fails exactly if its key has no `NULL` and an entry with an equal key
is stored; then the entries stay as they are.  Otherwise it adds its entry. -/
theorem unique_insert {cols : List IndexColSpec} {colIndices : List UInt8} {f₀ : IndexFile}
    (hcreate : create cols colIndices true = .ok f₀) (hwidths : WidthsPos cols)
    (inserts : List (List Value × Nat)) (hinserts : ∀ ins ∈ inserts, IsKey cols ins.1)
    {vals : List Value} (hvals : IsKey cols vals) (rowId : Nat) :
    ∃ es key f', Holds (Run.final insertStep f₀ inserts) es ∧ encodeKey cols vals = .ok key ∧
      ((keyHasNull cols key = false ∧ (∃ e ∈ es, compareKeys cols e.1 key = .eq) ∧
          exec (insert vals rowId) (Run.final insertStep f₀ inserts) =
            (.error .indexDuplicateKey, f') ∧ Holds f' es) ∨
        (¬(keyHasNull cols key = false ∧ ∃ e ∈ es, compareKeys cols e.1 key = .eq) ∧
          exec (insert vals rowId) (Run.final insertStep f₀ inserts) = (.ok (), f') ∧
          ∃ es', Holds f' es' ∧ es'.Perm ((key, rowId) :: es))) := by
  obtain ⟨hf₀, rfl, huniq, -⟩ := create_eq_ok hcreate
  have hrun : StoresGood f₀ (Run.final insertStep f₀ inserts) :=
    (Run.along_of_forall hinserts).invariant (fun f ins h hins => h.insertStep hins)
      ⟨[], hf₀, ⟨hwidths, nofun⟩, SameKeys.refl f₀⟩ _ (Run.final_mem_states _ _)
  obtain ⟨es, hf, hgood, hkeys⟩ := hrun
  obtain ⟨⟨key, hkey⟩, hnan⟩ := hvals
  have hdup : Duplicate (Run.final insertStep f₀ inserts) es key ↔
      keyHasNull f₀.cols key = false ∧ ∃ e ∈ es, compareKeys f₀.cols e.1 key = .eq := by
    rw [Duplicate, hkeys.cols, hkeys.isUnique, huniq]
    exact and_iff_right rfl
  obtain ⟨f', -, -, hcase⟩ := exec_insert hf (hkeys.cols.symm ▸ hkey) rowId
  refine ⟨es, key, f', hf, hkey, hcase.imp ?_ ?_⟩
  · rintro ⟨hexec, hf', hduplicate⟩
    obtain ⟨hnull, hstored⟩ := hdup.mp hduplicate
    exact ⟨hnull, hstored, hexec, hf'⟩
  · rintro ⟨X, Y, hexec, rfl, hf', hfresh⟩
    rw [hkeys.cols] at hfresh
    exact ⟨hdup.not.mp (hfresh hgood ⟨_, hkey, hnan⟩), hexec, _, hf', perm_middle⟩

/-- A unique index on one `INT32` column that stores `5` and twice `NULL` refuses another `5`. -/
theorem unique_insert_five : ∃ f₀ es f', create [⟨.int32, 0⟩] [0] true = .ok f₀ ∧
      exec (insert [.int32 5] 3) (Run.final insertStep f₀
        [([.int32 5], 0), ([.null], 1), ([.null], 2)]) = (.error .indexDuplicateKey, f') ∧
      Holds f' es := by
  have hkey : ∀ v, v = .int32 5 ∨ v = .null → IsKey [⟨.int32, 0⟩] [v] := by
    rintro v (rfl | rfl) <;> exact ⟨⟨_, rfl⟩, rfl⟩
  have hcreate : create [⟨.int32, 0⟩] [0] true = .ok _ := rfl
  obtain ⟨es, -, f', -, -, ⟨-, -, hexec, hf'⟩ | ⟨-, hexec, -⟩⟩ := unique_insert hcreate
    (by decide) [([.int32 5], 0), ([.null], 1), ([.null], 2)]
    (by simpa using ⟨hkey _ (.inl rfl), hkey _ (.inr rfl)⟩) (hkey _ (.inl rfl)) 3
  · exact ⟨_, es, f', hcreate, hexec, hf'⟩
  · cases (congrArg Prod.fst hexec : Except.error Error.indexDuplicateKey = .ok ())

/-- `(1.0, 3)`, `(2.0, 1)`, `(2.0, 5)` and `(NaN, 2)`; the last is put before `(2.0, 5)`. -/
def nanPairs : List (List Value × Nat) :=
  [([.double 0x3FF0000000000000, .int32 3], 0), ([.double 0x4000000000000000, .int32 1], 1),
    ([.double 0x4000000000000000, .int32 5], 2), ([.double 0x7FF8000000000000, .int32 2], 3)]

/-- The search for `(1.0, 3)` goes to the right of `(NaN, 2)`, so the key is taken a second time. -/
theorem unique_insert_nan :
    ∃ f₀ es key, create [⟨.double, 0⟩, ⟨.int32, 0⟩] [0, 1] true = .ok f₀ ∧
      (Run.final insertStep f₀ nanPairs).look 1 = some (.leaf es none) ∧
      encodeKey f₀.cols [.double 0x3FF0000000000000, .int32 3] = .ok key ∧
      keyHasNull f₀.cols key = false ∧ (key, 0) ∈ es ∧
      (exec (insert [.double 0x3FF0000000000000, .int32 3] 4)
        (Run.final insertStep f₀ nanPairs)).1 = .ok () :=
  ⟨_, _, _, rfl, rfl, rfl, by decide, by decide, rfl⟩

end NyxDb.BTreeIndex
