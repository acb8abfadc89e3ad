import NyxDb.Index.Structure

/-!
# The entry counter of an index

The metadata of an index counts its entries.  An insertion that splits its leaf does not count the
entry it adds (`entryCount_split`); as long as every insertion finds room in its leaf, the counter
is what a scan without bounds reports, also after the file was written and opened again
(`entryCount_eq_scan`).
-/

namespace NyxDb.BTreeIndex

open BPlus IndexFile List

/-- An operation on an index; `reopen` writes the metadata and opens the file again. -/
inductive IndexStep where
  | bulkBuild (entries : List (Bytes × Nat))
  | insert (vals : List Value) (rowId : Nat)
  | resetTree
  | reopen

def IndexStep.run (f : IndexFile) : IndexStep → IndexFile
  | .bulkBuild entries => (exec (BTreeIndex.bulkBuild entries) f).2
  | .insert vals rowId => (exec (BTreeIndex.insert vals rowId) f).2
  | .resetTree => (exec IndexFile.resetTree f).2
  | .reopen => openFile (exec flush f).2.disk

/-- The leaf that an insertion of the key reaches refuses it as a duplicate or has room for it. -/
def leafTakes (f : IndexFile) (key : Bytes) : Bool :=
  match (exec (findLeaf key f.disk.pages.length f.rootPageId []) f).1 with
  | .error _ => false
  | .ok (leafId, _) =>
    match f.look leafId with
    | some (.leaf entries _) => dupCheck f entries key || decide (entries.length < f.nodeCapacity)
    | _ => false

/-- The operation splits no leaf, and a file that is opened has its number of key columns in the
one byte that is kept for it. -/
def IndexStep.NoSplit (f : IndexFile) : IndexStep → Prop
  | .insert vals _ =>
    f.rootPageId = 0 ∨ ∀ key, encodeKey f.cols vals = .ok key → leafTakes f key = true
  | .reopen => f.cols.length < 256
  | _ => True

/-- The index stores the entries `es`, in any order, and counts them. -/
structure Counted (f : IndexFile) (es : List (Bytes × Nat)) : Prop where
  file : FileOk f
  diskCols : f.disk.cols = f.cols
  count : f.entryCount = es.length
  tree : (f.rootPageId = 0 ∧ es = []) ∨ ∃ (h : Nat) (t : Tree Bytes Nat h), IsTree f t ∧
    toList t = es

variable {f f' : IndexFile} {es : List (Bytes × Nat)}

theorem Counted.scan (hc : Counted f es) :
    f.entryCount = (rangeScan f none true none true).length := by
  rcases hc.tree with ⟨hroot, rfl⟩ | ⟨h, t, ht, rfl⟩
  · rw [hc.count, rangeScan, if_pos hroot]
    rfl
  · rw [hc.count, ht.rangeScan hc.file.length, length_map]

theorem Holds.counted (hf : Holds f es) (hcols : f.disk.cols = f.cols)
    (hcount : f.entryCount = es.length) : Counted f es :=
  ⟨hf.toFileOk, hcols, hcount, hf.tree.imp_right fun ⟨h, t, ht, hes, _⟩ => ⟨h, t, ht, hes⟩⟩

theorem Counted.diskCols_eq (hc : Counted f es) (hs : SameKeys f f') : f'.disk.cols = f'.cols := by
  rw [hs.diskCols, hc.diskCols, hs.cols]

section

variable (hc : Counted f es)
include hc

theorem Counted.insert {vals : List Value} {rowId : Nat}
    (hroom : (IndexStep.insert vals rowId).NoSplit f) :
    ∃ es', Counted (IndexStep.run f (.insert vals rowId)) es' := by
  cases hkey : encodeKey f.cols vals with
  | error e =>
    -- the key is encoded before anything is written
    have hexec : exec (BTreeIndex.insert vals rowId) f = (.error e, f) := by
      unfold BTreeIndex.insert
      rw [exec_get_bind, hkey]
      rfl
    exact ⟨es, by rwa [IndexStep.run, hexec]⟩
  | ok key =>
    rcases hc.tree with ⟨hroot, rfl⟩ | ⟨h, t, ht, rfl⟩
    · have hf : Holds f [] := { hc.file with tree := Or.inl ⟨hroot, rfl⟩ }
      obtain ⟨f', hexec, hf', hkeys, -, hcount⟩ := exec_insert_empty hf hroot hkey rowId
      refine ⟨[(key, rowId)], ?_⟩
      rw [IndexStep.run, hexec]
      exact hf'.counted (hc.diskCols_eq hkeys) hcount
    · obtain ⟨f', leaf, p, hkeys, hfile, -, hdesc, hmem, ⟨hexec, ht', hcount, -⟩ |
        ⟨h', t', hexec, ht', ⟨X, Y, hX, hnew⟩, -, hdup, hcount⟩⟩ :=
        exec_insert_tree hc.file ht hkey rowId
      · refine ⟨toList t, ?_⟩
        rw [IndexStep.run, hexec]
        exact ⟨hfile, hc.diskCols_eq hkeys, hcount.trans hc.count, Or.inr ⟨h, t, ht', rfl⟩⟩
      · have htakes := hroom.resolve_left ht.root_ne key hkey
        rw [leafTakes, ht.exec_findLeaf hc.file.length hdesc] at htakes
        have hlook : f.look leaf.id = some (.leaf leaf.entries leaf.next) :=
          ht.stored.leaves leaf hmem
        simp only [hlook, hdup, Bool.false_or, decide_eq_true_eq] at htakes
        refine ⟨toList t', ?_⟩
        rw [IndexStep.run, hexec]
        refine ⟨hfile, hc.diskCols_eq hkeys, ?_, Or.inr ⟨h', t', ht', rfl⟩⟩
        rw [hcount htakes, hc.count, hX, hnew, length_append, length_append, length_cons]
        omega

theorem Counted.bulkBuild (entries : List (Bytes × Nat)) :
    ∃ es', Counted (IndexStep.run f (.bulkBuild entries)) es' := by
  by_cases hne : entries = []
  · subst hne
    exact ⟨es, hc⟩
  · obtain ⟨_, h, t, hexec, hsame, hfile, hcount, ht, hes, -⟩ := exec_bulkBuild_tree hc.file hne
    refine ⟨entries, ?_⟩
    rw [IndexStep.run, hexec]
    exact ⟨hfile, hc.diskCols_eq hsame, hcount, Or.inr ⟨h, t, ht, hes⟩⟩

theorem Counted.resetTree : Counted (IndexStep.run f .resetTree) [] := by
  refine ⟨⟨?_, Nat.one_pos, hc.file.capacity, rfl⟩, hc.diskCols, rfl, Or.inl ⟨rfl, rfl⟩⟩
  show (f.disk.pages.take 1).length = 1
  have hlen := hc.file.length
  have hpos := hc.file.nonempty
  rw [length_take]
  omega

/-- The metadata and the nodes are found again. -/
theorem Counted.reopen (hfew : f.cols.length < 256) : Counted (IndexStep.run f .reopen) es := by
  have hcols : (IndexStep.run f .reopen).cols = f.cols := by
    show f.disk.cols.take (f.disk.cols.length % 256) = _
    rw [hc.diskCols, Nat.mod_eq_of_lt hfew, take_length]
  have hnext : (IndexStep.run f .reopen).nextPageId = f.nextPageId := hc.file.length
  have hcap : (IndexStep.run f .reopen).nodeCapacity = f.nodeCapacity := by
    rw [nodeCapacity, keySize, hcols]
    rfl
  refine ⟨⟨rfl, ?_, ?_, rfl⟩, ?_, hc.count, hc.tree.imp_right ?_⟩
  · rw [hnext]
    exact hc.file.nonempty
  · rw [hcap]
    exact hc.file.capacity
  · rw [hcols]
    exact hc.diskCols
  · rintro ⟨h, t, ht, hes⟩
    refine ⟨h, t, ⟨?_, ht.stored, ht.root⟩, hes⟩
    rw [hcap, hnext]
    exact ht.onPages

end

/-- **The entry counter** is the number of row ids that a scan without bounds reports, in every
state of an index of which no insertion ever splits a leaf. -/
theorem entryCount_eq_scan {cols : List IndexColSpec} {colIndices : List UInt8} {isUnique : Bool}
    {f₀ : IndexFile} (hcreate : IndexFile.create cols colIndices isUnique = .ok f₀)
    {steps : List IndexStep}
    (hsteps : Run.Along IndexStep.run (fun f step => step.NoSplit f) f₀ steps) :
    ∀ f ∈ Run.states IndexStep.run f₀ steps,
      f.entryCount = (rangeScan f none true none true).length := by
  intro f hf
  obtain ⟨hf₀, -, -, hcols, hcount⟩ := create_eq_ok hcreate
  have hinv : ∃ es, Counted f es := by
    refine hsteps.invariant (I := fun f => ∃ es, Counted f es) ?_
      ⟨[], hf₀.counted hcols hcount⟩ f hf
    rintro f step ⟨es, hc⟩ hok
    cases step with
    | bulkBuild entries => exact hc.bulkBuild entries
    | insert vals rowId => exact hc.insert hok
    | resetTree => exact ⟨[], hc.resetTree⟩
    | reopen => exact ⟨es, hc.reopen hok⟩
  obtain ⟨es, hc⟩ := hinv
  exact hc.scan

/-- A bulk load, an insertion into its leaf, and the file is opened again. -/
def threeSteps : List IndexStep :=
  [.bulkBuild [([1, 3, 0, 0, 0], 0), ([1, 7, 0, 0, 0], 1)], .insert [.int32 5] 2, .reopen]

theorem entryCount_eq_scan_three :
    (Run.final IndexStep.run int32Index threeSteps).entryCount = 3 := by
  have hcreate : IndexFile.create [⟨.int32, 0⟩] [0] false = .ok int32Index := rfl
  have hsteps : Run.Along IndexStep.run (fun f step => step.NoSplit f) int32Index threeSteps := by
    refine ⟨trivial, Or.inr ?_, ?_, trivial⟩
    · rintro - ⟨⟩
      decide
    · exact Nat.succ_lt_succ (Nat.zero_lt_succ _)
  exact (entryCount_eq_scan hcreate hsteps _ (Run.final_mem_states _ _)).trans rfl

/-- A leaf of an index on one `VARCHAR(5000)` column has room for one entry: the second insertion
splits it and is not counted. -/
theorem entryCount_split :
    ∃ f₀, IndexFile.create [⟨.varchar, 5000⟩] [0] false = .ok f₀ ∧
      (Run.final IndexStep.run f₀ [.insert [.null] 0, .insert [.null] 1]).entryCount = 1 ∧
      (rangeScan (Run.final IndexStep.run f₀ [.insert [.null] 0, .insert [.null] 1])
        none true none true).length = 2 :=
  ⟨_, rfl, rfl, rfl⟩

end NyxDb.BTreeIndex
