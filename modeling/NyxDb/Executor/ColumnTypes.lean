import NyxDb.Executor.NestedLoopJoin
import NyxDb.Executor.Sort

/-!
# The column types of the operators

Sort and both joins emit rows by the same loop, which has a branch for four of the seven types.  A
column of another type is left empty, and the comparison of the sort has no branch for it either.
-/

namespace NyxDb.Executor

open List SortOp

/-- An operator that emits slices of the rows it has selected. -/
structure Emitting (σ ρ : Type) where
  next : σ → Except String (Option Chunk × σ)
  outColumns : σ → List (OutColumn ρ)
  selected : σ → List ρ
  slices : ∀ {s s' : σ} {c : Chunk}, next s = .ok (some c, s') →
    ∃ rows, rows ≠ [] ∧ rows <:+: selected s' ∧ c = emitChunk (outColumns s') rows

variable {σ ρ : Type} {t : TypeId}

/-- In all chunks that are emitted, the columns of the type have the values of the selected rows,
one for each row of the chunk. -/
def Emitting.Preserves (op : Emitting σ ρ) (start : σ → Prop) (t : TypeId) : Prop :=
  ∀ s, start s → ∀ c s', Gives op.next s c s' →
    ∃ rows, rows ≠ [] ∧ rows <:+: op.selected s' ∧ c.rowCount = rows.length ∧
      Forall₂ (fun col cv => cv.type = col.type ∧ cv.nullable = col.nullable ∧
        (col.type = t → cv.cells = rows.map fun r => cellAt (col.place r)))
          (op.outColumns s') c.columns

theorem Emitting.preserves (op : Emitting σ ρ) (start : σ → Prop) (ht : emits t = true) :
    op.Preserves start t := by
  intro s _ c s' hgives
  obtain ⟨_, hnext⟩ := hgives.exists_step
  obtain ⟨rows, hne, hrows, rfl⟩ := op.slices hnext
  refine ⟨rows, hne, hrows, rfl, ?_⟩
  rw [emitChunk, forall₂_map_right_iff, forall₂_same]
  exact fun col _ => ⟨rfl, rfl, fun htype => col.cells_emit (htype ▸ ht) rows⟩

theorem SortOp.slices {s s' : SortOp} {c : Chunk} (h : s.next = .ok (some c, s')) :
    ∃ rows, rows ≠ [] ∧ rows <:+: s'.perm ∧ c = emitChunk s'.outColumns rows := by
  obtain ⟨s₁, h⟩ := except_ite_bind_eq_ok h
  dsimp only at h
  split at h
  · cases h
  · next hend =>
    have hsize : min (s₁.emitCursor + chunkSize) s₁.perm.length - s₁.emitCursor =
        min chunkSize (s₁.perm.length - s₁.emitCursor) := by omega
    cases h
    obtain ⟨hne, hrows⟩ := slice_ne_nil (Nat.lt_of_not_le hend)
    exact ⟨_, hne, hrows, by rw [emitSlice, hsize]; rfl⟩

/-! ## The three operators -/

def sorting : Emitting SortOp RowRef :=
  ⟨next, outColumns, perm, slices⟩

def hashJoining : Emitting HashJoin MatchPair :=
  ⟨HashJoin.next, HashJoin.outColumns, HashJoin.matchPairs, HashJoin.loops.slices⟩

def nestedLoopJoining : Emitting NestedLoopJoin NestedLoopJoin.MatchPair :=
  ⟨NestedLoopJoin.next, NestedLoopJoin.outColumns, NestedLoopJoin.matchPairs,
    NestedLoopJoin.loops.slices⟩

/-- A stream of chunks with the columns of a schema. -/
def Stream (schema : Schema) (child : List Chunk) : Prop :=
  ∀ c ∈ child, c.OfSchema schema

def SortOp.Opened (s : SortOp) : Prop :=
  ∃ schema child keys, Stream schema child ∧ s = openSort child keys

def HashJoin.Opened (j : HashJoin) : Prop :=
  ∃ type hashRow buildKeys probeKeys buildSchema probeSchema build probe,
    Stream buildSchema build ∧ Stream probeSchema probe ∧
      j = openJoin type hashRow buildKeys probeKeys buildSchema probeSchema build probe

def NestedLoopJoin.Opened (j : NestedLoopJoin) : Prop :=
  ∃ predicate outerSchema innerSchema outer inner,
    Stream outerSchema outer ∧ Stream innerSchema inner ∧
      j = openJoin predicate outerSchema innerSchema outer inner

/-- The rows of every stream are sorted by keys of the type. -/
def SortOp.Orders (t : TypeId) : Prop :=
  ∀ child keys s, (∀ k ∈ keys, k.expr.outputType = t) → Evaluates (keys.map (·.expr)) child →
    (openSort child keys).consumeAndSort = .ok s →
    SortedBy (keysOrder keys) s.buffered.keyedRows
      (s.perm.map fun r => (s.buffered.keysOf r, s.buffered.rowOf r))

theorem SortOp.orders (ht : Sortable t) : Orders t := by
  intro child keys s hkeys heval hs
  obtain ⟨bs, hbs, -, hall⟩ := buffer_of_evaluates heval
  obtain ⟨_, hbs', hs⟩ := except_bind_eq_ok.mp hs
  cases hbs.symm.trans hbs'
  cases hs
  exact sortedBy_perm (s := ⟨keys, [], true, bs, [], 0⟩) (fun k hk => hkeys k hk ▸ ht)
    fun b hb => forall₂_map_left_iff.1 (hall b hb).2.2

/-- Rows that the comparison does not tell apart come out as they came in. -/
theorem SortOp.gives_unsorted {child : List Chunk} {keys : List SortKey} {bs : Buffered}
    (hbs : buffer (keys.map (·.expr)) child = .ok bs)
    (hless : ∀ l ∈ bs.refs, ∀ r ∈ bs.refs, lessKeys keys (bs.keysOf r) (bs.keysOf l) = false)
    (hsize : 0 < bs.refs.length) (hchunk : bs.refs.length ≤ chunkSize) :
    Gives next (openSort child keys) (emitChunk (sorted keys bs).outColumns bs.refs)
      { sorted keys bs with perm := bs.refs, emitCursor := bs.refs.length } := by
  have hperm : (sorted keys bs).perm = bs.refs :=
    mergeSort_of_pairwise (pairwise_of_forall_mem_list fun l hl r hr =>
      congrArg not (hless l hl r hr))
  refine .now ((next_openSort hbs).trans ?_)
  have hconsumed : (sorted keys bs).consumed = true := rfl
  have hcursor : (sorted keys bs).emitCursor = 0 := rfl
  simp [next, hconsumed, hcursor, hperm, Nat.ne_of_gt hsize, emitSlice, Nat.min_eq_right hchunk]
  rfl

/-- A column of another type comes out empty. -/
theorem emits_of_preserves (h : sorting.Preserves Opened t) : emits t = true := by
  have hstream : Stream [⟨[], t, true, 0, none⟩] [⟨1, [⟨t, true, [.null]⟩], none⟩] := by
    intro c hc
    rw [mem_singleton.mp hc]
    exact ⟨.cons ⟨rfl, rfl, rfl, by simp⟩ .nil, by simp⟩
  obtain ⟨_, hne, -, -, hcols⟩ := h _ ⟨_, _, [], hstream, rfl⟩ _ _
    (gives_unsorted rfl (fun _ _ _ _ => rfl) (show 0 < 1 by decide) (show 1 ≤ chunkSize by decide))
  by_contra hnot
  cases hcols with
  | cons hcol _ =>
    have hcells : (if emits t then _ else []) = _ := hcol.2.2 rfl
    rw [if_neg hnot] at hcells
    exact hne (map_eq_nil_iff.mp hcells.symm)

/-- **Which column types the operators preserve.**  For every stream, sort and joins emit columns of
the type with one value of the selected rows for each row of the chunk, and a sort orders the rows
by keys of the type, if and only if it is one of the four types that the loops know.  Doubles are
left out of the order, as a NaN has no place in it. -/
theorem column_types_preserved_iff (t : TypeId) :
    (sorting.Preserves Opened t ∧ hashJoining.Preserves HashJoin.Opened t ∧
      nestedLoopJoining.Preserves NestedLoopJoin.Opened t ∧ (t ≠ .double → Orders t)) ↔
    t = .int32 ∨ t = .int64 ∨ t = .double ∨ t = .varchar := by
  have hemits : emits t = true ↔ t = .int32 ∨ t = .int64 ∨ t = .double ∨ t = .varchar := by
    cases t <;> simp [emits]
  rw [← hemits]
  constructor
  · exact fun h => emits_of_preserves h.1
  · intro ht
    refine ⟨sorting.preserves _ ht, hashJoining.preserves _ ht,
      nestedLoopJoining.preserves _ ht, ?_⟩
    intro hdouble
    refine orders ?_
    rcases hemits.mp ht with rfl | rfl | rfl | rfl
    · exact .inl rfl
    · exact .inr (.inl rfl)
    · exact absurd rfl hdouble
    · exact .inr (.inr rfl)

/-- Two dates in descending order, sorted by date: the chunk has two rows and no dates, and the rows
are as they were. -/
theorem dates_lost_and_unsorted : ∃ c s', Gives next (openSort
        [⟨2, [⟨.date, false, [.date 2, .date 1]⟩], none⟩]
        [⟨⟨.date, fun c => .ok (c.column 0)⟩, .asc, .last⟩]) c s' ∧
      c.rowCount = 2 ∧ c.columns = [⟨.date, false, []⟩] ∧
      s'.perm.map s'.buffered.keysOf = [[.date 2], [.date 1]] := by
  exact ⟨_, _, gives_unsorted rfl (by decide) (by decide) (by decide), rfl, rfl, rfl⟩

end NyxDb.Executor
