import NyxDb.Executor.HashJoin

/-!
# Nested-loop join

The operator reads the outer child to the end.  For each chunk of the inner child it puts every row
of the outer side beside all rows of the chunk, evaluates the predicate, and emits the pairs that it
accepts in slices.
-/

namespace NyxDb.Executor

open List Chunk HashJoin

structure NestedLoopJoin.MatchPair where
  outer : RowRef
  innerRow : Nat

structure NestedLoopJoin where
  predicate : Expression
  outerSchema : Schema
  innerSchema : Schema
  outerChild : List Chunk
  innerChild : List Chunk
  buffered : Bool
  innerExhausted : Bool
  outerChunks : Buffered
  innerChunk : Chunk
  matchPairs : List NestedLoopJoin.MatchPair
  emitCursor : Nat

/-- What `ColumnVector::make` puts into its cells. -/
def zeroOf : TypeId → Value
  | .invalid => .null
  | .int32 => .int32 0
  | .int64 => .int64 0
  | .double => .double 0
  | .varchar => .string []
  | .bool => .bool false
  | .date => .date 0
  | .timestamp => .timestamp 0

/-- For the types that it does not know an assertion fails; when assertions are compiled out the
cells stay as they were made. -/
def broadcastValue (src : ColumnVector) (srcRow outSize : Nat) : ColumnVector :=
  let v :=
    if src.nullable && (src.get srcRow).isNull then .null
    else if emits src.type then src.get srcRow
    else zeroOf src.type
  { src with cells := replicate outSize v }

/-- Whether a row of the mask is neither NULL nor zero. -/
def accepted (mask : ColumnVector) (i : Nat) : Bool :=
  match mask.get i with
  | .int32 v => v != 0
  | _ => false

namespace NestedLoopJoin

def openJoin (predicate : Expression) (outerSchema innerSchema : Schema)
    (outer inner : List Chunk) :
    NestedLoopJoin :=
  ⟨predicate, outerSchema, innerSchema, outer, inner, false, false, [], ⟨0, [], none⟩, [], 0⟩

def bufferOuter (j : NestedLoopJoin) : Except String NestedLoopJoin := do
  let outerChunks ← buffer [] j.outerChild
  return { j with outerChild := [], buffered := true, outerChunks }

/-- The pairs of a row of the outer side with the rows of a chunk. -/
def pairsOf (j : NestedLoopJoin) (chunk : Chunk) (o : RowRef) : Except String (List MatchPair) := do
  let outer := (j.outerChunks.chunk o.chunkIdx).1
  let outerCols := (range j.outerSchema.length).map fun c =>
    broadcastValue (outer.column c) o.rowIdx chunk.rowCount
  let innerCols := (range j.innerSchema.length).map chunk.column
  let mask ← j.predicate.evaluate ⟨chunk.rowCount, outerCols ++ innerCols, none⟩
  return ((range chunk.rowCount).filter (accepted mask)).map (MatchPair.mk o)

def loadInnerChunk (j : NestedLoopJoin) (chunk : Chunk) (rest : List Chunk) :
    Except String NestedLoopJoin := do
  let pairs ← j.outerChunks.refs.mapM (j.pairsOf chunk)
  return { j with
    innerChild := rest, innerChunk := chunk, matchPairs := pairs.flatten, emitCursor := 0 }

def outColumns (j : NestedLoopJoin) : List (OutColumn MatchPair) :=
  (j.outerSchema.zipIdx.map fun (col, c) =>
    { type := col.type
      nullable := col.nullable
      place := fun p =>
        some ((j.outerChunks.chunk p.outer.chunkIdx).1.column c, p.outer.rowIdx) }) ++
  j.innerSchema.zipIdx.map fun (col, c) =>
    { type := col.type
      nullable := col.nullable
      place := fun p => some (j.innerChunk.column c, p.innerRow) }

def emitOutputSlice (j : NestedLoopJoin) : Chunk × NestedLoopJoin :=
  let n := min chunkSize (j.matchPairs.length - j.emitCursor)
  (emitChunk j.outColumns ((j.matchPairs.drop j.emitCursor).take n),
    { j with emitCursor := j.emitCursor + n })

/-- The loops of `next` and `load_next_inner_chunk_` when all pairs have been emitted. -/
def advance (j : NestedLoopJoin) : List Chunk → Except String (Option Chunk × NestedLoopJoin)
  | [] => .ok (none, { j with innerChild := [], innerExhausted := true })
  | c :: rest =>
    if c.logicalSize = 0 then advance j rest
    else do
      let j ← j.loadInnerChunk c.materialize rest
      if j.matchPairs.isEmpty then advance j rest
      else
        let (chunk, j) := j.emitOutputSlice
        return (some chunk, j)

def next (j : NestedLoopJoin) : Except String (Option Chunk × NestedLoopJoin) := do
  let j ← if j.buffered then pure j else j.bufferOuter
  if j.emitCursor < j.matchPairs.length then
    let (chunk, j) := j.emitOutputSlice
    return (some chunk, j)
  else if j.innerExhausted then return (none, j)
  else j.advance j.innerChild

/-! ## The rows that are emitted -/

def joining : Joining NestedLoopJoin MatchPair where
  prepare j := if j.buffered then pure j else j.bufferOuter
  load := loadInnerChunk
  advance := advance
  next := next
  child := innerChild
  exhausted := innerExhausted
  pairs := matchPairs
  cursor := emitCursor
  move j i := { j with emitCursor := i }
  outColumns := outColumns

theorem loops : joining.Loops where
  advance_nil _ := ⟨_, rfl⟩
  advance_cons _ _ _ := rfl
  next j := by
    show next j = (if j.buffered then pure j else j.bufferOuter) >>= _
    unfold next
    cases j.buffered <;> rfl
  load j chunk rest j' h := by
    obtain ⟨_, -, h⟩ := except_bind_eq_ok.mp h
    cases h
    exact ⟨rfl, rfl, rfl⟩
  move _ _ := ⟨rfl, rfl, rfl, rfl, fun _ => rfl⟩

/-- Neither NULL nor zero. -/
def holds : Value → Bool
  | .int32 v => v != 0
  | _ => false

/-- The pairs whose combined row the predicate is true of. -/
def truePairs (pred : Row → Value) (outer inner : List Row) : List Row :=
  outer.flatMap fun o => (inner.filter fun i => holds (pred (o ++ i))).map (o ++ ·)

/-- The columns of a row of the outer side beside those of a chunk of the inner side. -/
def beside (outer : Chunk) (r : Nat) (chunk : Chunk) : Chunk :=
  ⟨chunk.rowCount, (outer.columns.map fun src =>
    { src with cells := replicate chunk.rowCount (src.get r) }) ++ chunk.columns, none⟩

/-- The expression has the value `pred` on each row of a chunk. -/
def ComputesOn (e : Expression) (pred : Row → Value) (c : Chunk) : Prop :=
  ∃ mask, e.evaluate c = .ok mask ∧ mask.cells = c.rows.map pred

/-- The expression has the value `pred` wherever a join of the streams evaluates it. -/
def Computes (e : Expression) (pred : Row → Value) (outer inner : List Chunk) : Prop :=
  ∀ o ∈ outer, ∀ r < o.logicalSize, ∀ i ∈ inner, i.logicalSize ≠ 0 →
    ComputesOn e pred (beside o.materialize r i.materialize)

/-- The outer side has been read. -/
structure Ready (j : NestedLoopJoin) : Prop where
  buffered : j.buffered = true
  reading : j.innerExhausted = false
  fits : ∀ b ∈ j.outerChunks, b.1.OfSchema j.outerSchema
  emits : ∀ col ∈ j.outerSchema ++ j.innerSchema, Executor.emits col.type = true

variable {j : NestedLoopJoin} {pred : Row → Value} {o : RowRef} {chunk : Chunk}

theorem broadcastValue_eq {src : ColumnVector} (h : Executor.emits src.type = true) (r n : Nat) :
    broadcastValue src r n = { src with cells := replicate n (src.get r) } := by
  unfold broadcastValue
  simp only [h, if_true]
  cases src.get r <;> simp [Value.isNull]

/-- A row of the outer side, as the join has read it, beside a chunk. -/
def combined (j : NestedLoopJoin) (chunk : Chunk) (o : RowRef) : Chunk :=
  beside (j.outerChunks.chunk o.chunkIdx).1 o.rowIdx chunk

theorem Ready.outer (h : Ready j) (ho : o ∈ j.outerChunks.refs) :
    (j.outerChunks.chunk o.chunkIdx).1.OfSchema j.outerSchema ∧
      o.rowIdx < (j.outerChunks.chunk o.chunkIdx).1.rowCount := by
  obtain ⟨hmem, hlt⟩ := Buffered.of_mem_refs ho
  exact ⟨h.fits _ hmem, hlt⟩

/-- A row of the combined chunk is a row of the outer side with one of the chunk. -/
theorem row_combined {i : Nat} (hi : i < chunk.rowCount) :
    (j.combined chunk o).row i = j.outerChunks.rowOf o ++ chunk.row i := by
  unfold combined beside Buffered.rowOf row
  simp [ColumnVector.get, getD_eq_getElem?_getD, hi]

section

variable (h : Ready j)
include h

theorem Ready.pairsOf_eq (ho : o ∈ j.outerChunks.refs) (hchunk : chunk.OfSchema j.innerSchema)
    (hpred : ComputesOn j.predicate pred (j.combined chunk o)) :
    j.pairsOf chunk o = .ok (((range chunk.rowCount).filter fun i =>
      holds (pred (j.outerChunks.rowOf o ++ chunk.row i))).map (MatchPair.mk o)) := by
  obtain ⟨houter, -⟩ := h.outer ho
  have hcols : ((range j.outerSchema.length).map fun c => broadcastValue
      ((j.outerChunks.chunk o.chunkIdx).1.column c) o.rowIdx chunk.rowCount) ++
        (range j.innerSchema.length).map chunk.column = (j.combined chunk o).columns := by
    rw [houter.columns.length_eq, hchunk.columns.length_eq, chunk.map_column]
    congr 1
    conv_rhs => rw [← map_column, map_map]
    refine map_congr_left fun c hc => broadcastValue_eq ?_ _ _
    exact houter.emits_column (fun col hcol => h.emits col (mem_append_left _ hcol))
      (mem_range.mp hc)
  obtain ⟨mask, hmask, hcells⟩ := hpred
  unfold pairsOf
  simp only [hcols]
  rw [show (⟨chunk.rowCount, (j.combined chunk o).columns, none⟩ : Chunk) =
    j.combined chunk o from rfl,
    hmask, except_ok_bind]
  refine congrArg (fun is => Except.ok (is.map (MatchPair.mk o))) (filter_congr fun i hi => ?_)
  have hlt := mem_range.mp hi
  have hget : mask.get i = pred (j.outerChunks.rowOf o ++ chunk.row i) := by
    rw [ColumnVector.get, hcells, rows_of_sel_none rfl, map_map, getD_eq_getElem?_getD,
      getElem?_map, getElem?_range (show i < (j.combined chunk o).rowCount from hlt),
        ← row_combined hlt]
    rfl
  rw [accepted, hget]
  rfl

/-! ## The join -/

/-- The row that a pair stands for. -/
def pairRow (j : NestedLoopJoin) (p : MatchPair) : Row :=
  j.outerChunks.rowOf p.outer ++ j.innerChunk.row p.innerRow

/-- A state in which the inner side is read. -/
def Reads (j j' : NestedLoopJoin) : Prop :=
  ∃ rest chunk pairs i, j' =
    { j with innerChild := rest, innerChunk := chunk, matchPairs := pairs, emitCursor := i }

theorem Ready.of_reads {j' : NestedLoopJoin} (hreads : Reads j j') : Ready j' := by
  obtain ⟨-, -, -, i, rfl⟩ := hreads
  exact { h with }

/-- Pairs are emitted column by column. -/
theorem Ready.rows_emitChunk (hchunk : j.innerChunk.OfSchema j.innerSchema)
    {pairs : List MatchPair} (hpairs : ∀ p ∈ pairs, p.outer ∈ j.outerChunks.refs) :
    (emitChunk j.outColumns pairs).rows = pairs.map j.pairRow := by
  rw [Executor.rows_emitChunk fun col hcol => ?_]
  · refine map_congr_left fun p hp => ?_
    unfold outColumns pairRow Buffered.rowOf
    rw [map_append, map_map, map_map, row_eq_range, row_eq_range,
      ← (h.outer (hpairs p hp)).1.columns.length_eq, ← hchunk.columns.length_eq]
    congr 1
    · exact map_zipIdx_snd j.outerSchema fun c =>
        ((j.outerChunks.chunk p.outer.chunkIdx).1.column c).get p.outer.rowIdx
    · exact map_zipIdx_snd j.innerSchema fun c => (j.innerChunk.column c).get p.innerRow
  · rcases mem_append.mp hcol with hcol | hcol
    · obtain ⟨x, hx, rfl⟩ := mem_map.mp hcol
      exact h.emits _ (mem_append_left _ (mem_of_mem_zipIdx hx))
    · obtain ⟨x, hx, rfl⟩ := mem_map.mp hcol
      exact h.emits _ (mem_append_right _ (mem_of_mem_zipIdx hx))

theorem Ready.serves (pred : Row → Value) : joining.Serves (Reads j)
      (fun c => c.OfSchema j.innerSchema ∧ (c.logicalSize ≠ 0 → ∀ o ∈ j.outerChunks.refs,
        ComputesOn j.predicate pred (j.combined c.materialize o)))
      fun c => truePairs pred (j.outerChunks.refs.map j.outerChunks.rowOf) c.rows where
  prepare j' hreads := by
    have h' := h.of_reads hreads
    exact ⟨by simp [joining, h'.buffered]; rfl, h'.reading⟩
  move := by
    rintro _ i ⟨rest, chunk, pairs, _, rfl⟩
    exact ⟨rest, chunk, pairs, i, rfl⟩
  empty c hsize := by
    rw [← c.length_rows, length_eq_zero_iff] at hsize
    simp [truePairs, hsize]
  load := by
    rintro _ c rest ⟨rest', chunk, pairs', i, rfl⟩ ⟨hfits, hpred⟩ hsize
    have hpairs : j.outerChunks.refs.mapM (pairsOf
        { j with innerChild := rest', innerChunk := chunk, matchPairs := pairs', emitCursor := i }
        c.materialize) = .ok _ :=
      mapM_eq_ok fun o ho =>
        (h.of_reads ⟨_, _, _, _, rfl⟩).pairsOf_eq ho hfits.materialize (hpred hsize o ho)
    let j' : NestedLoopJoin := { j with innerChunk := c.materialize }
    refine ⟨_, j'.pairRow, by
      show loadInnerChunk _ _ _ = _
      rw [loadInnerChunk, hpairs]
      rfl, ⟨_, _, _, _, rfl⟩, fun slice hslice => ?_, ?_⟩
    · refine Ready.rows_emitChunk (j := j') { h with } hfits.materialize fun p hp => ?_
      obtain ⟨_, hps, hp⟩ := mem_flatten.mp (hslice p hp)
      obtain ⟨o, ho, rfl⟩ := mem_map.mp hps
      obtain ⟨i, -, rfl⟩ := mem_map.mp hp
      exact ho
    · refine .of_eq ?_
      show (((j.outerChunks.refs.map _).flatten).map j'.pairRow) = _
      rw [← c.rows_materialize, rows_of_sel_none c.sel_materialize, ← flatMap_def, truePairs,
        map_flatMap, flatMap_map]
      refine flatMap_congr fun o _ => ?_
      rw [map_map, filter_map, map_map]
      rfl

end

/-- The chunks of the inner side one after the other, or all their rows at once. -/
theorem truePairs_chunks (pred : Row → Value) (outer : List Row) (inner : List Chunk) :
    (inner.flatMap fun c => truePairs pred outer c.rows).Perm
      (truePairs pred outer (inner.flatMap rows)) := by
  induction inner with
  | nil => simp [truePairs]
  | cons c inner ih =>
    refine (ih.append_left _).trans ((flatMap_append_perm _ _ _).trans (.of_eq ?_))
    refine flatMap_congr fun o _ => ?_
    rw [flatMap_cons, filter_append, map_append]

/-- The keys of the rows of a stream are a function of the row. -/
def KeyedBy (exprs : List Expression) (key : Row → List Value) (child : List Chunk) : Prop :=
  Evaluates exprs child ∧ ∀ c ∈ child, keyed exprs c = c.rows.map fun r => (key r, r)

theorem KeyedBy.flatMap_keyed {exprs : List Expression} {key : Row → List Value}
    {child : List Chunk} (h : KeyedBy exprs key child) :
    child.flatMap (keyed exprs) = (child.flatMap rows).map fun r => (key r, r) := by
  rw [map_flatMap]
  exact flatMap_congr h.2

/-- A predicate that compares keys accepts the pairs of the hash join. -/
theorem join_eq_truePairs {outerKey innerKey : Row → List Value} {outer inner : List Row}
    (hpred : ∀ o ∈ outer, ∀ i ∈ inner, holds (pred (o ++ i)) =
      (!anyKeyNull (outerKey o) && innerKey i == outerKey o)) (width : Nat) :
    join .inner width (inner.map fun r => (innerKey r, r))
      (outer.map fun r => (outerKey r, r)) = truePairs pred outer inner := by
  rw [join, flatMap_map]
  refine flatMap_congr fun o ho => ?_
  rw [joined, matching, filter_map, map_map, map_map]
  exact congrArg (map _) (filter_congr fun i hi => (hpred o ho i hi).symm)

/-- For all streams the pairs that the predicate is true of are emitted, each once, in some order;
for a predicate that compares keys they are the rows that a hash join emits. -/
theorem emits_pairs (predicate : Expression) (pred : Row → Value) (outerSchema innerSchema : Schema)
    (outer inner : List Chunk) (houter : ∀ c ∈ outer, c.OfSchema outerSchema)
    (hinner : ∀ c ∈ inner, c.OfSchema innerSchema)
    (hemits : ∀ col ∈ outerSchema ++ innerSchema, Executor.emits col.type = true)
    (hpred : Computes predicate pred outer inner) :
    ∃ out, Pulls next (openJoin predicate outerSchema innerSchema outer inner) out ∧
      (out.flatMap rows).Perm
        (truePairs pred (outer.flatMap rows) (inner.flatMap rows)) ∧
      ∀ hashRow innerKeys outerKeys innerKey outerKey, KeyedBy innerKeys innerKey inner →
        KeyedBy outerKeys outerKey outer → (inner.flatMap rows).length < 2 ^ 30 →
        (∀ o ∈ outer.flatMap rows, ∀ i ∈ inner.flatMap rows, holds (pred (o ++ i)) =
          (!anyKeyNull (outerKey o) && innerKey i == outerKey o)) →
        ∃ out', Pulls HashJoin.next (HashJoin.openJoin .inner hashRow innerKeys outerKeys
            innerSchema outerSchema inner outer) out' ∧
          (out'.flatMap rows).Perm (out.flatMap rows) := by
  obtain ⟨bs, hbs, hrows, hall⟩ := buffer_of_evaluates
    (show Evaluates [] outer from fun _ _ _ => ⟨[], rfl, .nil⟩)
  have hready : Ready { openJoin predicate outerSchema innerSchema outer inner with
      outerChild := [], buffered := true, outerChunks := bs } := by
    refine ⟨rfl, rfl, fun b hb => ?_, hemits⟩
    obtain ⟨⟨c, hc, heq⟩, -⟩ := hall b hb
    rw [heq]
    exact (houter c hc).materialize
  -- a row that has been read stands in a chunk of the outer stream
  have hmet : ∀ c ∈ inner, c.logicalSize ≠ 0 → ∀ o ∈ bs.refs,
      ComputesOn predicate pred (beside (bs.chunk o.chunkIdx).1 o.rowIdx c.materialize) := by
    intro c hc hsize o ho
    obtain ⟨hmem, hlt⟩ := Buffered.of_mem_refs ho
    obtain ⟨⟨c', hc', heq⟩, -⟩ := hall _ hmem
    rw [heq] at hlt ⊢
    exact hpred c' hc' _ (by rwa [c'.rowCount_materialize] at hlt) c hc hsize
  obtain ⟨out, hout, hperm⟩ := (hready.serves pred).pulls loops
    (openJoin predicate outerSchema innerSchema outer inner) (by
      show bufferOuter _ = _
      simp only [bufferOuter, openJoin, hbs]
      rfl) ⟨_, _, _, _, rfl⟩ rfl fun c hc => ⟨hinner c hc, hmet c hc⟩
  have hall' : (out.flatMap rows).Perm
      (truePairs pred (outer.flatMap rows) (inner.flatMap rows)) := by
    rw [← hrows, ← bs.map_refs, map_map]
    exact hperm.trans (truePairs_chunks _ _ _)
  refine ⟨out, hout, hall', fun hashRow innerKeys outerKeys innerKey outerKey hi ho hsize heq => ?_⟩
  obtain ⟨out', hout', hperm'⟩ := Streams.pulls_join
    ⟨hinner, houter, hemits, hi.1, ho.1, hsize⟩ .inner hashRow
  rw [hi.flatMap_keyed, ho.flatMap_keyed, join_eq_truePairs heq] at hperm'
  exact ⟨out', hout', hperm'.trans hall'.symm⟩

/-- Whether the two columns of a row are equal. -/
def sameCells (r : Row) : Value :=
  if r.getD 0 .null = r.getD 1 .null then .int32 1 else .int32 0

def equalColumns : Expression :=
  ⟨.int32, fun c => .ok ⟨.int32, false, c.rows.map sameCells⟩⟩

theorem keyedBy_twoChunks : KeyedBy [firstColumn] (fun r => [r.getD 0 .null]) twoChunks :=
  ⟨evaluates_twoChunks, by decide⟩

theorem emits_pairs_twoChunks : ∃ out out', Pulls next (openJoin equalColumns oneInt oneInt
        twoChunks twoChunks) out ∧
      (out.flatMap rows).Perm [[.int32 2, .int32 2], [.int32 2, .int32 2], [.int32 1, .int32 1],
        [.int32 2, .int32 2], [.int32 2, .int32 2]] ∧
      Pulls HashJoin.next (HashJoin.openJoin .inner (fun _ => 0) [firstColumn] [firstColumn] oneInt
        oneInt twoChunks twoChunks) out' ∧
      (out'.flatMap rows).Perm (out.flatMap rows) := by
  obtain ⟨out, hout, hperm, hhash⟩ := emits_pairs equalColumns sameCells oneInt oneInt _ _
    fits_twoChunks fits_twoChunks (by simp [oneInt, emits]) fun _ _ _ _ _ _ _ => ⟨_, rfl, rfl⟩
  obtain ⟨out', hout', hperm'⟩ := hhash (fun _ => 0) [firstColumn] [firstColumn] _ _
    keyedBy_twoChunks keyedBy_twoChunks (by decide) (by decide)
  exact ⟨out, out', hout, hperm.trans (.of_eq (by decide)), hout', hperm'⟩

end NestedLoopJoin
end NyxDb.Executor
