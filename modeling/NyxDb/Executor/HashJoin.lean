import Mathlib.Data.List.Flatten
import NyxDb.Executor.Joining
import NyxDb.Lib.OpenAddressing

/-!
# Hash join

The operator reads one child to the end and puts its rows into a table by the hash of their keys;
then it looks up the rows of the other child, chunk by chunk, and emits the pairs in slices.
`HashJoin.emits_join` says that these are the rows of the join, for any hash function.
-/

namespace NyxDb.Executor

open List Chunk

inductive JoinType where
  | inner
  | leftOuter
  | semi
  | anti
  deriving DecidableEq, Repr

structure Entry where
  hash : BitVec 32
  row : RowRef

/-- `build` is `none` for `NO_BUILD`. -/
structure MatchPair where
  probeRow : Nat
  build : Option RowRef

/-- `hashRow` stands for `hash_row`. -/
structure HashJoin where
  type : JoinType
  hashRow : List Value → BitVec 32
  buildKeys : List Expression
  probeKeys : List Expression
  buildSchema : Schema
  probeSchema : Schema
  buildChild : List Chunk
  probeChild : List Chunk
  built : Bool
  probeExhausted : Bool
  buildChunks : Buffered
  table : List (Option Entry)
  probeChunk : Chunk
  matchPairs : List MatchPair
  emitCursor : Nat

def nextPow2 (x : Nat) : Nat :=
  if x ≤ 1 then 1 else 2 ^ ((x - 1).log2 + 1)

def anyKeyNull (keys : List Value) : Bool :=
  keys.any Value.isNull

namespace HashJoin

/-- A slot of the table is a hash modulo its size, a power of two.  The error stands for a search
that does not end. -/
def buildSide (j : HashJoin) : Except String HashJoin := do
  let bs ← buffer j.buildKeys j.buildChild
  let rows := bs.refs.filter fun r => !anyKeyNull (bs.keysOf r)
  let tableSize := nextPow2 (max 1 (rows.length * 2 % 2 ^ 32))
  match OpenTable.build (·.hash.toNat) tableSize
    (rows.map fun r => ⟨j.hashRow (bs.keysOf r), r⟩) with
  | none => throw "endless"
  | some table => return { j with buildChild := [], built := true, buildChunks := bs, table }

/-- The entries that a row of the probe side meets and that have its keys. -/
def lookup (j : HashJoin) (keys : List Value) : Except String (List Entry) :=
  if anyKeyNull keys then .ok []
  else
    match OpenTable.walk j.table j.table.length ((j.hashRow keys).toNat % j.table.length) with
    | none => .error "endless"
    | some (es, _) =>
      .ok (es.filter fun e => e.hash = j.hashRow keys && j.buildChunks.keysOf e.row == keys)

/-- The pairs of a row that is matched.  `SEMI` and `ANTI` stop at the first match. -/
def matched (type : JoinType) (r : Nat) (es : List Entry) : List MatchPair :=
  match type with
  | .inner | .leftOuter => es.map fun e => ⟨r, some e.row⟩
  | .semi => if es.isEmpty then [] else [⟨r, none⟩]
  | .anti => []

def unmatched (type : JoinType) (r : Nat) (es : List Entry) : List MatchPair :=
  match type with
  | .leftOuter | .anti => if es.isEmpty then [⟨r, none⟩] else []
  | _ => []

def loadProbeChunk (j : HashJoin) (chunk : Chunk) (rest : List Chunk) : Except String HashJoin := do
  let keys ← j.probeKeys.mapM fun e => e.evaluate chunk
  let found ← (range chunk.rowCount).mapM fun r => do
    let es ← j.lookup (keys.map (·.get r))
    return (r, es)
  return { j with
    probeChild := rest
    probeChunk := chunk
    matchPairs := found.flatMap (fun x => matched j.type x.1 x.2) ++
      found.flatMap fun x => unmatched j.type x.1 x.2
    emitCursor := 0 }

def emitsBuild (j : HashJoin) : Bool :=
  j.type = .inner || j.type = .leftOuter

def outColumns (j : HashJoin) : List (OutColumn MatchPair) :=
  (j.probeSchema.zipIdx.map fun (col, c) =>
    { type := col.type
      nullable := col.nullable
      place := fun p => some (j.probeChunk.column c, p.probeRow) }) ++
  if j.emitsBuild then
    j.buildSchema.zipIdx.map fun (col, c) =>
      { type := col.type
        nullable := col.nullable || j.type = .leftOuter
        place := fun p => p.build.map fun r =>
          ((j.buildChunks.chunk r.chunkIdx).1.column c, r.rowIdx) }
  else []

def emitOutputSlice (j : HashJoin) : Chunk × HashJoin :=
  let n := min chunkSize (j.matchPairs.length - j.emitCursor)
  (emitChunk j.outColumns ((j.matchPairs.drop j.emitCursor).take n),
    { j with emitCursor := j.emitCursor + n })

/-- The loops of `next` and `load_next_probe_chunk_` when all pairs have been emitted. -/
def advance (j : HashJoin) : List Chunk → Except String (Option Chunk × HashJoin)
  | [] => .ok (none, { j with probeChild := [], probeExhausted := true })
  | c :: rest =>
    if c.logicalSize = 0 then advance j rest
    else do
      let j ← j.loadProbeChunk c.materialize rest
      if j.matchPairs.isEmpty then advance j rest
      else
        let (chunk, j) := j.emitOutputSlice
        return (some chunk, j)

def next (j : HashJoin) : Except String (Option Chunk × HashJoin) := do
  let j ← if j.built then pure j else j.buildSide
  if j.emitCursor < j.matchPairs.length then
    let (chunk, j) := j.emitOutputSlice
    return (some chunk, j)
  else if j.probeExhausted then return (none, j)
  else j.advance j.probeChild

/-- The operator over two children. -/
def openJoin (type : JoinType) (hashRow : List Value → BitVec 32)
    (buildKeys probeKeys : List Expression)
    (buildSchema probeSchema : Schema) (build probe : List Chunk) : HashJoin :=
  ⟨type, hashRow, buildKeys, probeKeys, buildSchema, probeSchema, build, probe, false, false,
    [], [],
    ⟨0, [], none⟩, [], 0⟩

/-! ## The join -/

/-- The rows of the join for a row of the probe side and the rows that match it; `width` NULLs pad
it where there is none. -/
def joined (type : JoinType) (width : Nat) (row : Row) (found : List Row) : List Row :=
  match type with
  | .inner => found.map (row ++ ·)
  | .leftOuter =>
    if found.isEmpty then [row ++ replicate width .null] else found.map (row ++ ·)
  | .semi => if found.isEmpty then [] else [row]
  | .anti => if found.isEmpty then [row] else []

/-- The rows of the build side with the same keys, none of them NULL. -/
def matching (build : List (List Value × Row)) (keys : List Value) : List Row :=
  (build.filter fun y => !anyKeyNull keys && y.1 == keys).map Prod.snd

def join (type : JoinType) (width : Nat) (build probe : List (List Value × Row)) : List Row :=
  probe.flatMap fun x => joined type width x.2 (matching build x.1)

variable {j : HashJoin} {bs : Buffered} {es : List Entry} {type : JoinType} {r width : Nat}
  {keys : List Value} {row : Row}

/-- The row that a pair stands for. -/
def pairRow (j : HashJoin) (p : MatchPair) : Row :=
  j.probeChunk.row p.probeRow ++
    if j.emitsBuild then
      (p.build.map j.buildChunks.rowOf).getD (replicate j.buildSchema.length .null)
    else []

/-- What the build side is for: a row finds those with its keys. -/
structure Ready (j : HashJoin) : Prop where
  built : j.built = true
  lookup : ∀ keys, ∃ es, j.lookup keys = .ok es ∧ (∀ e ∈ es, e.row ∈ j.buildChunks.refs) ∧
    (es.map fun e => j.buildChunks.rowOf e.row).Perm (matching j.buildChunks.keyedRows keys)
  fits : ∀ b ∈ j.buildChunks, b.1.OfSchema j.buildSchema
  emits : ∀ col ∈ j.probeSchema ++ j.buildSchema, Executor.emits col.type = true

theorem lt_nextPow2 {n : Nat} (h : n < 2 ^ 30) : n < nextPow2 (max 1 (n * 2 % 2 ^ 32)) := by
  have hmod : n * 2 % 2 ^ 32 = n * 2 := Nat.mod_eq_of_lt (by omega)
  rw [hmod, nextPow2]
  split
  · omega
  · have hlog := Nat.lt_log2_self (n := max 1 (n * 2) - 1)
    omega

theorem joined_perm {found found' : List Row} (h : found.Perm found') :
    (joined type width row found).Perm (joined type width row found') := by
  have hempty : found.isEmpty = found'.isEmpty := by
    rw [Bool.eq_iff_iff, List.isEmpty_iff, List.isEmpty_iff]
    exact ⟨fun h' => (h' ▸ h).symm.eq_nil, fun h' => (h' ▸ h).eq_nil⟩
  unfold joined
  rw [hempty]
  cases type with
  | inner => exact h.map _
  | leftOuter =>
    dsimp only
    split
    · rfl
    · exact h.map _
  | semi => rfl
  | anti => rfl

/-- The pairs of a row of the probe side stand for its rows of the join. -/
theorem map_pairRow (j : HashJoin) (r : Nat) (es : List Entry) :
    (matched j.type r es ++ unmatched j.type r es).map j.pairRow =
      joined j.type j.buildSchema.length (j.probeChunk.row r)
        (es.map fun e => j.buildChunks.rowOf e.row) := by
  unfold matched unmatched joined pairRow emitsBuild
  cases j.type <;> cases es <;> simp

theorem emits_outColumns (h : Ready j) {col : OutColumn MatchPair} (hcol : col ∈ j.outColumns) :
    Executor.emits col.type = true := by
  rcases mem_append.1 hcol with hcol | hcol
  · obtain ⟨x, hx, rfl⟩ := mem_map.1 hcol
    exact h.emits _ (mem_append_left _ (mem_of_mem_zipIdx hx))
  · split at hcol
    · obtain ⟨x, hx, rfl⟩ := mem_map.1 hcol
      exact h.emits _ (mem_append_right _ (mem_of_mem_zipIdx hx))
    · cases hcol

/-- Pairs are emitted column by column. -/
theorem rows_emitChunk_outColumns (h : Ready j) (hprobe : j.probeChunk.OfSchema j.probeSchema)
    (pairs : List MatchPair)
    (hpairs : ∀ p ∈ pairs, ∀ r, p.build = some r → r ∈ j.buildChunks.refs) :
    (emitChunk j.outColumns pairs).rows = pairs.map j.pairRow := by
  rw [rows_emitChunk fun col => emits_outColumns h]
  refine map_congr_left fun p hp => ?_
  unfold outColumns pairRow
  rw [map_append, map_map, row_eq_range, ← hprobe.columns.length_eq]
  congr 1
  · exact map_zipIdx_snd j.probeSchema fun c => (j.probeChunk.column c).get p.probeRow
  · split
    · rw [map_map]
      cases hbuild : p.build with
      | none => simp [Function.comp_def, hbuild, cellAt]
      | some r =>
        have hfits := h.fits _ (Buffered.of_mem_refs (hpairs p hp r hbuild)).1
        simp only [Option.map_some, Option.getD_some, Buffered.rowOf, row_eq_range,
          ← hfits.columns.length_eq, Function.comp_def, hbuild, cellAt]
        exact map_zipIdx_snd j.buildSchema fun c =>
          ((j.buildChunks.chunk r.chunkIdx).1.column c).get r.rowIdx
    · rfl

/-! ## Building and probing -/

/-- The entries with the keys of a row are those of the rows that match it. -/
theorem map_filter_entries (hash : List Value → BitVec 32) (bs : Buffered) {keys : List Value}
    (hnull : anyKeyNull keys = false) :
    (((bs.refs.filter fun r => !anyKeyNull (bs.keysOf r)).map
        fun r => (⟨hash (bs.keysOf r), r⟩ : Entry)).filter
          fun e => e.hash = hash keys && bs.keysOf e.row == keys).map (fun e => bs.rowOf e.row) =
      matching bs.keyedRows keys := by
  unfold matching
  rw [← bs.map_refs, filter_map, filter_map, map_map, map_map, filter_filter]
  refine congrArg (map bs.rowOf) (filter_congr fun r _ => ?_)
  by_cases heq : bs.keysOf r = keys
  · simp [heq, hnull]
  · simp [beq_eq_false_iff_ne.2 heq]

/-- The build side is read and put into the table. -/
theorem ready_buildSide (heval : Evaluates j.buildKeys j.buildChild)
    (hfits : ∀ c ∈ j.buildChild, c.OfSchema j.buildSchema)
    (hemits : ∀ col ∈ j.probeSchema ++ j.buildSchema, Executor.emits col.type = true)
    (hsize : (j.buildChild.flatMap rows).length < 2 ^ 30) :
    ∃ bs table, buffer j.buildKeys j.buildChild = .ok bs ∧
      j.buildSide = .ok { j with buildChild := [], built := true, buildChunks := bs, table } ∧
      Ready { j with buildChild := [], built := true, buildChunks := bs, table } := by
  obtain ⟨bs, hbs, hrows, hall⟩ := buffer_of_evaluates heval
  have hlen : (bs.refs.filter fun r => !anyKeyNull (bs.keysOf r)).length < 2 ^ 30 := by
    refine Nat.lt_of_le_of_lt (length_filter_le _ _) ?_
    rwa [← hrows, length_map, ← bs.map_refs, length_map] at hsize
  obtain ⟨table, hbuild, hwalk⟩ := OpenTable.build_walk (fun e : Entry => e.hash.toNat)
    ((bs.refs.filter fun r => !anyKeyNull (bs.keysOf r)).map fun r => ⟨j.hashRow (bs.keysOf r), r⟩)
    (by rw [length_map]; exact lt_nextPow2 hlen)
  refine ⟨bs, table, hbs, ?_, rfl, fun keys => ?_, ?_, hemits⟩
  · rw [buildSide, hbs]
    dsimp only [bind, Except.bind]
    rw [hbuild]
    rfl
  · unfold lookup
    cases hnull : anyKeyNull keys with
    | true => exact ⟨[], rfl, by simp, by simp [matching, hnull]⟩
    | false =>
      obtain ⟨es, _, hes, hmet⟩ := hwalk (j.hashRow keys).toNat
      have hperm := hmet (fun e => e.hash = j.hashRow keys && bs.keysOf e.row == keys)
        fun e he => by simp only [Bool.and_eq_true, decide_eq_true_eq] at he; rw [he.1]
      refine ⟨es.filter _, by simp only [hes]; rfl, ?_, ?_⟩
      · intro e he
        obtain ⟨r, hr, rfl⟩ := mem_map.1 (mem_filter.1 (hperm.mem_iff.1 he)).1
        exact (mem_filter.1 hr).1
      · rw [← map_filter_entries j.hashRow bs hnull]
        exact hperm.map _
  · intro b hb
    obtain ⟨⟨c, hc, heq⟩, -⟩ := hall b hb
    rw [heq]
    exact (hfits c hc).materialize

theorem mem_of_mem_pairs {p : MatchPair} {x : RowRef}
    (hp : p ∈ matched type r es ++ unmatched type r es) (hx : p.build = some x) :
    ∃ e ∈ es, e.row = x := by
  have hnone : p ≠ ⟨r, none⟩ := by
    rintro rfl
    cases hx
  cases type <;> simp only [matched, unmatched, append_nil, nil_append, mem_append,
    mem_ite_nil_left, mem_ite_nil_right, mem_singleton, hnone, and_false, or_false,
    mem_map] at hp
  all_goals
    obtain ⟨e, he, rfl⟩ := hp
    cases hx
    exact ⟨e, he, rfl⟩

/-- The pairs of a chunk stand for its rows of the join. -/
theorem exec_loadProbeChunk (h : Ready j) (chunk : Chunk) (rest : List Chunk)
    {cols : List ColumnVector} (hcols : (j.probeKeys.mapM fun e => e.evaluate chunk) = .ok cols) :
    ∃ pairs, j.loadProbeChunk chunk rest =
        .ok { j with
          probeChild := rest, probeChunk := chunk, matchPairs := pairs, emitCursor := 0 } ∧
      (∀ p ∈ pairs, ∀ x, p.build = some x → x ∈ j.buildChunks.refs) ∧
      (pairs.map ({ j with probeChunk := chunk } : HashJoin).pairRow).Perm
        (join j.type j.buildSchema.length j.buildChunks.keyedRows
          (Buffered.keyedChunk (chunk, cols))) := by
  choose es hes hrefs hperm using fun r => h.lookup (cols.map (ColumnVector.get · r))
  have hfound : ((range chunk.rowCount).mapM fun r => do
      let es ← j.lookup (cols.map (ColumnVector.get · r))
      return (r, es)) = .ok ((range chunk.rowCount).map fun r => (r, es r)) := by
    refine mapM_eq_ok fun r _ => ?_
    rw [hes]
    rfl
  have hpairs := flatMap_append_perm ((range chunk.rowCount).map fun r => (r, es r))
    (fun x => matched j.type x.1 x.2) fun x => unmatched j.type x.1 x.2
  refine ⟨_, by rw [loadProbeChunk, hcols, except_ok_bind, hfound]; rfl, ?_, ?_⟩
  · intro p hp x hx
    obtain ⟨y, hy, hp⟩ := mem_flatMap.1 (hpairs.mem_iff.1 hp)
    obtain ⟨r, -, rfl⟩ := mem_map.1 hy
    obtain ⟨e, he, rfl⟩ := mem_of_mem_pairs hp hx
    exact hrefs r e he
  · refine (hpairs.map _).trans ?_
    rw [flatMap_map, map_flatMap, join, Buffered.keyedChunk, flatMap_map]
    refine Perm.flatMap_left _ fun r _ => ?_
    rw [map_pairRow]
    exact joined_perm (hperm r)

def joining : Joining HashJoin MatchPair where
  prepare j := if j.built then pure j else j.buildSide
  load := loadProbeChunk
  advance := advance
  next := next
  child := probeChild
  exhausted := probeExhausted
  pairs := matchPairs
  cursor := emitCursor
  move j i := { j with emitCursor := i }
  outColumns := outColumns

theorem loops : joining.Loops where
  advance_nil _ := ⟨_, rfl⟩
  advance_cons _ _ _ := rfl
  next j := by
    show next j = (if j.built then pure j else j.buildSide) >>= _
    unfold next
    cases j.built <;> rfl
  load j chunk rest j' h := by
    obtain ⟨_, -, h⟩ := except_bind_eq_ok.mp h
    obtain ⟨_, -, h⟩ := except_bind_eq_ok.mp h
    cases h
    exact ⟨rfl, rfl, rfl⟩
  move _ _ := ⟨rfl, rfl, rfl, rfl, fun _ => rfl⟩

/-- A state in which the probe side is read. -/
def Probes (j j' : HashJoin) : Prop :=
  ∃ rest chunk pairs i, j' =
    { j with probeChild := rest, probeChunk := chunk, matchPairs := pairs, emitCursor := i }

/-- The keys of the chunk can be evaluated. -/
def Probable (j : HashJoin) (c : Chunk) : Prop :=
  c.OfSchema j.probeSchema ∧
    (c.logicalSize ≠ 0 → ∃ cols, (j.probeKeys.mapM fun e => e.evaluate c.materialize) = .ok cols)

theorem Ready.serves (h : Ready j) (hexhausted : j.probeExhausted = false) :
    joining.Serves (Probes j) j.Probable fun c =>
      join j.type j.buildSchema.length j.buildChunks.keyedRows (keyed j.probeKeys c) where
  prepare := by
    rintro _ ⟨rest, chunk, pairs, i, rfl⟩
    exact ⟨by simp [joining, h.built]; rfl, hexhausted⟩
  move := by
    rintro _ i ⟨rest, chunk, pairs, _, rfl⟩
    exact ⟨rest, chunk, pairs, i, rfl⟩
  empty c hsize := by rw [keyed_of_empty _ hsize]; rfl
  load := by
    rintro _ c rest ⟨rest', chunk, pairs', i, rfl⟩ ⟨hfits, heval⟩ hsize
    obtain ⟨_, hcols⟩ := heval hsize
    let j' : HashJoin :=
      { j with probeChild := rest', probeChunk := chunk, matchPairs := pairs', emitCursor := i }
    obtain ⟨pairs, hload, hrefs, hperm⟩ := exec_loadProbeChunk (j := j')
      { h with } c.materialize rest hcols
    refine ⟨_, ({ j' with probeChunk := c.materialize } : HashJoin).pairRow, hload,
      ⟨rest, _, pairs, 0, rfl⟩, fun slice hslice => ?_, ?_⟩
    · exact rows_emitChunk_outColumns (j := { j with probeChunk := c.materialize })
        { h with } hfits.materialize slice fun p hp => hrefs p (hslice p hp)
    · rw [keyed, hcols]
      exact hperm

/-- Streams that can be joined. -/
structure Streams (buildKeys probeKeys : List Expression) (buildSchema probeSchema : Schema)
    (build probe : List Chunk) : Prop where
  buildFits : ∀ c ∈ build, c.OfSchema buildSchema
  probeFits : ∀ c ∈ probe, c.OfSchema probeSchema
  emits : ∀ col ∈ probeSchema ++ buildSchema, Executor.emits col.type = true
  buildKeyed : Evaluates buildKeys build
  probeKeyed : Evaluates probeKeys probe
  size : (build.flatMap rows).length < 2 ^ 30

/-- What is emitted, by the keys of the rows. -/
theorem Streams.pulls_join {buildKeys probeKeys : List Expression}
    {buildSchema probeSchema : Schema}
    {build probe : List Chunk}
    (h : Streams buildKeys probeKeys buildSchema probeSchema build probe) (type : JoinType)
    (hashRow : List Value → BitVec 32) : ∃ out,
      Pulls next
        (openJoin type hashRow buildKeys probeKeys buildSchema probeSchema build probe) out ∧
      (out.flatMap rows).Perm (join type buildSchema.length (build.flatMap (keyed buildKeys))
        (probe.flatMap (keyed probeKeys))) := by
  obtain ⟨_, _, hbs, hexec, hready⟩ := ready_buildSide
    (j := openJoin type hashRow buildKeys probeKeys buildSchema probeSchema build probe)
    h.buildKeyed h.buildFits h.emits h.size
  have hgood : ∀ c ∈ probe, c.OfSchema probeSchema ∧ (c.logicalSize ≠ 0 →
      ∃ cols, (probeKeys.mapM fun e => e.evaluate c.materialize) = .ok cols) := fun c hc =>
    ⟨h.probeFits c hc, fun hsize => (h.probeKeyed c hc hsize).imp fun _ hcols => hcols.1⟩
  obtain ⟨out, hout, hperm⟩ := (hready.serves rfl).pulls loops
    (openJoin type hashRow buildKeys probeKeys buildSchema probeSchema build probe) hexec
    ⟨_, _, _, _, rfl⟩ rfl hgood
  refine ⟨out, hout, ?_⟩
  rw [show build.flatMap (keyed buildKeys) = _ from (keyedRows_of_buffer hbs).symm, join,
    flatMap_assoc]
  exact hperm

/-- A stream of two chunks with a column, and the expression for the column. -/
def twoChunks : List Chunk :=
  [⟨2, [⟨.int32, false, [.int32 2, .int32 1]⟩], none⟩, ⟨1, [⟨.int32, false, [.int32 2]⟩], none⟩]

def oneInt : Schema :=
  [⟨[], .int32, false, 0, none⟩]

def firstColumn : Expression :=
  ⟨.int32, fun c => .ok (c.column 0)⟩

theorem fits_twoChunks : ∀ c ∈ twoChunks, c.OfSchema oneInt := by
  simp only [twoChunks, forall_mem_cons]
  exact ⟨⟨.cons ⟨rfl, rfl, rfl, by decide⟩ .nil, by simp⟩,
    ⟨.cons ⟨rfl, rfl, rfl, by decide⟩ .nil, by simp⟩, by simp⟩

theorem evaluates_twoChunks : Evaluates [firstColumn] twoChunks := by
  simp only [Evaluates, twoChunks, forall_mem_cons]
  exact ⟨fun _ => ⟨_, rfl, .cons ⟨rfl, rfl, by decide⟩ .nil⟩,
    fun _ => ⟨_, rfl, .cons ⟨rfl, rfl, by decide⟩ .nil⟩, by simp⟩

end HashJoin
end NyxDb.Executor
