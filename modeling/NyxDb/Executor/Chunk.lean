import NyxDb.Lib.Except
import NyxDb.Lib.Related
import NyxDb.Storage.Value

/-!
# Chunks of rows

The operators of a plan pass rows on in chunks: columns of the same length, and perhaps a selection
of the rows that count.  A NULL is a cell that holds `null`.  An expression is evaluated on a whole
chunk and gives one column.
-/

namespace NyxDb.Executor

open List

/-- `TableScan::CHUNK_SIZE`. -/
def chunkSize : Nat := 1024

structure ColumnVector where
  type : TypeId
  nullable : Bool
  cells : List Value
  deriving DecidableEq, Repr

namespace ColumnVector

def get (cv : ColumnVector) (i : Nat) : Value :=
  cv.cells.getD i .null

def gatherViaSel (src : ColumnVector) (sel : List Nat) : ColumnVector :=
  { src with cells := sel.map src.get }

end ColumnVector

/-- `sel` are the rows of a selection vector in its order. -/
structure Chunk where
  rowCount : Nat
  columns : List ColumnVector
  sel : Option (List Nat)
  deriving DecidableEq, Repr

namespace Chunk

def logicalSize (c : Chunk) : Nat :=
  match c.sel with
  | none => c.rowCount
  | some sel => sel.length

def materialize (c : Chunk) : Chunk :=
  match c.sel with
  | none => c
  | some sel => ⟨sel.length, c.columns.map (·.gatherViaSel sel), none⟩

def column (c : Chunk) (i : Nat) : ColumnVector :=
  c.columns.getD i ⟨.invalid, false, []⟩

/-- The cells at an index of the columns. -/
def row (c : Chunk) (i : Nat) : Row :=
  c.columns.map (·.get i)

/-- The rows that count. -/
def rows (c : Chunk) : List Row :=
  (c.sel.getD (range c.rowCount)).map c.row

end Chunk

structure Expression where
  outputType : TypeId
  evaluate : Chunk → Except String ColumnVector

/-- Chunks with the columns that expressions gave for them. -/
abbrev Buffered : Type := List (Chunk × List ColumnVector)

/-- Read a child to its end; chunks without rows are skipped. -/
def buffer (exprs : List Expression) : List Chunk → Except String Buffered
  | [] => .ok []
  | c :: child =>
    if c.logicalSize = 0 then buffer exprs child
    else do
      let chunk := c.materialize
      let keys ← exprs.mapM fun e => e.evaluate chunk
      let rest ← buffer exprs child
      return (chunk, keys) :: rest

structure RowRef where
  chunkIdx : Nat
  rowIdx : Nat
  deriving DecidableEq, Repr

namespace Buffered

def chunk (bs : Buffered) (i : Nat) : Chunk × List ColumnVector :=
  bs.getD i (⟨0, [], none⟩, [])

/-- All rows, chunk by chunk. -/
def refs (bs : Buffered) : List RowRef :=
  bs.zipIdx.flatMap fun (b, ci) => (range b.1.rowCount).map (RowRef.mk ci)

def keysOf (bs : Buffered) (r : RowRef) : List Value :=
  (bs.chunk r.chunkIdx).2.map (·.get r.rowIdx)

def rowOf (bs : Buffered) (r : RowRef) : Row :=
  (bs.chunk r.chunkIdx).1.row r.rowIdx

/-- The rows with their keys. -/
def keyedChunk (b : Chunk × List ColumnVector) : List (List Value × Row) :=
  (range b.1.rowCount).map fun r => (b.2.map (·.get r), b.1.row r)

def keyedRows (bs : Buffered) : List (List Value × Row) :=
  bs.flatMap keyedChunk

end Buffered

/-! ## Rows of a schema -/

/-- A column vector that holds the cells of a column. -/
structure ColumnVector.HoldsCells (col : Column) (n : Nat) (cv : ColumnVector) : Prop where
  type : cv.type = col.type
  nullable : cv.nullable = col.nullable
  length : cv.cells.length = n
  cells : ∀ v ∈ cv.cells, if v = .null then cv.nullable = true else v.type = cv.type

structure Chunk.OfSchema (schema : Schema) (c : Chunk) : Prop where
  columns : Forall₂ (fun col cv => ColumnVector.HoldsCells col c.rowCount cv) schema c.columns
  sel : ∀ i ∈ c.sel.getD [], i < c.rowCount

variable {c : Chunk} {sel : List Nat} {schema : Schema} {i : Nat}

theorem ColumnVector.get_eq_getElem {cv : ColumnVector} (hi : i < cv.cells.length) :
    cv.get i = cv.cells[i] := by
  simp [get, getD_eq_getElem?_getD, hi]

@[simp] theorem Chunk.sel_materialize (c : Chunk) : c.materialize.sel = none := by
  unfold materialize
  split
  · assumption
  · rfl

@[simp] theorem Chunk.rowCount_materialize (c : Chunk) :
    c.materialize.rowCount = c.logicalSize := by
  unfold materialize logicalSize
  split <;> rfl

theorem Chunk.rows_of_sel_none (h : c.sel = none) : c.rows = (range c.rowCount).map c.row := by
  rw [rows, h]
  rfl

@[simp] theorem Chunk.rows_materialize (c : Chunk) : c.materialize.rows = c.rows := by
  rw [rows_of_sel_none (sel_materialize c), rowCount_materialize]
  unfold rows materialize logicalSize
  cases c.sel with
  | none => rfl
  | some sel =>
    refine ext_getElem (by simp) fun i hi hi' => ?_
    have hsel : i < sel.length := by simpa using hi
    simp only [getElem_map, getElem_range, Option.getD_some, row, map_map]
    refine map_congr_left fun cv _ => ?_
    simp [ColumnVector.gatherViaSel, ColumnVector.get, getD_eq_getElem?_getD, hsel]

theorem Chunk.length_rows (c : Chunk) : c.rows.length = c.logicalSize := by
  rw [← rows_materialize, rows_of_sel_none (sel_materialize c), length_map, length_range,
    rowCount_materialize]

theorem Chunk.OfSchema.materialize (h : c.OfSchema schema) : c.materialize.OfSchema schema := by
  unfold Chunk.materialize
  cases hsel : c.sel with
  | none => exact h
  | some sel =>
    refine ⟨?_, by simp⟩
    rw [forall₂_map_right_iff]
    refine h.columns.imp fun col cv hcv => ⟨hcv.type, hcv.nullable, length_map _, ?_⟩
    intro v hv
    obtain ⟨i, hi, rfl⟩ := mem_map.1 hv
    have hlt : i < cv.cells.length := by
      rw [hcv.length]
      exact h.sel i (by rw [hsel]; exact hi)
    refine hcv.cells _ ?_
    rw [ColumnVector.get_eq_getElem hlt]
    exact getElem_mem hlt

/-! ## Reading a child to its end -/

/-- The cells are NULL or of the type. -/
def ColumnVector.Typed (cv : ColumnVector) (n : Nat) (t : TypeId) : Prop :=
  cv.type = t ∧ cv.cells.length = n ∧ ∀ v ∈ cv.cells, v = .null ∨ v.type = t

/-- The expressions can be evaluated on the rows of a stream, and give columns of their types. -/
def Evaluates (exprs : List Expression) (child : List Chunk) : Prop :=
  ∀ c ∈ child, c.logicalSize ≠ 0 →
    ∃ keys, (exprs.mapM fun e => e.evaluate c.materialize) = .ok keys ∧
      Forall₂ (fun e cv => cv.Typed c.logicalSize e.outputType) exprs keys

variable {exprs : List Expression} {child : List Chunk}

/-- All rows of the child are buffered, in order. -/
theorem buffer_of_evaluates (h : Evaluates exprs child) : ∃ bs, buffer exprs child = .ok bs ∧
      bs.keyedRows.map Prod.snd = child.flatMap Chunk.rows ∧
      ∀ b ∈ bs, (∃ c ∈ child, b.1 = c.materialize) ∧ 0 < b.1.rowCount ∧
        Forall₂ (fun e cv => cv.Typed b.1.rowCount e.outputType) exprs b.2 := by
  induction child with
  | nil => exact ⟨[], rfl, rfl, by simp⟩
  | cons c child ih =>
    obtain ⟨bs, hbs, hrows, hall⟩ := ih fun c' hc' => h c' (mem_cons_of_mem c hc')
    have hrest : ∀ b ∈ bs, (∃ c' ∈ c :: child, b.1 = c'.materialize) ∧ 0 < b.1.rowCount ∧
        Forall₂ (fun e cv => cv.Typed b.1.rowCount e.outputType) exprs b.2 := by
      intro b hb
      obtain ⟨⟨c', hc', heq⟩, hb⟩ := hall b hb
      exact ⟨⟨c', mem_cons_of_mem c hc', heq⟩, hb⟩
    by_cases hsize : c.logicalSize = 0
    · refine ⟨bs, by rw [buffer, if_pos hsize, hbs], ?_, hrest⟩
      have hnone : c.rows = [] := eq_nil_of_length_eq_zero (by rw [c.length_rows, hsize])
      rw [flatMap_cons, hnone, nil_append, hrows]
    · obtain ⟨keys, hkeys, htyped⟩ := h c mem_cons_self hsize
      refine ⟨(c.materialize, keys) :: bs, ?_, ?_, ?_⟩
      · rw [buffer, if_neg hsize]
        dsimp only
        rw [hkeys, hbs]
        rfl
      · rw [flatMap_cons, ← hrows, ← c.rows_materialize, Chunk.rows_of_sel_none c.sel_materialize]
        simp [Buffered.keyedRows, Buffered.keyedChunk]
      · refine forall_mem_cons.2 ⟨⟨⟨c, mem_cons_self, rfl⟩, ?_⟩, hrest⟩
        rw [c.rowCount_materialize]
        exact ⟨Nat.pos_of_ne_zero hsize, htyped⟩

/-- The rows of a chunk with their keys. -/
def keyed (exprs : List Expression) (c : Chunk) : List (List Value × Row) :=
  match exprs.mapM fun e => e.evaluate c.materialize with
  | .ok keys => Buffered.keyedChunk (c.materialize, keys)
  | .error _ => []

theorem keyed_of_empty (exprs : List Expression) (h : c.logicalSize = 0) : keyed exprs c = [] := by
  unfold keyed Buffered.keyedChunk
  split
  · rw [c.rowCount_materialize, h]
    rfl
  · rfl

theorem keyedRows_of_buffer {bs : Buffered} (h : buffer exprs child = .ok bs) :
    bs.keyedRows = child.flatMap (keyed exprs) := by
  induction child generalizing bs with
  | nil =>
    cases h
    rfl
  | cons c child ih =>
    rw [buffer] at h
    split at h
    · next hsize => rw [flatMap_cons, keyed_of_empty exprs hsize, nil_append, ih h]
    · obtain ⟨_, hkeys, h⟩ := except_bind_eq_ok.mp h
      obtain ⟨_, hrest, h⟩ := except_bind_eq_ok.mp h
      cases h
      rw [flatMap_cons, keyed, hkeys, ← ih hrest]
      rfl

namespace Buffered

variable {bs : Buffered} {b : Chunk × List ColumnVector} {r : RowRef}

theorem chunk_eq {ci : Nat} (h : (b, ci) ∈ bs.zipIdx) : bs.chunk ci = b := by
  rw [chunk, getD_eq_getElem?_getD, mk_mem_zipIdx_iff_getElem?.1 h]
  rfl

theorem of_mem_refs (hr : r ∈ bs.refs) :
    bs.chunk r.chunkIdx ∈ bs ∧ r.rowIdx < (bs.chunk r.chunkIdx).1.rowCount := by
  obtain ⟨⟨b, _⟩, hb, hr⟩ := mem_flatMap.1 hr
  obtain ⟨i, hi, rfl⟩ := mem_map.1 hr
  rw [chunk_eq hb]
  exact ⟨mem_of_getElem? (mk_mem_zipIdx_iff_getElem?.1 hb), mem_range.1 hi⟩

theorem map_refs (bs : Buffered) :
    bs.refs.map (fun r => (bs.keysOf r, bs.rowOf r)) = bs.keyedRows := by
  unfold refs keyedRows
  rw [map_flatMap]
  conv_rhs => rw [← zipIdx_map_fst 0 bs, flatMap_map]
  refine flatMap_congr fun x hx => ?_
  rw [map_map]
  refine map_congr_left fun r _ => ?_
  simp [Function.comp, keysOf, rowOf, chunk_eq hx]

end Buffered

/-! ## Emitting rows -/

/-- The types that the loops over the rows to emit know. -/
def emits : TypeId → Bool
  | .int32 | .int64 | .double | .varchar => true
  | _ => false

/-- The cell at a place; a row that is missing is padded. -/
def cellAt : Option (ColumnVector × Nat) → Value
  | none => .null
  | some (src, row) => src.get row

/-- A column of the output: where its cells come from, for the rows to emit. -/
structure OutColumn (ρ : Type) where
  type : TypeId
  nullable : Bool
  place : ρ → Option (ColumnVector × Nat)

variable {ρ : Type}

/-- For other types an assertion fails; when assertions are compiled out the column stays empty. -/
def OutColumn.emit (col : OutColumn ρ) (rows : List ρ) : ColumnVector where
  type := col.type
  nullable := col.nullable
  cells :=
    if emits col.type then
      rows.map fun r =>
        if col.nullable && (cellAt (col.place r)).isNull then .null else cellAt (col.place r)
    else []

def emitChunk (cols : List (OutColumn ρ)) (rows : List ρ) : Chunk :=
  ⟨rows.length, cols.map (·.emit rows), none⟩

theorem OutColumn.cells_emit {col : OutColumn ρ} (h : emits col.type = true) (rows : List ρ) :
    (col.emit rows).cells = rows.map fun r => cellAt (col.place r) := by
  unfold emit
  rw [if_pos h]
  refine map_congr_left fun r _ => ?_
  cases cellAt (col.place r) <;> simp [Value.isNull]

theorem rows_emitChunk {cols : List (OutColumn ρ)} (h : ∀ col ∈ cols, emits col.type = true)
    (rows : List ρ) :
    (emitChunk cols rows).rows = rows.map fun r => cols.map fun col => cellAt (col.place r) := by
  rw [Chunk.rows_of_sel_none rfl]
  refine ext_getElem (by simp [emitChunk]) fun i hi hi' => ?_
  have hlt : i < rows.length := by simpa using hi'
  simp only [getElem_map, getElem_range, Chunk.row, emitChunk, map_map]
  refine map_congr_left fun col hcol => ?_
  have hcells := col.cells_emit (h col hcol) rows
  simp [ColumnVector.get, hcells, getD_eq_getElem?_getD, hlt]

theorem Chunk.map_column (c : Chunk) : (range c.columns.length).map c.column = c.columns := by
  refine ext_getElem (by simp) fun j hj hj' => ?_
  simp [column, getD_eq_getElem?_getD, hj']

theorem Chunk.row_eq_range (c : Chunk) (i : Nat) :
    c.row i = (range c.columns.length).map fun j => (c.column j).get i := by
  conv_lhs => rw [row, ← c.map_column, map_map]
  rfl

theorem Chunk.OfSchema.emits_column (h : c.OfSchema schema)
    (hemits : ∀ col ∈ schema, emits col.type = true)
    {j : Nat} (hj : j < c.columns.length) : emits (c.column j).type = true := by
  obtain ⟨col, hcol, hcv⟩ := forall₂_right h.columns (getElem?_eq_getElem hj)
  rw [column, getD_eq_getElem?_getD, getElem?_eq_getElem hj, Option.getD_some, hcv.type]
  exact hemits col (mem_of_getElem? hcol)

/-- The columns of a schema with their numbers. -/
theorem map_zipIdx_snd (schema : Schema) (f : Nat → Value) :
    (schema.zipIdx.map fun x => f x.2) = (range schema.length).map f := by
  rw [range_eq_range', ← zipIdx_map_snd 0 schema, map_map]
  rfl

theorem mem_of_mem_zipIdx {schema : Schema} {x : Column × Nat} (hx : x ∈ schema.zipIdx) :
    x.1 ∈ schema :=
  mem_of_getElem? (mem_zipIdx_iff_getElem?.1 hx)

end NyxDb.Executor
