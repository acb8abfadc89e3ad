import Mathlib.Data.List.Lex
import Mathlib.Data.List.Permutation
import NyxDb.Executor.Joining
import NyxDb.Lib.StableSort

/-!
# Sort

The operator reads its child to the end, evaluates the sort keys chunk by chunk, sorts references
to the rows and then emits the rows in slices.  `SortOp.emits_sorted` says what comes out.
-/

namespace NyxDb.Executor

open List

inductive SortDirection where
  | asc
  | desc
  deriving DecidableEq, Repr

inductive NullOrder where
  | first
  | last
  deriving DecidableEq, Repr

structure SortKey where
  expr : Expression
  direction : SortDirection
  nulls : NullOrder

/-- `buffered` are the chunks of `buffered_` with their columns of `key_cols_`. -/
structure SortOp where
  keys : List SortKey
  child : List Chunk
  consumed : Bool
  buffered : Buffered
  perm : List RowRef
  emitCursor : Nat

/-- The branches of `compare_typed`; in the last one an assertion fails. -/
def compareTyped : Value → Value → Ordering
  | .int32 a, .int32 b => cmp a.toInt b.toInt
  | .int64 a, .int64 b => cmp a.toInt b.toInt
  | .double a, .double b => if f64Lt a b then .lt else if f64Lt b a then .gt else .eq
  | .string a, .string b => cmp (a.map UInt8.toNat) (b.map UInt8.toNat)
  | _, _ => .eq

/-- The loop of `less_` over the keys of two rows. -/
def lessKeys : List SortKey → List Value → List Value → Bool
  | k :: keys, l :: ls, r :: rs =>
    if l.isNull && r.isNull then lessKeys keys ls rs
    else if l.isNull then k.nulls = .first
    else if r.isNull then k.nulls = .last
    else
      match compareTyped l r with
      | .eq => lessKeys keys ls rs
      | .lt => k.direction = .asc
      | .gt => k.direction = .desc
  | _, _, _ => false

namespace SortOp

def openSort (child : List Chunk) (keys : List SortKey) : SortOp :=
  ⟨keys, child, false, [], [], 0⟩

def less (s : SortOp) (l r : RowRef) : Bool :=
  lessKeys s.keys (s.buffered.keysOf l) (s.buffered.keysOf r)

/-- `std::stable_sort` by `less_`. -/
def consumeAndSort (s : SortOp) : Except String SortOp := do
  let buffered ← buffer (s.keys.map (·.expr)) s.child
  let s := { s with child := [], consumed := true, buffered }
  return { s with perm := buffered.refs.mergeSort fun l r => !s.less r l }

/-- Column by column; the first chunk says which columns there are. -/
def outColumns (s : SortOp) : List (OutColumn RowRef) :=
  let proto := (s.buffered.chunk 0).1
  (range proto.columns.length).map fun c =>
    { type := (proto.column c).type
      nullable := (proto.column c).nullable
      place := fun r => some ((s.buffered.chunk r.chunkIdx).1.column c, r.rowIdx) }

def emitSlice (s : SortOp) (start stop : Nat) : Chunk :=
  emitChunk s.outColumns ((s.perm.drop start).take (stop - start))

def next (s : SortOp) : Except String (Option Chunk × SortOp) := do
  let s ← if s.consumed then pure s else s.consumeAndSort
  if s.perm.length ≤ s.emitCursor then return (none, s)
  let stop := min (s.emitCursor + chunkSize) s.perm.length
  return (some (s.emitSlice s.emitCursor stop), { s with emitCursor := stop })

end SortOp

/-! ## The order of the keys -/

/-- What the values of a type are ordered by: a number, or a text. -/
def number : Value → Int
  | .int32 v | .date v => v.toInt
  | .int64 v | .timestamp v => v.toInt
  | .bool b => b.toNat
  | _ => 0

def text : Value → List Nat
  | .string s => s.map UInt8.toNat
  | _ => []

def valueOrder : Value → Value → Ordering :=
  compareLex (fun a b => cmp a.type.toByte.toNat b.type.toByte.toNat)
    (compareLex (fun a b => cmp (number a) (number b)) fun a b => cmp (text a) (text b))

/-- NULL is first or last whatever the direction. -/
def nullRank (k : SortKey) (v : Value) : Nat :=
  if v.isNull = (k.nulls = .first) then 0 else 1

def keyOrder (k : SortKey) : Value → Value → Ordering :=
  compareLex (fun a b => cmp (nullRank k a) (nullRank k b)) (match k.direction with
      | .asc => valueOrder
      | .desc => fun a b => valueOrder b a)

def keysOrder : List SortKey → List Value → List Value → Ordering
  | [] => fun _ _ => .eq
  | k :: keys =>
    compareLex (fun l r => keyOrder k (l.headD .null) (r.headD .null))
      fun l r => keysOrder keys l.tail r.tail

instance transCmp_valueOrder : Std.TransCmp valueOrder := by
  have htype := transCmp_on cmp fun v : Value => v.type.toByte.toNat
  have hnumber := transCmp_on cmp number
  have htext := transCmp_on cmp text
  unfold valueOrder
  infer_instance

instance transCmp_keyOrder (k : SortKey) : Std.TransCmp (keyOrder k) := by
  have hnull := transCmp_on cmp (nullRank k)
  have hdesc : Std.TransCmp fun a b => valueOrder b a := Std.TransCmp.opposite
  unfold keyOrder
  cases k.direction with
  | asc => exact inferInstanceAs (Std.TransCmp (compareLex _ valueOrder))
  | desc => exact inferInstanceAs (Std.TransCmp (compareLex _ fun a b => valueOrder b a))

instance transCmp_keysOrder (keys : List SortKey) : Std.TransCmp (keysOrder keys) := by
  induction keys with
  | nil => exact { eq_swap := rfl, isLE_trans := fun _ _ => rfl }
  | cons k keys ih =>
    have hhead := transCmp_on (keyOrder k) fun l : List Value => l.headD .null
    have htail := transCmp_on (keysOrder keys) tail
    unfold keysOrder
    infer_instance

/-- The types for which `compare_typed` has an order. -/
def Sortable (t : TypeId) : Prop :=
  t = .int32 ∨ t = .int64 ∨ t = .varchar

theorem compareTyped_eq {t : TypeId} (ht : Sortable t) {a b : Value} (ha : a.type = t)
    (hb : b.type = t) : compareTyped a b = valueOrder a b := by
  have hsame : valueOrder a b = (cmp (number a) (number b)).then (cmp (text a) (text b)) := by
    show (cmp a.type.toByte.toNat b.type.toByte.toNat).then _ = _
    rw [ha, hb, cmp_self_eq_eq]
    rfl
  rw [hsame]
  rcases ht with rfl | rfl | rfl
  all_goals
    cases a <;> cases ha
    cases b <;> cases hb
  · exact Ordering.then_eq.symm
  · exact Ordering.then_eq.symm
  · rfl

/-- The cells of the keys of a row. -/
def KeyRow (types : List TypeId) (l : List Value) : Prop :=
  Forall₂ (fun t v => v = .null ∨ v.type = t) types l

theorem isNull_of_type {t : TypeId} (ht : Sortable t) {v : Value} (hv : v.type = t) :
    v.isNull = false := by
  subst hv
  cases v <;> simp [Sortable, Value.type, Value.isNull] at ht ⊢

theorem keyOrder_of_ne_null (k : SortKey) {a b : Value} (ha : a.isNull = false)
    (hb : b.isNull = false) :
    keyOrder k a b = match k.direction with
      | .asc => valueOrder a b
      | .desc => valueOrder b a := by
  have hrank : nullRank k a = nullRank k b := by simp [nullRank, ha, hb]
  show (cmp (nullRank k a) (nullRank k b)).then _ = _
  rw [hrank, cmp_self_eq_eq]
  cases k.direction <;> rfl

theorem keyOrder_null (k : SortKey) {b : Value} (hb : b.isNull = false) :
    keyOrder k .null b = if k.nulls = .first then .lt else .gt := by
  have hnull : Value.null.isNull = true := rfl
  show (cmp (nullRank k .null) (nullRank k b)).then _ = _
  unfold nullRank
  rw [hnull, hb]
  cases k.nulls <;> rfl

/-- The loop of `less_` decides the order of the keys. -/
theorem lessKeys_eq {keys : List SortKey} {types : List TypeId} (ht : ∀ t ∈ types, Sortable t)
    (hlen : keys.length = types.length) {l r : List Value} (hl : KeyRow types l)
    (hr : KeyRow types r) : lessKeys keys l r = (keysOrder keys l r == .lt) := by
  induction hl generalizing keys r with
  | nil =>
    rw [eq_nil_of_length_eq_zero hlen]
    rfl
  | @cons t a types as ha has ih =>
    obtain ⟨k, keys, rfl⟩ := exists_cons_of_length_pos (l := keys) (by simp [hlen])
    obtain ⟨ht, hts⟩ := forall_mem_cons.1 ht
    cases hr with
    | @cons _ b _ bs hb hbs =>
      have hrest := ih hts (by simpa using hlen) hbs
      have horder : keysOrder (k :: keys) (a :: as) (b :: bs) =
          (keyOrder k a b).then (keysOrder keys as bs) := rfl
      rw [horder]
      rcases ha with rfl | ha
      · rcases hb with rfl | hb
        · have hself : keyOrder k .null .null = .eq := Std.ReflCmp.compare_self
          rw [hself]
          exact hrest
        · rw [keyOrder_null k (isNull_of_type ht hb), lessKeys, isNull_of_type ht hb]
          cases k.nulls <;> rfl
      · have hnull := isNull_of_type ht ha
        rcases hb with rfl | hb
        · have hswap : keyOrder k a .null = (keyOrder k .null a).swap := Std.OrientedCmp.eq_swap
          rw [hswap, keyOrder_null k hnull, lessKeys, hnull]
          cases k.nulls <;> rfl
        · have hnull' := isNull_of_type ht hb
          rw [keyOrder_of_ne_null k hnull hnull', lessKeys, hnull, hnull',
            compareTyped_eq ht ha hb, hrest]
          have hswap : valueOrder b a = (valueOrder a b).swap := Std.OrientedCmp.eq_swap
          cases k.direction <;> cases hv : valueOrder a b <;> simp [hswap, hv]

theorem isStrictWeakOrder_lessKeys {keys : List SortKey} {types : List TypeId}
    (ht : ∀ t ∈ types, Sortable t) (hlen : keys.length = types.length) :
    IsStrictWeakOrder { l // KeyRow types l } fun l r => lessKeys keys l.1 r.1 = true := by
  have heq : (fun l r : { l // KeyRow types l } => lessKeys keys l.1 r.1 = true) =
      fun l r => keysOrder keys l.1 r.1 = .lt := by
    funext l r
    rw [lessKeys_eq ht hlen l.2 r.2, beq_iff_eq]
  rw [heq]
  exact isStrictWeakOrder_lt (keysOrder keys) Subtype.val

/-! ## What is emitted -/

namespace SortOp

variable {s : SortOp} {child : List Chunk} {keys : List SortKey} {schema : Schema}
  {bs : Buffered}

theorem keyRow_of_mem_refs
    (hkeys : ∀ b ∈ bs, Forall₂ (fun k cv => cv.Typed b.1.rowCount k.expr.outputType) keys b.2)
    {r : RowRef} (hr : r ∈ bs.refs) : KeyRow (keys.map (·.expr.outputType)) (bs.keysOf r) := by
  obtain ⟨hmem, hlt⟩ := Buffered.of_mem_refs hr
  unfold KeyRow Buffered.keysOf
  rw [forall₂_map_left_iff, forall₂_map_right_iff]
  refine (hkeys _ hmem).imp fun k cv hcv => hcv.2.2 _ ?_
  rw [← hcv.2.1] at hlt
  rw [ColumnVector.get_eq_getElem hlt]
  exact getElem_mem hlt

/-- The references in the order of `perm_` stand for the rows in the order of their keys. -/
theorem sortedBy_perm (hsortable : ∀ k ∈ s.keys, Sortable k.expr.outputType)
    (hkeys : ∀ b ∈ s.buffered, Forall₂
      (fun k cv => cv.Typed b.1.rowCount k.expr.outputType) s.keys b.2) :
    SortedBy (keysOrder s.keys) s.buffered.keyedRows
      ((s.buffered.refs.mergeSort fun l r => !s.less r l).map
        fun r => (s.buffered.keysOf r, s.buffered.rowOf r)) := by
  rw [map_mergeSort (s := fun a b => (keysOrder s.keys a.1 b.1).isLE), Buffered.map_refs]
  · exact sortedBy_mergeSort _
  · intro a ha b hb
    have hless : s.less b a = (keysOrder s.keys (s.buffered.keysOf b)
      (s.buffered.keysOf a) == .lt) :=
      lessKeys_eq (by simpa using hsortable) (by simp) (keyRow_of_mem_refs hkeys hb)
        (keyRow_of_mem_refs hkeys ha)
    have hswap : keysOrder s.keys (s.buffered.keysOf b) (s.buffered.keysOf a) =
        (keysOrder s.keys (s.buffered.keysOf a) (s.buffered.keysOf b)).swap :=
          Std.OrientedCmp.eq_swap
    rw [hless, hswap]
    cases keysOrder s.keys (s.buffered.keysOf a) (s.buffered.keysOf b) <;> rfl

section

variable (hemits : ∀ col ∈ schema, emits col.type = true)
  (hfits : ∀ b ∈ s.buffered, b.1.OfSchema schema)
include hemits hfits

theorem emits_outColumns {col : OutColumn RowRef}
    (hcol : col ∈ s.outColumns) : emits col.type = true := by
  unfold outColumns Buffered.chunk at hcol
  cases hbuffered : s.buffered with
  | nil => simp [hbuffered] at hcol
  | cons b bs =>
    obtain ⟨c, hc, rfl⟩ := mem_map.1 hcol
    rw [hbuffered] at hc
    have hlt : c < b.1.columns.length := mem_range.1 hc
    simp only [hbuffered, getD_cons_zero]
    exact (hfits b (hbuffered ▸ mem_cons_self)).emits_column hemits hlt

theorem rows_emitChunk_outColumns {slice : List RowRef}
    (hslice : ∀ r ∈ slice, r ∈ s.buffered.refs) :
    (emitChunk s.outColumns slice).rows = slice.map s.buffered.rowOf := by
  rw [rows_emitChunk fun col => emits_outColumns hemits hfits]
  refine map_congr_left fun r hr => ?_
  obtain ⟨hmem, -⟩ := Buffered.of_mem_refs (hslice r hr)
  have hproto : (s.buffered.chunk 0).1.columns.length = schema.length := by
    obtain ⟨b₀, _, hbs⟩ := exists_cons_of_ne_nil (ne_nil_of_mem hmem)
    rw [hbs]
    exact (hfits b₀ (hbs ▸ mem_cons_self)).columns.length_eq.symm
  rw [outColumns, Buffered.rowOf, Chunk.row_eq_range, map_map,
    ← (hfits _ hmem).columns.length_eq, hproto]
  rfl

end

/-- The rows are emitted in the order of `perm_`. -/
theorem pulls_perm (hconsumed : s.consumed = true) (hcursor : s.emitCursor = 0)
    (hrows : ∀ slice, (∀ r ∈ slice, r ∈ s.perm) →
      (emitChunk s.outColumns slice).rows = slice.map s.buffered.rowOf) :
    ∃ out, Pulls next s out ∧ (∀ c ∈ out, c.logicalSize ≤ chunkSize) ∧
      out.flatMap Chunk.rows = s.perm.map s.buffered.rowOf := by
  have hend : next { s with emitCursor := s.perm.length } =
      .ok (none, { s with emitCursor := s.perm.length }) := by
    simp [next, hconsumed]
    rfl
  have hstep : ∀ i < s.perm.length, next { s with emitCursor := i } =
      .ok (some (emitChunk s.outColumns ((s.perm.drop i).take (min chunkSize (s.perm.length - i)))),
        { s with emitCursor := i + min chunkSize (s.perm.length - i) }) := by
    intro i hi
    have hstop : min (i + chunkSize) s.perm.length =
      i + min chunkSize (s.perm.length - i) := by omega
    simp [next, hconsumed, Nat.not_le.mpr hi, hstop, emitSlice]
    rfl
  obtain ⟨out, hout, hsize, hemitted⟩ := pulls_slices
    (fun i => { s with emitCursor := i }) s.perm _ hstep hrows (.done hend) (Nat.zero_le _)
  rw [append_nil] at hout
  refine ⟨out, ?_, hsize, hemitted⟩
  rwa [← hcursor] at hout

/-- The operator after it has read its child. -/
def sorted (keys : List SortKey) (bs : Buffered) : SortOp :=
  let s : SortOp := ⟨keys, [], true, bs, [], 0⟩
  { s with perm := bs.refs.mergeSort fun l r => !s.less r l }

theorem next_openSort (hbs : buffer (keys.map (·.expr)) child = .ok bs) :
    next (openSort child keys) = next (sorted keys bs) := by
  unfold next
  simp only [openSort, consumeAndSort, hbs]
  rfl

/-- Three rows in two chunks; two of them have the same key. -/
def threeRows : List Chunk :=
  [⟨2, [⟨.int32, false, [.int32 2, .int32 1]⟩, ⟨.int32, false, [.int32 10, .int32 11]⟩], none⟩,
    ⟨1, [⟨.int32, false, [.int32 2]⟩, ⟨.int32, false, [.int32 12]⟩], none⟩]

def byFirst : List SortKey :=
  [⟨⟨.int32, fun c => .ok (c.column 0)⟩, .asc, .last⟩]

end SortOp
end NyxDb.Executor
