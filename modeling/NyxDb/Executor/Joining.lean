import NyxDb.Executor.Chunk
import NyxDb.Lib.Pull

/-!
# Operators that emit slices

Sort and both joins select rows and emit them in slices of at most `chunkSize`.  The joins read one
child first; the other is read chunk by chunk, and the pairs of a chunk are emitted before the next
one is read.
-/

namespace NyxDb.Executor

open List

variable {σ ρ : Type}

theorem slice_ne_nil {xs : List ρ} {i : Nat} (hi : i < xs.length) :
    (xs.drop i).take (min chunkSize (xs.length - i)) ≠ [] ∧
      (xs.drop i).take (min chunkSize (xs.length - i)) <:+: xs := by
  have hpos : 0 < chunkSize := by decide
  refine ⟨ne_nil_of_length_pos ?_, ( take_prefix _ _).isInfix.trans (drop_suffix _ _).isInfix⟩
  rw [length_take, length_drop]
  omega

/-- The rows that are left after the cursor `i` are emitted in slices, then what follows. -/
theorem pulls_slices {next : σ → Except String (Option Chunk × σ)} (state : Nat → σ)
    (selected : List ρ) (emit : List ρ → Chunk) {rowOf : ρ → Row}
    (hstep : ∀ i < selected.length, next (state i) =
      .ok (some (emit ((selected.drop i).take (min chunkSize (selected.length - i)))),
        state (i + min chunkSize (selected.length - i))))
    (hrows : ∀ slice, (∀ p ∈ slice, p ∈ selected) → (emit slice).rows = slice.map rowOf)
    {rest : List Chunk} (hrest : Pulls next (state selected.length) rest) {i : Nat}
    (hi : i ≤ selected.length) :
    ∃ out, Pulls next (state i) (out ++ rest) ∧ (∀ c ∈ out, c.logicalSize ≤ chunkSize) ∧
      out.flatMap Chunk.rows = (selected.drop i).map rowOf := by
  induction hn : selected.length - i using Nat.strong_induction_on generalizing i with
  | _ n ih =>
    rcases Nat.eq_or_lt_of_le hi with rfl | hlt
    · exact ⟨[], hrest, by simp, by simp⟩
    · have hpos : 0 < chunkSize := by decide
      obtain ⟨out, hout, hsize, hemitted⟩ := ih _ (by omega)
        (i := i + min chunkSize (selected.length - i)) (by omega) rfl
      have hslice := hrows ((selected.drop i).take (min chunkSize (selected.length - i)))
        fun p hp => mem_of_mem_drop (mem_of_mem_take hp)
      refine ⟨_ :: out, .more (hstep i hlt) hout, forall_mem_cons.2 ⟨?_, hsize⟩, ?_⟩
      · rw [← Chunk.length_rows, hslice, length_map, length_take]
        omega
      · rw [flatMap_cons, hslice, hemitted, ← drop_drop, ← map_append, take_append_drop]

/-- What the two joins do in the same way. -/
structure Joining (σ ρ : Type) where
  prepare : σ → Except String σ
  load : σ → Chunk → List Chunk → Except String σ
  advance : σ → List Chunk → Except String (Option Chunk × σ)
  next : σ → Except String (Option Chunk × σ)
  child : σ → List Chunk
  exhausted : σ → Bool
  pairs : σ → List ρ
  cursor : σ → Nat
  move : σ → Nat → σ
  outColumns : σ → List (OutColumn ρ)

namespace Joining

/-- The next slice of the pairs. -/
def slice (op : Joining σ ρ) (s : σ) : Option Chunk × σ :=
  let n := min chunkSize ((op.pairs s).length - op.cursor s)
  (some (emitChunk (op.outColumns s) (((op.pairs s).drop (op.cursor s)).take n)),
    op.move s (op.cursor s + n))

/-- The loops of the code. -/
structure Loops (op : Joining σ ρ) : Prop where
  advance_nil : ∀ s, ∃ s', op.advance s [] = .ok (none, s')
  advance_cons : ∀ s c cs, op.advance s (c :: cs) =
    if c.logicalSize = 0 then op.advance s cs
    else op.load s c.materialize cs >>= fun s =>
      if (op.pairs s).isEmpty then op.advance s cs else .ok (op.slice s)
  next : ∀ s, op.next s = op.prepare s >>= fun s =>
    if op.cursor s < (op.pairs s).length then .ok (op.slice s)
    else if op.exhausted s then .ok (none, s)
    else op.advance s (op.child s)
  load : ∀ s c cs s', op.load s c cs = .ok s' →
    op.child s' = cs ∧ op.cursor s' = 0 ∧ op.move s' 0 = s'
  move : ∀ s i, op.child (op.move s i) = op.child s ∧ op.pairs (op.move s i) = op.pairs s ∧
    op.cursor (op.move s i) = i ∧ op.outColumns (op.move s i) = op.outColumns s ∧
    ∀ k, op.move (op.move s i) k = op.move s k

variable {op : Joining σ ρ} {s s' : σ} {c : Chunk} {cs : List Chunk}

theorem Loops.of_slice (h : Loops op) (hlt : op.cursor s < (op.pairs s).length)
    (hslice : op.slice s = (some c, s')) :
    ∃ rows, rows ≠ [] ∧ rows <:+: op.pairs s' ∧ c = emitChunk (op.outColumns s') rows := by
  obtain ⟨-, hpairs, -, hcols, -⟩ := h.move s (op.cursor s +
    min chunkSize ((op.pairs s).length - op.cursor s))
  cases hslice
  obtain ⟨hne, hrows⟩ := slice_ne_nil hlt
  rw [hpairs, hcols]
  exact ⟨_, hne, hrows, rfl⟩

theorem Loops.slices_advance (h : Loops op) (hnext : op.advance s cs = .ok (some c, s')) :
    ∃ rows, rows ≠ [] ∧ rows <:+: op.pairs s' ∧ c = emitChunk (op.outColumns s') rows := by
  induction cs generalizing s with
  | nil =>
    obtain ⟨s₁, hnil⟩ := h.advance_nil s
    cases hnil.symm.trans hnext
  | cons c' cs ih =>
    rw [h.advance_cons] at hnext
    split at hnext
    · exact ih hnext
    · obtain ⟨s₁, hload, hnext⟩ := except_bind_eq_ok.mp hnext
      split at hnext
      · exact ih hnext
      · next hpairs =>
        refine h.of_slice ?_ (Except.ok.inj hnext)
        rw [(h.load _ _ _ _ hload).2.1]
        exact length_pos_of_ne_nil (mt isEmpty_iff.mpr hpairs)

/-- Every chunk is a slice of the pairs. -/
theorem Loops.slices (h : Loops op) (hnext : op.next s = .ok (some c, s')) :
    ∃ rows, rows ≠ [] ∧ rows <:+: op.pairs s' ∧ c = emitChunk (op.outColumns s') rows := by
  rw [h.next] at hnext
  obtain ⟨_, -, hnext⟩ := except_bind_eq_ok.mp hnext
  split at hnext
  · next hlt => exact h.of_slice hlt (Except.ok.inj hnext)
  · split at hnext
    · cases hnext
    · exact h.slices_advance hnext

/-! ## All rows of the chunks -/

/-- The side that is read first is there, and the pairs of a chunk of the other side stand for the
rows `rowsOf` says. -/
structure Serves (op : Joining σ ρ) (Ready : σ → Prop) (good : Chunk → Prop)
    (rowsOf : Chunk → List Row) : Prop where
  prepare : ∀ s, Ready s → op.prepare s = .ok s ∧ op.exhausted s = false
  move : ∀ s i, Ready s → Ready (op.move s i)
  empty : ∀ c, c.logicalSize = 0 → rowsOf c = []
  load : ∀ s c cs, Ready s → good c → c.logicalSize ≠ 0 → ∃ s' rowOf,
    op.load s c.materialize cs = .ok s' ∧ Ready s' ∧
    (∀ slice, (∀ p ∈ slice, p ∈ op.pairs s') →
      (emitChunk (op.outColumns s') slice).rows = slice.map rowOf) ∧
    ((op.pairs s').map rowOf).Perm (rowsOf c)

variable {Ready : σ → Prop} {good : Chunk → Prop} {rowsOf : Chunk → List Row}

section

variable (hs : Serves op Ready good rowsOf) (h : Loops op)
include hs h

section

variable (hready : Ready s)
include hready

theorem Serves.next_of_lt
    (hlt : op.cursor s < (op.pairs s).length) : op.next s = .ok (op.slice s) := by
  rw [h.next, (hs.prepare s hready).1, except_ok_bind, if_pos hlt]

/-- When all pairs are emitted the next chunk is read. -/
theorem Serves.next_of_done
    (hdone : op.cursor s = (op.pairs s).length) : op.next s = op.advance s (op.child s) := by
  obtain ⟨hprepare, hexhausted⟩ := hs.prepare s hready
  rw [h.next, hprepare, except_ok_bind, if_neg (by omega), hexhausted]
  rfl

/-- The pairs of a chunk that was read, and then what follows. -/
theorem Serves.pulls_pairs {rowOf : ρ → Row} (hrows : ∀ slice, (∀ p ∈ slice, p ∈ op.pairs s) →
      (emitChunk (op.outColumns s) slice).rows = slice.map rowOf) {rest : List Chunk}
    (hrest : Pulls op.next (op.move s (op.pairs s).length) rest) :
    ∃ out, Pulls op.next (op.move s 0) (out ++ rest) ∧
      out.flatMap Chunk.rows = (op.pairs s).map rowOf := by
  obtain ⟨out, hout, -, hemitted⟩ := pulls_slices (op.move s) (op.pairs s)
    (emitChunk (op.outColumns s)) (fun i hi => by
      obtain ⟨-, hpairs, hcursor, hcols, hmove⟩ := h.move s i
      rw [hs.next_of_lt h (hs.move s i hready) (by rw [hpairs, hcursor]; exact hi), slice, hpairs,
        hcursor, hcols, hmove])
    hrows hrest (Nat.zero_le _)
  exact ⟨out, hout, hemitted⟩

/-- **All chunks** that are left give the rows of each of them. -/
theorem Serves.yields (hgood : ∀ c ∈ cs, good c) : ∃ out, Yields op.next (op.advance s cs) out ∧
      (out.flatMap Chunk.rows).Perm (cs.flatMap rowsOf) := by
  induction cs generalizing s with
  | nil =>
    obtain ⟨s', hnil⟩ := h.advance_nil s
    exact ⟨[], hnil ▸ .done, .refl _⟩
  | cons c cs ih =>
    obtain ⟨hc, hcs⟩ := forall_mem_cons.1 hgood
    rw [h.advance_cons, flatMap_cons]
    by_cases hsize : c.logicalSize = 0
    · rw [if_pos hsize, hs.empty c hsize]
      exact ih hready hcs
    obtain ⟨s', _, hload, hready', hrows, hperm⟩ := hs.load s c cs hready hc hsize
    obtain ⟨hchild, hcursor, hmove⟩ := h.load _ _ _ _ hload
    rw [if_neg hsize, hload, except_ok_bind]
    split
    · next hnone =>
      rw [isEmpty_iff.mp hnone] at hperm
      rw [hperm.symm.eq_nil]
      exact ih hready' hcs
    · next hpairs =>
      -- the slices of the chunk, then the chunks after it
      obtain ⟨hchild', hpairs', hcursor', -⟩ := h.move s' (op.pairs s').length
      have hready'' := hs.move s' (op.pairs s').length hready'
      obtain ⟨rest, hrest, hperm'⟩ := ih hready'' hcs
      rw [← hchild, ← hchild', ← hs.next_of_done h hready'' (by rw [hcursor', hpairs']),
        yields_iff] at hrest
      obtain ⟨out, hout, hemitted⟩ := hs.pulls_pairs h hready' hrows hrest
      rw [hmove] at hout
      refine ⟨out ++ rest, ?_, ?_⟩
      · rw [← hs.next_of_lt h hready' (by
          rw [hcursor]
          exact length_pos_of_ne_nil (mt isEmpty_iff.mpr hpairs)), yields_iff]
        exact hout
      · rw [flatMap_append, hemitted]
        exact hperm.append hperm'

end

/-- The whole operator. -/
theorem Serves.pulls (s : σ) (hprepare : op.prepare s = .ok s') (hready : Ready s')
    (hdone : op.cursor s' = (op.pairs s').length) (hgood : ∀ c ∈ op.child s', good c) :
    ∃ out, Pulls op.next s out ∧ (out.flatMap Chunk.rows).Perm ((op.child s').flatMap rowsOf) := by
  obtain ⟨out, hout, hperm⟩ := hs.yields h hready hgood
  refine ⟨out, yields_iff.mp ?_, hperm⟩
  rw [h.next, hprepare, except_ok_bind, if_neg (by omega), (hs.prepare s' hready).2]
  exact hout

end

end Joining
end NyxDb.Executor
