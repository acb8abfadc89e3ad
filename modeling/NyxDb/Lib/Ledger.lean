import Mathlib.Data.List.Basic

/-!
# Ledgers

A ledger lists entries in the order of their arrival together with a flag that says whether the
entry has been removed.  Entries are never dropped, so that the position of an entry is its id
for ever: `add` puts new entries at the end, `kill` sets flags, and `live` lists the entries that
are left with their ids.

A ledger that is kept in blocks, each with flags of its own, is given by `blocks`; the lemmas of
the last section say how the operations act on the blocks.
-/

namespace NyxDb

open List

/-- Entries in the order of their arrival, each with a flag that says that it was removed. -/
abbrev Ledger (α : Type) : Type :=
  List (α × Bool)

namespace Ledger

variable {α : Type}

def add (xs : List α) (g : Ledger α) : Ledger α :=
  g ++ xs.map fun x => (x, false)

/-- Remove the entries with the given ids, where the first entry has the id `start`. -/
def killFrom (start : Nat) (ids : List Nat) : Ledger α → Ledger α
  | [] => []
  | (x, dead) :: g => (x, dead || decide (start ∈ ids)) :: killFrom (start + 1) ids g

def kill (ids : List Nat) (g : Ledger α) : Ledger α :=
  killFrom 0 ids g

/-- The entries that are left with their ids, where the first entry has the id `start`. -/
def liveFrom (start : Nat) : Ledger α → List (Nat × α)
  | [] => []
  | (x, dead) :: g =>
    if dead then liveFrom (start + 1) g else (start, x) :: liveFrom (start + 1) g

def live (g : Ledger α) : List (Nat × α) :=
  liveFrom 0 g

theorem killFrom_append (start : Nat) (ids : List Nat) (g h : Ledger α) :
    killFrom start ids (g ++ h) = killFrom start ids g ++ killFrom (start + g.length) ids h := by
  induction g generalizing start with
  | nil => rfl
  | cons x g ih =>
    rw [cons_append, killFrom, killFrom, ih, cons_append, length_cons,
      Nat.add_assoc, Nat.add_comm 1]

theorem killFrom_nil (start : Nat) (g : Ledger α) : killFrom start [] g = g := by
  induction g generalizing start with
  | nil => rfl
  | cons x g ih =>
    rw [killFrom, ih, decide_eq_false not_mem_nil, Bool.or_false]

@[simp] theorem kill_nil (g : Ledger α) : kill [] g = g :=
  killFrom_nil 0 g

@[simp] theorem add_nil (g : Ledger α) : add [] g = g :=
  append_nil g

theorem length_killFrom (start : Nat) (ids : List Nat) (g : Ledger α) :
    (killFrom start ids g).length = g.length := by
  induction g generalizing start with
  | nil => rfl
  | cons x g ih => rw [killFrom, length_cons, ih, length_cons]

theorem length_kill (ids : List Nat) (g : Ledger α) : (kill ids g).length = g.length :=
  length_killFrom 0 ids g

theorem length_add (xs : List α) (g : Ledger α) : (add xs g).length = g.length + xs.length := by
  rw [add, length_append, length_map]

theorem liveFrom_append (start : Nat) (g h : Ledger α) :
    liveFrom start (g ++ h) = liveFrom start g ++ liveFrom (start + g.length) h := by
  induction g generalizing start with
  | nil => rfl
  | cons x g ih =>
    obtain ⟨x, dead⟩ := x
    rw [cons_append, liveFrom, ih, Nat.add_assoc, Nat.add_comm 1]
    cases dead with
    | true => rfl
    | false => rfl

/-! ## What is left -/

/-- The entries that are left, without their ids. -/
def values (g : Ledger α) : List α :=
  (g.filter fun x => !x.2).map Prod.fst

theorem values_append (g h : Ledger α) : values (g ++ h) = values g ++ values h := by
  rw [values, filter_append, map_append]
  rfl

theorem snd_liveFrom (start : Nat) (g : Ledger α) : (liveFrom start g).map Prod.snd = values g := by
  induction g generalizing start with
  | nil => rfl
  | cons x g ih =>
    obtain ⟨x, dead⟩ := x
    rw [liveFrom]
    cases dead with
    | true =>
      rw [if_pos rfl, ih]
      rfl
    | false =>
      rw [if_neg Bool.false_ne_true, map_cons, ih]
      rfl

/-- Nothing of a ledger without removals is missing. -/
theorem values_clear (xs : List α) : values (xs.map fun x => (x, false)) = xs := by
  induction xs with
  | nil => rfl
  | cons x xs ih =>
    exact congrArg (cons x) ih

theorem values_add (xs : List α) (g : Ledger α) : values (add xs g) = values g ++ xs := by
  rw [add, values_append, values_clear]

/-- Remove, of the entries that are left, those that the list says, in their order. -/
def strike : List Bool → Ledger α → Ledger α
  | _, [] => []
  | mask, (x, true) :: g => (x, true) :: strike mask g
  | [], (x, false) :: g => (x, false) :: strike [] g
  | b :: mask, (x, false) :: g => (x, b) :: strike mask g

theorem values_strike {p : Nat × α → Bool} {xs : List (Nat × α)} {g : Ledger α}
    (h : values g = xs.map Prod.snd) :
    values (strike (xs.map p) g) = (xs.filter fun x => !p x).map Prod.snd := by
  induction g generalizing xs with
  | nil =>
    rw [map_eq_nil_iff.mp h.symm]
    rfl
  | cons e g ih =>
    obtain ⟨y, dead⟩ := e
    cases dead with
    | true =>
      -- the entry is gone already and takes nothing from the list
      exact ih h
    | false =>
      cases xs with
      | nil => cases h
      | cons x xs =>
        obtain ⟨rfl, hvalues⟩ := cons.inj (show y :: values g = x.2 :: xs.map Prod.snd from h)
        rw [map_cons]
        cases hp : p x with
        | true =>
          rw [filter_cons_of_neg (by simp [hp]), ← ih hvalues]
          rfl
        | false =>
          rw [filter_cons_of_pos (by simp [hp]), map_cons, ← ih hvalues]
          rfl

/-! ## One block -/

/-- Entries with the flags `flag i`, `flag (i + 1)`, … -/
def flagged (flag : Nat → Bool) (i : Nat) : List α → Ledger α
  | [] => []
  | x :: xs => (x, flag i) :: flagged flag (i + 1) xs

theorem length_flagged (flag : Nat → Bool) (i : Nat) (xs : List α) :
    (flagged flag i xs).length = xs.length := by
  induction xs generalizing i with
  | nil => rfl
  | cons x xs ih => exact congrArg (· + 1) (ih (i + 1))

theorem flagged_append (flag : Nat → Bool) (i : Nat) (xs ys : List α) :
    flagged flag i (xs ++ ys) = flagged flag i xs ++ flagged flag (i + xs.length) ys := by
  induction xs generalizing i with
  | nil => rfl
  | cons x xs ih =>
    rw [cons_append, flagged, flagged, ih, cons_append, length_cons, Nat.add_assoc, Nat.add_comm 1]

variable {i k : Nat} {xs : List α} {flag : Nat → Nat → Bool} {xss : List (List α)}
  {flag' : Nat → Bool}

theorem flagged_shift {flag : Nat → Bool} {i' : Nat}
    (h : ∀ l < xs.length, flag (i + l) = flag' (i' + l)) :
    flagged flag i xs = flagged flag' i' xs := by
  induction xs generalizing i i' with
  | nil => rfl
  | cons x xs ih =>
    have hfirst : flag i = flag' i' := h 0 (Nat.zero_lt_succ _)
    rw [flagged, flagged, hfirst, ih]
    intro l hl
    rw [Nat.add_assoc, Nat.add_assoc, Nat.add_comm 1]
    exact h (l + 1) (Nat.succ_lt_succ hl)

theorem flagged_congr {flag : Nat → Bool} (h : ∀ l, i ≤ l → l < i + xs.length → flag l = flag' l) :
    flagged flag i xs = flagged flag' i xs :=
  flagged_shift fun l hl => h (i + l) (Nat.le_add_right i l) (Nat.add_lt_add_left hl i)

theorem flagged_of_clear {flag : Nat → Bool} (h : ∀ l, i ≤ l → flag l = false) (xs : List α) :
    flagged flag i xs = xs.map fun x => (x, false) := by
  induction xs generalizing i with
  | nil => rfl
  | cons x xs ih =>
    rw [flagged, map_cons, h i (Nat.le_refl i), ih fun l hl => h l (by omega)]

theorem killFrom_flagged (start : Nat) (ids : List Nat) (flag : Nat → Bool) (i : Nat)
    (xs : List α) : killFrom (start + i) ids (flagged flag i xs) =
      flagged (fun l => flag l || decide (start + l ∈ ids)) i xs := by
  induction xs generalizing i with
  | nil => rfl
  | cons x xs ih => rw [flagged, killFrom, flagged, Nat.add_assoc, ih]

theorem liveFrom_flagged (start : Nat) (flag : Nat → Bool) (i : Nat) (xs : List α) :
    liveFrom (start + i) (flagged flag i xs) =
      ((xs.zipIdx i).filter fun x => !flag x.2).map fun x => (start + x.2, x.1) := by
  induction xs generalizing i with
  | nil => rfl
  | cons x xs ih =>
    rw [flagged, liveFrom, Nat.add_assoc, ih, zipIdx_cons]
    cases hflag : flag i with
    | true =>
      rw [if_pos rfl, filter_cons_of_neg (by simp [hflag])]
    | false =>
      rw [if_neg Bool.false_ne_true, filter_cons_of_pos (by simp [hflag]), map_cons]

theorem values_flagged (flag : Nat → Bool) (i : Nat) (xs : List α) :
    values (flagged flag i xs) = ((xs.zipIdx i).filter fun x => !flag x.2).map Prod.fst := by
  rw [← snd_liveFrom (0 + i), liveFrom_flagged, map_map]
  rfl

/-- A set flag takes an entry away. -/
theorem length_values_flagged_lt {flag : Nat → Bool} {l : Nat} (hl : i ≤ l)
    (hlt : l < i + xs.length) (hflag : flag l = true) :
    (values (flagged flag i xs)).length < xs.length := by
  have hle : ∀ j (ys : List α), (values (flagged flag j ys)).length ≤ ys.length := by
    intro j ys
    have h := length_filter_le (fun x : α × Bool => !x.2) (flagged flag j ys)
    rwa [length_flagged, ← length_map (f := Prod.fst)] at h
  induction xs generalizing i with
  | nil =>
    rw [length_nil] at hlt
    omega
  | cons x xs ih =>
    rw [length_cons] at hlt ⊢
    rcases Nat.eq_or_lt_of_le hl with rfl | _
    · -- the entry itself is gone
      have hrest := hle (i + 1) xs
      rw [flagged, hflag]
      exact Nat.lt_succ_of_le hrest
    · have hrest := ih (i := i + 1) (by omega) (by omega)
      rw [flagged]
      cases flag i with
      | true =>
        exact Nat.lt_succ_of_lt hrest
      | false =>
        exact Nat.succ_lt_succ hrest

/-! ## Several blocks -/

/-- The number of entries before block `k`. -/
def before (blocks : List (List α)) (k : Nat) : Nat :=
  (blocks.take k).flatten.length

/-- The ledger of the blocks from block `k` on. -/
def blocks (flag : Nat → Nat → Bool) (k : Nat) : List (List α) → Ledger α
  | [] => []
  | xs :: xss => flagged (flag k) 0 xs ++ blocks flag (k + 1) xss

theorem before_cons_succ (xs : List α) (xss : List (List α)) (k : Nat) :
    before (xs :: xss) (k + 1) = xs.length + before xss k :=
  length_append

section

variable (flag : Nat → Nat → Bool)

theorem blocks_append_blocks (k : Nat) (xss yss : List (List α)) :
    blocks flag k (xss ++ yss) = blocks flag k xss ++ blocks flag (k + xss.length) yss := by
  induction xss generalizing k with
  | nil => rfl
  | cons xs xss ih =>
    rw [cons_append, blocks, blocks, ih, append_assoc, length_cons, Nat.add_assoc, Nat.add_comm 1]

theorem blocks_append (k : Nat) (xss : List (List α)) (xs : List α) :
    blocks flag k (xss ++ [xs]) = blocks flag k xss ++ flagged (flag (k + xss.length)) 0 xs := by
  rw [blocks_append_blocks]
  exact congrArg (_ ++ ·) (append_nil _)

theorem length_blocks (k : Nat) (xss : List (List α)) :
    (blocks flag k xss).length = xss.flatten.length := by
  induction xss generalizing k with
  | nil => rfl
  | cons xs xss ih =>
    rw [blocks, length_append, length_flagged, ih, flatten_cons, length_append]

end

theorem blocks_congr {flag' : Nat → Nat → Bool} {k' : Nat}
    (h : ∀ j xs l, xss[j]? = some xs → l < xs.length → flag (k + j) l = flag' (k' + j) l) :
    blocks flag k xss = blocks flag' k' xss := by
  induction xss generalizing k k' with
  | nil => rfl
  | cons xs xss ih =>
    have hfirst : flagged (flag k) 0 xs = flagged (flag' k') 0 xs :=
      flagged_congr fun l _ hl => h 0 xs l rfl (by omega)
    rw [blocks, blocks, hfirst, ih]
    intro j ys l hj hl
    rw [Nat.add_assoc, Nat.add_assoc, Nat.add_comm 1]
    exact h (j + 1) ys l (by simpa using hj) hl

/-- Blocks as one block, whose flags are those of the blocks one after the other. -/
theorem flagged_flatten (h : ∀ j xs l, xss[j]? = some xs → l < xs.length →
      flag' (i + before xss j + l) = flag (k + j) l) :
    flagged flag' i xss.flatten = blocks flag k xss := by
  induction xss generalizing i k with
  | nil => rfl
  | cons xs xss ih =>
    have hfirst : flagged flag' i xs = flagged (flag k) 0 xs := by
      apply flagged_shift
      intro l hl
      rw [Nat.zero_add]
      exact h 0 xs l rfl hl
    rw [flatten_cons, flagged_append, blocks, hfirst, ih]
    intro j ys l hj hl
    have hj' := h (j + 1) ys l (by simpa using hj) hl
    rw [before_cons_succ, ← Nat.add_assoc i] at hj'
    rw [Nat.add_assoc k, Nat.add_comm 1]
    exact hj'

/-- Entries are removed block by block. -/
theorem killFrom_blocks {flag' : Nat → Nat → Bool} {ids : List Nat} {start : Nat}
    (h : ∀ j xs l, xss[j]? = some xs → l < xs.length →
      flag' (k + j) l = (flag (k + j) l || decide (start + before xss j + l ∈ ids))) :
    killFrom start ids (blocks flag k xss) = blocks flag' k xss := by
  induction xss generalizing start k with
  | nil => rfl
  | cons xs xss ih =>
    have hfirst : killFrom start ids (flagged (flag k) 0 xs) = flagged (flag' k) 0 xs := by
      have hkill := killFrom_flagged start ids (flag k) 0 xs
      rw [Nat.add_zero] at hkill
      rw [hkill]
      exact flagged_congr fun l _ hl => (h 0 xs l rfl (by omega)).symm
    rw [blocks, blocks, killFrom_append, hfirst, length_flagged, ih]
    intro j ys l hj hl
    have hj' := h (j + 1) ys l (by simpa using hj) hl
    rw [before_cons_succ, ← Nat.add_assoc start] at hj'
    rw [Nat.add_assoc k, Nat.add_comm 1]
    exact hj'

/-- The entries that are left, block by block. -/
theorem liveFrom_blocks {start : Nat} {parts : List (List (Nat × α))}
    (hlen : parts.length = xss.length) (h : ∀ j xs part, xss[j]? = some xs → parts[j]? = some part →
      part = liveFrom (start + before xss j) (flagged (flag (k + j)) 0 xs)) :
    liveFrom start (blocks flag k xss) = parts.flatten := by
  induction xss generalizing start k parts with
  | nil =>
    rw [length_eq_zero_iff.mp hlen]
    rfl
  | cons xs xss ih =>
    cases parts with
    | nil => cases hlen
    | cons part parts =>
      have hfirst : part = liveFrom start (flagged (flag k) 0 xs) := h 0 xs part rfl rfl
      have hrest : liveFrom (start + xs.length) (blocks flag (k + 1) xss) = parts.flatten := by
        apply ih (Nat.succ.inj hlen)
        intro j ys q hj hq
        have hj' := h (j + 1) ys q (by simpa using hj) (by simpa using hq)
        rw [before_cons_succ, ← Nat.add_assoc start] at hj'
        rw [Nat.add_assoc k, Nat.add_comm 1]
        exact hj'
      rw [blocks, liveFrom_append, length_flagged, flatten_cons, hfirst, hrest]

/-- New entries go to the last block, whose flags are clear behind its entries. -/
theorem blocks_add (hclear : ∀ l, xs.length ≤ l → flag xss.length l = false) (ys : List α) :
    blocks flag 0 (xss ++ [xs ++ ys]) = add ys (blocks flag 0 (xss ++ [xs])) := by
  rw [blocks_append, blocks_append, Nat.zero_add, flagged_append, Nat.zero_add,
    flagged_of_clear hclear, add, append_assoc]

end Ledger
end NyxDb
