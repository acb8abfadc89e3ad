import NyxDb.Lib.Bytes
import Mathlib.Data.List.Induction

/-!
# Byte streams of frames

A receiver keeps the bytes that have come in and takes whole frames off their front.  `cut` takes
one frame; it is only asked that it uses at least one byte, and that bytes that come later do not
change a frame that is complete (`Cuts`).  Then the frames of a stream do not depend on the pieces
in which it arrives (`frames_append`), and a machine that handles the frames as they become
complete ends as if it had got the stream in one piece (`feedAll_eq`).
-/

namespace NyxDb.Framing

variable {F S : Type}

/-- What is asked of the function that takes a frame off the front. -/
structure Cuts (cut : Bytes → Option (F × Bytes)) : Prop where
  shrinks : ∀ {bs f rest}, cut bs = some (f, rest) → rest.length < bs.length
  keeps : ∀ {bs f rest}, cut bs = some (f, rest) → ∀ more, cut (bs ++ more) = some (f, rest ++ more)

/-- At most `n` frames, and what is left. -/
def split (cut : Bytes → Option (F × Bytes)) : Nat → Bytes → List F × Bytes
  | 0, bs => ([], bs)
  | n + 1, bs =>
    match cut bs with
    | none => ([], bs)
    | some (f, rest) => (f :: (split cut n rest).1, (split cut n rest).2)

/-- All frames that are complete, and what is left. -/
def frames (cut : Bytes → Option (F × Bytes)) (bs : Bytes) : List F × Bytes :=
  split cut bs.length bs

variable {cut : Bytes → Option (F × Bytes)} {bs : Bytes}

theorem split_of_none (h : cut bs = none) (n : Nat) : split cut n bs = ([], bs) := by
  cases n with
  | zero => rfl
  | succ n => rw [split, h]

/-- More frames than bytes are not found. -/
theorem Cuts.split_congr (hcut : Cuts cut) {n m : Nat} (hn : bs.length ≤ n)
    (hm : bs.length ≤ m) : split cut n bs = split cut m bs := by
  induction n generalizing m bs with
  | zero =>
    have hnone : cut bs = none := by
      cases hbs : cut bs with
      | none => rfl
      | some p =>
        have := hcut.shrinks hbs
        omega
    rw [split_of_none hnone, split_of_none hnone]
  | succ n ih =>
    cases hbs : cut bs with
    | none => rw [split_of_none hbs, split_of_none hbs]
    | some p =>
      obtain ⟨f, rest⟩ := p
      have hlt := hcut.shrinks hbs
      obtain ⟨k, rfl⟩ := Nat.exists_eq_succ_of_ne_zero (show m ≠ 0 by omega)
      rw [split, split, hbs]
      simp [ih (show rest.length ≤ n by omega) (show rest.length ≤ k by omega)]

theorem frames_of_none (h : cut bs = none) : frames cut bs = ([], bs) :=
  split_of_none h _

theorem Cuts.frames_of_some (hcut : Cuts cut) {rest : Bytes} {f : F} (h : cut bs = some (f, rest)) :
    frames cut bs = (f :: (frames cut rest).1, (frames cut rest).2) := by
  have hlt := hcut.shrinks h
  obtain ⟨n, hn⟩ := Nat.exists_eq_succ_of_ne_zero (show bs.length ≠ 0 by omega)
  unfold frames
  rw [hn, split, h]
  simp [hcut.split_congr (show rest.length ≤ n by omega) (Nat.le_refl _)]

/-- **The frames of a stream in two pieces**: those of the first piece, then those of what it left
together with the second. -/
theorem Cuts.frames_append (hcut : Cuts cut) (bs more : Bytes) : frames cut (bs ++ more) =
      ((frames cut bs).1 ++ (frames cut ((frames cut bs).2 ++ more)).1,
        (frames cut ((frames cut bs).2 ++ more)).2) := by
  induction hlen : bs.length using Nat.strongRecOn generalizing bs with
  | ind n ih =>
    cases h : cut bs with
    | none =>
      rw [frames_of_none h]
      rfl
    | some p =>
      obtain ⟨f, rest⟩ := p
      rw [hcut.frames_of_some h, hcut.frames_of_some (hcut.keeps h more),
        ih rest.length (hlen ▸ hcut.shrinks h) rest rfl]
      rfl

/-! ## Machines over frames -/

/-- A machine gets some more bytes. -/
def feed (cut : Bytes → Option (F × Bytes)) (handle : S → F → S) (x : S × Bytes) (chunk : Bytes) :
    S × Bytes :=
  ((frames cut (x.2 ++ chunk)).1.foldl handle x.1, (frames cut (x.2 ++ chunk)).2)

/-- **The pieces of a stream do not matter.** -/
theorem Cuts.feedAll_eq (hcut : Cuts cut) (handle : S → F → S) (s : S) (chunks : List Bytes) :
    chunks.foldl (feed cut handle) (s, []) =
      ((frames cut chunks.flatten).1.foldl handle s, (frames cut chunks.flatten).2) := by
  induction chunks using List.reverseRecOn with
  | nil => rfl
  | append_singleton chunks chunk ih =>
    rw [List.foldl_append, ih, List.flatten_append, List.flatten_singleton, hcut.frames_append,
      List.foldl_append]
    rfl

end NyxDb.Framing
