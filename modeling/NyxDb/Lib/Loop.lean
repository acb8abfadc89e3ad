import Mathlib.Logic.Relation

/-!
# Loops that run until their body breaks

The body of a `while (true)` gives the next state, or `none` when it breaks.  `run` is the loop
with a bound on the number of turns; it gives nothing when the bound is reached.  `Halts` says that
some bound is enough.  What one turn of the loop does to termination, and to a property of every
state the loop goes through, is said by `halts_of_some` and `holds_of_some`.
-/

namespace NyxDb.Loop

variable {S : Type} (body : S → Option S)

/-- The state at the break, if the loop breaks in less than the given number of turns. -/
def run : Nat → S → Option S
  | 0, _ => none
  | n + 1, s =>
    match body s with
    | none => some s
    | some s' => run n s'

/-- The loop breaks at some time. -/
def Halts (s : S) : Prop :=
  ∃ n t, run body n s = some t

/-- The loop goes through the second state when it starts in the first. -/
def Reaches : S → S → Prop :=
  Relation.ReflTransGen fun s s' => body s = some s'

/-- The property holds in every state the loop goes through. -/
def Holds (P : S → Prop) (s : S) : Prop :=
  ∀ t, Reaches body s t → P t

variable {body} {s : S}

theorem run_of_none (h : body s = none) (n : Nat) : run body (n + 1) s = some s := by
  rw [run, h]

theorem run_of_some {s' : S} (h : body s = some s') (n : Nat) :
    run body (n + 1) s = run body n s' := by
  rw [run, h]

/-- More turns than needed change nothing. -/
theorem run_mono {n m : Nat} {t : S} (h : run body n s = some t) (hle : n ≤ m) :
    run body m s = some t := by
  induction n generalizing m s with
  | zero => cases h
  | succ n ih =>
    obtain ⟨k, rfl⟩ := Nat.exists_eq_succ_of_ne_zero (show m ≠ 0 by omega)
    cases hs : body s with
    | none =>
      rw [run_of_none hs] at h ⊢
      exact h
    | some s' =>
      rw [run_of_some hs] at h ⊢
      exact ih h (by omega)

theorem halts_of_some {s' : S} (h : body s = some s') : Halts body s ↔ Halts body s' := by
  constructor
  · rintro ⟨n, t, ht⟩
    cases n with
    | zero => cases ht
    | succ n => exact ⟨n, t, by rwa [run_of_some h] at ht⟩
  · rintro ⟨n, t, ht⟩
    exact ⟨n + 1, t, by rwa [run_of_some h]⟩

/-- A loop that never leaves a set of states in which the body does not break does not stop. -/
theorem not_halts_of_invariant {I : S → Prop} (hI : ∀ s, I s → ∃ s', body s = some s' ∧ I s')
    (hs : I s) : ¬ Halts body s := by
  rintro ⟨n, t, ht⟩
  induction n generalizing s with
  | zero => cases ht
  | succ n ih =>
    obtain ⟨s', hs', hI'⟩ := hI s hs
    rw [run_of_some hs'] at ht
    exact ih hI' ht

theorem holds_of_none {P : S → Prop} (h : body s = none) : Holds body P s ↔ P s := by
  constructor
  · exact fun hP => hP s .refl
  · intro hs t ht
    rcases Relation.ReflTransGen.cases_head ht with rfl | ⟨_, hs', -⟩
    · exact hs
    · rw [h] at hs'
      cases hs'

theorem holds_of_some {P : S → Prop} {s' : S} (h : body s = some s') :
    Holds body P s ↔ P s ∧ Holds body P s' := by
  constructor
  · exact fun hP => ⟨hP s .refl, fun t ht => hP t (.head h ht)⟩
  · rintro ⟨hs, hs'⟩ t ht
    rcases Relation.ReflTransGen.cases_head ht with rfl | ⟨_, hs'', hreach⟩
    · exact hs
    · rw [h, Option.some.injEq] at hs''
      subst hs''
      exact hs' t hreach

end NyxDb.Loop
