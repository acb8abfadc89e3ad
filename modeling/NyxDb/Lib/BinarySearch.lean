import Mathlib.Data.List.Basic

/-!
# Binary search for a partition point

The loop `while (lo < hi)` that halves `[lo, hi)` by a test at the middle.  On a test that is
monotone it ends at the point where the test changes; on any test it ends inside the interval.
-/

namespace NyxDb

/-- Halve `[lo, hi)`: to the right of `mid` where the test holds, to its left where it fails. -/
def bsearch (p : Nat → Bool) : Nat → Nat → Nat → Nat
  | 0, lo, _ => lo
  | fuel + 1, lo, hi =>
    if lo < hi then
      let mid := (lo + hi) / 2
      if p mid then bsearch p fuel (mid + 1) hi else bsearch p fuel lo mid
    else lo

theorem bsearch_mem (p : Nat → Bool) (fuel lo hi : Nat) (h : lo ≤ hi) :
    lo ≤ bsearch p fuel lo hi ∧ bsearch p fuel lo hi ≤ hi := by
  induction fuel generalizing lo hi with
  | zero => exact ⟨Nat.le_refl _, h⟩
  | succ fuel ih =>
    simp only [bsearch]
    by_cases hlt : lo < hi
    · by_cases hmid : p ((lo + hi) / 2) = true
      · have hrec := ih ((lo + hi) / 2 + 1) hi (by omega)
        rw [if_pos hlt, if_pos hmid]
        omega
      · have hrec := ih lo ((lo + hi) / 2) (by omega)
        rw [if_pos hlt, if_neg hmid]
        omega
    · simp only [hlt, if_false]
      exact ⟨Nat.le_refl _, h⟩

/-- With a test that never holds after it has failed, the search ends where it first fails. -/
theorem bsearch_spec {p : Nat → Bool} {n : Nat}
    (hp : ∀ i j, i ≤ j → j < n → p j = true → p i = true) :
    (fuel lo hi : Nat) → hi - lo ≤ fuel → lo ≤ hi → hi ≤ n → (∀ i < lo, p i = true) →
      (∀ i, hi ≤ i → i < n → p i = false) →
      (∀ i < bsearch p fuel lo hi, p i = true) ∧ ∀ i, bsearch p fuel lo hi ≤ i → i < n → p i = false
  | 0, lo, hi, hfuel, hle, _, hlow, hhigh => by
    have : lo = hi := by omega
    subst this
    exact ⟨hlow, hhigh⟩
  | fuel + 1, lo, hi, hfuel, hle, hn, hlow, hhigh => by
    unfold bsearch
    by_cases hlt : lo < hi
    · simp only [hlt, if_true]
      by_cases hmid : p ((lo + hi) / 2) = true
      · simp only [hmid, if_true]
        refine bsearch_spec hp fuel _ _ (by omega) (by omega) hn ?_ hhigh
        intro i hi'
        exact hp i _ (by omega) (by omega) hmid
      · simp only [hmid]
        refine bsearch_spec hp fuel _ _ (by omega) (by omega) (by omega) hlow ?_
        intro i hi' hin
        by_contra hpi
        exact hmid (hp _ i hi' hin (by simpa using hpi))
    · have : lo = hi := by omega
      subst this
      simp only [Nat.lt_irrefl, if_false]
      exact ⟨hlow, hhigh⟩

/-- The loop `while (lo + 1 < hi)`, which keeps the test at `lo` true. -/
def bsearchLast (p : Nat → Bool) : Nat → Nat → Nat → Nat
  | 0, lo, _ => lo
  | fuel + 1, lo, hi =>
    if lo + 1 < hi then
      let mid := (lo + hi) / 2
      if p mid then bsearchLast p fuel mid hi else bsearchLast p fuel lo mid
    else lo

/-- With a test that never holds after it has failed, the search ends where it last holds. -/
theorem bsearchLast_spec {p : Nat → Bool} {n : Nat}
    (hp : ∀ i j, i ≤ j → j < n → p j = true → p i = true) :
    (fuel lo hi : Nat) → hi - lo ≤ fuel → lo < hi → hi ≤ n → p lo = true →
      (∀ i, hi ≤ i → i < n → p i = false) →
      bsearchLast p fuel lo hi < n ∧ p (bsearchLast p fuel lo hi) = true ∧
        ∀ i, bsearchLast p fuel lo hi < i → i < n → p i = false
  | 0, lo, hi, hfuel, hlt, _, _, _ => by omega
  | fuel + 1, lo, hi, hfuel, hlt, hn, hlo, hhigh => by
    unfold bsearchLast
    by_cases hstep : lo + 1 < hi
    · simp only [hstep, if_true]
      by_cases hmid : p ((lo + hi) / 2) = true
      · simp only [hmid, if_true]
        exact bsearchLast_spec hp fuel _ _ (by omega) (by omega) hn hmid hhigh
      · simp only [hmid]
        refine bsearchLast_spec hp fuel _ _ (by omega) (by omega) (by omega) hlo ?_
        intro i hi' hin
        by_contra hpi
        exact hmid (hp _ i hi' hin (by simpa using hpi))
    · simp only [hstep, if_false]
      exact ⟨by omega, hlo, fun i hi' hin => hhigh i (by omega) hin⟩

end NyxDb
