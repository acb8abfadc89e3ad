
/-!
# Streams that are pulled

A producer has a state and is asked for one element after the other.  `Pulls next s as` says that
from the state `s` it gives the elements `as`, in this order and without an error, and then ends.
-/

namespace NyxDb

inductive Pulls {σ ε α : Type} (next : σ → Except ε (Option α × σ)) : σ → List α → Prop where
  | done {s s' : σ} : next s = .ok (none, s') → Pulls next s []
  | more {s s' : σ} {a : α} {as : List α} :
      next s = .ok (some a, s') → Pulls next s' as → Pulls next s (a :: as)

variable {σ ε α : Type} {next : σ → Except ε (Option α × σ)} {s : σ} {as : List α}

theorem Pulls.congr {s' : σ} (h : Pulls next s as) (heq : next s' = next s) : Pulls next s' as := by
  cases h with
  | done hnext => exact .done (heq.trans hnext)
  | more hnext hrest => exact .more (heq.trans hnext) hrest

/-- The same, of the answer to a first request. -/
inductive Yields (next : σ → Except ε (Option α × σ)) :
    Except ε (Option α × σ) → List α → Prop where
  | done {s : σ} : Yields next (.ok (none, s)) []
  | more {s : σ} {a : α} {as : List α} : Pulls next s as → Yields next (.ok (some a, s)) (a :: as)

theorem yields_iff : Yields next (next s) as ↔ Pulls next s as := by
  constructor
  · intro h
    generalize hnext : next s = answer at h
    cases h with
    | done => exact .done hnext
    | more hrest => exact .more hnext hrest
  · rintro (hnext | ⟨hnext, hrest⟩)
    · exact hnext ▸ .done
    · exact hnext ▸ .more hrest

/-- An element that is given at some time, and the state after it. -/
inductive Gives (next : σ → Except ε (Option α × σ)) : σ → α → σ → Prop where
  | now {s s' : σ} {a : α} : next s = .ok (some a, s') → Gives next s a s'
  | later {s s₁ s' : σ} {a b : α} :
      next s = .ok (some b, s₁) → Gives next s₁ a s' → Gives next s a s'

theorem Gives.exists_step {a : α} {s' : σ} (h : Gives next s a s') :
    ∃ s₁, next s₁ = .ok (some a, s') := by
  induction h with
  | @now s _ _ hnext => exact ⟨s, hnext⟩
  | later _ _ ih => exact ih

end NyxDb
