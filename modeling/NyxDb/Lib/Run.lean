import Mathlib.Data.List.Chain

/-!
# Runs of a step function

A system is a state and a function that takes one event.  `states` are the states of a run, the
first one included; `Along ok` says that every event of a run meets a condition in the state in
which it happens.  The rules turn a fact about one step into a fact about every run.
-/

namespace NyxDb.Run

open List

variable {σ ε : Type} (step : σ → ε → σ)

/-- The state after a run. -/
def final (s : σ) (events : List ε) : σ :=
  events.foldl step s

/-- The states of a run. -/
def states (s : σ) : List ε → List σ
  | [] => [s]
  | e :: events => s :: states (step s e) events

/-- Every event of the run meets the condition. -/
def Along (ok : σ → ε → Prop) (s : σ) : List ε → Prop
  | [] => True
  | e :: events => ok s e ∧ Along ok (step s e) events

instance Along.decidable (ok : σ → ε → Prop) [∀ s e, Decidable (ok s e)] :
    ∀ (s : σ) (events : List ε), Decidable (Along step ok s events)
  | _, [] => isTrue trivial
  | s, e :: events =>
    have := Along.decidable ok (step s e) events
    inferInstanceAs (Decidable (ok s e ∧ Along step ok (step s e) events))

variable {step}

theorem mem_states_self (s : σ) (events : List ε) : s ∈ states step s events := by
  cases events with
  | nil => exact mem_cons_self
  | cons e events => exact mem_cons_self

theorem final_mem_states (s : σ) (events : List ε) :
    final step s events ∈ states step s events := by
  induction events generalizing s with
  | nil => exact mem_cons_self
  | cons e events ih => exact mem_cons_of_mem _ (ih (step s e))

variable {events : List ε} {ok : σ → ε → Prop} {s : σ} {I : σ → Prop}

theorem along_append {events' : List ε} : Along step ok s (events ++ events') ↔
      Along step ok s events ∧ Along step ok (final step s events) events' := by
  induction events generalizing s with
  | nil => exact (and_iff_right trivial).symm
  | cons e events ih =>
    show ok s e ∧ Along step ok (step s e) (events ++ events') ↔ _
    rw [ih]
    exact and_assoc.symm

/-- An invariant that every allowed step keeps holds in every state. -/
theorem Along.invariant (hstep : ∀ s e, I s → ok s e → I (step s e)) (hs : I s)
    (h : Along step ok s events) : ∀ s' ∈ states step s events, I s' := by
  induction events generalizing s with
  | nil =>
    intro s' hs'
    rwa [mem_singleton.mp hs']
  | cons e events ih =>
    intro s' hs'
    rcases mem_cons.mp hs' with rfl | hs'
    · exact hs
    · exact ih (hstep s e hs h.1) h.2 s' hs'

/-- A second system takes the same events: a relation that every allowed event keeps holds of each
of its states. -/
theorem Along.simulation {τ : Type} {step' : τ → ε → τ} {R : σ → τ → Prop} {t : τ}
    (hstep : ∀ s t e, R s t → ok s e → R (step s e) (step' t e)) (hs : R s t)
    (h : Along step ok s events) : ∀ t' ∈ states step' t events, ∃ s', R s' t' := by
  induction events generalizing s t with
  | nil =>
    intro t' ht'
    rw [mem_singleton.mp ht']
    exact ⟨s, hs⟩
  | cons e events ih =>
    intro t' ht'
    rcases mem_cons.mp ht' with rfl | ht'
    · exact ⟨s, hs⟩
    · exact ih (hstep s t e hs h.1) h.2 t' ht'

theorem Along.and {ok' : σ → ε → Prop} (h : Along step ok s events) (h' : Along step ok' s events) :
    Along step (fun s e => ok s e ∧ ok' s e) s events := by
  induction events generalizing s with
  | nil => trivial
  | cons e events ih => exact ⟨⟨h.1, h'.1⟩, ih h.2 h'.2⟩

theorem along_of_forall {Q : ε → Prop} (h : ∀ e ∈ events, Q e) :
    Along step (fun _ e => Q e) s events := by
  induction events generalizing s with
  | nil => trivial
  | cons e events ih =>
    exact ⟨h e mem_cons_self, ih fun e he => h e (mem_cons_of_mem _ he)⟩

/-- Where a condition says exactly which steps keep a property, the runs that keep the property
are the runs of these steps. -/
theorem forall_states_iff {Q : ε → Prop} (hstep : ∀ s e, I s → Q e → (I (step s e) ↔ ok s e))
    (hs : I s) (hq : ∀ e ∈ events, Q e) :
    (∀ s' ∈ states step s events, I s') ↔ Along step ok s events := by
  constructor
  · intro hall
    induction events generalizing s with
    | nil => trivial
    | cons e events ih =>
      have hnext : I (step s e) :=
        hall _ (mem_cons_of_mem _ (mem_states_self _ events))
      constructor
      · exact (hstep s e hs (hq e mem_cons_self)).mp hnext
      · apply ih hnext
        · exact fun e he => hq e (mem_cons_of_mem _ he)
        · exact fun s' hs' => hall s' (mem_cons_of_mem _ hs')
  · intro h
    exact Along.invariant (fun s e hs hok => (hstep s e hs hok.2).mpr hok.1) hs
      (h.and (along_of_forall hq))

/-- What no step takes back, no run takes back. -/
theorem Along.final_of_mem {P : σ → Prop} (hstep : ∀ s e, I s → ok s e → I (step s e))
    (hkeep : ∀ s e, I s → ok s e → P s → P (step s e)) (hs : I s) (h : Along step ok s events)
    {s' : σ} (hmem : s' ∈ states step s events) (hp : P s') : P (final step s events) := by
  induction events generalizing s s' with
  | nil => rwa [mem_singleton.mp hmem] at hp
  | cons e events ih =>
    have hnext := hstep s e hs h.1
    rcases mem_cons.mp hmem with rfl | hmem
    · exact ih hnext h.2 (mem_states_self _ events) (hkeep _ e hs h.1 hp)
    · exact ih hnext h.2 hmem hp

/-- States that follow each other are related when every step relates two states. -/
theorem Along.pairwise {R : σ → σ → Prop} (htrans : ∀ a b c, R a b → R b c → R a c)
    (hstep : ∀ s e, I s → ok s e → I (step s e) ∧ R s (step s e)) (hs : I s)
    (h : Along step ok s events) : (states step s events).Pairwise R := by
  induction events generalizing s with
  | nil => exact pairwise_singleton R s
  | cons e events ih =>
    obtain ⟨hnext, hrel⟩ := hstep s e hs h.1
    have hlater := h.2.invariant (I := fun s' => I s' ∧ R s s') (fun s₁ e₁ hs₁ hok => by
      obtain ⟨h₁, hrel₁⟩ := hstep s₁ e₁ hs₁.1 hok
      exact ⟨h₁, htrans _ _ _ hs₁.2 hrel₁⟩) ⟨hnext, hrel⟩
    exact pairwise_cons.mpr ⟨fun s' hs' => (hlater s' hs').2, ih hnext h.2⟩

end NyxDb.Run
