import Mathlib.Data.List.Forall2

/-!
# Procedures with errors, state and a trace of file operations

A procedure runs on a state `σ`.  It keeps the state it has reached when it fails, since a failed
operation of the modelled programs is not undone, and it records the state after every file
operation: these are the states a crash can leave on disk.

* `exec` forgets the trace; its equations are what functional specifications are proved with.
* `trace_bind` and `trace_forEach` are what statements about crash points are proved with.
-/

namespace NyxDb

open List

/-- How a run of a procedure ends, and the states after its file operations. -/
structure Outcome (ε σ α : Type) where
  res : Except ε α
  state : σ
  trace : List σ

/-- A procedure over the state `σ` that may fail with an `ε`. -/
def Proc (ε σ α : Type) : Type :=
  σ → Outcome ε σ α

namespace Proc

variable {ε σ τ α β : Type}

/-- The result of a run and the state it leaves. -/
def exec (c : Proc ε σ α) (s : σ) : Except ε α × σ :=
  ((c s).res, (c s).state)

/-- The states after the file operations of a run. -/
def trace (c : Proc ε σ α) (s : σ) : List σ :=
  (c s).trace

instance : Monad (Proc ε σ) where
  pure a := fun s => ⟨.ok a, s, []⟩
  bind c f := fun s =>
    match c s with
    | ⟨.error e, s₁, tr⟩ => ⟨.error e, s₁, tr⟩
    | ⟨.ok a, s₁, tr⟩ =>
      let o := f a s₁
      ⟨o.res, o.state, tr ++ o.trace⟩

/-- Fail with `e`. -/
def throw (e : ε) : Proc ε σ α :=
  fun s => ⟨.error e, s, []⟩

/-- Read the state. -/
def get : Proc ε σ σ :=
  fun s => ⟨.ok s, s, []⟩

/-- Change the state in memory only. -/
def modify (f : σ → σ) : Proc ε σ Unit :=
  fun s => ⟨.ok (), f s, []⟩

/-- A file operation: change the state and record it as a crash point. -/
def fileOp (f : σ → σ) : Proc ε σ Unit :=
  fun s => ⟨.ok (), f s, [f s]⟩

/-- Record states that a crash can leave, and go on from the present one: for a group of file
operations after which the files are as the state says again. -/
def crashPoints (f : σ → List σ) : Proc ε σ Unit :=
  fun s => ⟨.ok (), s, f s⟩

/-- Return the value of a computation without effects, or fail with its error. -/
def ofExcept (r : Except ε α) : Proc ε σ α :=
  fun s => ⟨r, s, []⟩

/-- Run a procedure on a part of the state. -/
def zoom (view : σ → τ) (put : τ → σ → σ) (c : Proc ε τ α) : Proc ε σ α :=
  fun s =>
    let o := c (view s)
    ⟨o.res, put o.state s, o.trace.map fun t => put t s⟩

/-- Run the loop body on every element in turn. -/
def forEach (xs : List β) (body : β → Proc ε σ Unit) : Proc ε σ Unit :=
  match xs with
  | [] => pure ()
  | x :: xs => do
      body x
      forEach xs body

/-- Run the operations on the elements of a list, the first on the first and so on. -/
def each : List (Proc ε τ Unit) → Proc ε (List τ) Unit
  | [] => pure ()
  | c :: cs => fun xs =>
    match xs with
    | [] => ⟨.ok (), [], []⟩
    | x :: xs =>
      match c x with
      | ⟨.error e, x₁, tr⟩ => ⟨.error e, x₁ :: xs, tr.map fun y => y :: xs⟩
      | ⟨.ok (), x₁, tr⟩ =>
        let o := each cs xs
        ⟨o.res, x₁ :: o.state, tr.map (fun y => y :: xs) ++ o.trace.map fun ys => x₁ :: ys⟩

/-- Change the errors of a procedure. -/
def mapError (f : ε → ε) (c : Proc ε σ α) : Proc ε σ α :=
  fun s =>
    let o := c s
    ⟨o.res.mapError f, o.state, o.trace⟩

/-- Run a procedure whose errors are of another kind. -/
def translate {δ : Type} (f : ε → δ) (c : Proc ε σ α) : Proc δ σ α :=
  fun s =>
    let o := c s
    ⟨o.res.mapError f, o.state, o.trace⟩

/-- Run a procedure, go on whether it fails or not, and return how it ended. -/
def result (c : Proc ε σ α) : Proc ε σ (Except ε α) :=
  fun s =>
    let o := c s
    ⟨.ok o.res, o.state, o.trace⟩

/-- Run a procedure and go on whether it fails or not. -/
def attempt (c : Proc ε σ Unit) : Proc ε σ Unit :=
  fun s =>
    let o := c s
    ⟨.ok (), o.state, o.trace⟩

/-- Run a procedure, go on whether it fails or not, and say which it was. -/
def succeeds (c : Proc ε σ Unit) : Proc ε σ Bool :=
  fun s =>
    let o := c s
    ⟨.ok o.res.toBool, o.state, o.trace⟩

/-! ## Results and final states -/

@[simp] theorem exec_pure (a : α) (s : σ) : exec (pure a : Proc ε σ α) s = (.ok a, s) := rfl

@[simp] theorem exec_get (s : σ) : exec (get : Proc ε σ σ) s = (.ok s, s) := rfl

@[simp] theorem exec_modify (f : σ → σ) (s : σ) :
    exec (modify f : Proc ε σ Unit) s = (.ok (), f s) := rfl

@[simp] theorem exec_fileOp (f : σ → σ) (s : σ) :
    exec (fileOp f : Proc ε σ Unit) s = (.ok (), f s) := rfl

@[simp] theorem exec_crashPoints (f : σ → List σ) (s : σ) :
    exec (crashPoints f : Proc ε σ Unit) s = (.ok (), s) := rfl

@[simp] theorem exec_ofExcept (r : Except ε α) (s : σ) :
    exec (ofExcept r : Proc ε σ α) s = (r, s) := rfl

theorem exec_bind (c : Proc ε σ α) (f : α → Proc ε σ β) (s : σ) : exec (c >>= f) s =
      match exec c s with
      | (.ok a, s₁) => exec (f a) s₁
      | (.error e, s₁) => (.error e, s₁) := by
  simp only [exec, bind]
  rcases c s with ⟨res, s₁, -⟩
  cases res <;> rfl

variable {s : σ} {c : Proc ε τ Unit} {x : τ} {cs : List (Proc ε τ Unit)} {xs : List τ}
  {f : α → Proc ε σ β}

theorem exec_bind_ok {c : Proc ε σ α} {s₁ : σ} {a : α} (hc : exec c s = (.ok a, s₁))
    (f : α → Proc ε σ β) : exec (c >>= f) s = exec (f a) s₁ := by
  rw [exec_bind, hc]

theorem get_bind (f : σ → Proc ε σ β) : (get >>= f) s = f s s :=
  rfl

theorem exec_get_bind (f : σ → Proc ε σ β) : exec (get >>= f) s = exec (f s) s :=
  rfl

theorem exec_bind_error {c : Proc ε σ α} {s₁ : σ} {e : ε} (hc : exec c s = (.error e, s₁))
    (f : α → Proc ε σ β) : exec (c >>= f) s = (.error e, s₁) := by
  rw [exec_bind, hc]

/-- A sequence succeeds only if both parts do. -/
theorem exec_bind_eq_ok {c : Proc ε σ α} {s₂ : σ} {b : β} (h : exec (c >>= f) s = (.ok b, s₂)) :
    ∃ a s₁, exec c s = (.ok a, s₁) ∧ exec (f a) s₁ = (.ok b, s₂) := by
  rw [exec_bind] at h
  rcases hc : exec c s with ⟨res, s₁⟩
  rw [hc] at h
  cases res with
  | error e => cases h
  | ok a => exact ⟨a, s₁, rfl, h⟩

/-- The same when only the value is still to be returned. -/
theorem exec_map_eq_ok {c : Proc ε σ α} {f : α → β} {s₁ : σ} {b : β} (h : exec (do
      let a ← c
      pure (f a)) s = (.ok b, s₁)) : ∃ a, exec c s = (.ok a, s₁) := by
  obtain ⟨a, _, hc, hrest⟩ := exec_bind_eq_ok h
  obtain ⟨-, rfl⟩ := Prod.mk.inj hrest
  exact ⟨a, hc⟩

/-- Returning a value at the end does not touch the state. -/
theorem exec_bind_pure_snd (c : Proc ε σ α) (f : α → β) (s : σ) :
    (exec (c >>= fun a => pure (f a)) s).2 = (exec c s).2 := by
  rw [exec_bind]
  rcases exec c s with ⟨res, -⟩
  cases res <;> rfl

theorem exec_zoom (view : σ → τ) (put : τ → σ → σ) (c : Proc ε τ α) (s : σ) :
    exec (zoom view put c) s = ((exec c (view s)).1, put (exec c (view s)).2 s) := rfl

@[simp] theorem exec_forEach_nil (body : β → Proc ε σ Unit) (s : σ) :
    exec (forEach [] body) s = (.ok (), s) := rfl

theorem exec_forEach_cons (x : β) (xs : List β) (body : β → Proc ε σ Unit) (s : σ) :
    exec (forEach (x :: xs) body) s = exec (body x >>= fun _ => forEach xs body) s := rfl

theorem forEach_map {γ : Type} (g : γ → β) (xs : List γ) (body : β → Proc ε σ Unit) :
    forEach (xs.map g) body = forEach xs fun x => body (g x) := by
  induction xs with
  | nil => rfl
  | cons x xs ih =>
    rw [map_cons, forEach, forEach, ih]

theorem exec_each_cons_ok {x₁ : τ} (hc : exec c x = (.ok (), x₁)) (cs : List (Proc ε τ Unit))
    (xs : List τ) :
    exec (each (c :: cs)) (x :: xs) = ((exec (each cs) xs).1, x₁ :: (exec (each cs) xs).2) := by
  simp only [exec, each, Prod.mk.injEq] at hc ⊢
  rcases hcx : c x with ⟨_, s, _⟩
  rw [hcx] at hc
  obtain ⟨rfl, rfl⟩ := hc
  simp

theorem exec_each_cons_error {x₁ : τ} {e : ε} (hc : exec c x = (.error e, x₁))
    (cs : List (Proc ε τ Unit)) (xs : List τ) :
    exec (each (c :: cs)) (x :: xs) = (.error e, x₁ :: xs) := by
  simp only [exec, each, Prod.mk.injEq] at hc ⊢
  rcases hcx : c x with ⟨_, s, _⟩
  rw [hcx] at hc
  obtain ⟨rfl, rfl⟩ := hc
  simp

theorem exec_each_ok {P : τ → τ → Prop}
    (h : Forall₂ (fun c x => ∃ y, exec c x = (.ok (), y) ∧ P x y) cs xs) :
    ∃ ys, exec (each cs) xs = (.ok (), ys) ∧ Forall₂ P xs ys := by
  induction h with
  | nil => exact ⟨[], rfl, .nil⟩
  | cons hc _ ih =>
    obtain ⟨y, hy, hp⟩ := hc
    obtain ⟨ys, hys, hps⟩ := ih
    refine ⟨y :: ys, ?_, .cons hp hps⟩
    rw [exec_each_cons_ok hy, hys]

/-- One operation on all elements of a list that is related to another one. -/
theorem exec_each_rel {R S : β → τ → Prop} {xs : List β} {ys : List τ} (h : Forall₂ R xs ys)
    (hc : ∀ x y, R x y → ∃ z, exec c y = (.ok (), z) ∧ S x z) :
    ∃ zs, exec (each (ys.map fun _ => c)) ys = (.ok (), zs) ∧ Forall₂ S xs zs := by
  induction h with
  | nil => exact ⟨[], rfl, .nil⟩
  | cons hxy _ ih =>
    obtain ⟨z, hz, hs⟩ := hc _ _ hxy
    obtain ⟨zs, hzs, hall⟩ := ih
    refine ⟨z :: zs, ?_, .cons hs hall⟩
    rw [map_cons, exec_each_cons_ok hz, hzs]

/-- Operations that all succeed, with what each does to its element. -/
theorem exec_each_at {P : Nat → τ → τ → Prop} (hlen : cs.length = xs.length)
    (h : ∀ i c x, cs[i]? = some c → xs[i]? = some x → ∃ y, exec c x = (.ok (), y) ∧ P i x y) :
    ∃ ys, exec (each cs) xs = (.ok (), ys) ∧ ys.length = xs.length ∧
      ∀ i x y, xs[i]? = some x → ys[i]? = some y → P i x y := by
  induction cs generalizing xs P with
  | nil =>
    obtain rfl : xs = [] := length_eq_zero_iff.mp hlen.symm
    exact ⟨[], rfl, rfl, by simp⟩
  | cons c cs ih =>
    cases xs with
    | nil => cases hlen
    | cons x xs =>
      obtain ⟨y, hy, hp⟩ := h 0 c x rfl rfl
      obtain ⟨ys, hys, hlen', hps⟩ := ih (P := fun i => P (i + 1)) (Nat.succ.inj hlen)
        fun i c' x' hc' hx' => h (i + 1) c' x' hc' hx'
      refine ⟨y :: ys, ?_, congrArg (· + 1) hlen', fun i x' y' hx' hy' => ?_⟩
      · rw [exec_each_cons_ok hy, hys]
      · cases i with
        | zero =>
          cases hx'
          cases hy'
          exact hp
        | succ i => exact hps i x' y' hx' hy'

theorem exec_of_each_ok (h : (exec (each cs) xs).1 = .ok ()) {i : Nat} (hc : cs[i]? = some c)
    (hx : xs[i]? = some x) : (exec c x).1 = .ok () := by
  induction cs generalizing xs i with
  | nil => cases hc
  | cons c₀ cs ih =>
    cases xs with
    | nil => cases hx
    | cons x₀ xs =>
      rcases hrun : exec c₀ x₀ with ⟨res, y⟩
      cases res with
      | error e =>
        rw [exec_each_cons_error hrun] at h
        cases h
      | ok u =>
        rw [exec_each_cons_ok hrun] at h
        cases i with
        | zero =>
          cases hc
          cases hx
          rw [hrun]
        | succ i => exact ih h hc hx

/-- Operations that all succeed, and what they make of the elements. -/
theorem exec_each_eq (h : Forall₂ (fun c x => (exec c x).1 = .ok ()) cs xs) :
    exec (each cs) xs = (.ok (), zipWith (fun c x => (exec c x).2) cs xs) := by
  induction h with
  | nil => rfl
  | @cons c x cs xs hc _ ih =>
    have hx : exec c x = (.ok (), (exec c x).2) := Prod.ext hc rfl
    rw [exec_each_cons_ok hx, ih]
    rfl

theorem exec_mapError (f : ε → ε) (c : Proc ε σ α) (s : σ) :
    exec (mapError f c) s = ((exec c s).1.mapError f, (exec c s).2) := rfl

@[simp] theorem exec_result (c : Proc ε σ α) (s : σ) :
    exec (result c) s = (.ok (exec c s).1, (exec c s).2) := rfl

@[simp] theorem exec_attempt (c : Proc ε σ Unit) (s : σ) :
    exec (attempt c) s = (.ok (), (exec c s).2) := rfl

@[simp] theorem exec_succeeds (c : Proc ε σ Unit) (s : σ) :
    exec (succeeds c) s = (.ok (exec c s).1.toBool, (exec c s).2) := rfl

/-! ## What a procedure leaves alone -/

/-- Whether it fails or not, the procedure leaves `v` of the state as it was. -/
def Preserves (v : σ → β) (c : Proc ε σ α) : Prop :=
  ∀ s, v (exec c s).2 = v s

section Preserves

variable {γ : Type} {v : σ → γ}

theorem preserves_pure (a : α) : Preserves v (pure a : Proc ε σ α) := fun _ => rfl

theorem preserves_get : Preserves v (get : Proc ε σ σ) := fun _ => rfl

theorem preserves_ofExcept (r : Except ε α) : Preserves v (ofExcept r : Proc ε σ α) :=
  fun _ => rfl

theorem Preserves.bind {c : Proc ε σ α} (hc : Preserves v c)
    (hf : ∀ a, Preserves v (f a)) : Preserves v (c >>= f) := by
  intro s
  rw [exec_bind]
  have h := hc s
  rcases hx : exec c s with ⟨res, s₁⟩
  rw [hx] at h
  cases res with
  | error e => exact h
  | ok a => exact (hf a s₁).trans h

end Preserves

/-- Whether it fails or not, the procedure keeps the invariant. -/
def Maintains (I : σ → Prop) (c : Proc ε σ α) : Prop :=
  ∀ s, I s → I (exec c s).2

section Maintains

variable {I : σ → Prop}

theorem Preserves.maintains {γ : Type} {v : σ → γ} {c : Proc ε σ α} (hc : Preserves v c)
    (hI : ∀ s s', v s' = v s → I s → I s') : Maintains I c :=
  fun s hs => hI s _ (hc s) hs

theorem Maintains.bind {c : Proc ε σ α} (hc : Maintains I c)
    (hf : ∀ a, Maintains I (f a)) : Maintains I (c >>= f) := by
  intro s hs
  rw [exec_bind]
  have h := hc s hs
  rcases hx : exec c s with ⟨res, s₁⟩
  rw [hx] at h
  cases res with
  | error e => exact h
  | ok a => exact hf a s₁ h

/-- Reading the state gives the procedure that follows the state it starts in. -/
theorem maintains_get_bind {f : σ → Proc ε σ β} (hf : ∀ s, I s → I (exec (f s) s).2) :
    Maintains I (get >>= f) := by
  intro s hs
  exact hf s hs

end Maintains

/-! ## Crash points -/

theorem trace_bind (c : Proc ε σ α) (f : α → Proc ε σ β) (s : σ) : trace (c >>= f) s = trace c s ++
      match exec c s with
      | (.ok a, s₁) => trace (f a) s₁
      | (.error _, _) => [] := by
  simp only [exec, trace, bind]
  rcases c s with ⟨res, s₁, -⟩
  cases res with
  | error e => simp
  | ok a => rfl

/-- A crash point of a sequence is one of its first part, or of its second part after the first
has succeeded. -/
theorem mem_trace_bind {c : Proc ε σ α} {s' : σ} : s' ∈ trace (c >>= f) s ↔
      s' ∈ trace c s ∨ ∃ a s₁, exec c s = (.ok a, s₁) ∧ s' ∈ trace (f a) s₁ := by
  rw [trace_bind]
  rcases exec c s with ⟨res, s₁⟩
  cases res with
  | error e => simp
  | ok a => simp

theorem mem_trace_of_ok {c : Proc ε σ α} {a : α} {s' s₁ : σ}
    (h : exec c s = (.ok a, s₁)) (hs' : s' ∈ trace (f a) s₁) : s' ∈ trace (c >>= f) s :=
  mem_trace_bind.mpr (Or.inr ⟨a, s₁, h, hs'⟩)

end Proc

export Proc (exec exec_bind_ok exec_get exec_get_bind exec_bind_eq_ok exec_bind exec_ofExcept
  exec_mapError exec_forEach_cons exec_zoom exec_fileOp exec_attempt exec_bind_error
  exec_bind_pure_snd exec_map_eq_ok exec_modify
  exec_result exec_crashPoints Maintains Preserves maintains_get_bind mem_trace_bind preserves_pure
  preserves_get preserves_ofExcept forEach fileOp ofExcept mapError)

end NyxDb
