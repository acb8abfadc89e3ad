import NyxDb.Lib.Related

/-!
# The LRU-K replacer

A frame is tracked from its first access on.  Of its accesses the last `k` are kept, and it can be
evicted while it is not pinned.  The victim is the frame with the oldest kept access, where frames
with fewer than `k` accesses come first.
-/

namespace NyxDb

open List

structure FrameData where
  history : List Nat
  evictable : Bool
  tracked : Bool
  deriving DecidableEq, Repr

structure LruK where
  k : Nat
  counter : Nat
  evictableCount : Nat
  frames : List FrameData
  deriving DecidableEq, Repr

namespace LruK

def create (numFrames k : Nat) : LruK :=
  ⟨k, 0, 0, replicate numFrames ⟨[], false, false⟩⟩

/-- The candidate with the older access; at equal accesses the one that was found first. -/
def older (best : Option (Nat × Nat)) (frame front : Nat) : Option (Nat × Nat) :=
  match best with
  | none => some (frame, front)
  | some (j, ts) => if front < ts then some (frame, front) else some (j, ts)

/-- The loop of `victim` over the frames from index `i` on: the best candidate with fewer than `k`
accesses and the best of the others, each with its access. -/
def candidates (k : Nat) : Nat → List FrameData → Option (Nat × Nat) → Option (Nat × Nat) →
    Option (Nat × Nat) × Option (Nat × Nat)
  | _, [], underK, full => (underK, full)
  | i, f :: fs, underK, full =>
    if !f.tracked || !f.evictable then candidates k (i + 1) fs underK full
    else if f.history.length < k then
      candidates k (i + 1) fs (older underK i (f.history.headD 0)) full
    else candidates k (i + 1) fs underK (older full i (f.history.headD 0))

def pin (r : LruK) (id : Nat) : LruK :=
  match r.frames[id]? with
  | none => r
  | some f =>
    if f.tracked && f.evictable then
      { r with
        frames := r.frames.set id { f with evictable := false }
        evictableCount := r.evictableCount - 1 }
    else r

def unpin (r : LruK) (id : Nat) : LruK :=
  match r.frames[id]? with
  | none => r
  | some f =>
    if f.tracked && !f.evictable then
      { r with
        frames := r.frames.set id { f with evictable := true }
        evictableCount := r.evictableCount + 1 }
    else r

def recordAccess (r : LruK) (id : Nat) : LruK :=
  match r.frames[id]? with
  | none => r
  | some f =>
    let history := f.history ++ [r.counter + 1]
    { r with
      counter := r.counter + 1
      frames := r.frames.set id
        { f with
          tracked := true
          history := if r.k < history.length then history.tail else history } }

def remove (r : LruK) (id : Nat) : LruK :=
  match r.frames[id]? with
  | none => r
  | some f =>
    if f.tracked then
      { r with
        evictableCount := if f.evictable then r.evictableCount - 1 else r.evictableCount
        frames := r.frames.set id ⟨[], false, false⟩ }
    else r

/-- The frame to evict, which is no longer tracked then. -/
def victim (r : LruK) : Option (Nat × LruK) :=
  if r.evictableCount = 0 then none
  else
    let (underK, full) := candidates r.k 0 r.frames none none
    let out := ((underK <|> full).map Prod.fst).getD 0
    some (out, r.remove out)

/-! ## The count of evictable frames -/

/-- The count is right, and only tracked frames can be evicted. -/
structure Counted (r : LruK) : Prop where
  count : r.evictableCount = r.frames.countP FrameData.evictable
  tracked : ∀ f ∈ r.frames, f.evictable = true → f.tracked = true

theorem counted_create (numFrames k : Nat) : Counted (create numFrames k) := by
  constructor
  · simp [create, countP_replicate]
  · intro f hf hevictable
    rw [eq_of_mem_replicate hf] at hevictable
    cases hevictable

variable {f : FrameData} {id : Nat} {r : LruK}

section

variable (h : Counted r)
include h

theorem Counted.pos (hf : r.frames[id]? = some f) (hev : f.evictable = true) :
    0 < r.evictableCount := by
  rw [h.count]
  exact countP_pos_iff.2 ⟨f, mem_of_getElem? hf, hev⟩

theorem Counted.set {r' : LruK} {g : FrameData} (hf : r.frames[id]? = some f)
    (hframes : r'.frames = r.frames.set id g)
    (hcount : r'.evictableCount + (if f.evictable then 1 else 0) =
      r.evictableCount + if g.evictable then 1 else 0)
    (htracked : g.evictable = true → g.tracked = true) : Counted r' := by
  obtain ⟨hid, hget⟩ := List.getElem?_eq_some_iff.1 hf
  constructor
  · have hset := countP_set (p := FrameData.evictable) (a := g) hid
    have hpos : (if f.evictable then 1 else 0) ≤ r.evictableCount := by
      split
      · next hev => exact h.pos hf hev
      · exact Nat.zero_le _
    rw [hget] at hset
    rw [hframes]
    have hold := h.count
    omega
  · intro x hx hev
    rw [hframes] at hx
    rcases mem_or_eq_of_mem_set hx with hmem | rfl
    · exact h.tracked x hmem hev
    · exact htracked hev

variable (id : Nat)

theorem Counted.pin : Counted (r.pin id) := by
  unfold LruK.pin
  split
  · exact h
  · rename_i f hf
    split
    · rename_i hboth
      rw [Bool.and_eq_true] at hboth
      have hpos := h.pos hf hboth.2
      refine h.set hf rfl ?_ (fun hev => by cases hev)
      simp [hboth.2]
      omega
    · exact h

theorem Counted.unpin : Counted (r.unpin id) := by
  unfold LruK.unpin
  split
  · exact h
  · rename_i f hf
    split
    · rename_i hboth
      rw [Bool.and_eq_true, Bool.not_eq_true'] at hboth
      refine h.set hf rfl ?_ (fun _ => hboth.1)
      simp [hboth.2]
    · exact h

theorem Counted.recordAccess : Counted (r.recordAccess id) := by
  unfold LruK.recordAccess
  split
  · exact h
  · rename_i f hf
    exact h.set hf rfl rfl (fun _ => rfl)

theorem Counted.remove : Counted (r.remove id) := by
  unfold LruK.remove
  split
  · exact h
  · rename_i f hf
    split
    · refine h.set hf rfl ?_ (fun hev => by cases hev)
      cases hev : f.evictable with
      | false => simp
      | true =>
        have hpos := h.pos hf hev
        simp
        omega
    · exact h

end

/-! ## The victim -/

/-- A frame that can be evicted and has fewer than `k` accesses. -/
def underK (k : Nat) (f : FrameData) : Bool :=
  f.tracked && f.evictable && decide (f.history.length < k)

/-- A frame that can be evicted and has `k` accesses. -/
def full (k : Nat) (f : FrameData) : Bool :=
  f.tracked && f.evictable && decide (k ≤ f.history.length)

/-- The candidate among the frames with a property: the one with the oldest access. -/
def Best (p : FrameData → Bool) (fs : List FrameData) : Option (Nat × Nat) → Prop
  | none => ∀ f ∈ fs, p f = false
  | some (i, front) => (∃ f, fs[i]? = some f ∧ p f = true ∧ f.history.headD 0 = front) ∧
      ∀ f ∈ fs, p f = true → front ≤ f.history.headD 0

variable {p : FrameData → Bool} {fs : List FrameData} {best : Option (Nat × Nat)}

theorem Best.skip (h : Best p fs best) (hf : p f = false) : Best p (fs ++ [f]) best := by
  obtain _ | ⟨i, front⟩ := best
  · exact forall_mem_concat h hf
  · obtain ⟨⟨g, hg, hpg, hfront⟩, hmin⟩ := h
    refine ⟨⟨g, ?_, hpg, hfront⟩, forall_mem_concat hmin (by simp [hf])⟩
    rw [getElem?_append_left (lt_of_getElem? hg), hg]

theorem Best.older (h : Best p fs best) (hf : p f = true) :
    Best p (fs ++ [f]) (older best fs.length (f.history.headD 0)) := by
  have hlast : ∃ g, (fs ++ [f])[fs.length]? = some g ∧ p g = true ∧ g.history.headD 0 = _ :=
    ⟨f, by simp, hf, rfl⟩
  obtain _ | ⟨i, front⟩ := best
  · refine ⟨hlast, forall_mem_concat (fun g hg hpg => ?_) fun _ => Nat.le_refl _⟩
    rw [h g hg] at hpg
    cases hpg
  · unfold LruK.older
    dsimp only
    split
    · next hlt =>
      refine ⟨hlast, forall_mem_concat (fun g hg hpg => ?_) fun _ => Nat.le_refl _⟩
      exact Nat.le_trans (Nat.le_of_lt hlt) (h.2 g hg hpg)
    · next hle =>
      obtain ⟨⟨g, hg, hpg, hfront⟩, hmin⟩ := h
      refine ⟨⟨g, ?_, hpg, hfront⟩, forall_mem_concat hmin fun _ => Nat.not_lt.1 hle⟩
      rw [getElem?_append_left (lt_of_getElem? hg), hg]

/-- The loop keeps the best candidates of the frames it has seen. -/
theorem candidates_spec (k : Nat) (rest : List FrameData) {under_ full_ : Option (Nat × Nat)}
    (hunder : Best (underK k) fs under_) (hfull : Best (full k) fs full_) :
    Best (underK k) (fs ++ rest) (candidates k fs.length rest under_ full_).1 ∧
      Best (full k) (fs ++ rest) (candidates k fs.length rest under_ full_).2 := by
  induction rest generalizing fs under_ full_ with
  | nil =>
    rw [append_nil]
    exact ⟨hunder, hfull⟩
  | cons f rest ih =>
    rw [candidates, append_cons, show fs.length + 1 = (fs ++ [f]).length by simp]
    split
    · next hskip =>
      have hoff : (f.tracked && f.evictable) = false := by
        rwa [← Bool.not_and, Bool.not_eq_true'] at hskip
      exact ih (hunder.skip (by simp [underK, hoff])) (hfull.skip (by simp [full, hoff]))
    · next htaken =>
      have hon : (f.tracked && f.evictable) = true := by simpa using htaken
      split
      · next hlt =>
        exact ih (hunder.older (by simp [underK, hon, hlt])) (hfull.skip (by simp [full, hlt]))
      · next hle =>
        exact ih (hunder.skip (by simp [underK, hle])) (hfull.older (by simp [full, hon]; omega))

/-- A victim is a frame that could be evicted; one with fewer than `k` accesses if there is any, and
of these or else of all the one with the oldest kept access. -/
theorem victim_eq_some (h : Counted r) (hpos : r.evictableCount ≠ 0) :
    ∃ id f, r.victim = some (id, r.remove id) ∧ r.frames[id]? = some f ∧ f.tracked = true ∧
      f.evictable = true ∧ ∀ g ∈ r.frames, g.tracked = true → g.evictable = true →
        (g.history.length < r.k → f.history.length < r.k) ∧
        ((g.history.length < r.k ↔ f.history.length < r.k) →
          f.history.headD 0 ≤ g.history.headD 0) := by
  obtain ⟨g, hg, hev⟩ := countP_pos_iff.1 (Nat.pos_of_ne_zero (h.count ▸ hpos))
  have htracked := h.tracked g hg hev
  have hnone : ∀ p, Best p [] none := fun p => nofun
  obtain ⟨hunder, hfull⟩ := candidates_spec r.k r.frames (hnone _) (hnone _)
  rw [nil_append] at hunder hfull
  rw [victim, if_neg hpos]
  generalize candidates r.k 0 r.frames none none = c at hunder hfull
  obtain ⟨_ | ⟨i, front⟩, c⟩ := c
  · have hmany : ∀ f ∈ r.frames, f.tracked = true → f.evictable = true →
        r.k ≤ f.history.length := by
      simpa [Best, underK] using hunder
    obtain _ | ⟨i, front⟩ := c
    · simpa [full, htracked, hev, hmany g hg htracked hev] using hfull g hg
    · obtain ⟨⟨f, hf, hp, rfl⟩, hmin⟩ := hfull
      simp only [full, Bool.and_eq_true, decide_eq_true_eq] at hp hmin
      refine ⟨i, f, rfl, hf, hp.1.1, hp.1.2, fun g hg ht he => ?_⟩
      have hk := hmany g hg ht he
      exact ⟨fun hlt => absurd hlt (by omega), fun _ => hmin g hg ⟨⟨ht, he⟩, hk⟩⟩
  · obtain ⟨⟨f, hf, hp, rfl⟩, hmin⟩ := hunder
    simp only [underK, Bool.and_eq_true, decide_eq_true_eq] at hp hmin
    exact ⟨i, f, rfl, hf, hp.1.1, hp.1.2, fun g hg ht he =>
      ⟨fun _ => hp.2, fun h => hmin g hg ⟨⟨ht, he⟩, h.2 hp.2⟩⟩⟩

/-! ## What the operations do to one frame -/

section

variable (hf : r.frames[id]? = some f)
include hf

theorem frames_access :
    ∃ g, ((r.recordAccess id).pin id).frames = r.frames.set id g ∧ g.tracked = true ∧
      g.evictable = false := by
  have hid := lt_of_getElem? hf
  rw [recordAccess, hf]
  rw [pin, getElem?_set_self hid]
  dsimp only
  cases hev : f.evictable with
  | true =>
    simp only [Bool.and_self, if_true, set_set]
    exact ⟨_, rfl, rfl, rfl⟩
  | false =>
    exact ⟨_, rfl, rfl, rfl⟩

theorem frames_unpin (htracked : f.tracked = true) :
    (r.unpin id).frames = r.frames.set id { f with evictable := true } := by
  obtain ⟨hid, hget⟩ := List.getElem?_eq_some_iff.1 hf
  rw [unpin, hf]
  dsimp only
  cases hev : f.evictable with
  | true =>
    have hsame : { f with evictable := true } = r.frames[id] := by
      rw [hget, ← hev]
    rw [if_neg (by simp), hsame, set_getElem_self]
  | false => rw [if_pos (by simp [htracked])]

end

/-! ## The accesses -/

/-- The replacer with the accesses of each frame since it is tracked: the last `k` of them are kept,
and no two accesses are at one time. -/
structure Traced (k : Nat) (r : LruK) (accs : Nat → List Nat) : Prop where
  bound : r.k = k
  kept : ∀ id f, r.frames[id]? = some f →
    f.history = (accs id).drop ((accs id).length - k) ∧ (f.tracked = true ↔ accs id ≠ [])
  le : ∀ id, ∀ t ∈ accs id, t ≤ r.counter
  apart : ∀ i j t, t ∈ accs i → t ∈ accs j → i = j

variable {k : Nat} {accs : Nat → List Nat}

section

variable (h : Traced k r accs)
include h

theorem Traced.set {r' : LruK} {g : FrameData} {a : List Nat}
    (hframes : r'.frames = r.frames.set id g) (hk : r'.k = r.k) (hcounter : r.counter ≤ r'.counter)
    (hkept : g.history = a.drop (a.length - k) ∧ (g.tracked = true ↔ a ≠ []))
    (ha : ∀ t ∈ a, t ∈ accs id ∨ r.counter < t ∧ t ≤ r'.counter) :
    Traced k r' (Function.update accs id a) := by
  have hother : ∀ j t, j ≠ id → t ∈ a → t ∉ accs j := by
    intro j t hj ht hmem
    rcases ha t ht with hold | hnew
    · exact hj (h.apart j id t hmem hold)
    · exact absurd (h.le j t hmem) (by omega)
  refine ⟨hk.trans h.bound, ?_, ?_, ?_⟩
  · intro j f hf
    rw [hframes, getElem?_set] at hf
    by_cases hj : j = id
    · subst hj
      rw [if_pos rfl] at hf
      split at hf
      · cases hf
        rwa [Function.update_self]
      · cases hf
    · rw [if_neg (Ne.symm hj)] at hf
      rw [Function.update_of_ne hj]
      exact h.kept j f hf
  · intro j t ht
    by_cases hj : j = id
    · subst hj
      rw [Function.update_self] at ht
      rcases ha t ht with hold | hnew
      · exact Nat.le_trans (h.le j t hold) hcounter
      · exact hnew.2
    · rw [Function.update_of_ne hj] at ht
      exact Nat.le_trans (h.le j t ht) hcounter
  · intro i j t hi hj
    simp only [Function.update_apply] at hi hj
    split at hi <;> split at hj
    · next hi' hj' => rw [hi', hj']
    · next hi' hj' => exact absurd hj (hother j t hj' hi)
    · next hi' hj' => exact absurd hi (hother i t hi' hj)
    · exact h.apart i j t hi hj

theorem Traced.flag (hf : r.frames[id]? = some f) (b : Bool) (n : Nat) :
    Traced k ⟨r.k, r.counter, n, r.frames.set id { f with evictable := b }⟩ accs := by
  rw [← Function.update_eq_self id accs]
  exact h.set rfl rfl (Nat.le_refl _) (h.kept id f hf) fun t ht => .inl ht

variable (id : Nat)

theorem Traced.pin : Traced k (r.pin id) accs := by
  unfold LruK.pin
  split
  · exact h
  · next f hf =>
    split
    · exact h.flag hf _ _
    · exact h

theorem Traced.unpin : Traced k (r.unpin id) accs := by
  unfold LruK.unpin
  split
  · exact h
  · next f hf =>
    split
    · exact h.flag hf _ _
    · exact h

theorem Traced.remove : Traced k (r.remove id) (Function.update accs id []) := by
  unfold LruK.remove
  split
  · next hnone =>
    refine h.set (g := ⟨[], false, false⟩) ?_ rfl (Nat.le_refl _) (by simp) nofun
    rw [set_eq_of_length_le (List.getElem?_eq_none_iff.1 hnone)]
  · next f hf =>
    split
    · exact h.set rfl rfl (Nat.le_refl _) (by simp) nofun
    · next hoff =>
      have hnil : accs id = [] := by simpa [hoff] using (h.kept id f hf).2
      rwa [← hnil, Function.update_eq_self]

theorem Traced.recordAccess : Traced k (r.recordAccess id) (if id < r.frames.length then
      Function.update accs id (accs id ++ [r.counter + 1]) else accs) := by
  unfold LruK.recordAccess
  split
  · next hnone =>
    rwa [if_neg (Nat.not_lt.2 (List.getElem?_eq_none_iff.1 hnone))]
  · next f hf =>
    rw [if_pos (lt_of_getElem? hf)]
    refine h.set rfl rfl (Nat.le_succ _) ⟨?_, by simp⟩ fun t ht => ?_
    · simp only [h.bound, (h.kept id f hf).1, length_append, length_drop, length_singleton]
      rw [← drop_append_of_le_length (Nat.sub_le _ _)]
      -- the oldest kept access goes when there are `k` already
      split
      · rw [tail_drop]
        congr 1
        omega
      · congr 1
        omega
    · rcases mem_append.1 ht with hold | hnew
      · exact .inl hold
      · cases mem_singleton.1 hnew
        exact .inr ⟨Nat.lt_succ_self _, Nat.le_refl _⟩

end

/-! ## Every sequence of calls -/

inductive Call where
  | recordAccess (id : Nat)
  | pin (id : Nat)
  | unpin (id : Nat)
  | remove (id : Nat)
  | victim

/-- A call, with the accesses of each frame since it is tracked. -/
def call : LruK × (Nat → List Nat) → Call → LruK × (Nat → List Nat)
  | (r, accs), .recordAccess id => (r.recordAccess id, if id < r.frames.length then
      Function.update accs id (accs id ++ [r.counter + 1]) else accs)
  | (r, accs), .pin id => (r.pin id, accs)
  | (r, accs), .unpin id => (r.unpin id, accs)
  | (r, accs), .remove id => (r.remove id, Function.update accs id [])
  | (r, accs), .victim =>
    match r.victim with
    | none => (r, accs)
    | some (id, r') => (r', Function.update accs id [])

theorem traced_call {s : LruK × (Nat → List Nat)} (c : Call)
    (h : Counted s.1 ∧ Traced k s.1 s.2) :
    Counted (call s c).1 ∧ Traced k (call s c).1 (call s c).2 := by
  obtain ⟨r, accs⟩ := s
  obtain ⟨hc, ht⟩ := h
  cases c with
  | recordAccess id => exact ⟨hc.recordAccess id, ht.recordAccess id⟩
  | pin id => exact ⟨hc.pin id, ht.pin id⟩
  | unpin id => exact ⟨hc.unpin id, ht.unpin id⟩
  | remove id => exact ⟨hc.remove id, ht.remove id⟩
  | victim =>
    rw [call]
    split
    · exact ⟨hc, ht⟩
    · next v r' hvictim =>
      rw [victim] at hvictim
      split at hvictim
      · cases hvictim
      · cases hvictim
        exact ⟨hc.remove _, ht.remove _⟩

/-- The `k`-th most recent access. -/
def kthRecent (k : Nat) (a : List Nat) : Nat :=
  a.reverse.getD (k - 1) 0

theorem Traced.first_eq (h : Traced k r accs) (hk : 0 < k) (hf : r.frames[id]? = some f)
    (htracked : f.tracked = true) :
    f.history.headD 0 ∈ accs id ∧ (f.history.length < k ↔ (accs id).length < k) ∧
      f.history.headD 0 = if (accs id).length < k then (accs id).headD 0
        else kthRecent k (accs id) := by
  obtain ⟨hhist, hne⟩ := h.kept id f hf
  have hpos := length_pos_iff.2 (hne.1 htracked)
  have hlt : (accs id).length - k < (accs id).length := by omega
  have hhead : f.history.headD 0 = (accs id)[(accs id).length - k] := by
    rw [hhist, headD_eq_head?_getD, head?_drop, getElem?_eq_getElem hlt]
    rfl
  refine ⟨hhead ▸ getElem_mem hlt, by rw [hhist, length_drop]; omega, ?_⟩
  split
  · next hfew =>
    rw [hhist, Nat.sub_eq_zero_of_le (Nat.le_of_lt hfew)]
    rfl
  · rw [hhead, kthRecent, getD_eq_getElem?_getD, getElem?_reverse (by omega),
      getElem?_eq_getElem (by omega)]
    congr 1
    omega

/-- **LRU-K.**  After any calls the count is the number of frames that are tracked and can be
evicted; a victim is found exactly when there is one, and it is the frame with the oldest first
access of those with fewer than `k` accesses, or else the one with the oldest `k`-th most recent
access. -/
theorem victim_lruK (numFrames : Nat) {k : Nat} (hk : 0 < k) (calls : List Call) :
    let (r, accs) := calls.foldl call (create numFrames k, fun _ => [])
    let evictable := fun f : FrameData => f.tracked && f.evictable
    r.evictableCount = r.frames.countP evictable ∧
      (r.victim = none ↔ ∀ f ∈ r.frames, evictable f = false) ∧
      ∀ v r', r.victim = some (v, r') → (∃ f, r.frames[v]? = some f ∧ evictable f = true) ∧
        ∀ u g, u ≠ v → r.frames[u]? = some g → evictable g = true →
          if (accs v).length < k then
            (accs u).length < k → (accs v).headD 0 < (accs u).headD 0
          else k ≤ (accs u).length ∧ kthRecent k (accs v) < kthRecent k (accs u) := by
  have hrun : Counted _ ∧ Traced k _ _ :=
    foldlRecOn calls call (b := (create numFrames k, fun _ => []))
    (motive := fun s => Counted s.1 ∧ Traced k s.1 s.2) ?_ fun s hs c _ => traced_call c hs
  · generalize calls.foldl call (create numFrames k, fun _ => []) = s at hrun
    obtain ⟨r, accs⟩ := s
    obtain ⟨hc, ht⟩ := hrun
    dsimp only at hc ht ⊢
    have hcount : r.evictableCount = r.frames.countP fun f => f.tracked && f.evictable := by
      rw [hc.count]
      refine countP_congr fun f hf => ?_
      simpa using hc.tracked f hf
    refine ⟨hcount, ?_, fun v r' hv => ?_⟩
    · have hnone : r.victim = none ↔ r.evictableCount = 0 := by simp [victim]
      rw [hnone, hcount, countP_eq_zero]
      simp only [Bool.not_eq_true]
    · have hpos : r.evictableCount ≠ 0 := by
        intro hzero
        rw [victim, if_pos hzero] at hv
        cases hv
      obtain ⟨_, f, hvictim, hf, htf, hef, hmin⟩ := victim_eq_some hc hpos
      cases hv.symm.trans hvictim
      refine ⟨⟨f, hf, by simp [htf, hef]⟩, fun u g hne hg heg => ?_⟩
      rw [Bool.and_eq_true] at heg
      obtain ⟨hmemf, hlenf, hheadf⟩ := ht.first_eq hk hf htf
      obtain ⟨hmemg, hleng, hheadg⟩ := ht.first_eq hk hg heg.1
      obtain ⟨hunder, hle⟩ := hmin g (mem_of_getElem? hg) heg.1 heg.2
      rw [ht.bound, hlenf, hleng] at hunder hle
      -- No two frames have an access at the same time.
      have hapart : f.history.headD 0 ≠ g.history.headD 0 :=
        fun heq => hne (ht.apart u v _ hmemg (heq ▸ hmemf))
      split
      · next hfew =>
        intro hfew'
        rw [if_pos hfew] at hheadf
        rw [if_pos hfew'] at hheadg
        have hold := hle (iff_of_true hfew' hfew)
        omega
      · next hmany =>
        have hmany' := fun hlt => hmany (hunder hlt)
        rw [if_neg hmany] at hheadf
        rw [if_neg hmany'] at hheadg
        have hold := hle (iff_of_false hmany' hmany)
        omega
  · refine ⟨counted_create _ _, rfl, ?_, nofun, nofun⟩
    intro id f hf
    rw [eq_of_mem_replicate (mem_of_getElem? hf)]
    simp

/-- Both frames are free; the victim is the one that was used first. -/
theorem victim_lruK_two_frames :
    let s := [.recordAccess 0, .recordAccess 1, .unpin 0, .unpin 1].foldl call
      (create 2 2, fun _ => [])
    (s.1.victim.map Prod.fst = some 0) ∧ (s.2 0).headD 0 < (s.2 1).headD 0 := by
  refine ⟨by decide, ?_⟩
  obtain ⟨-, hold⟩ := (victim_lruK 2 (by decide : 0 < 2)
    [.recordAccess 0, .recordAccess 1, .unpin 0, .unpin 1]).2.2 0 _ rfl
  have holder := hold 1 _ (by decide) rfl rfl
  rw [if_pos (by decide)] at holder
  exact holder (by decide)

end LruK
end NyxDb
