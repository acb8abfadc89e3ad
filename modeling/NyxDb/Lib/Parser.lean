import NyxDb.Lib.Bytes
import Mathlib.Data.List.Forall2

/-!
# Parsers of byte strings

A parser takes a value off the front of a byte string, or fails.  `Reads p bs a` says that `p`
takes exactly the bytes `bs`, whatever follows, and returns `a`; a format is read back when every
writer is paired with a parser that reads it.
-/

namespace NyxDb

open List

/-- A parser returns a value and the bytes it left. -/
abbrev ByteParser (α : Type) : Type := StateT Bytes Option α

namespace ByteParser

variable {α β : Type}

def fail : ByteParser α :=
  fun _ => none

/-- The next `n` bytes. -/
def take (n : Nat) : ByteParser Bytes :=
  fun bs => if n ≤ bs.length then some (bs.take n, bs.drop n) else none

def byte : ByteParser UInt8
  | [] => none
  | b :: bs => some (b, bs)

/-- A number of `w` bytes, least significant byte first. -/
def nat (w : Nat) : ByteParser Nat := do
  let bs ← take w
  pure (leNat bs)

/-- A byte string after its length of `w` bytes. -/
def counted (w : Nat) : ByteParser Bytes := do
  let n ← nat w
  take n

/-- `n` values in a row. -/
def times (n : Nat) (p : ByteParser α) : ByteParser (List α) :=
  match n with
  | 0 => pure []
  | n + 1 => do
      let a ← p
      let as ← times n p
      pure (a :: as)

/-- One value for every element of a list. -/
def each (p : β → ByteParser α) : List β → ByteParser (List α)
  | [] => pure []
  | b :: bs => do
      let a ← p b
      let as ← each p bs
      pure (a :: as)

/-- On input that starts with `bs`, the parser takes `bs` off and returns `a`. -/
def Reads (p : ByteParser α) (bs : Bytes) (a : α) : Prop :=
  ∀ rest, p (bs ++ rest) = some (a, rest)

theorem reads_pure (a : α) : Reads (pure a) [] a :=
  fun _ => rfl

variable {a : α} {b : β} {bs rest : Bytes} {p : ByteParser α} {f : α → ByteParser β}
  {q : β → ByteParser α}

theorem Reads.bind {cs : Bytes} (hp : Reads p bs a) (hf : Reads (f a) cs b) :
    Reads (p >>= f) (bs ++ cs) b := by
  intro rest
  show (p (bs ++ cs ++ rest)).bind (fun x => f x.1 x.2) = some (b, rest)
  rw [append_assoc, hp]
  exact hf rest

theorem Reads.map {f : α → β} (hp : Reads p bs a) : Reads (do let x ← p; pure (f x)) bs (f a) := by
  have h := hp.bind (f := fun x => (pure (f x) : ByteParser β)) (reads_pure (f a))
  rwa [append_nil] at h

theorem reads_take (bs : Bytes) : Reads (take bs.length) bs bs := by
  intro rest
  show (if bs.length ≤ (bs ++ rest).length then _ else _) = _
  rw [if_pos (by simp), take_left, drop_left]

theorem reads_byte (b : UInt8) : Reads byte [b] b :=
  fun _ => rfl

theorem reads_nat {w n : Nat} (hn : n < 256 ^ w) : Reads (nat w) (leBytes w n) n := by
  have htake := reads_take (leBytes w n)
  rw [length_leBytes] at htake
  have h := htake.map (f := leNat)
  rwa [leNat_leBytes_of_lt hn] at h

theorem reads_counted {w : Nat} (hn : bs.length < 256 ^ w) :
    Reads (counted w) (leBytes w bs.length ++ bs) bs :=
  (reads_nat hn).bind (reads_take bs)

/-- A repetition reads back a list whose elements were written one after the other. -/
theorem reads_times_of_forall₂ {as : List α} {bss : List Bytes}
    (h : Forall₂ (fun a bs => Reads p bs a) as bss) :
    Reads (times as.length p) bss.flatten as := by
  induction h with
  | nil => exact reads_pure []
  | cons ha _ ih => exact ha.bind ih.map

theorem reads_times {enc : α → Bytes} {as : List α} (h : ∀ a ∈ as, Reads p (enc a) a) :
    Reads (times as.length p) (as.flatMap enc) as := by
  refine reads_times_of_forall₂ (forall₂_map_right_iff.mpr ?_)
  exact forall₂_same.mpr h

/-! ## What a parser has read -/

theorem bind_eq_some (h : (p >>= f) bs = some (b, rest)) :
    ∃ a mid, p bs = some (a, mid) ∧ f a mid = some (b, rest) := by
  obtain ⟨⟨a, mid⟩, hp, hf⟩ := Option.bind_eq_some_iff.mp h
  exact ⟨a, mid, hp, hf⟩

theorem map_eq_some {f : α → β} (h : (do let x ← p; pure (f x) : ByteParser β) bs = some
    (b, rest)) :
    ∃ a, p bs = some (a, rest) ∧ b = f a := by
  obtain ⟨a, _, hp, hf⟩ := bind_eq_some h
  cases hf
  exact ⟨a, hp, rfl⟩

theorem take_eq_some {n : Nat} {x : Bytes} (h : take n bs = some (x, rest)) :
    n ≤ bs.length ∧ x = bs.take n ∧ rest = bs.drop n := by
  unfold take at h
  split at h
  · rename_i hle
    cases h
    exact ⟨hle, rfl, rfl⟩
  · cases h

/-! ## Whatever a parser returns -/

/-- Every value the parser returns satisfies `P`. -/
def Returns (p : ByteParser α) (P : α → Prop) : Prop :=
  ∀ bs a rest, p bs = some (a, rest) → P a

section Returns

variable {p : ByteParser α} {P : α → Prop} {Q : β → Prop}

theorem Returns.bind (hp : Returns p P)
    (hf : ∀ a, P a → Returns (f a) Q) : Returns (p >>= f) Q := by
  intro bs b rest h
  obtain ⟨a, mid, ha, hb⟩ := bind_eq_some h
  exact hf a (hp bs a mid ha) mid b rest hb

theorem returns_pure {a : α} (h : P a) : Returns (pure a) P := by
  intro bs x rest hx
  cases hx
  exact h

theorem Returns.map {f : α → β} (hp : Returns p P) (h : ∀ a, P a → Q (f a)) :
    Returns (do let x ← p; pure (f x)) Q :=
  hp.bind fun a ha => returns_pure (h a ha)

theorem returns_nat (w : Nat) : Returns (nat w) (· < 256 ^ w) := by
  intro bs n rest h
  obtain ⟨x, hx, rfl⟩ := map_eq_some h
  obtain ⟨hle, rfl, -⟩ := take_eq_some hx
  have hlt := leNat_lt (bs.take w)
  rwa [length_take, Nat.min_eq_left hle] at hlt

theorem returns_take (n : Nat) : Returns (take n) (·.length = n) := by
  intro bs x rest h
  obtain ⟨hle, rfl, -⟩ := take_eq_some h
  rw [length_take, Nat.min_eq_left hle]

theorem returns_byte : Returns byte (fun _ => True) :=
  fun _ _ _ _ => trivial

/-- A byte string is not longer than its length field can say. -/
theorem returns_counted (w : Nat) : Returns (counted w) (·.length < 256 ^ w) := by
  refine (returns_nat w).bind fun n hn bs x rest h => ?_
  rwa [returns_take n bs x rest h]

theorem Returns.times (hp : Returns p P) (n : Nat) :
    Returns (times n p) (fun as => as.length = n ∧ ∀ a ∈ as, P a) := by
  induction n with
  | zero => exact returns_pure ⟨rfl, by simp⟩
  | succ n ih =>
    refine hp.bind fun a ha => ih.map fun as hall => ?_
    obtain ⟨hlen, has⟩ := hall
    exact ⟨congrArg (· + 1) hlen, forall_mem_cons.mpr ⟨ha, has⟩⟩

theorem Returns.each (hq : ∀ b, Returns (q b) P) (bs : List β) :
    Returns (each q bs) (fun as => as.length = bs.length ∧ ∀ a ∈ as, P a) := by
  induction bs with
  | nil => exact returns_pure ⟨rfl, by simp⟩
  | cons b bs ih =>
    refine (hq b).bind fun a ha => ih.map fun as hall => ?_
    obtain ⟨hlen, has⟩ := hall
    exact ⟨congrArg (· + 1) hlen, forall_mem_cons.mpr ⟨ha, has⟩⟩

end Returns

/-! ## Input that is cut short -/

/-- What follows the bytes that the parser took does not matter to it. -/
def Steady (p : ByteParser α) : Prop :=
  ∀ bs a rest more, p bs = some (a, rest) → p (bs ++ more) = some (a, rest ++ more)

section Steady

variable {p : ByteParser α}

theorem steady_pure (a : α) : Steady (pure a) := by
  intro bs x rest more h
  cases h
  rfl

theorem steady_fail : Steady (fail : ByteParser α) := by
  intro bs x rest more h
  cases h

theorem Steady.bind (hp : Steady p) (hf : ∀ a, Steady (f a)) : Steady (p >>= f) := by
  intro bs b rest more h
  obtain ⟨a, mid, ha, hb⟩ := bind_eq_some h
  show (p (bs ++ more)).bind (fun x => f x.1 x.2) = some (b, rest ++ more)
  rw [hp bs a mid more ha]
  exact hf a mid b rest more hb

theorem Steady.map {f : α → β} (hp : Steady p) : Steady (do let x ← p; pure (f x)) :=
  hp.bind fun a => steady_pure (f a)

theorem steady_take (n : Nat) : Steady (take n) := by
  intro bs x rest more h
  obtain ⟨hle, rfl, rfl⟩ := take_eq_some h
  show (if n ≤ (bs ++ more).length then _ else _) = _
  rw [if_pos (by rw [length_append]; omega), take_append_of_le_length hle,
    drop_append_of_le_length hle]

theorem steady_byte : Steady byte := by
  intro bs x rest more h
  cases bs with
  | nil => cases h
  | cons b bs =>
    cases h
    rfl

theorem steady_nat (w : Nat) : Steady (nat w) :=
  (steady_take w).map

theorem steady_counted (w : Nat) : Steady (counted w) :=
  (steady_nat w).bind steady_take

theorem Steady.times (hp : Steady p) (n : Nat) : Steady (times n p) := by
  induction n with
  | zero => exact steady_pure []
  | succ n ih => exact hp.bind fun a => ih.map

theorem Steady.each (hq : ∀ b, Steady (q b)) (bs : List β) : Steady (each q bs) := by
  induction bs with
  | nil => exact steady_pure []
  | cons b bs ih => exact (hq b).bind fun a => ih.map

/-- A part of what was written is not read as anything. -/
theorem Reads.take_eq_none {enc : Bytes} {a : α} (h : Reads p enc a) (hp : Steady p) {k : Nat}
    (hk : k < enc.length) : p (enc.take k) = none := by
  by_contra hsome
  obtain ⟨⟨x, _⟩, hx⟩ := Option.ne_none_iff_exists'.mp hsome
  have hwhole := hp _ _ _ (enc.drop k) hx
  have henc := h []
  rw [append_nil] at henc
  rw [take_append_drop, henc, Option.some.injEq, Prod.mk.injEq] at hwhole
  have hlen := congrArg length hwhole.2
  rw [length_nil, length_append, length_drop] at hlen
  omega

end Steady

/-! ## Parsers that say why they fail -/

/-- A parser with an error. -/
abbrev Reader (ε α : Type) : Type := StateT Bytes (Except ε) α

variable {ε : Type}

/-- A parser whose failure is the error `e`. -/
def orError (e : ε) (p : ByteParser α) : Reader ε α :=
  fun bs => (p bs).elim (.error e) .ok

/-- `n` values in a row. -/
def Reader.times (n : Nat) (r : Reader ε α) : Reader ε (List α) :=
  match n with
  | 0 => pure []
  | n + 1 => do
      let a ← r
      let as ← times n r
      pure (a :: as)

/-- What is read from the front of a byte string. -/
def Reader.value (r : Reader ε α) (bs : Bytes) : Except ε α :=
  Prod.fst <$> r bs

/-- The parser without its errors. -/
def Reader.forget (r : Reader ε α) : ByteParser α :=
  fun bs => (r bs).toOption

@[simp] theorem forget_pure (a : α) : Reader.forget (pure a : Reader ε α) = pure a :=
  rfl

@[simp] theorem forget_orError (e : ε) (p : ByteParser α) : Reader.forget (orError e p) = p := by
  funext bs
  simp only [Reader.forget, orError]
  cases p bs <;> rfl

@[simp] theorem forget_bind (r : Reader ε α) (f : α → Reader ε β) :
    Reader.forget (r >>= f) = r.forget >>= fun a => (f a).forget := by
  funext bs
  show ((r bs).bind fun x => f x.1 x.2).toOption =
    (r bs).toOption.bind fun x => (f x.1 x.2).toOption
  cases r bs <;> rfl

@[simp] theorem forget_times (r : Reader ε α) (n : Nat) :
    (Reader.times n r).forget = times n r.forget := by
  induction n with
  | zero => rfl
  | succ n ih => simp only [Reader.times, times, forget_bind, forget_pure, ih]

/-- A format whose parser reads what satisfies `P`, and nothing else, is read back exactly then. -/
theorem value_eq_ok_iff {r : Reader ε α} {P : α → Prop} (hreads : P a → Reads r.forget bs a)
    (hreturns : Returns r.forget P) : r.value bs = .ok a ↔ P a := by
  have hforget : r.value bs = .ok a ↔ ∃ rest, r.forget bs = some (a, rest) := by
    unfold Reader.value Reader.forget
    cases r bs with
    | error e => exact iff_of_false (by rintro ⟨⟩) (by rintro ⟨_, ⟨⟩⟩)
    | ok x =>
      constructor
      · rintro ⟨⟩
        exact ⟨x.2, rfl⟩
      · rintro ⟨rest, ⟨⟩⟩
        rfl
  rw [hforget]
  constructor
  · rintro ⟨rest, h⟩
    exact hreturns bs a rest h
  · intro h
    have hread := hreads h []
    rw [append_nil] at hread
    exact ⟨[], hread⟩

end ByteParser
end NyxDb
