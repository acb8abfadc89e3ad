import NyxDb.Lib.Bytes
import Mathlib.Data.List.TakeWhile
import Mathlib.Tactic.IntervalCases

/-!
# Characters of the C locale and decimal numbers

The classes of characters as `<cctype>` has them in the C locale, runs of a class at the front of a
text, and integers written in decimal.  `natOfDigits_decimal` reads a number back.
-/

namespace NyxDb

open List

/-! ## Classes of characters -/

def isSpace (c : UInt8) : Bool :=
  c = 32 || (9 ≤ c && c ≤ 13)

def isAlpha (c : UInt8) : Bool :=
  (65 ≤ c && c ≤ 90) || (97 ≤ c && c ≤ 122)

def isDigit (c : UInt8) : Bool :=
  48 ≤ c && c ≤ 57

def isAlnum (c : UInt8) : Bool :=
  isAlpha c || isDigit c

def toUpper (c : UInt8) : UInt8 :=
  if 97 ≤ c ∧ c ≤ 122 then c - 32 else c

def toLower (c : UInt8) : UInt8 :=
  if 65 ≤ c ∧ c ≤ 90 then c + 32 else c

/-- A fact about every character is a fact about the 256 of them. -/
theorem forall_char {P : UInt8 → Prop} (h : ∀ n : Fin 256, P (UInt8.ofNat n)) (c : UInt8) :
    P c := by
  have hc : UInt8.ofNat c.toNat = c := UInt8.ofNat_toNat
  rw [← hc]
  exact h ⟨c.toNat, c.toNat_lt⟩

theorem isAlpha_toLower (c : UInt8) : isAlpha (toLower c) = isAlpha c := by
  exact forall_char (P := fun c => isAlpha (toLower c) = isAlpha c) (by decide +kernel) c

theorem toUpper_toLower (c : UInt8) : toUpper (toLower c) = toUpper c := by
  exact forall_char (P := fun c => toUpper (toLower c) = toUpper c) (by decide +kernel) c

theorem isSpace_of_isAlpha {c : UInt8} : isAlpha c = true → isSpace c = false := by
  exact forall_char (P := fun c => isAlpha c = true → isSpace c = false) (by decide +kernel) c

/-! ## Runs of a class -/

section Runs

variable {α : Type} {p : α → Bool}

/-- A run ends where the class ends. -/
theorem takeWhile_append_stop {xs ys : List α} (hxs : ∀ x ∈ xs, p x = true)
    (hys : ∀ y ∈ ys.head?, p y = false) : (xs ++ ys).takeWhile p = xs := by
  rw [takeWhile_append_of_pos hxs]
  cases ys with
  | nil => simp
  | cons y ys => simp [hys y rfl]

/-- The first element after a run is outside the class. -/
theorem head_dropWhile (xs : List α) : ∀ x ∈ (xs.dropWhile p).head?, p x = false := by
  intro x hx
  have h := head?_dropWhile_not p xs
  rw [Option.mem_def.1 hx] at h
  simpa using h

end Runs

/-! ## Decimal numbers -/

/-- The character of a digit. -/
def digitChar (d : Nat) : UInt8 :=
  UInt8.ofNat (48 + d)

/-- The digits of a number in front of a text. -/
def decimalBefore : Nat → Nat → Bytes → Bytes
  | 0, _, text => text
  | fuel + 1, n, text =>
    if n < 10 then digitChar n :: text
    else decimalBefore fuel (n / 10) (digitChar (n % 10) :: text)

/-- A number in decimal. -/
def decimal (n : Nat) : Bytes :=
  decimalBefore (n + 1) n []

/-- An integer in decimal, as `std::to_string` writes it. -/
def decimalInt (z : Int) : Bytes :=
  if z < 0 then 45 :: decimal z.natAbs else decimal z.natAbs

/-- The number a text of digits stands for, after the digits of `acc`. -/
def natAfter (acc : Nat) (digits : Bytes) : Nat :=
  digits.foldl (fun n c => 10 * n + (c.toNat - 48)) acc

/-- The number a text of digits stands for. -/
def natOfDigits (digits : Bytes) : Nat :=
  natAfter 0 digits

theorem isDigit_digitChar {d : Nat} (hd : d < 10) : isDigit (digitChar d) = true := by
  interval_cases d <;> rfl

theorem toNat_digitChar {d : Nat} (hd : d < 10) : (digitChar d).toNat - 48 = d := by
  interval_cases d <;> rfl

/-- What stands before the text: digits, at least one of them, that stand for the number. -/
theorem decimalBefore_spec {fuel n : Nat} (hfuel : n < fuel) (text : Bytes) :
    ∃ digits, decimalBefore fuel n text = digits ++ text ∧ digits ≠ [] ∧
      (∀ c ∈ digits, isDigit c = true) ∧ natOfDigits digits = n := by
  induction fuel generalizing n text with
  | zero => exact absurd hfuel (Nat.not_lt_zero n)
  | succ fuel ih =>
    rw [decimalBefore]
    split
    case isTrue hn =>
      refine ⟨[digitChar n], rfl, by simp, ?_, ?_⟩
      · simpa using isDigit_digitChar hn
      · simpa [natOfDigits, natAfter] using toNat_digitChar hn
    case isFalse hn =>
      have hmod : n % 10 < 10 := Nat.mod_lt n (by decide)
      obtain ⟨digits, heq, -, hdigits, hval⟩ :=
        ih (n := n / 10) (by omega) (digitChar (n % 10) :: text)
      refine ⟨digits ++ [digitChar (n % 10)], by simp [heq], by simp, ?_, ?_⟩
      · intro c hc
        rcases mem_append.1 hc with h | h
        · exact hdigits c h
        · rw [mem_singleton.1 h]
          exact isDigit_digitChar hmod
      · unfold natOfDigits natAfter at hval ⊢
        rw [foldl_append]
        simp only [foldl_cons, foldl_nil, toNat_digitChar hmod]
        omega

theorem decimal_spec (n : Nat) :
    decimal n ≠ [] ∧ (∀ c ∈ decimal n, isDigit c = true) ∧ natOfDigits (decimal n) = n := by
  obtain ⟨_, heq, hne, hdigits, hval⟩ := decimalBefore_spec (Nat.lt_succ_self n) []
  rw [append_nil] at heq
  unfold decimal
  rw [heq]
  exact ⟨hne, hdigits, hval⟩

theorem decimal_ne_nil (n : Nat) : decimal n ≠ [] :=
  (decimal_spec n).1

@[simp] theorem natOfDigits_decimal (n : Nat) : natOfDigits (decimal n) = n :=
  (decimal_spec n).2.2

example : decimalInt (-2147483648) = [45, 50, 49, 52, 55, 52, 56, 51, 54, 52, 56] := by decide

end NyxDb
