import NyxDb.Sql.Calendar

/-!
# The proleptic Gregorian calendar

Dates counted day by day, and the numbers that `civilToDays` and `parseTimestampString` give them.
-/

namespace NyxDb.Sql

open List

/-- A date of the proleptic Gregorian calendar. -/
structure CivilDate where
  year : Int
  month : Nat
  day : Nat
  deriving DecidableEq

namespace CivilDate

def isLeap (y : Int) : Bool :=
  y % 4 = 0 && (y % 100 ≠ 0 || y % 400 = 0)

def daysOf (y : Int) : Nat → Nat
  | 2 => if isLeap y then 29 else 28
  | 4 | 6 | 9 | 11 => 30
  | _ => 31

def Valid (x : CivilDate) : Prop :=
  0 ≤ x.year ∧ 1 ≤ x.month ∧ x.month ≤ 12 ∧ 1 ≤ x.day ∧ x.day ≤ daysOf x.year x.month

instance (x : CivilDate) : Decidable x.Valid :=
  inferInstanceAs (Decidable (_ ∧ _))

def Before (x y : CivilDate) : Prop :=
  x.year < y.year ∨ x.year = y.year ∧ (x.month < y.month ∨ x.month = y.month ∧ x.day < y.day)

/-- The day after a date. -/
def next (x : CivilDate) : CivilDate :=
  if x.day < daysOf x.year x.month then { x with day := x.day + 1 }
  else if x.month < 12 then ⟨x.year, x.month + 1, 1⟩
  else ⟨x.year + 1, 1, 1⟩

def epoch : CivilDate := ⟨1970, 1, 1⟩

/-- The number of a day, with the years beginning in March. -/
def number (x : CivilDate) : Int :=
  let y := x.year - if x.month ≤ 2 then 1 else 0
  let m : Int := if x.month ≤ 2 then x.month + 9 else x.month - 3
  365 * y + y / 4 - y / 100 + y / 400 + (153 * m + 2) / 5 + x.day - 719469

variable {x y : CivilDate}

theorem daysOf_bounds (y : Int) (m : Nat) : 28 ≤ daysOf y m ∧ daysOf y m ≤ 31 := by
  unfold daysOf
  split <;> (try split) <;> omega

theorem daysOf_two (y : Int) :
    daysOf y 2 = 29 ∧ y % 4 = 0 ∧ (y % 100 ≠ 0 ∨ y % 400 = 0) ∨
      daysOf y 2 = 28 ∧ ¬ (y % 4 = 0 ∧ (y % 100 ≠ 0 ∨ y % 400 = 0)) := by
  cases hleap : isLeap y <;> simp [daysOf, hleap] <;> simpa [isLeap] using hleap

theorem civilToDays_eq (h : x.Valid) : civilToDays x.year x.month x.day = .ok x.number := by
  obtain ⟨_, _, _, _, _⟩ := h
  have h31 := (daysOf_bounds x.year x.month).2
  rw [civilToDays, if_neg (by omega)]
  refine congrArg Except.ok ?_
  unfold number
  by_cases hmar : x.month ≤ 2
  · simp only [hmar, if_true, show ¬ 2 < x.month by omega, if_false]
    by_cases hneg : 0 ≤ x.year - 1
    · rw [if_pos hneg, Int.tdiv_eq_ediv_of_nonneg hneg]
      omega
    · rw [if_neg hneg, show x.year = 0 by omega]
      simp
      omega
  · simp only [hmar, if_false, show 2 < x.month by omega, if_true]
    rw [if_pos (by omega), Int.tdiv_eq_ediv_of_nonneg (by omega)]
    omega

theorem number_next (h : x.Valid) : x.next.number = x.number + 1 := by
  obtain ⟨x, m, d⟩ := x
  obtain ⟨hy, hm, hm', hd, hd'⟩ := h
  simp only at hy hm hm' hd hd'
  unfold next
  simp only
  split
  · simp only [number]
    push_cast
    omega
  · next hlast =>
    obtain rfl : d = daysOf x m := by omega
    -- only the length of February depends on the year
    by_cases hfeb : m = 2
    · subst hfeb
      obtain ⟨hdays, hleap⟩ | ⟨hdays, hleap⟩ := daysOf_two x <;> simp [number, hdays] <;> omega
    · interval_cases m <;> simp [number, daysOf] at hfeb ⊢ <;> omega

theorem number_lt (hx : x.Valid) (hy : y.Valid) (h : x.Before y) : x.number < y.number := by
  obtain ⟨x, m, d⟩ := x
  obtain ⟨y, n, e⟩ := y
  obtain ⟨-, -, _, -, _⟩ := hx
  obtain ⟨-, _, -, _, -⟩ := hy
  simp only [Before] at *
  unfold number
  by_cases hfeb : m = 2
  · subst hfeb
    obtain ⟨hdays, hleap⟩ | ⟨hdays, hleap⟩ := daysOf_two x <;> simp [hdays] at * <;> split <;> omega
  · interval_cases m <;> simp [daysOf] at * <;> split <;> omega

theorem valid_next (h : x.Valid) : x.next.Valid := by
  obtain ⟨hy, hm, hm', -, -⟩ := h
  have hone := fun y m => (daysOf_bounds y m).1
  unfold next
  split
  · exact ⟨hy, hm, hm', by simp, by simpa⟩
  · split
    · exact ⟨hy, by simp, by simp; omega, le_rfl, (hone _ _).trans' (by simp)⟩
    · exact ⟨by simp; omega, by simp, by simp, le_rfl, (hone _ _).trans' (by simp)⟩

theorem number_iterate (h : x.Valid) (n : Nat) :
    (next^[n] x).Valid ∧ (next^[n] x).number = x.number + n := by
  induction n with
  | zero => exact ⟨h, (Int.add_zero _).symm⟩
  | succ n ih =>
    rw [Function.iterate_succ_apply']
    refine ⟨valid_next ih.1, ?_⟩
    rw [number_next ih.1, ih.2, Nat.cast_succ, Int.add_assoc]

theorem before_trichotomy (x y : CivilDate) : x.Before y ∨ x = y ∨ y.Before x := by
  obtain ⟨a, m, d⟩ := x
  obtain ⟨b, n, e⟩ := y
  simp only [Before, mk.injEq]
  omega

theorem number_injective (hx : x.Valid) (hy : y.Valid) (h : x.number = y.number) : x = y := by
  obtain hlt | heq | hgt := before_trichotomy x y
  · exact absurd h (number_lt hx hy hlt).ne
  · exact heq
  · exact absurd h (number_lt hy hx hgt).ne'

theorem valid_epoch : epoch.Valid := by decide

/-- The number counts the days one by one. -/
theorem number_counts (h : x.Valid) : if 0 ≤ x.number then next^[x.number.toNat] epoch = x
    else next^[(-x.number).toNat] x = epoch := by
  have hepoch : epoch.number = 0 := by decide
  split
  · next hpos =>
    obtain ⟨hvalid, hnumber⟩ := number_iterate valid_epoch x.number.toNat
    exact number_injective hvalid h (by omega)
  · next hneg =>
    obtain ⟨hvalid, hnumber⟩ := number_iterate h (-x.number).toNat
    exact number_injective hvalid valid_epoch (by omega)

theorem number_bounds (h : x.Valid) (hyear : x.year ≤ 9999) :
    -719528 ≤ x.number ∧ x.number ≤ 3000000 := by
  obtain ⟨_, _, _, _, _⟩ := h
  have h31 := (daysOf_bounds x.year x.month).2
  unfold number
  dsimp only
  split <;> omega

end CivilDate

/-! ## Dates and timestamps as text -/

/-- The last `k` digits of a number. -/
def fixed : Nat → Nat → Bytes
  | 0, _ => []
  | k + 1, n => fixed k (n / 10) ++ [digitChar (n % 10)]

theorem natOfDigits_concat (text : Bytes) {d : Nat} (hd : d < 10) :
    natOfDigits (text ++ [digitChar d]) = 10 * natOfDigits text + d := by
  rw [natOfDigits, natAfter, foldl_append]
  simp only [foldl_cons, foldl_nil, toNat_digitChar hd]
  rfl

theorem fixed_spec (k n : Nat) : (fixed k n).length = k ∧ (∀ c ∈ fixed k n, isDigit c = true) ∧
    natOfDigits (fixed k n) = n % 10 ^ k := by
  have hmod : ∀ n, n % 10 < 10 := fun n => Nat.mod_lt n (by decide)
  induction k generalizing n with
  | zero => exact ⟨rfl, nofun, (Nat.mod_one n).symm⟩
  | succ k ih =>
    obtain ⟨hlen, hdigits, hval⟩ := ih (n / 10)
    refine ⟨by simp [fixed, hlen], ?_, ?_⟩
    · simpa [fixed] using fun c hc => hc.elim (hdigits c) fun h => h ▸ isDigit_digitChar (hmod n)
    · rw [fixed, natOfDigits_concat _ (hmod n), hval, Nat.pow_succ', Nat.mod_mul, Nat.add_comm]

theorem fixed_zeros (k n j : Nat) :
    fixed k n ++ replicate j 48 = fixed (k + j) (n * 10 ^ j) := by
  induction j with
  | zero => simp
  | succ j ih =>
    have hdiv : n * 10 ^ (j + 1) / 10 = n * 10 ^ j := by
      rw [Nat.pow_succ, ← Nat.mul_assoc, Nat.mul_div_cancel _ (by decide)]
    have hmod : n * 10 ^ (j + 1) % 10 = 0 := by rw [Nat.pow_succ, ← Nat.mul_assoc, Nat.mul_mod_left]
    rw [← Nat.add_assoc, fixed, hdiv, hmod, ← ih, replicate_succ', append_assoc]
    rfl

theorem stoi_digits {text : Bytes} (hne : text ≠ []) (h : ∀ c ∈ text, isDigit c = true) :
    stoi text = some ((natOfDigits text : Nat) : Int) := by
  obtain ⟨c, rest, rfl⟩ := exists_cons_of_ne_nil hne
  have hc : isSpace c = false ∧ c ≠ 43 ∧ c ≠ 45 :=
    forall_char (P := fun c => isDigit c = true → isSpace c = false ∧ c ≠ 43 ∧ c ≠ 45)
      (by decide +kernel) c (h c mem_cons_self)
  have hrun : (c :: rest ++ []).takeWhile isDigit = c :: rest := takeWhile_append_stop h nofun
  rw [append_nil] at hrun
  simp [stoi, skipSign, hc, hrun]

theorem numberAt_fixed {what text : Bytes} {start k n : Nat} (hk : 0 < k) (hn : n < 10 ^ k)
    (h : (text.drop start).take k = fixed k n) : numberAt what text start k = .ok (n : Int) := by
  obtain ⟨_, hdigits, hval⟩ := fixed_spec k n
  have hne : fixed k n ≠ [] := ne_nil_of_length_pos (by omega)
  rw [numberAt, h, stoi_digits hne hdigits, hval, Nat.mod_eq_of_lt hn]

/-- A time of the day, with some digits of a second. -/
structure CivilTime where
  hour : Nat
  minute : Nat
  second : Nat
  digits : Nat
  fraction : Nat

namespace CivilTime

def Valid (t : CivilTime) : Prop :=
  t.hour < 24 ∧ t.minute < 60 ∧ t.second < 60 ∧ t.digits ≤ 6 ∧ t.fraction < 10 ^ t.digits

/-- The microseconds of the day. -/
def micros (t : CivilTime) : Nat :=
  ((t.hour * 60 + t.minute) * 60 + t.second) * 1000000 + t.fraction * 10 ^ (6 - t.digits)

theorem Valid.scaled_lt {t : CivilTime} (h : t.Valid) :
    t.fraction * 10 ^ (6 - t.digits) < 10 ^ 6 := by
  obtain ⟨-, -, -, _, hu⟩ := h
  calc t.fraction * 10 ^ (6 - t.digits)
      < 10 ^ t.digits * 10 ^ (6 - t.digits) := Nat.mul_lt_mul_of_pos_right hu (by positivity)
    _ = 10 ^ 6 := by rw [← Nat.pow_add, show t.digits + (6 - t.digits) = 6 by omega]

theorem Valid.micros_lt {t : CivilTime} (h : t.Valid) : t.micros < 86400000000 := by
  have hscaled := h.scaled_lt
  obtain ⟨_, _, _, -, -⟩ := h
  unfold micros
  omega

/-- The fraction of a second as text. -/
def fractionText (t : CivilTime) : Bytes :=
  if t.digits = 0 then [] else 46 :: fixed t.digits t.fraction

end CivilTime

/-- A date as text. -/
def dateText (x : CivilDate) : Bytes :=
  fixed 4 x.year.toNat ++ [45] ++ fixed 2 x.month ++ [45] ++ fixed 2 x.day

/-- A timestamp as text; `sep` is a space or a `T`. -/
def timestampText (x : CivilDate) (sep : UInt8) (t : CivilTime) : Bytes :=
  fixed 4 x.year.toNat ++ [45] ++ fixed 2 x.month ++ [45] ++ fixed 2 x.day ++ [sep] ++
    fixed 2 t.hour ++ [58] ++ fixed 2 t.minute ++ [58] ++ fixed 2 t.second ++ t.fractionText

theorem parseFraction_eq {front : Bytes} (hfront : front.length = 19) {t : CivilTime}
    (ht : t.Valid) : parseFraction (front ++ t.fractionText) =
      .ok ((t.fraction * 10 ^ (6 - t.digits) : Nat) : Int) := by
  have hscaled := ht.scaled_lt
  obtain ⟨-, -, -, _, hu⟩ := ht
  have hlen := (fixed_spec t.digits t.fraction).1
  unfold parseFraction CivilTime.fractionText
  by_cases hzero : t.digits = 0
  · rw [hzero] at hu
    rw [if_pos hzero, append_nil, if_pos hfront.le, show t.fraction = 0 by omega, Nat.zero_mul]
    rfl
  · have hdrop : (front ++ 46 :: fixed t.digits t.fraction).drop 20 =
        fixed t.digits t.fraction := by
      rw [show 20 = front.length + 1 by omega, drop_length_add_append]
      rfl
    have hne : fixed t.digits t.fraction ≠ [] := ne_nil_of_length_pos (by omega)
    rw [if_neg hzero, if_neg (by simp; omega), if_neg (by simp [hfront])]
    simp only [hdrop, hlen]
    rw [if_neg (by simp [hne]; omega), fixed_zeros, show t.digits + (6 - t.digits) = 6 by omega]
    exact numberAt_fixed (by decide) hscaled rfl

theorem exists_fixed_two (n : Nat) : ∃ a b, fixed 2 n = [a, b] :=
  ⟨_, _, rfl⟩

theorem exists_fixed_four (n : Nat) : ∃ a b c d, fixed 4 n = [a, b, c, d] :=
  ⟨_, _, _, _, rfl⟩

theorem toUnsigned_of_lt {n : Nat} (hn : n < 10 ^ 2) : toUnsigned n = n := by
  unfold toUnsigned
  omega

theorem CivilDate.Valid.two_digits {x : CivilDate} (h : x.Valid) :
    x.month < 10 ^ 2 ∧ x.day < 10 ^ 2 := by
  have h31 := (CivilDate.daysOf_bounds x.year x.month).2
  obtain ⟨-, -, _, -, hd⟩ := h
  exact ⟨by omega, hd.trans_lt (by omega)⟩

/-- **A date is read** as its number. -/
theorem parse_dateText {x : CivilDate} (hx : x.Valid) (hyear : x.year ≤ 9999) :
    parseDateString (dateText x) = .ok (BitVec.ofInt 32 x.number) := by
  have hdays := CivilDate.civilToDays_eq hx
  have hsmall := hx.two_digits
  obtain ⟨hy, -⟩ := hx
  obtain ⟨y₀, y₁, y₂, y₃, ey⟩ := exists_fixed_four x.year.toNat
  obtain ⟨m₀, m₁, em⟩ := exists_fixed_two x.month
  obtain ⟨d₀, d₁, ed⟩ := exists_fixed_two x.day
  have htext : dateText x = [y₀, y₁, y₂, y₃, 45, m₀, m₁, 45, d₀, d₁] := by
    simp [dateText, ey, em, ed]
  have hfield := fun start k n => @numberAt_fixed (ascii "date") (dateText x) start k n
  rw [htext] at hfield ⊢
  unfold parseDateString
  rw [if_neg (by simp), hfield 0 4 _ (by decide) (by omega) ey.symm,
    hfield 5 2 _ (by decide) hsmall.1 em.symm, hfield 8 2 _ (by decide) hsmall.2 ed.symm]
  show Except.bind (civilToDays _ (toUnsigned _) (toUnsigned _)) _ = _
  rw [toUnsigned_of_lt hsmall.1, toUnsigned_of_lt hsmall.2, Int.toNat_of_nonneg hy, hdays]
  rfl

/-- **A timestamp is read** as the microseconds since the epoch. -/
theorem parse_timestampText {x : CivilDate} (hx : x.Valid) (hyear : x.year ≤ 9999) {sep : UInt8}
    (hsep : sep = 32 ∨ sep = 84) {t : CivilTime} (ht : t.Valid) :
    parseTimestampString (timestampText x sep t) =
      .ok (BitVec.ofInt 64 (x.number * 86400000000 + t.micros)) := by
  have hfrac : parseFraction (timestampText x sep t) = _ := parseFraction_eq rfl ht
  have hdays := CivilDate.civilToDays_eq hx
  have hsmall := hx.two_digits
  obtain ⟨hy, -⟩ := hx
  obtain ⟨hh, hmi, hse, -, -⟩ := ht
  obtain ⟨y₀, y₁, y₂, y₃, ey⟩ := exists_fixed_four x.year.toNat
  obtain ⟨m₀, m₁, em⟩ := exists_fixed_two x.month
  obtain ⟨d₀, d₁, ed⟩ := exists_fixed_two x.day
  obtain ⟨h₀, h₁, eh⟩ := exists_fixed_two t.hour
  obtain ⟨i₀, i₁, ei⟩ := exists_fixed_two t.minute
  obtain ⟨s₀, s₁, es⟩ := exists_fixed_two t.second
  -- with its bytes named, every part of the text is where the parser looks for it
  have htext : timestampText x sep t = [y₀, y₁, y₂, y₃, 45, m₀, m₁, 45, d₀, d₁, sep, h₀, h₁, 58,
      i₀, i₁, 58, s₀, s₁] ++ t.fractionText := by
    simp [timestampText, ey, em, ed, eh, ei, es]
  have hfield := fun start k n => @numberAt_fixed (ascii "timestamp")
    (timestampText x sep t) start k n
  rw [htext] at hfrac hfield ⊢
  unfold parseTimestampString
  rw [if_neg]
  · rw [hfield 0 4 _ (by decide) (by omega) ey.symm, hfield 5 2 _ (by decide) hsmall.1 em.symm,
      hfield 8 2 _ (by decide) hsmall.2 ed.symm,
      hfield 11 2 _ (by decide) (hh.trans (by decide)) eh.symm,
      hfield 14 2 _ (by decide) (hmi.trans (by decide)) ei.symm,
      hfield 17 2 _ (by decide) (hse.trans (by decide)) es.symm, hfrac]
    show (if _ then _ else _) = _
    rw [if_neg (by omega), toUnsigned_of_lt hsmall.1, toUnsigned_of_lt hsmall.2,
      Int.toNat_of_nonneg hy, hdays]
    refine congrArg (fun z => Except.ok (BitVec.ofInt 64 z)) ?_
    unfold CivilTime.micros
    push_cast
    ring
  · rcases hsep with rfl | rfl <;> simp

/-- **Calendar arithmetic.** The number of a date is how often one goes to the next day between the
epoch and it; later dates have larger numbers; the text of a date is read as its number; and a
timestamp is its date in microseconds and the microseconds of its day, with no overflow. -/
theorem calendar_exact {x : CivilDate} (hx : x.Valid) (hyear : x.year ≤ 9999) :
    ∃ days, civilToDays x.year x.month x.day = .ok days ∧
      (if 0 ≤ days then CivilDate.next^[days.toNat] .epoch = x
        else CivilDate.next^[(-days).toNat] x = .epoch) ∧
      (∀ y : CivilDate, y.Valid → y.year ≤ 9999 → x.Before y →
        ∃ days', civilToDays y.year y.month y.day = .ok days' ∧ days < days') ∧
      (∃ v, parseDateString (dateText x) = .ok v ∧ v.toInt = days) ∧
      ∀ sep t, (sep = 32 ∨ sep = 84) → t.Valid → ∃ v,
        parseTimestampString (timestampText x sep t) = .ok v ∧
          v.toInt = days * 86400000000 + t.micros := by
  have hnumber := CivilDate.number_bounds hx hyear
  refine ⟨x.number, CivilDate.civilToDays_eq hx, CivilDate.number_counts hx, ?_, ?_, ?_⟩
  · intro y hy _ hbefore
    exact ⟨_, CivilDate.civilToDays_eq hy, CivilDate.number_lt hx hy hbefore⟩
  · refine ⟨_, parse_dateText hx hyear, ?_⟩
    rw [BitVec.toInt_ofInt, Int.bmod_eq_of_le (by omega) (by omega)]
  · intro sep t hsep ht
    refine ⟨_, parse_timestampText hx hyear hsep ht, ?_⟩
    have hmicros := ht.micros_lt
    rw [BitVec.toInt_ofInt, Int.bmod_eq_of_le (by omega) (by omega)]

example : parseDateString (ascii "2000-03-01") = .ok 11017 := by decide +kernel

/-- A leap day, the day after it, and half a second before midnight. -/
theorem calendar_exact_leap_day : (⟨2000, 2, 29⟩ : CivilDate).Valid ∧
    CivilDate.next^[11016] .epoch = ⟨2000, 2, 29⟩ ∧
    (∃ days', civilToDays 2000 3 1 = .ok days' ∧ 11016 < days') ∧
    (∃ v, parseDateString (ascii "2000-02-29") = .ok v ∧ v.toInt = 11016) ∧
    ∃ v, parseTimestampString (ascii "2000-02-29 23:59:59.5") = .ok v ∧
      v.toInt = 11016 * 86400000000 + 86399500000 := by
  refine ⟨by decide, ?_⟩
  obtain ⟨days, hdays, hcount, hlater, hdate, hstamp⟩ :=
    calendar_exact (x := ⟨2000, 2, 29⟩) (by decide) (by decide)
  obtain rfl : (11016 : Int) = days := Except.ok.inj hdays
  exact ⟨hcount, hlater ⟨2000, 3, 1⟩ (by decide) (by decide) (.inr ⟨rfl, .inl (by decide)⟩), hdate,
    hstamp 32 ⟨23, 59, 59, 1, 5⟩ (.inl rfl) ⟨by decide, by decide, by decide, by decide, by decide⟩⟩

end NyxDb.Sql
