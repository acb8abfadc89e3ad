import NyxDb.Sql.Parser

/-!
# Integer literals

A literal is converted by `std::strtoll`, which takes the largest number for one that does not fit,
or in a default by `std::stoll`, which throws; minus signs are applied afterwards, and only in
expressions.  So a number of 2^63 or more is never read as itself, and -2^63 cannot be written.

`int_literal_iff` says for each place of the grammar which numerals are read as the number they
stand for or rejected, which of them are not rejected, and which values an expression can write.
The operand with its signs is followed by induction over the signs (`parseUnary_signs`); the other
places take one token (`readOrRejected_unsigned`) and refuse a sign (`parse_sign`).
-/

namespace NyxDb.Sql

open List

/-- The places of the grammar that take an integer. -/
inductive IntPosition where
  | expression
  | limit
  | offset
  | varchar
  | default
  deriving DecidableEq, Repr

def exprInt : Expr → Option Int
  | .intLit v _ => some v.toInt
  | _ => none

def valueInt : Value → Option Int
  | .int32 v => some v.toInt
  | .int64 v => some v.toInt
  | _ => none

namespace IntPosition

/-- What the parser reads there; of an expression, an operand. -/
def parse : IntPosition → Parse (Option Int)
  | .expression => fun tokens => (do return exprInt (← parseUnary (tokens.length + 1))) tokens
  | .limit => do return some (← parseIntLiteral (ascii "LIMIT")).toInt
  | .offset => do return some (← parseIntLiteral (ascii "OFFSET")).toInt
  | .varchar => do return some (← parseVarcharLength).toNat
  | .default => do return valueInt (← parseDefaultLiteral)

/-- The number itself, which fits in 64 bits, or a parse error. -/
def ReadOrRejected (z : Int) : Except SqlError (Option Int × List Token) → Prop
  | .ok (v, _) => v = some z ∧ -2 ^ 63 ≤ z ∧ z < 2 ^ 63
  | .error (.parse _ _) => True
  | .error _ => False

/-- Which numbers are read as themselves or rejected after so many minus signs. -/
def Readable (signs n : Nat) : IntPosition → Prop
  | .expression => n < 2 ^ 63
  | .varchar => True
  | _ => 0 < signs ∨ n < 2 ^ 63

/-- Which of them are not rejected.  The length of a `VARCHAR` is left out: whether it is read also
depends on the parenthesis that follows. -/
def Accepted (signs n : Nat) : IntPosition → Prop
  | .expression => n < 2 ^ 63
  | .varchar => False
  | _ => signs = 0 ∧ n < 2 ^ 63

/-- Some minus signs and digits are read as the number, whatever follows them. -/
def Writable (z : Int) : Prop :=
  ∃ signs lit, (∀ t ∈ signs, t.kind = .minus) ∧ lit.kind = .intLiteral ∧ lit.text ≠ [] ∧
    (∀ c ∈ lit.text, isDigit c = true) ∧
    ∀ rest, ∃ rest', parse .expression (signs ++ lit :: rest) = .ok (some z, rest')

variable {pos : IntPosition} {lit t : Token} {signs : List Token}

theorem toInt_ofNat {w n : Nat} (hn : 2 * n < 2 ^ w) : (BitVec.ofNat w n).toInt = n := by
  rw [BitVec.toInt_eq_toNat_of_lt] <;> rw [BitVec.toNat_ofNat, Nat.mod_eq_of_lt (by omega)]
  omega

theorem toInt_strtoll (digits : Bytes) :
    (strtoll digits).toInt = min (natOfDigits digits) (2 ^ 63 - 1) :=
  toInt_ofNat (by omega)

theorem consume_cons (t : Token) (ts : List Token) : ∃ rest, consume (t :: ts) = .ok (t, rest) :=
  ⟨_, rfl⟩

/-- An operand with minus signs: they are applied to the number that was read. -/
theorem parseUnary_signs (hsigns : ∀ t ∈ signs, t.kind = .minus) (hlit : lit.kind = .intLiteral)
    (rest : List Token) (fuel : Nat) (hfuel : signs.length + 1 < fuel) :
    ∃ v loc rest', parseUnary fuel (signs ++ lit :: rest) = .ok (.intLit v loc, rest') ∧
      v.toInt = (-1) ^ signs.length * (min (natOfDigits lit.text) (2 ^ 63 - 1) : Nat) := by
  induction signs generalizing fuel with
  | nil =>
    obtain ⟨fuel, rfl⟩ : ∃ n, fuel = n + 2 := ⟨fuel - 2, by omega⟩
    obtain ⟨rest', hconsume⟩ := consume_cons lit rest
    refine ⟨strtoll lit.text, lit.loc, rest', ?_, by simp [toInt_strtoll]⟩
    rw [parseUnary, nil_append, bind_of_ok (a := lit) rfl, hlit, if_neg (by decide),
      if_neg (by decide), parsePrimary, bind_of_ok (a := lit) rfl, hlit]
    exact bind_of_ok hconsume
  | cons t signs ih =>
    obtain ⟨fuel, rfl⟩ : ∃ n, fuel = n + 1 := ⟨fuel - 1, by omega⟩
    obtain ⟨v, loc, rest', hrun, hv⟩ := ih (fun t ht => hsigns t (mem_cons_of_mem _ ht)) fuel
      (Nat.lt_of_succ_lt_succ hfuel)
    have hconsume : consume (t :: (signs ++ lit :: rest)) = .ok (t, signs ++ lit :: rest) := by
      simp [consume, peekAt]
    refine ⟨-v, combineLoc t.loc loc, rest', ?_, ?_⟩
    · rw [parseUnary, cons_append, bind_of_ok (a := t) rfl, hsigns t mem_cons_self, if_pos rfl,
        bind_of_ok hconsume, bind_of_ok hrun]
      rfl
    · -- the number that was read is not the smallest one
      have hmin : v ≠ BitVec.intMin 64 := by
        rintro rfl
        rcases neg_one_pow_eq_or Int signs.length with h | h <;> rw [h] at hv <;>
          simp [BitVec.toInt_intMin] at hv <;> omega
      rw [BitVec.toInt_neg_of_ne_intMin hmin, hv, length_cons, pow_succ]
      ring

theorem expectToken_cons (kind : TokenKind) (message : Bytes) (t : Token) (ts : List Token) :
    expectToken kind message (t :: ts) =
      if t.kind = kind then consume (t :: ts) else .error (.parse t.loc message) := by
  rw [expectToken, bind_of_ok (a := t) rfl, ite_not]
  split <;> rfl

theorem expect_cases (kind : TokenKind) (message : Bytes) (ts : List Token) :
    (∃ rest, expect kind message ts = .ok ((), rest)) ∨
      ∃ loc, expect kind message ts = .error (.parse loc message) := by
  have hmatch : match_ kind ts = _ := bind_of_ok (p := peek) (a := peekAt 0 ts) rfl
  split_ifs at hmatch
  · exact .inl ⟨_, bind_of_ok hmatch⟩
  · exact .inr ⟨_, bind_of_ok hmatch⟩

/-- Where no sign is allowed, a sign is a parse error. -/
theorem parse_sign (hpos : pos ≠ .expression) (ht : t.kind = .minus) (ts : List Token) :
    ∃ loc message, pos.parse (t :: ts) = .error (.parse loc message) := by
  have hsign : ∀ what, parseIntLiteral what (t :: ts) = .error (.parse t.loc _) := fun what =>
    bind_of_error (by rw [expectToken_cons, if_neg (by rw [ht]; decide)])
  cases pos with
  | expression => exact absurd rfl hpos
  | limit | offset => exact ⟨_, _, bind_of_error (hsign _)⟩
  | varchar => exact ⟨_, _, bind_of_error (bind_of_error (hsign _))⟩
  | default =>
    have hrun : parseDefaultLiteral (t :: ts) =
        errAt (ascii "expected a literal value after DEFAULT") t (t :: ts) := by
      rw [parseDefaultLiteral, bind_of_ok (a := t) rfl, ht]
    exact ⟨_, _, bind_of_error hrun⟩

theorem parseIntLiteral_cons (hlit : lit.kind = .intLiteral) (ts : List Token) :
    ∃ rest, ∀ what, parseIntLiteral what (lit :: ts) = .ok (strtoll lit.text, rest) := by
  obtain ⟨rest, hconsume⟩ := consume_cons lit ts
  exact ⟨rest, fun what => bind_of_ok (by rw [expectToken_cons, if_pos hlit, hconsume])⟩

/-- `LIMIT` and `OFFSET` cut the number to the largest one. -/
theorem parse_count (hpos : pos = .limit ∨ pos = .offset) (hlit : lit.kind = .intLiteral)
    (ts : List Token) : ∃ rest, pos.parse (lit :: ts) =
      .ok (some ((min (natOfDigits lit.text) (2 ^ 63 - 1) : Nat) : Int), rest) := by
  obtain ⟨rest, hrun⟩ := parseIntLiteral_cons hlit ts
  refine ⟨rest, ?_⟩
  rcases hpos with rfl | rfl
  all_goals
    rw [parse, bind_of_ok (hrun _), ← toInt_strtoll]
    rfl

/-- A default is the number, or an exception that nothing catches. -/
theorem parse_default (hlit : lit.kind = .intLiteral) (ts : List Token) :
    (natOfDigits lit.text < 2 ^ 63 ∧ ∃ rest,
      parse .default (lit :: ts) = .ok (some (natOfDigits lit.text : Int), rest)) ∨
    (2 ^ 63 ≤ natOfDigits lit.text ∧ parse .default (lit :: ts) = .error .uncaught) := by
  obtain ⟨rest, hconsume⟩ := consume_cons lit ts
  have hrun : parseDefaultLiteral (lit :: ts) =
      (liftM (defaultInt lit.text) : Parse Value) rest := by
    rw [parseDefaultLiteral, bind_of_ok (a := lit) rfl, hlit]
    exact bind_of_ok hconsume
  rw [defaultInt] at hrun
  generalize natOfDigits lit.text = n at *
  split_ifs at hrun with hsmall hfits
  · refine .inl ⟨by omega, rest, ?_⟩
    rw [parse, bind_of_ok hrun, ← toInt_ofNat (w := 32) (n := n) (by omega)]
    rfl
  · refine .inl ⟨hfits, rest, ?_⟩
    rw [parse, bind_of_ok hrun, ← toInt_ofNat (w := 64) (n := n) (by omega)]
    rfl
  · exact .inr ⟨not_lt.1 hfits, by rw [parse, bind_of_error hrun]⟩

theorem readOrRejected_unsigned (hpos : pos ≠ .expression) (hlit : lit.kind = .intLiteral)
    (ts : List Token) : ReadOrRejected (natOfDigits lit.text) (pos.parse (lit :: ts)) ↔
      pos.Readable 0 (natOfDigits lit.text) := by
  cases pos with
  | expression => exact absurd rfl hpos
  | limit =>
    obtain ⟨rest, hrun⟩ := parse_count (.inl rfl) hlit ts
    rw [hrun]
    simp only [ReadOrRejected, Readable, Option.some.injEq]
    omega
  | offset =>
    obtain ⟨rest, hrun⟩ := parse_count (.inr rfl) hlit ts
    rw [hrun]
    simp only [ReadOrRejected, Readable, Option.some.injEq]
    omega
  | varchar =>
    refine iff_of_true ?_ trivial
    have hint := toInt_strtoll lit.text
    obtain ⟨rest, hrun⟩ := parseIntLiteral_cons hlit ts
    have hlen : parseVarcharLength (lit :: ts) = _ := bind_of_ok (hrun _)
    split_ifs at hlen with hrange
    · rw [parse, bind_of_error hlen]
      trivial
    · rcases expect_cases .rparen (ascii "expected ')'") rest with ⟨_, hend⟩ | ⟨_, hend⟩
      · rw [bind_of_ok hend] at hlen
        rw [parse, bind_of_ok hlen]
        have hnat := BitVec.toInt_eq_toNat_cond (strtoll lit.text)
        refine ⟨congrArg some ?_, by omega, by omega⟩
        rw [UInt16.toNat_ofNat']
        omega
      · rw [bind_of_error hend] at hlen
        rw [parse, bind_of_error hlen]
        trivial
  | default =>
    rcases parse_default hlit ts with ⟨hfits, rest, hrun⟩ | ⟨hlarge, hrun⟩
    · rw [hrun]
      exact iff_of_true ⟨rfl, by omega, by omega⟩ (.inr hfits)
    · rw [hrun]
      exact iff_of_false id (by simpa [Readable] using hlarge)

/-- An operand with minus signs, as the place of the grammar reads it. -/
theorem parse_expression (hsigns : ∀ t ∈ signs, t.kind = .minus) (hlit : lit.kind = .intLiteral)
    (rest : List Token) : ∃ rest', parse .expression (signs ++ lit :: rest) =
      .ok (some ((-1) ^ signs.length * (min (natOfDigits lit.text) (2 ^ 63 - 1) : Nat)),
        rest') := by
  obtain ⟨v, loc, rest', hrun, hv⟩ := parseUnary_signs hsigns hlit rest
    ((signs ++ lit :: rest).length + 1) (by simp)
  have hparse : parse .expression (signs ++ lit :: rest) = .ok (some v.toInt, rest') :=
    bind_of_ok hrun
  exact ⟨rest', by rw [hparse, hv]⟩

theorem readOrRejected_iff (pos : IntPosition) (hsigns : ∀ t ∈ signs, t.kind = .minus)
    (hlit : lit.kind = .intLiteral) (rest : List Token) :
    ReadOrRejected ((-1) ^ signs.length * natOfDigits lit.text)
        (pos.parse (signs ++ lit :: rest)) ↔
      pos.Readable signs.length (natOfDigits lit.text) := by
  by_cases hpos : pos = .expression
  · subst hpos
    obtain ⟨rest', hparse⟩ := parse_expression hsigns hlit rest
    rw [hparse]
    rcases neg_one_pow_eq_or Int signs.length with h | h <;> rw [h] <;>
      simp only [ReadOrRejected, Readable, Option.some.injEq] <;> omega
  cases signs with
  | nil => simpa using readOrRejected_unsigned hpos hlit rest
  | cons t signs =>
    obtain ⟨loc, message, herr⟩ := parse_sign hpos (hsigns t mem_cons_self) (signs ++ lit :: rest)
    rw [cons_append, herr]
    cases pos <;> simp [ReadOrRejected, Readable] at hpos ⊢

/-- A number that is accepted is read: in an expression with its signs, elsewhere without any. -/
theorem parse_accepted (hsigns : ∀ t ∈ signs, t.kind = .minus) (hlit : lit.kind = .intLiteral)
    (rest : List Token) (hacc : pos.Accepted signs.length (natOfDigits lit.text)) :
    ∃ rest', pos.parse (signs ++ lit :: rest) =
      .ok (some ((-1) ^ signs.length * natOfDigits lit.text), rest') := by
  cases pos with
  | expression =>
    obtain ⟨rest', hparse⟩ := parse_expression hsigns hlit rest
    have hmin : min (natOfDigits lit.text) (2 ^ 63 - 1) = natOfDigits lit.text := by
      have : natOfDigits lit.text < 2 ^ 63 := hacc
      omega
    exact ⟨rest', by rw [hparse, hmin]⟩
  | varchar => exact hacc.elim
  | limit =>
    obtain ⟨hnil, hfits⟩ := hacc
    obtain rfl := length_eq_zero_iff.1 hnil
    obtain ⟨rest', hrun⟩ := parse_count (.inl rfl) hlit rest
    exact ⟨rest', by rw [nil_append, hrun, min_eq_left (by omega), length_nil, pow_zero, one_mul]⟩
  | offset =>
    obtain ⟨hnil, hfits⟩ := hacc
    obtain rfl := length_eq_zero_iff.1 hnil
    obtain ⟨rest', hrun⟩ := parse_count (.inr rfl) hlit rest
    exact ⟨rest', by rw [nil_append, hrun, min_eq_left (by omega), length_nil, pow_zero, one_mul]⟩
  | default =>
    obtain ⟨hnil, hfits⟩ := hacc
    obtain rfl := length_eq_zero_iff.1 hnil
    rcases parse_default hlit rest with ⟨-, rest', hrun⟩ | ⟨hlarge, -⟩
    · exact ⟨rest', by rw [nil_append, hrun, length_nil, pow_zero, one_mul]⟩
    · omega

/-- The numbers an expression can write: all of 64 bits but the smallest. -/
theorem writable_iff (z : Int) : Writable z ↔ -2 ^ 63 < z ∧ z < 2 ^ 63 := by
  constructor
  · rintro ⟨signs, lit, hsigns, hlit, -, -, hread⟩
    obtain ⟨rest', hrun⟩ := hread []
    obtain ⟨_, hparse⟩ := parse_expression hsigns hlit []
    rw [hparse] at hrun
    obtain rfl := Option.some.inj (congrArg Prod.fst (Except.ok.inj hrun))
    rcases neg_one_pow_eq_or Int signs.length with h | h <;> rw [h] <;> omega
  · rintro ⟨hlow, hhigh⟩
    -- one sign in front of the digits of a negative number
    obtain ⟨signs, hsigns, hz⟩ : ∃ signs : List Token, (∀ t ∈ signs, t.kind = .minus) ∧
        (-1) ^ signs.length * (z.natAbs : Int) = z := by
      rcases lt_or_ge z 0 with hneg | hpos
      · exact ⟨[⟨.minus, ⟨0, 1⟩, [45]⟩], by simp, by simp only [length_cons, length_nil]; omega⟩
      · exact ⟨[], by simp, by simp only [length_nil]; omega⟩
    let lit : Token := ⟨.intLiteral, ⟨0, 0⟩, decimal z.natAbs⟩
    have hval : natOfDigits lit.text = z.natAbs := natOfDigits_decimal z.natAbs
    have hlit : lit.kind = .intLiteral := rfl
    have hacc : Accepted signs.length (natOfDigits lit.text) .expression := by
      rw [Accepted, hval]
      omega
    refine ⟨signs, lit, hsigns, hlit, decimal_ne_nil _, (decimal_spec _).2.1, fun rest => ?_⟩
    obtain ⟨rest', hparse⟩ := parse_accepted hsigns hlit rest hacc
    exact ⟨rest', by rw [hparse, hval, hz]⟩

/-- **Integer literals.**  Digits after minus signs are read as the number they stand for, or
rejected, exactly where the number without the signs is below 2^63, where a sign makes them a parse
error anyway, and as the length of a `VARCHAR`.  Below 2^63 an expression always reads them, and the
other places read them without a sign; so an expression can write every value of 64 bits but the
smallest. -/
theorem int_literal_iff (pos : IntPosition) (hsigns : ∀ t ∈ signs, t.kind = .minus)
    (hlit : lit.kind = .intLiteral) (rest : List Token) :
    (ReadOrRejected ((-1) ^ signs.length * natOfDigits lit.text)
        (pos.parse (signs ++ lit :: rest)) ↔
      pos.Readable signs.length (natOfDigits lit.text)) ∧
    (pos.Accepted signs.length (natOfDigits lit.text) →
      ∃ rest', pos.parse (signs ++ lit :: rest) =
        .ok (some ((-1) ^ signs.length * natOfDigits lit.text), rest')) ∧
    ∀ z, Writable z ↔ -2 ^ 63 < z ∧ z < 2 ^ 63 :=
  ⟨readOrRejected_iff pos hsigns hlit rest, parse_accepted hsigns hlit rest, writable_iff⟩

theorem int_literal_minus_ten :
    (∃ rest', parse .expression [⟨.minus, ⟨0, 1⟩, [45]⟩, ⟨.intLiteral, ⟨1, 2⟩, ascii "10"⟩] =
      .ok (some (-10), rest')) ∧ Writable (2 ^ 63 - 1) ∧ ¬ Writable (-2 ^ 63) := by
  have hsigns : ∀ t ∈ [(⟨.minus, ⟨0, 1⟩, [45]⟩ : Token)], t.kind = .minus := by simp
  have hlit : (⟨.intLiteral, ⟨1, 2⟩, ascii "10"⟩ : Token).kind = .intLiteral := rfl
  obtain ⟨-, hread, hwrite⟩ := int_literal_iff .expression hsigns hlit []
  exact ⟨hread (show 10 < 2 ^ 63 by decide), (hwrite _).2 (by decide),
    fun h => absurd ((hwrite _).1 h).1 (by decide)⟩

/-- `-9223372036854775808` is read as the number above it. -/
theorem smallest_int_misread :
    let tokens := [⟨.minus, ⟨0, 1⟩, [45]⟩, ⟨.intLiteral, ⟨1, 19⟩, ascii "9223372036854775808"⟩,
      eofToken 20]
    parse .expression tokens = .ok (some (-9223372036854775807), [eofToken 20]) ∧
      ¬ ReadOrRejected (-9223372036854775808) (parse .expression tokens) := by
  intro tokens
  have hread : parse .expression tokens = .ok (some (-9223372036854775807), [eofToken 20]) := by
    decide +kernel
  exact ⟨hread, by simp [hread, ReadOrRejected]⟩

end IntPosition
end NyxDb.Sql
