import NyxDb.Lib.Ascii

/-!
# Doubles and decimal text

A double is its bit pattern.  `roundDouble` is the double next to a positive rational, ties to the
even one; `strtod` reads a literal with it, and `fixedSix` writes a double with six digits after the
point, as `%f` does.
-/

namespace NyxDb

/-- The quotient rounded to the next integer, ties to the even one. -/
def divRound (num den : Nat) : Nat :=
  let q := num / den
  let r := num % den
  if 2 * r < den then q else if den < 2 * r then q + 1 else q + q % 2

/-- The least exponent `e` for which `num / den` is below `2 ^ 53 * 2 ^ e`, but not less than the
exponent of the subnormal doubles. -/
def doubleExponent (num den : Nat) : Int :=
  let e : Int := (num.log2 : Int) - den.log2 - 52
  let e := if num * 2 ^ (-e).toNat < 2 ^ 52 * (den * 2 ^ e.toNat) then e - 1 else e
  max e (-1074)

/-- The bits of infinity. -/
def doubleInf : Nat :=
  0x7FF0000000000000

/-- The bits of the double next to `num / den`. -/
def roundDouble (num den : Nat) : Nat :=
  if num = 0 then 0
  else
    let e := doubleExponent num den
    let m := divRound (num * 2 ^ (-e).toNat) (den * 2 ^ e.toNat)
    -- A mantissa with its leading bit set carries into the exponent field.
    min ((e + 1074).toNat * 2 ^ 52 + m) doubleInf

/-- The number of a literal `digits[.digits][e[+-]digits]` as a fraction. -/
def literalFraction (text : Bytes) : Nat × Nat :=
  let whole := text.takeWhile isDigit
  let rest := text.dropWhile isDigit
  let frac := if rest.head? = some 46 then rest.tail.takeWhile isDigit else []
  let rest := if rest.head? = some 46 then rest.tail.dropWhile isDigit else rest
  let expText := rest.tail
  let negative := expText.head? = some 45
  let signed := expText.head? = some 45 ∨ expText.head? = some 43
  let expDigits := if signed then expText.tail else expText
  let e : Int := (if negative then -(natOfDigits expDigits : Int) else natOfDigits expDigits) -
    frac.length
  (natOfDigits (whole ++ frac) * 10 ^ e.toNat, 10 ^ (-e).toNat)

/-- The double a literal stands for. -/
def strtod (text : Bytes) : BitVec 64 :=
  BitVec.ofNat 64 (roundDouble (literalFraction text).1 (literalFraction text).2)

/-- `strtod` reports a result out of range: it overflows, or it is below the normal doubles and not
exact. -/
def strtodRange (text : Bytes) : Bool :=
  let (num, den) := literalFraction text
  let bits := roundDouble num den
  decide (doubleInf ≤ bits) || (decide (bits < 2 ^ 52) && decide (num * 2 ^ 1074 ≠ bits * den))

/-- The other sign. -/
def negDouble (bits : BitVec 64) : BitVec 64 :=
  bits ^^^ BitVec.ofNat 64 (2 ^ 63)

/-- A number below one million with six digits. -/
def sixDigits (n : Nat) : Bytes :=
  [digitChar (n / 100000 % 10), digitChar (n / 10000 % 10), digitChar (n / 1000 % 10),
   digitChar (n / 100 % 10), digitChar (n / 10 % 10), digitChar (n % 10)]

/-- A double with six digits after the point. -/
def fixedSix (bits : BitVec 64) : Bytes :=
  let magnitude := bits.toNat % 2 ^ 63
  let sign : Bytes := if 2 ^ 63 ≤ bits.toNat then [45] else []
  if doubleInf < magnitude then sign ++ [110, 97, 110]
  else if magnitude = doubleInf then sign ++ [105, 110, 102]
  else
    let field := magnitude / 2 ^ 52
    let e : Int := ((max field 1 : Nat) : Int) - 1075
    let m := if field = 0 then magnitude else magnitude % 2 ^ 52 + 2 ^ 52
    let micros := divRound (m * 2 ^ e.toNat * 1000000) (2 ^ (-e).toNat)
    sign ++ decimal (micros / 1000000) ++ [46] ++ sixDigits (micros % 1000000)

-- 0.1 is not exact, and it is written back with six digits.
example : strtod [48, 46, 49] = 0x3FB999999999999A#64 ∧
    fixedSix 0x3FB999999999999A#64 = [48, 46, 49, 48, 48, 48, 48, 48] := by decide +kernel

end NyxDb
