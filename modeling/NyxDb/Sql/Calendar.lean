import NyxDb.Sql.Parser

/-!
# Dates and timestamps of literals
-/

namespace NyxDb.Sql

/-- `std::stoi` of a short text: white space, a sign and digits; it throws without a digit. -/
def stoi (text : Bytes) : Option Int :=
  let text := text.dropWhile isSpace
  let digits := (skipSign text).takeWhile isDigit
  if digits = [] then none
  else if text.head? = some 45 then some (-(natOfDigits digits : Int))
  else some (natOfDigits digits)

/-- The days from 1970-01-01 to a date of the Gregorian calendar. -/
def civilToDays (y : Int) (m d : Nat) : Except Bytes Int :=
  if m < 1 ∨ 12 < m ∨ d < 1 ∨ 31 < d then .error (ascii "invalid date: month/day out of range")
  else
    let yy := y - (if m ≤ 2 then 1 else 0)
    let era := (if 0 ≤ yy then yy else yy - 399).tdiv 400
    let yoe := (yy - era * 400).toNat
    let doy := (153 * (if 2 < m then m - 3 else m + 9) + 2) / 5 + d - 1
    let doe := yoe * 365 + yoe / 4 - yoe / 100 + doy
    .ok (era * 146097 + doe - 719468)

/-- `static_cast<unsigned>` of an `int`. -/
def toUnsigned (z : Int) : Nat :=
  (z % 2 ^ 32).toNat

def badNumbers (what : Bytes) : Bytes :=
  ascii "invalid " ++ what ++ ascii ": could not parse numeric components"

/-- A part of a text as a number. -/
def numberAt (what text : Bytes) (start len : Nat) : Except Bytes Int :=
  match stoi ((text.drop start).take len) with
  | some z => .ok z
  | none => .error (badNumbers what)

def parseDateString (s : Bytes) : Except Bytes (BitVec 32) :=
  if s.length ≠ 10 ∨ s[4]? ≠ some 45 ∨ s[7]? ≠ some 45 then
    .error (ascii "invalid date format, expected YYYY-MM-DD")
  else do
    let y ← numberAt (ascii "date") s 0 4
    let m ← numberAt (ascii "date") s 5 2
    let d ← numberAt (ascii "date") s 8 2
    let days ← civilToDays y (toUnsigned m) (toUnsigned d)
    pure (BitVec.ofInt 32 days)

/-- The microseconds after the seconds, if there are some. -/
def parseFraction (s : Bytes) : Except Bytes Int :=
  if s.length ≤ 19 then .ok 0
  else if s[19]? ≠ some 46 then
    .error (ascii "invalid timestamp: expected '.' before fractional seconds")
  else
    let frac := s.drop 20
    if 6 < frac.length ∨ frac = [] then
      .error (ascii "invalid timestamp: fractional seconds must be 1-6 digits")
    else
      let padded := frac ++ List.replicate (6 - frac.length) 48
      numberAt (ascii "timestamp") padded 0 6

def parseTimestampString (s : Bytes) : Except Bytes (BitVec 64) :=
  if s.length < 19 ∨ s[4]? ≠ some 45 ∨ s[7]? ≠ some 45 ∨ (s[10]? ≠ some 32 ∧ s[10]? ≠ some 84) ∨
      s[13]? ≠ some 58 ∨ s[16]? ≠ some 58 then
    .error (ascii "invalid timestamp format, expected YYYY-MM-DD HH:MM:SS[.ffffff]")
  else do
    let y ← numberAt (ascii "timestamp") s 0 4
    let mo ← numberAt (ascii "timestamp") s 5 2
    let d ← numberAt (ascii "timestamp") s 8 2
    let h ← numberAt (ascii "timestamp") s 11 2
    let mi ← numberAt (ascii "timestamp") s 14 2
    let se ← numberAt (ascii "timestamp") s 17 2
    let us ← parseFraction s
    if h < 0 ∨ 23 < h ∨ mi < 0 ∨ 59 < mi ∨ se < 0 ∨ 59 < se then
      .error (ascii "invalid timestamp: time component out of range")
    else
      let days ← civilToDays y (toUnsigned mo) (toUnsigned d)
      pure (BitVec.ofInt 64
        (days * 86400 * 1000000 + h * 3600 * 1000000 + mi * 60 * 1000000 + se * 1000000 + us))

end NyxDb.Sql
