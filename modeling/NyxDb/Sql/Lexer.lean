import NyxDb.Lib.Ascii
import NyxDb.Storage.Error

/-!
# The lexer

A text is cut into tokens.  Each scanner gets the rest of the text and gives the token and the rest
after it; the offset of a token is what the whole text has more than the rest.  White space and
comments between tokens are skipped.
-/

namespace NyxDb.Sql

open List

/-- A place in a text. -/
structure SourceLoc where
  offset : Nat
  length : Nat
  deriving DecidableEq, Repr

/-- The errors of the lexer, the parser and the binder.  The last three are not results of the
source: an uncaught exception, a read past the end of an array, and a loop of the model that is cut
off before its end. -/
inductive SqlError where
  | lex (offset : Nat) (message : Bytes)
  | parse (loc : SourceLoc) (message : Bytes)
  | bind (loc : SourceLoc) (message : Bytes)
  | uncaught
  | outOfBounds
  | outOfFuel
  deriving DecidableEq, Repr

/-- The line and the column of an offset, both from 1 on. -/
def lineCol (source : Bytes) (offset : Nat) : Nat × Nat :=
  (source.take offset).foldl (fun p c => if c = 10 then (p.1 + 1, 1) else (p.1, p.2 + 1)) (1, 1)

/-- The line an offset is in. -/
def lineAt (source : Bytes) (offset : Nat) : Bytes :=
  ((source.take offset).reverse.takeWhile (· != 10)).reverse ++
    (source.drop offset).takeWhile (· != 10)

def renderSourceError (source : Bytes) (loc : SourceLoc) (kind message : Bytes) : Bytes :=
  let (line, col) := lineCol source loc.offset
  kind ++ ascii " at line " ++ decimal line ++ ascii ", col " ++ decimal col ++ ascii ": " ++
    message ++ ascii "\n  " ++ lineAt source loc.offset ++ ascii "\n  " ++
    replicate (col - 1) 32 ++ replicate (if loc.length = 0 then 1 else loc.length) 94

/-- The message of an error. -/
def SqlError.message (source : Bytes) : SqlError → Bytes
  | .lex offset message => ascii "lex error at offset " ++ decimal offset ++ ascii ": " ++ message
  | .parse loc message => renderSourceError source loc (ascii "parse error") message
  | .bind loc message => renderSourceError source loc (ascii "bind error") message
  | .uncaught | .outOfBounds | .outOfFuel => []

/-! ## Tokens -/

inductive TokenKind where
  | intLiteral | doubleLiteral | stringLiteral | identifier
  | lparen | rparen | comma | semicolon | dot | star
  | plus | minus | slash
  | lt | le | eq | ne | ge | gt
  | kwSelect | kwFrom | kwWhere | kwGroup | kwBy | kwHaving | kwOrder | kwAsc | kwDesc
  | kwLimit | kwOffset | kwJoin | kwInner | kwOn | kwAs | kwAnd | kwOr | kwNot | kwIs | kwNull
  | kwCreate | kwTable | kwInsert | kwInto | kwValues
  | kwInt | kwInteger | kwBigint | kwDouble | kwVarchar | kwNvarchar
  | kwDrop | kwIf | kwExists | kwDelete | kwUpdate | kwSet
  | kwBool | kwBoolean | kwTrue | kwFalse | kwDate | kwTimestamp
  | kwIndex | kwUnique | kwShow | kwIndexes | kwPrimary | kwKey | kwDefault
  | kwConstraint | kwConstraints | kwVacuum
  | kwPartition | kwRange | kwLess | kwThan | kwMaxvalue | kwAlter | kwAdd
  | endOfFile
  deriving DecidableEq, Repr

structure Token where
  kind : TokenKind
  loc : SourceLoc
  text : Bytes
  deriving DecidableEq, Repr

def keywordTable : List (Bytes × TokenKind) :=
  [(ascii "select", .kwSelect), (ascii "from", .kwFrom), (ascii "where", .kwWhere),
   (ascii "group", .kwGroup), (ascii "by", .kwBy), (ascii "having", .kwHaving),
   (ascii "order", .kwOrder), (ascii "asc", .kwAsc), (ascii "desc", .kwDesc),
   (ascii "limit", .kwLimit), (ascii "offset", .kwOffset), (ascii "join", .kwJoin),
   (ascii "inner", .kwInner), (ascii "on", .kwOn), (ascii "as", .kwAs), (ascii "and", .kwAnd),
   (ascii "or", .kwOr), (ascii "not", .kwNot), (ascii "is", .kwIs), (ascii "null", .kwNull),
   (ascii "create", .kwCreate), (ascii "table", .kwTable), (ascii "insert", .kwInsert),
   (ascii "into", .kwInto), (ascii "values", .kwValues), (ascii "int", .kwInt),
   (ascii "integer", .kwInteger), (ascii "bigint", .kwBigint), (ascii "double", .kwDouble),
   (ascii "varchar", .kwVarchar), (ascii "nvarchar", .kwNvarchar), (ascii "drop", .kwDrop),
   (ascii "if", .kwIf), (ascii "exists", .kwExists), (ascii "delete", .kwDelete),
   (ascii "update", .kwUpdate), (ascii "set", .kwSet), (ascii "bool", .kwBool),
   (ascii "boolean", .kwBoolean), (ascii "true", .kwTrue), (ascii "false", .kwFalse),
   (ascii "date", .kwDate), (ascii "timestamp", .kwTimestamp), (ascii "index", .kwIndex),
   (ascii "unique", .kwUnique), (ascii "show", .kwShow), (ascii "indexes", .kwIndexes),
   (ascii "primary", .kwPrimary), (ascii "key", .kwKey), (ascii "default", .kwDefault),
   (ascii "constraint", .kwConstraint), (ascii "constraints", .kwConstraints),
   (ascii "vacuum", .kwVacuum), (ascii "partition", .kwPartition), (ascii "range", .kwRange),
   (ascii "less", .kwLess), (ascii "than", .kwThan), (ascii "maxvalue", .kwMaxvalue),
   (ascii "alter", .kwAlter), (ascii "add", .kwAdd)]

/-! ## White space and comments -/

/-- The white space of the lexer.  `isSpace` has two characters more. -/
def isBlank (c : UInt8) : Bool :=
  c = 32 || c = 9 || c = 10 || c = 13

/-- What stands after the end of a block comment; nothing when it has no end. -/
def skipBlock : Bytes → Bytes
  | [] => []
  | c :: rest => if c = 42 ∧ rest.head? = some 47 then rest.tail else skipBlock rest

def skipTriviaFuel : Nat → Bytes → Bytes
  | 0, text => text
  | _ + 1, [] => []
  | fuel + 1, c :: rest =>
    if isBlank c then skipTriviaFuel fuel rest
    else if c = 45 ∧ rest.head? = some 45 then
      skipTriviaFuel fuel ((c :: rest).dropWhile (· != 10))
    else if c = 47 ∧ rest.head? = some 42 then skipTriviaFuel fuel (skipBlock rest.tail)
    else c :: rest

/-- Every turn takes a character, so the length of the text bounds the number of turns. -/
def skipTrivia (text : Bytes) : Bytes :=
  skipTriviaFuel text.length text

/-! ## Scanners -/

/-- A character of an identifier. -/
def isWord (c : UInt8) : Bool :=
  isAlnum c || c = 95

/-- The place of a token from where it starts to where the rest begins, in 32 bits. -/
def locOf (start : Nat) (text rest : Bytes) : SourceLoc :=
  ⟨start % 2 ^ 32, (text.length - rest.length) % 2 ^ 32⟩

def lexIdentOrKeyword (start : Nat) (text : Bytes) : Token × Bytes :=
  let word := (text.takeWhile isWord).map toLower
  let rest := text.dropWhile isWord
  match keywordTable.lookup word with
  | some kind => (⟨kind, locOf start text rest, []⟩, rest)
  | none => (⟨.identifier, locOf start text rest, word⟩, rest)

/-- The fraction of a number is skipped, if there is one. -/
def skipFraction (text : Bytes) : Bool × Bytes :=
  match text with
  | c :: d :: rest =>
    if c = 46 ∧ isDigit d = true then (true, (d :: rest).dropWhile isDigit) else (false, text)
  | _ => (false, text)

/-- The sign of an exponent is skipped, if there is one. -/
def skipSign (text : Bytes) : Bytes :=
  match text with
  | c :: rest => if c = 43 ∨ c = 45 then rest else text
  | [] => []

/-- The exponent of a number is skipped, if there is one.  It needs a digit. -/
def skipExponent (text : Bytes) : Option (Bool × Bytes) :=
  match text with
  | c :: rest =>
    if c = 101 ∨ c = 69 then
      match skipSign rest with
      | d :: rest' => if isDigit d then some (true, (d :: rest').dropWhile isDigit) else none
      | [] => none
    else some (false, text)
  | [] => some (false, [])

def lexNumber (start : Nat) (text : Bytes) : Except SqlError (Token × Bytes) :=
  let (fraction, rest₁) := skipFraction (text.dropWhile isDigit)
  match skipExponent rest₁ with
  | none => .error (.lex (start % 2 ^ 32) (ascii "expected digit after exponent"))
  | some (exponent, rest) =>
    .ok (⟨if fraction || exponent then .doubleLiteral else .intLiteral, locOf start text rest,
      text.take (text.length - rest.length)⟩, rest)

/-- The contents of a string literal after its opening quote, and what stands after its closing
quote.  A doubled quote stands for one. -/
def stringBody : Bytes → Option (Bytes × Bytes)
  | [] => none
  | [c] => if c = 39 then some ([], []) else none
  | c :: d :: rest =>
    if c = 39 then
      if d = 39 then (stringBody rest).map fun p => (39 :: p.1, p.2) else some ([], d :: rest)
    else (stringBody (d :: rest)).map fun p => (c :: p.1, p.2)

def lexString (start : Nat) (text : Bytes) : Except SqlError (Token × Bytes) :=
  match stringBody text.tail with
  | none => .error (.lex (start % 2 ^ 32) (ascii "unterminated string literal"))
  | some (contents, rest) => .ok (⟨.stringLiteral, locOf start text rest, contents⟩, rest)

/-- The symbols of two characters. -/
def twoTable : List ((UInt8 × UInt8) × TokenKind) :=
  [((60, 61), .le), ((60, 62), .ne), ((62, 61), .ge), ((33, 61), .ne)]

/-- The symbols of one character. -/
def oneTable : List (UInt8 × TokenKind) :=
  [(40, .lparen), (41, .rparen), (44, .comma), (59, .semicolon), (46, .dot), (42, .star),
   (43, .plus), (45, .minus), (47, .slash), (61, .eq), (60, .lt), (62, .gt)]

/-- The kind of the symbol a text starts with and its number of characters. -/
def symbolOf (c : UInt8) (next : Option UInt8) : Option (TokenKind × Nat) :=
  match next.bind fun d => twoTable.lookup (c, d) with
  | some kind => some (kind, 2)
  | none => (oneTable.lookup c).map fun kind => (kind, 1)

def lexSymbol (start : Nat) (c : UInt8) (rest : Bytes) : Except SqlError (Token × Bytes) :=
  match symbolOf c rest.head? with
  | some (kind, n) => .ok (⟨kind, ⟨start % 2 ^ 32, n⟩, []⟩, (c :: rest).drop n)
  | none => .error (.lex (start % 2 ^ 32) (ascii "unexpected character '" ++ [c, 39]))

def nextToken (start : Nat) (c : UInt8) (rest : Bytes) : Except SqlError (Token × Bytes) :=
  if isAlpha c || c = 95 then .ok (lexIdentOrKeyword start (c :: rest))
  else if isDigit c then lexNumber start (c :: rest)
  else if c = 39 then lexString start (c :: rest)
  else lexSymbol start c rest

def eofToken (size : Nat) : Token :=
  ⟨.endOfFile, ⟨size % 2 ^ 32, 0⟩, []⟩

/-- The tokens of the rest of a text with `size` characters. -/
def tokenizeFuel (size : Nat) : Nat → Bytes → Except SqlError (List Token)
  | 0, _ => .error .outOfFuel
  | fuel + 1, text =>
    match skipTrivia text with
    | [] => .ok [eofToken size]
    | c :: rest => do
        let (token, rest') ← nextToken (size - (c :: rest).length) c rest
        let tokens ← tokenizeFuel size fuel rest'
        pure (token :: tokens)

/-- Every token takes a character, so one turn for each character and one for the end suffice. -/
def tokenizeFrom (size : Nat) (text : Bytes) : Except SqlError (List Token) :=
  tokenizeFuel size (text.length + 1) text

def tokenize (source : Bytes) : Except SqlError (List Token) :=
  tokenizeFrom source.length source

/-! ## White space and comments without the bound -/

theorem length_skipBlock_le (text : Bytes) : (skipBlock text).length ≤ text.length := by
  induction text with
  | nil => exact Nat.le_refl _
  | cons c rest ih =>
    rw [skipBlock]
    split
    · simp only [length_tail, length_cons]
      omega
    · simp only [length_cons]
      omega

variable {text : Bytes} {c : UInt8}

theorem skipTriviaFuel_eq {fuel : Nat} (hfuel : text.length ≤ fuel) :
    skipTriviaFuel fuel text = skipTrivia text := by
  -- Both bounds are enough; the induction is on the larger one, for every text.
  suffices h : ∀ n m (text : Bytes), text.length ≤ n → text.length ≤ m →
      skipTriviaFuel n text = skipTriviaFuel m text from h _ _ text hfuel (Nat.le_refl _)
  intro n
  induction n with
  | zero =>
    intro m text hn _
    obtain rfl := eq_nil_of_length_eq_zero (Nat.le_zero.1 hn)
    cases m <;> rfl
  | succ n ih =>
    intro m text hn hm
    cases text with
    | nil => cases m <;> rfl
    | cons c rest =>
      obtain ⟨m, rfl⟩ := Nat.exists_eq_succ_of_ne_zero (show m ≠ 0 by rintro rfl; cases hm)
      simp only [length_cons, Nat.succ_eq_add_one, Nat.add_le_add_iff_right] at hn hm
      have hblock := length_skipBlock_le rest.tail
      have hline := length_dropWhile_le (fun d : UInt8 => d != 10) rest
      simp only [length_tail] at hblock
      simp only [skipTriviaFuel]
      split
      · exact ih m rest hn hm
      split
      case isTrue h =>
        rw [dropWhile_cons_of_pos (by rw [h.1]; decide)]
        exact ih m _ (by omega) (by omega)
      split
      · exact ih m _ (by omega) (by omega)
      · rfl

theorem skipTrivia_cons (c : UInt8) (rest : Bytes) : skipTrivia (c :: rest) =
      if isBlank c then skipTrivia rest
      else if c = 45 ∧ rest.head? = some 45 then skipTrivia (rest.dropWhile (· != 10))
      else if c = 47 ∧ rest.head? = some 42 then skipTrivia (skipBlock rest.tail)
      else c :: rest := by
  have hblock := length_skipBlock_le rest.tail
  have hline := length_dropWhile_le (fun d : UInt8 => d != 10) rest
  simp only [length_tail] at hblock
  rw [skipTrivia, length_cons, skipTriviaFuel]
  split
  · rfl
  split
  case isTrue h =>
    rw [dropWhile_cons_of_pos (by rw [h.1]; decide)]
    exact skipTriviaFuel_eq hline
  split
  · exact skipTriviaFuel_eq (by omega)
  · rfl

end NyxDb.Sql
