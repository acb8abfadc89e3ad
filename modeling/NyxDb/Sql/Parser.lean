import NyxDb.Lib.Double
import NyxDb.Sql.Ast

/-!
# The parser

A recursive descent over the tokens.  The state is the list of the tokens that are left; its last
one marks the end of the text and is never taken off.  The functions that call each other without
taking a token get a bound on the depth of their calls, and the loops one on their turns; both come
from the number of tokens that are left.
-/

namespace NyxDb.Sql

abbrev Parse (α : Type) : Type := StateT (List Token) (Except SqlError) α

variable {β α : Type} {q : α → Parse β} {p : Parse α}

theorem bind_of_ok {tokens rest : List Token} {a : α}
    (h : p tokens = .ok (a, rest)) : (p >>= q) tokens = q a rest := by
  show (p tokens >>= fun r => q r.1 r.2) = q a rest
  rw [h]
  rfl

theorem bind_of_error {tokens : List Token}
    {e : SqlError} (h : p tokens = .error e) : (p >>= q) tokens = .error e := by
  show (p tokens >>= fun r => q r.1 r.2) = .error e
  rw [h]
  rfl

theorem bind_eq_ok {tokens rest : List Token} {b : β} (h : (p >>= q) tokens = .ok (b, rest)) :
    ∃ a mid, p tokens = .ok (a, mid) ∧ q a mid = .ok (b, rest) := by
  cases hp : p tokens with
  | error e =>
    rw [bind_of_error hp] at h
    cases h
  | ok r =>
    rw [bind_of_ok hp] at h
    exact ⟨r.1, r.2, rfl, h⟩

/-! ## Tokens -/

def peekAt (ahead : Nat) (tokens : List Token) : Token :=
  (tokens[ahead]?).getD (tokens.getLastD ⟨.endOfFile, ⟨0, 0⟩, []⟩)

def peek : Parse Token :=
  fun tokens => .ok (peekAt 0 tokens, tokens)

def consume : Parse Token :=
  fun tokens => .ok (peekAt 0 tokens, if 1 < tokens.length then tokens.tail else tokens)

def match_ (kind : TokenKind) : Parse Bool := do
  if (← peek).kind = kind then
    let _ ← consume
    pure true
  else pure false

/-- An error at a token. -/
def errAt {α : Type} (message : Bytes) (token : Token) : Parse α :=
  throw (.parse token.loc message)

/-- A token that has to be there and says nothing more. -/
def expect (kind : TokenKind) (message : Bytes) : Parse Unit := do
  if !(← match_ kind) then errAt message (← peek)

/-- A token that has to be there, with its text. -/
def expectToken (kind : TokenKind) (message : Bytes) : Parse Token := do
  if (← peek).kind ≠ kind then errAt message (← peek) else consume

/-- One or more, with commas between them. -/
def sepByCommaFuel {α : Type} (p : Parse α) : Nat → Parse (List α)
  | 0 => throw .outOfFuel
  | fuel + 1 => do
      let a ← p
      if ← match_ .comma then
        let as ← sepByCommaFuel p fuel
        pure (a :: as)
      else pure [a]

def sepByComma {α : Type} (p : Parse α) : Parse (List α) :=
  fun tokens => sepByCommaFuel p tokens.length tokens

/-! ## Expressions -/

structure OpInfo where
  prec : Nat
  make : Expr → Expr → SourceLoc → Expr

def lookupOp : TokenKind → Option OpInfo
  | .kwOr => some ⟨1, .logicalOp .or⟩
  | .kwAnd => some ⟨2, .logicalOp .and⟩
  | .lt => some ⟨4, .binaryOp .lt⟩
  | .le => some ⟨4, .binaryOp .le⟩
  | .eq => some ⟨4, .binaryOp .eq⟩
  | .ne => some ⟨4, .binaryOp .ne⟩
  | .ge => some ⟨4, .binaryOp .ge⟩
  | .gt => some ⟨4, .binaryOp .gt⟩
  | .plus => some ⟨5, .binaryOp .add⟩
  | .minus => some ⟨5, .binaryOp .sub⟩
  | .star => some ⟨6, .binaryOp .mul⟩
  | .slash => some ⟨6, .binaryOp .div⟩
  | _ => none

/-- The smallest place that has both. -/
def combineLoc (a b : SourceLoc) : SourceLoc :=
  let start := min a.offset b.offset
  let stop := max ((a.offset + a.length) % 2 ^ 32) ((b.offset + b.length) % 2 ^ 32)
  ⟨start, (stop + 2 ^ 32 - start) % 2 ^ 32⟩

/-- `std::strtoll` of digits: a number that does not fit becomes the largest. -/
def strtoll (digits : Bytes) : BitVec 64 :=
  BitVec.ofNat 64 (min (natOfDigits digits) (2 ^ 63 - 1))

/-- A minus before an operand; literals are negated at once. -/
def negate (minus : Token) (child : Expr) : Expr :=
  let loc := combineLoc minus.loc child.loc
  match child with
  | .intLit v _ => .intLit (-v) loc
  | .doubleLit v _ => .doubleLit (negDouble v) loc
  | _ => .binaryOp .sub (.intLit 0 minus.loc) child loc

/-- A string after the keyword of its type. -/
def typedString (keyword : Token) (make : Bytes → SourceLoc → Expr) (message : Bytes) :
    Parse Expr := do
  let _ ← consume
  let str ← expectToken .stringLiteral message
  pure (make str.text (combineLoc keyword.loc str.loc))

/-- The arguments of a call after its opening parenthesis. -/
def parseArgs (star : Bool) (p : Parse (List Expr)) : Parse (List Expr) := do
  if star || (← peek).kind = .rparen then pure [] else p

mutual

def parseBinary : Nat → Nat → Parse Expr
  | 0, _ => throw .outOfFuel
  | fuel + 1, minPrec => do
      let tok ← peek
      if minPrec ≤ 3 ∧ tok.kind = .kwNot then
        let _ ← consume
        let child ← parseBinary fuel 3
        parseBinaryRest fuel minPrec (.notOp child (combineLoc tok.loc child.loc))
      else
        let left ← parseUnary fuel
        parseBinaryRest fuel minPrec left

/-- The loop over the operators that bind at least as strongly as `minPrec`. -/
def parseBinaryRest : Nat → Nat → Expr → Parse Expr
  | 0, _, _ => throw .outOfFuel
  | fuel + 1, minPrec, left => do
      let tok ← peek
      if tok.kind = .kwIs ∧ minPrec ≤ 4 then
        let _ ← consume
        let isNot ← match_ .kwNot
        let nullTok ← expectToken .kwNull (ascii "expected NULL after IS")
        parseBinaryRest fuel minPrec (.nullCheck (if isNot then .isNotNull else .isNull) left
            (combineLoc left.loc nullTok.loc))
      else
        match lookupOp tok.kind with
        | none => pure left
        | some info =>
          if info.prec < minPrec then pure left
          else
            let _ ← consume
            let right ← parseBinary fuel (info.prec + 1)
            parseBinaryRest fuel minPrec (info.make left right (combineLoc left.loc right.loc))

def parseUnary : Nat → Parse Expr
  | 0 => throw .outOfFuel
  | fuel + 1 => do
      let tok ← peek
      if tok.kind = .minus then
        let _ ← consume
        let child ← parseUnary fuel
        pure (negate tok child)
      else if tok.kind = .plus then
        let _ ← consume
        parseUnary fuel
      else parsePrimary fuel

def parsePrimary : Nat → Parse Expr
  | 0 => throw .outOfFuel
  | fuel + 1 => do
      let tok ← peek
      match tok.kind with
      | .intLiteral =>
        let _ ← consume
        pure (.intLit (strtoll tok.text) tok.loc)
      | .doubleLiteral =>
        let _ ← consume
        pure (.doubleLit (strtod tok.text) tok.loc)
      | .stringLiteral =>
        let _ ← consume
        pure (.stringLit tok.text tok.loc)
      | .kwNull =>
        let _ ← consume
        pure (.nullLit tok.loc)
      | .kwTrue =>
        let _ ← consume
        pure (.boolLit true tok.loc)
      | .kwFalse =>
        let _ ← consume
        pure (.boolLit false tok.loc)
      | .kwDate => typedString tok .dateLit (ascii "expected date string after DATE")
      | .kwTimestamp =>
        typedString tok .timestampLit (ascii "expected timestamp string after TIMESTAMP")
      | .lparen =>
        let _ ← consume
        let e ← parseBinary fuel 1
        expect .rparen (ascii "expected ')'")
        pure e
      | .identifier => parseIdentOrCall fuel
      | _ => errAt (ascii "expected expression") tok

def parseIdentOrCall : Nat → Parse Expr
  | 0 => throw .outOfFuel
  | fuel + 1 => do
      let ident ← consume
      let next ← peek
      if next.kind = .dot then
        let _ ← consume
        let col ← expectToken .identifier (ascii "expected identifier after '.'")
        pure (.columnRef (some ident.text) col.text (combineLoc ident.loc col.loc))
      else if next.kind = .lparen then
        let _ ← consume
        let star ← match_ .star
        let args ← parseArgs star (sepByCommaFuel (parseBinary fuel 1) fuel)
        let rparen ← expectToken .rparen (ascii "expected ')'")
        pure (.funcCall ident.text args star (combineLoc ident.loc rparen.loc))
      else pure (.columnRef none ident.text ident.loc)

end

/-- A call takes a token or is one of four that follow each other before a token is taken. -/
def parseExpr : Parse Expr :=
  fun tokens => parseBinary (4 * tokens.length + 4) 1 tokens

/-- What follows a keyword, if the keyword is there. -/
def optionalAfter {α : Type} (keyword : TokenKind) (p : Parse α) : Parse (Option α) := do
  if ← match_ keyword then
    let a ← p
    pure (some a)
  else pure none

/-- An identifier, and the name it has as a text. -/
def parseName (message : Bytes) : Parse Bytes := do
  let tok ← expectToken .identifier message
  pure tok.text

def parseIntLiteral (what : Bytes) : Parse (BitVec 64) := do
  let tok ← expectToken .intLiteral (ascii "expected integer after " ++ what)
  pure (strtoll tok.text)

/-! ## SELECT -/

/-- An alias, after `AS` or on its own. -/
def parseAlias : Parse (Option Token) := do
  if ← match_ .kwAs then
    let tok ← expectToken .identifier (ascii "expected alias after AS")
    pure (some tok)
  else if (← peek).kind = .identifier then
    let tok ← consume
    pure (some tok)
  else pure none

def parseSelectItem : Parse SelectItem := do
  let e ← parseExpr
  let alias_ ← parseAlias
  pure ⟨e, alias_.map Token.text⟩

def parseTableRef : Parse TableRef := do
  let name ← expectToken .identifier (ascii "expected table name")
  let alias_ ← parseAlias
  match alias_ with
  | some tok => pure ⟨name.text, some tok.text, combineLoc name.loc tok.loc⟩
  | none => pure ⟨name.text, none, name.loc⟩

def parseJoinClause : Parse JoinClause := do
  let _ ← match_ .kwInner
  expect .kwJoin (ascii "expected JOIN")
  let right ← parseTableRef
  expect .kwOn (ascii "expected ON after join table")
  let on ← parseExpr
  pure ⟨right, on⟩

def parseJoinsFuel : Nat → Parse (List JoinClause)
  | 0 => throw .outOfFuel
  | fuel + 1 => do
      let tok ← peek
      if tok.kind = .kwInner ∨ tok.kind = .kwJoin then
        let join ← parseJoinClause
        let joins ← parseJoinsFuel fuel
        pure (join :: joins)
      else pure []

def parseJoins : Parse (List JoinClause) :=
  fun tokens => parseJoinsFuel (tokens.length + 1) tokens

def parseOrderByItem : Parse OrderByItem := do
  let e ← parseExpr
  if ← match_ .kwDesc then pure ⟨e, false⟩
  else
    let _ ← match_ .kwAsc
    pure ⟨e, true⟩

/-- The list after `GROUP BY` or `ORDER BY`, empty without it. -/
def parseByList {α : Type} (keyword : TokenKind) (message : Bytes) (p : Parse α) :
    Parse (List α) := do
  if ← match_ keyword then
    expect .kwBy message
    sepByComma p
  else pure []

/-- The projections after `SELECT`; a star stands for none of them. -/
def parseProjections (star : Bool) : Parse (List SelectItem) :=
  if star then pure [] else sepByComma parseSelectItem

def parseSelect : Parse SelectStmt := do
  expect .kwSelect (ascii "expected SELECT")
  let star ← match_ .star
  let projections ← parseProjections star
  expect .kwFrom (ascii "expected FROM")
  let source ← parseTableRef
  let joins ← parseJoins
  let where_ ← optionalAfter .kwWhere parseExpr
  let groupBy ← parseByList .kwGroup (ascii "expected BY after GROUP") parseExpr
  let having ← optionalAfter .kwHaving parseExpr
  let orderBy ← parseByList .kwOrder (ascii "expected BY after ORDER") parseOrderByItem
  let limit ← optionalAfter .kwLimit (parseIntLiteral (ascii "LIMIT"))
  let offset ← optionalAfter .kwOffset (parseIntLiteral (ascii "OFFSET"))
  pure ⟨projections, star, source, joins, where_, groupBy, having, orderBy, limit, offset⟩

/-! ## Defaults

The dates of defaults are read with `sscanf` and counted with a calendar of their own. -/

/-- `%d` of `sscanf`: white space, a sign and digits.  The number is cut to 64 and then to 32
bits. -/
def scanInt (text : Bytes) : Option (BitVec 32 × Bytes) :=
  let text := text.dropWhile isSpace
  let negative : Bool := text.head? = some 45
  let text := skipSign text
  let digits := text.takeWhile isDigit
  if digits = [] then none
  else
    let n := natOfDigits digits
    let z : Int := if negative then -(min n (2 ^ 63) : Nat) else (min n (2 ^ 63 - 1) : Nat)
    some (BitVec.ofInt 32 z, text.dropWhile isDigit)

/-- The numbers of a format of `%d` with the separators between them, as far as the text matches.
A separator `32` stands for any white space. -/
def scanInts : List UInt8 → Bytes → List (BitVec 32)
  | separators, text =>
    match scanInt text with
    | none => []
    | some (v, rest) =>
      match separators with
      | [] => [v]
      | sep :: separators =>
        if sep = 32 then v :: scanInts separators (rest.dropWhile isSpace)
        else
          match rest with
          | c :: rest => if c = sep then v :: scanInts separators rest else [v]
          | [] => [v]

/-- The days of the months in the table of the source, from index 1 on. -/
def monthDays : List Nat :=
  [31, 28, 31, 30, 31, 30, 31, 31, 30, 31, 30, 31]

/-- The number of days the defaults count for a date.  A month above 13 reads past the table. -/
def defaultDays (y m d : BitVec 32) : Except SqlError (BitVec 32) :=
  if 13 < m.toInt then .error .outOfBounds
  else
    let since := y - 1970
    let days := since * 365 + since.sdiv 4 - since.sdiv 100 + since.sdiv 400
    let months := (monthDays.take (m.toInt - 1).toNat).sum
    .ok (days + BitVec.ofNat 32 months + d - 1)

def defaultDate (text : Bytes) : Except SqlError (Option Value) := do
  match scanInts [45, 45] text with
  | [y, m, d] => pure (some (.date (← defaultDays y m d)))
  | _ => pure none

def defaultTimestamp (text : Bytes) : Except SqlError Value := do
  let fields := scanInts [45, 45, 32, 58, 58] text
  let field (i : Nat) : BitVec 32 := (fields[i]?).getD 0
  let days ← defaultDays (field 0) (field 1) (field 2)
  pure (.timestamp (days.signExtend 64 * 86400000000 + (field 3).signExtend 64 * 3600000000 +
    (field 4).signExtend 64 * 60000000 + (field 5).signExtend 64 * 1000000))

/-- `std::stoll` throws where `std::strtoll` takes the largest number. -/
def defaultInt (digits : Bytes) : Except SqlError Value :=
  let n := natOfDigits digits
  if n < 2 ^ 31 then .ok (.int32 (BitVec.ofNat 32 n))
  else if n < 2 ^ 63 then .ok (.int64 (BitVec.ofNat 64 n))
  else .error .uncaught

def defaultDouble (text : Bytes) : Except SqlError Value :=
  if strtodRange text then .error .uncaught else .ok (.double (strtod text))

def parseDefaultLiteral : Parse Value := do
  let tok ← peek
  match tok.kind with
  | .intLiteral =>
    let _ ← consume
    defaultInt tok.text
  | .doubleLiteral =>
    let _ ← consume
    defaultDouble tok.text
  | .stringLiteral =>
    let _ ← consume
    pure (.string tok.text)
  | .kwTrue =>
    let _ ← consume
    pure (.bool true)
  | .kwFalse =>
    let _ ← consume
    pure (.bool false)
  | .kwNull =>
    let _ ← consume
    pure .null
  | .kwDate =>
    let _ ← consume
    let str ← expectToken .stringLiteral (ascii "expected date string after DATE")
    match ← defaultDate str.text with
    | some v => pure v
    | none => errAt (ascii "invalid DATE literal: " ++ str.text) (← peek)
  | .kwTimestamp =>
    let _ ← consume
    let str ← expectToken .stringLiteral (ascii "expected timestamp string after TIMESTAMP")
    defaultTimestamp str.text
  | _ => errAt (ascii "expected a literal value after DEFAULT") tok

/-! ## CREATE TABLE -/

/-- The length of a `VARCHAR` after its opening parenthesis. -/
def parseVarcharLength : Parse UInt16 := do
  let n ← parseIntLiteral (ascii "VARCHAR")
  if n.toInt ≤ 0 ∨ 65535 < n.toInt then
    errAt (ascii "VARCHAR length must be between 1 and 65535") (← peek)
  else
    expect .rparen (ascii "expected ')'")
    pure (UInt16.ofNat n.toNat)

/-- The type of a column, and for a `VARCHAR` its length. -/
def parseType : Parse (TypeId × UInt16) := do
  let tok ← peek
  match tok.kind with
  | .kwInt | .kwInteger =>
    let _ ← consume
    pure (.int32, 255)
  | .kwBigint =>
    let _ ← consume
    pure (.int64, 255)
  | .kwDouble =>
    let _ ← consume
    pure (.double, 255)
  | .kwVarchar | .kwNvarchar =>
    let _ ← consume
    let maxLen ← optionalAfter .lparen parseVarcharLength
    pure (.varchar, maxLen.getD 255)
  | .kwBool | .kwBoolean =>
    let _ ← consume
    pure (.bool, 255)
  | .kwDate =>
    let _ ← consume
    pure (.date, 255)
  | .kwTimestamp =>
    let _ ← consume
    pure (.timestamp, 255)
  | _ => errAt (ascii "expected column type") tok

/-- The loop over what may follow the type of a column, in any order. -/
def parseColumnOptionsFuel : Nat → ColumnDef → Parse ColumnDef
  | 0, _ => throw .outOfFuel
  | fuel + 1, col => do
      let tok ← peek
      match tok.kind with
      | .kwNot =>
        let _ ← consume
        expect .kwNull (ascii "expected NULL after NOT")
        parseColumnOptionsFuel fuel { col with nullable := false }
      | .kwPrimary =>
        let _ ← consume
        expect .kwKey (ascii "expected KEY after PRIMARY")
        parseColumnOptionsFuel fuel { col with isPrimaryKey := true, nullable := false }
      | .kwUnique =>
        let _ ← consume
        parseColumnOptionsFuel fuel { col with isUnique := true }
      | .kwDefault =>
        let _ ← consume
        let v ← parseDefaultLiteral
        parseColumnOptionsFuel fuel { col with defaultValue := some v }
      | _ => pure col

def parseColumnOptions (col : ColumnDef) : Parse ColumnDef :=
  fun tokens => parseColumnOptionsFuel (tokens.length + 1) col tokens

def parseColumnDef : Parse ColumnDef := do
  let name ← parseName (ascii "expected column name")
  let (type, maxLen) ← parseType
  parseColumnOptions ⟨name, type, true, maxLen, false, false, none⟩

def parseConstraintKind : Parse ConstraintKind := do
  if ← match_ .kwPrimary then
    expect .kwKey (ascii "expected KEY after PRIMARY")
    pure .primaryKey
  else if ← match_ .kwUnique then
    let _ ← match_ .kwKey
    pure .unique
  else errAt (ascii "expected PRIMARY KEY or UNIQUE") (← peek)

/-- The names of columns in parentheses. -/
def parseColumnNames : Parse (List Bytes) := do
  expect .lparen (ascii "expected '('")
  let names ← sepByComma (parseName (ascii "expected column name"))
  expect .rparen (ascii "expected ')'")
  pure names

def parseTableConstraint : Parse TableConstraint := do
  let name ← optionalAfter .kwConstraint
    (parseName (ascii "expected constraint name after CONSTRAINT"))
  let kind ← parseConstraintKind
  let columns ← parseColumnNames
  pure ⟨kind, name.getD [], columns⟩

/-- The bound of a partition, none for `MAXVALUE`. -/
def parseUpperBound : Parse (Option Expr) := do
  if ← match_ .kwMaxvalue then pure none
  else
    let e ← parseExpr
    pure (some e)

def parsePartitionDef : Parse PartitionDefAst := do
  expect .kwPartition (ascii "expected PARTITION")
  let name ← parseName (ascii "expected partition name")
  expect .kwValues (ascii "expected VALUES")
  expect .kwLess (ascii "expected LESS")
  expect .kwThan (ascii "expected THAN")
  expect .lparen (ascii "expected '('")
  let upperBound ← parseUpperBound
  expect .rparen (ascii "expected ')'")
  expect .kwOn (ascii "expected ON")
  let addr ← expectToken .stringLiteral (ascii "expected node address string")
  pure ⟨name, upperBound, addr.text⟩

/-- A column or a constraint in the list of `CREATE TABLE`. -/
def parseTableElement : Parse (ColumnDef ⊕ TableConstraint) := do
  let tok ← peek
  if tok.kind = .kwPrimary ∨ tok.kind = .kwUnique ∨ tok.kind = .kwConstraint then
    .inr <$> parseTableConstraint
  else .inl <$> parseColumnDef

def parsePartitionBy : Parse (Option (Bytes × List PartitionDefAst)) := do
  if ← match_ .kwPartition then
    expect .kwBy (ascii "expected BY after PARTITION")
    expect .kwRange (ascii "expected RANGE")
    expect .lparen (ascii "expected '(' after RANGE")
    let col ← parseName (ascii "expected partition column name")
    expect .rparen (ascii "expected ')' after partition column")
    expect .lparen (ascii "expected '(' for partition list")
    let defs ← sepByComma parsePartitionDef
    expect .rparen (ascii "expected ')' to close partition list")
    pure (some (col, defs))
  else pure none

def parseCreateTable : Parse CreateTableStmt := do
  expect .kwCreate (ascii "expected CREATE")
  expect .kwTable (ascii "expected TABLE")
  let name ← parseName (ascii "expected table name")
  expect .lparen (ascii "expected '('")
  let elements ← sepByComma parseTableElement
  expect .rparen (ascii "expected ')'")
  let partition ← parsePartitionBy
  pure ⟨name, elements.filterMap Sum.getLeft?, elements.filterMap Sum.getRight?,
    partition.map Prod.fst, (partition.map Prod.snd).getD []⟩

/-! ## The other statements -/

/-- The values of a row in parentheses. -/
def parseRow : Parse (List Expr) := do
  expect .lparen (ascii "expected '('")
  let row ← sepByComma parseExpr
  expect .rparen (ascii "expected ')'")
  pure row

/-- The columns an `INSERT` names, if it names some. -/
def parseInsertColumns : Parse (List Bytes) := do
  if (← peek).kind = .lparen then parseColumnNames else pure []

def parseInsert : Parse InsertStmt := do
  expect .kwInsert (ascii "expected INSERT")
  expect .kwInto (ascii "expected INTO")
  let name ← parseName (ascii "expected table name")
  let columns ← parseInsertColumns
  expect .kwValues (ascii "expected VALUES")
  let rows ← sepByComma parseRow
  pure ⟨name, columns, rows⟩

def parseDropTable : Parse DropTableStmt := do
  let _ ← consume
  expect .kwTable (ascii "expected TABLE")
  let ifExists ← optionalAfter .kwIf (expect .kwExists (ascii "expected EXISTS after IF"))
  let name ← parseName (ascii "expected table name")
  pure ⟨name, ifExists.isSome⟩

def parseDelete : Parse DeleteStmt := do
  let _ ← consume
  expect .kwFrom (ascii "expected FROM")
  let name ← parseName (ascii "expected table name")
  let where_ ← optionalAfter .kwWhere parseExpr
  pure ⟨name, where_⟩

def parseAssignment : Parse Assignment := do
  let col ← parseName (ascii "expected column name")
  expect .eq (ascii "expected '='")
  let e ← parseExpr
  pure ⟨col, e⟩

def parseUpdate : Parse UpdateStmt := do
  let _ ← consume
  let name ← parseName (ascii "expected table name")
  expect .kwSet (ascii "expected SET")
  let assignments ← sepByComma parseAssignment
  let where_ ← optionalAfter .kwWhere parseExpr
  pure ⟨name, assignments, where_⟩

def parseCreateIndex : Parse CreateIndexStmt := do
  let _ ← consume
  let unique ← match_ .kwUnique
  expect .kwIndex (ascii "expected INDEX")
  let indexName ← parseName (ascii "expected index name")
  expect .kwOn (ascii "expected ON")
  let tableName ← parseName (ascii "expected table name")
  let columns ← parseColumnNames
  pure ⟨indexName, tableName, columns, unique⟩

def parseDropIndex : Parse DropIndexStmt := do
  let _ ← consume
  expect .kwIndex (ascii "expected INDEX")
  let indexName ← parseName (ascii "expected index name")
  expect .kwOn (ascii "expected ON")
  let tableName ← parseName (ascii "expected table name")
  pure ⟨indexName, tableName⟩

/-- `SHOW` of something of a table. -/
def parseShow (what : TokenKind) (message : Bytes) : Parse Bytes := do
  let _ ← consume
  expect what message
  expect .kwFrom (ascii "expected FROM")
  parseName (ascii "expected table name")

def parseShowIndexes : Parse Bytes :=
  parseShow .kwIndexes (ascii "expected INDEXES")

def parseShowConstraints : Parse Bytes :=
  parseShow .kwConstraints (ascii "expected CONSTRAINTS")

def parseVacuum : Parse Bytes := do
  let _ ← consume
  parseName (ascii "expected table name after VACUUM")

def parseAlterAddPartition : Parse AlterAddPartitionStmt := do
  expect .kwAlter (ascii "expected ALTER")
  expect .kwTable (ascii "expected TABLE")
  let name ← parseName (ascii "expected table name")
  expect .kwAdd (ascii "expected ADD")
  let partition ← parsePartitionDef
  pure ⟨name, partition⟩

/-- The statement that starts with these two tokens. -/
def parseStarting (tok second : Token) : Parse Statement :=
  match tok.kind with
  | .kwSelect => .select <$> parseSelect
  | .kwCreate =>
    if second.kind = .kwTable then .createTable <$> parseCreateTable
    else if second.kind = .kwIndex ∨ second.kind = .kwUnique then
      .createIndex <$> parseCreateIndex
    else errAt (ascii "expected TABLE or INDEX after CREATE") second
  | .kwInsert => .insert <$> parseInsert
  | .kwDrop =>
    if second.kind = .kwTable then .dropTable <$> parseDropTable
    else if second.kind = .kwIndex then .dropIndex <$> parseDropIndex
    else errAt (ascii "expected TABLE or INDEX after DROP") second
  | .kwShow =>
    if second.kind = .kwConstraints then .showConstraints <$> parseShowConstraints
    else .showIndexes <$> parseShowIndexes
  | .kwDelete => .delete <$> parseDelete
  | .kwUpdate => .update <$> parseUpdate
  | .kwVacuum => .vacuum <$> parseVacuum
  | .kwAlter => .alterAddPartition <$> parseAlterAddPartition
  | _ => errAt (ascii "expected statement") tok

def parseOneStatement : Parse Statement :=
  fun tokens => parseStarting (peekAt 0 tokens) (peekAt 1 tokens) tokens

def parseStatementsFuel : Nat → Parse (List Statement)
  | 0 => throw .outOfFuel
  | fuel + 1 => do
      if (← peek).kind = .endOfFile then pure []
      else
        let stmt ← parseOneStatement
        if (← peek).kind = .endOfFile then pure [stmt]
        else
          expect .semicolon (ascii "expected ';' between statements")
          let stmts ← parseStatementsFuel fuel
          pure (stmt :: stmts)

/-- The statements of a list of tokens. -/
def parse (tokens : List Token) : Except SqlError (List Statement) :=
  Prod.fst <$> parseStatementsFuel (tokens.length + 1) tokens

/-- The statements of a text. -/
def parseSql (sql : Bytes) : Except SqlError (List Statement) := do
  parse (← tokenize sql)

/-- The first of the statements is read from the first token on. -/
theorem parseOneStatement_of_parse {tokens : List Token} {stmt : Statement} {stmts : List Statement}
    (h : parse tokens = .ok (stmt :: stmts)) :
    ∃ rest, parseOneStatement tokens = .ok (stmt, rest) := by
  unfold parse at h
  cases hres : parseStatementsFuel (tokens.length + 1) tokens with
  | error e =>
    rw [hres] at h
    cases h
  | ok r =>
    rw [hres] at h
    obtain ⟨read, rest⟩ := r
    obtain rfl : read = stmt :: stmts := Except.ok.inj h
    obtain ⟨tok, mid, htok, hres⟩ := bind_eq_ok hres
    cases htok
    split at hres
    · cases hres
    · obtain ⟨_, mid, hone, hres⟩ := bind_eq_ok hres
      obtain ⟨tok, _, htok, hres⟩ := bind_eq_ok hres
      cases htok
      split at hres
      · cases hres
        exact ⟨rest, hone⟩
      · obtain ⟨_, _, -, hres⟩ := bind_eq_ok hres
        obtain ⟨_, _, -, hres⟩ := bind_eq_ok hres
        cases hres
        exact ⟨mid, hone⟩

end NyxDb.Sql
