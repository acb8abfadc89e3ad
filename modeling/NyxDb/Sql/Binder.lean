import NyxDb.Sharding.ShardMap
import NyxDb.Sql.Calendar

/-!
# The binder

Names become columns and literals get types.  The binder reads the schemas, the shard maps and the
names of the indexes of a catalog; every check of the source stands in its order and with its text.
-/

namespace NyxDb.Sql

/-! ## Bound statements -/

structure BindingRef where
  bindingId : Nat
  columnIdx : Nat
  type : TypeId
  nullable : Bool
  deriving DecidableEq, Repr

inductive BoundExpr where
  | intLit (value : BitVec 64) (type : TypeId)
  | doubleLit (value : BitVec 64)
  | stringLit (value : Bytes)
  | nullLit (type : TypeId)
  | boolLit (value : Bool)
  | dateLit (days : BitVec 32)
  | timestampLit (micros : BitVec 64)
  | columnRef (ref : BindingRef)
  | aggregateRef (aggregateIdx : Nat) (type : TypeId)
  | projectionRef (projIdx : Nat) (type : TypeId)
  | binaryOp (op : BinaryOpKind) (left right : BoundExpr) (operandType resultType : TypeId)
  | logicalOp (op : LogicalOpKind) (left right : BoundExpr)
  | notOp (child : BoundExpr)
  | nullCheck (kind : NullCheckKind) (child : BoundExpr)
  deriving DecidableEq, Repr

def BoundExpr.type : BoundExpr → TypeId
  | .intLit _ t | .nullLit t | .aggregateRef _ t | .projectionRef _ t => t
  | .doubleLit _ => .double
  | .stringLit _ => .varchar
  | .boolLit _ => .bool
  | .dateLit _ => .date
  | .timestampLit _ => .timestamp
  | .columnRef ref => ref.type
  | .binaryOp _ _ _ _ t => t
  | .logicalOp _ _ _ | .notOp _ | .nullCheck _ _ => .int32

structure BoundBinding where
  tableName : Bytes
  alias_ : Bytes
  schema : Schema
  deriving DecidableEq, Repr

inductive AggregateKind where
  | countStar | count | sum | avg | min | max
  deriving DecidableEq, Repr

structure BoundAggregate where
  kind : AggregateKind
  arg : Option BoundExpr
  outputType : TypeId
  deriving DecidableEq, Repr

structure BoundProjection where
  expr : BoundExpr
  alias_ : Option Bytes
  deriving DecidableEq, Repr

structure BoundOrderBy where
  expr : BoundExpr
  ascending : Bool
  deriving DecidableEq, Repr

structure BoundSelect where
  bindings : List BoundBinding
  joinPredicates : List BoundExpr
  where_ : Option BoundExpr
  groupBy : List BoundExpr
  aggregates : List BoundAggregate
  having : Option BoundExpr
  projections : List BoundProjection
  orderBy : List BoundOrderBy
  limit : Option (BitVec 64)
  offset : Option (BitVec 64)
  isAggregated : Bool
  deriving DecidableEq, Repr

structure BoundConstraint where
  kind : ConstraintKind
  name : Bytes
  colIndices : List UInt8
  deriving DecidableEq, Repr

structure BoundCreateTable where
  tableName : Bytes
  schema : Schema
  constraints : List BoundConstraint
  shardMap : Option ShardMap
  deriving DecidableEq, Repr

structure BoundInsert where
  tableName : Bytes
  rows : List Row
  deriving DecidableEq, Repr

structure BoundDelete where
  tableName : Bytes
  schema : Schema
  where_ : Option BoundExpr
  deriving DecidableEq, Repr

structure BoundAssignment where
  colIdx : Nat
  expr : BoundExpr
  deriving DecidableEq, Repr

structure BoundUpdate where
  tableName : Bytes
  schema : Schema
  assignments : List BoundAssignment
  where_ : Option BoundExpr
  deriving DecidableEq, Repr

structure BoundCreateIndex where
  tableName : Bytes
  indexName : Bytes
  colIndices : List UInt8
  unique : Bool
  deriving DecidableEq, Repr

structure BoundAlterAddPartition where
  tableName : Bytes
  updatedShardMap : ShardMap
  deriving DecidableEq, Repr

inductive BoundStatement where
  | select (stmt : BoundSelect)
  | createTable (stmt : BoundCreateTable)
  | insert (stmt : BoundInsert)
  | dropTable (tableName : Bytes) (ifExists : Bool)
  | delete (stmt : BoundDelete)
  | update (stmt : BoundUpdate)
  | createIndex (stmt : BoundCreateIndex)
  | dropIndex (tableName indexName : Bytes)
  | showIndexes (tableName : Bytes)
  | showConstraints (tableName : Bytes)
  | vacuum (tableName : Bytes)
  | alterAddPartition (stmt : BoundAlterAddPartition)
  deriving DecidableEq, Repr

/-- What the binder reads of a catalog. -/
structure CatalogView where
  schemaOf : Bytes → Option Schema
  shardMapOf : Bytes → Option ShardMap
  indexNames : Bytes → List Bytes

/-! ## Expressions -/

/-- The binder of expressions: the aggregates that are found are collected, where they are
allowed. -/
abbrev Bind (α : Type) : Type := StateT (Option (List BoundAggregate)) (Except SqlError) α

def bindErr {α : Type} (message : Bytes) (loc : SourceLoc) : Except SqlError α :=
  .error (.bind loc message)

/-- An error at no place of the text. -/
def bindErr0 {α : Type} (message : Bytes) : Except SqlError α :=
  bindErr message ⟨0, 0⟩

def typeName : TypeId → Bytes
  | .int32 => ascii "INT32"
  | .int64 => ascii "INT64"
  | .double => ascii "DOUBLE"
  | .varchar => ascii "VARCHAR"
  | .bool => ascii "BOOL"
  | .date => ascii "DATE"
  | .timestamp => ascii "TIMESTAMP"
  | .invalid => ascii "?"

/-- The number fits into 32 bits. -/
def fitsInt32 (v : BitVec 64) : Bool :=
  -2147483648 ≤ v.toInt && v.toInt ≤ 2147483647

def bindIntLit (v : BitVec 64) : BoundExpr :=
  .intLit v (if fitsInt32 v then .int32 else .int64)

/-- An error message of the calendar, at the literal. -/
def atLiteral {α : Type} (loc : SourceLoc) : Except Bytes α → Except SqlError α
  | .ok a => .ok a
  | .error message => bindErr message loc

/-- The columns of the bindings with a name, as the number of the binding and of the column. -/
def columnsNamed (bindings : List BoundBinding) (table : Option Bytes) (column : Bytes) :
    List (Nat × Nat × Column) :=
  (List.range bindings.length).flatMap fun b =>
    match bindings[b]? with
    | none => []
    | some binding =>
      if table ≠ none ∧ table ≠ some binding.alias_ ∧ table ≠ some binding.tableName then []
      else
        (List.range binding.schema.length).filterMap fun c =>
          (binding.schema[c]?).bind fun col => if col.name = column then some (b, c, col) else none

def bindColumnRef (bindings : List BoundBinding) (table : Option Bytes) (column : Bytes)
    (loc : SourceLoc) : Except SqlError BoundExpr :=
  match columnsNamed bindings table column with
  | [] =>
    let what := match table with
      | some t => t ++ ascii "." ++ column
      | none => column
    bindErr (ascii "unknown column: " ++ what) loc
  | [(b, c, col)] => .ok (.columnRef ⟨b, c, col.type, col.nullable⟩)
  | _ => bindErr (ascii "ambiguous column: " ++ column) loc

/-- A literal takes the type of the other side where it can. -/
def retypeLit (e : BoundExpr) (target : TypeId) : BoundExpr :=
  match e with
  | .intLit v t =>
    if target = .int32 then (if fitsInt32 v then .intLit v .int32 else .intLit v t)
    else if target = .int64 then .intLit v .int64
    else .intLit v t
  | .nullLit _ => .nullLit target
  | e => e

def isComparison : BinaryOpKind → Bool
  | .lt | .le | .eq | .ge | .gt | .ne => true
  | _ => false

def isArithmetic : BinaryOpKind → Bool
  | .add | .sub | .mul | .div => true
  | _ => false

/-- The checks of an operator whose operands have the same type. -/
def bindTypedOp (op : BinaryOpKind) (left right : BoundExpr) (t : TypeId) (loc : SourceLoc) :
    Except SqlError BoundExpr :=
  if t = .varchar ∧ isComparison op = false then
    bindErr (ascii "VARCHAR only supports comparison operators") loc
  else if (t = .date ∨ t = .timestamp) ∧ isComparison op = false then
    bindErr (typeName t ++ ascii " only supports comparison operators") loc
  else if t = .bool ∧ op ≠ .eq ∧ op ≠ .ne then
    bindErr (ascii "BOOL only supports = and <> operators") loc
  else .ok (.binaryOp op left right t (if isArithmetic op then t else .int32))

def bindBinaryOp (op : BinaryOpKind) (left right : BoundExpr) (loc : SourceLoc) :
    Except SqlError BoundExpr :=
  if left.type = right.type then bindTypedOp op left right left.type loc
  else
    let left' := retypeLit left right.type
    let right' := retypeLit right left.type
    if left'.type = right'.type then bindTypedOp op left' right' left'.type loc
    else
      bindErr (ascii "type mismatch: " ++ typeName left'.type ++ ascii " vs " ++
        typeName right'.type) loc

/-- An operand of a logical operator has the type of a truth value. -/
def checkBoolean (what : Bytes) (e : BoundExpr) (loc : SourceLoc) : Except SqlError Unit :=
  if e.type ≠ .int32 then
    bindErr (what ++ ascii " operand must be boolean (INT32), got " ++ typeName e.type) loc
  else .ok ()

def logicalName : LogicalOpKind → Bytes
  | .and => ascii "AND"
  | .or => ascii "OR"

/-- The kind of an aggregate and the type of its result from the type of its argument. -/
def aggregateOf (name : Bytes) (argType : TypeId) : Option (AggregateKind × TypeId) :=
  if name = ascii "count" then some (.count, .int64)
  else if name = ascii "sum" then some (.sum, if argType = .double then .double else .int64)
  else if name = ascii "avg" then some (.avg, .double)
  else if name = ascii "min" then some (.min, argType)
  else if name = ascii "max" then some (.max, argType)
  else none

def isAggregateName (name : Bytes) : Bool :=
  name ∈ [ascii "count", ascii "sum", ascii "avg", ascii "min", ascii "max"]

/-- Add an aggregate and refer to it by its number. -/
def addAggregate (agg : BoundAggregate) : Bind BoundExpr := do
  let aggs := (← get).getD []
  set (some (aggs ++ [agg]))
  pure (.aggregateRef aggs.length agg.outputType)

/-- The name of a call is one of an aggregate, and aggregates are allowed here. -/
def checkCall (name : Bytes) (loc : SourceLoc) : Bind Unit := do
  if isAggregateName name then
    if (← get) = none then
      bindErr (ascii "aggregate function '" ++ name ++ ascii "' not allowed here") loc
  else bindErr (ascii "unknown function: " ++ name) loc

def bindExpr (bindings : List BoundBinding) : Expr → Bind BoundExpr
  | .intLit v _ => pure (bindIntLit v)
  | .doubleLit v _ => pure (.doubleLit v)
  | .stringLit s _ => pure (.stringLit s)
  | .nullLit _ => pure (.nullLit .int32)
  | .boolLit b _ => pure (.boolLit b)
  | .dateLit s loc => do pure (.dateLit (← atLiteral loc (parseDateString s)))
  | .timestampLit s loc => do pure (.timestampLit (← atLiteral loc (parseTimestampString s)))
  | .columnRef table column loc => bindColumnRef bindings table column loc
  | .funcCall name _ true loc => do
      checkCall name loc
      if name = ascii "count" then addAggregate ⟨.countStar, none, .int64⟩
      else bindErr (name ++ ascii " requires an argument") loc
  | .funcCall name [] false loc => do
      checkCall name loc
      bindErr (name ++ ascii " requires an argument") loc
  | .funcCall name (arg :: _) false loc => do
      checkCall name loc
      let e ← bindExpr bindings arg
      match aggregateOf name e.type with
      | some (kind, type) => addAggregate ⟨kind, some e, type⟩
      | none => bindErr (ascii "unknown function: " ++ name) loc
  | .binaryOp op left right loc => do
      let l ← bindExpr bindings left
      let r ← bindExpr bindings right
      bindBinaryOp op l r loc
  | .logicalOp op left right loc => do
      let l ← bindExpr bindings left
      let r ← bindExpr bindings right
      checkBoolean (logicalName op) l loc
      checkBoolean (logicalName op) r loc
      pure (.logicalOp op l r)
  | .notOp child loc => do
      let e ← bindExpr bindings child
      checkBoolean (ascii "NOT") e loc
      pure (.notOp e)
  | .nullCheck kind child _ => do pure (.nullCheck kind (← bindExpr bindings child))
termination_by structural e => e

/-- An expression where aggregates are not allowed. -/
def bindExpression (bindings : List BoundBinding) (e : Expr) : Except SqlError BoundExpr :=
  Prod.fst <$> bindExpr bindings e none

/-! ## Rows of constants -/

def mismatch {α : Type} (col : Column) : Except SqlError α :=
  bindErr0 (ascii "type mismatch for column: " ++ col.name)

/-- The value of a literal in a column. -/
def foldConstantExpr (e : BoundExpr) (col : Column) : Except SqlError Value :=
  match e with
  | .intLit v t =>
    if col.type = .int64 then .ok (.int64 v)
    else if col.type = .int32 ∧ t = .int32 then .ok (.int32 (v.setWidth 32))
    else mismatch col
  | .doubleLit v => if col.type = .double then .ok (.double v) else mismatch col
  | .stringLit s =>
    if col.type ≠ .varchar then mismatch col
    else if col.maxLen.toNat < s.length then
      bindErr0 (ascii "string of length " ++ decimal s.length ++ ascii " exceeds VARCHAR(" ++
        decimal col.maxLen.toNat ++ ascii ") for column: " ++ col.name)
    else .ok (.string s)
  | .nullLit _ => .ok .null
  | .boolLit b => if col.type = .bool then .ok (.bool b) else mismatch col
  | .dateLit d => if col.type = .date then .ok (.date d) else mismatch col
  | .timestampLit t => if col.type = .timestamp then .ok (.timestamp t) else mismatch col
  | _ => bindErr0 (ascii "INSERT values must be constants")

/-- The value an expression without columns has in a column. -/
def bindConstant (e : Expr) (col : Column) : Except SqlError Value := do
  foldConstantExpr (← bindExpression [] e) col

/-- The index of the first column with a name. -/
def columnIndex (schema : Schema) (name : Bytes) : Option Nat :=
  schema.findIdx? fun col => col.name = name

/-- The columns an `INSERT` names, as indexes. -/
def targetColumns (schema : Schema) : List Bytes → List Bytes → Except SqlError (List Nat)
  | _, [] => .ok []
  | seen, name :: names =>
    if name ∈ seen then bindErr0 (ascii "duplicate column in INSERT: " ++ name)
    else
      match columnIndex schema name with
      | none => bindErr0 (ascii "unknown column: " ++ name)
      | some i => do
          let rest ← targetColumns schema (name :: seen) names
          pure (i :: rest)

/-- The values of a row, each put at its column. -/
def bindValues (schema : Schema) : List Nat → List Expr → Row → Except SqlError Row
  | i :: targets, e :: exprs, row =>
    match schema[i]? with
    | none => .ok row
    | some col => do
        let v ← bindConstant e col
        bindValues schema targets exprs (row.set i v)
  | _, _, row => .ok row

/-- A `NULL` becomes the default of its column; without one the column has to allow it. -/
def applyDefaults : Schema → Row → Except SqlError Row
  | col :: schema, v :: row => do
      let v' ←
        if v.isNull then
          match col.default with
          | some d => pure d
          | none =>
            if col.nullable then pure v
            else bindErr0 (ascii "NULL into NOT NULL column: " ++ col.name)
        else pure v
      let rest ← applyDefaults schema row
      pure (v' :: rest)
  | _, _ => .ok []

def bindRow (schema : Schema) (targets : List Nat) (exprs : List Expr) : Except SqlError Row :=
  if exprs.length ≠ targets.length then
    bindErr0 (ascii "arity mismatch: expected " ++ decimal targets.length ++
      ascii " values, got " ++
      decimal exprs.length)
  else do
    let row ← bindValues schema targets exprs (schema.map fun _ => .null)
    applyDefaults schema row

def unknownTable {α : Type} (name : Bytes) : Except SqlError α :=
  bindErr0 (ascii "unknown table: " ++ name)

def bindInsert (cat : CatalogView) (stmt : InsertStmt) : Except SqlError BoundInsert :=
  match cat.schemaOf stmt.tableName with
  | none => unknownTable stmt.tableName
  | some schema => do
      let targets ←
        if stmt.columns = [] then pure (List.range schema.length)
        else targetColumns schema [] stmt.columns
      let rows ← stmt.rows.mapM (bindRow schema targets)
      pure ⟨stmt.tableName, rows⟩

/-! ## CREATE TABLE and ALTER TABLE -/

/-- The columns of a statement; no two have the same name. -/
def bindColumns : List Bytes → List ColumnDef → Except SqlError Schema
  | _, [] => .ok []
  | seen, col :: cols =>
    if col.name ∈ seen then bindErr0 (ascii "duplicate column name: " ++ col.name)
    else do
      let rest ← bindColumns (col.name :: seen) cols
      pure (⟨col.name, col.type, col.nullable, col.maxLen, col.defaultValue⟩ :: rest)

/-- What the constraints of a table add up to. -/
structure ConstraintState where
  schema : Schema
  constraints : List BoundConstraint
  hasPk : Bool

def onlyOnePk {α : Type} : Except SqlError α :=
  bindErr0 (ascii "table can have only one PRIMARY KEY")

def cannotIndexBool {α : Type} (name : Bytes) : Except SqlError α :=
  bindErr0 (ascii "cannot index BOOL column: " ++ name)

/-- A column does not allow `NULL`. -/
def setNotNull (schema : Schema) (i : Nat) : Schema :=
  schema.modify i fun col => { col with nullable := false }

/-- The constraints that stand at a column. -/
def bindColumnConstraints (table : Bytes) (i : Nat) (col : ColumnDef) (st : ConstraintState) :
    Except SqlError ConstraintState := do
  let st ←
    if col.isPrimaryKey then
      if col.type = .bool then cannotIndexBool col.name
      else if st.hasPk then onlyOnePk
      else
        pure { schema := setNotNull st.schema i, hasPk := true,
               constraints := st.constraints ++
                 [⟨.primaryKey, ascii "pk_" ++ table, [UInt8.ofNat i]⟩] }
    else pure st
  if col.isUnique then
    if col.type = .bool then cannotIndexBool col.name
    else
      pure { st with constraints := st.constraints ++
        [⟨.unique, ascii "uq_" ++ table ++ ascii "_" ++ col.name, [UInt8.ofNat i]⟩] }
  else pure st

/-- The columns of a constraint of the table, as indexes. -/
def constraintColumns (kind : ConstraintKind) :
    List Bytes → Schema → Except SqlError (Schema × List UInt8)
  | [], schema => .ok (schema, [])
  | name :: names, schema =>
    match columnIndex schema name with
    | none => bindErr0 (ascii "unknown column in constraint: " ++ name)
    | some i =>
      if (schema[i]?).map Column.type = some .bool then cannotIndexBool name
      else do
        let schema := if kind = .primaryKey then setNotNull schema i else schema
        let (schema, rest) ← constraintColumns kind names schema
        pure (schema, UInt8.ofNat i :: rest)

/-- The name of a constraint that has none in the statement. -/
def constraintName (table : Bytes) (tc : TableConstraint) : Bytes :=
  if tc.name = [] then
    match tc.kind with
    | .primaryKey => ascii "pk_" ++ table
    | .unique => ascii "uq_" ++ table ++ tc.columns.flatMap fun name => ascii "_" ++ name
  else tc.name

def bindTableConstraint (table : Bytes) (st : ConstraintState) (tc : TableConstraint) :
    Except SqlError ConstraintState :=
  if tc.kind = .primaryKey ∧ st.hasPk then onlyOnePk
  else do
    let (schema, indices) ← constraintColumns tc.kind tc.columns st.schema
    pure { schema := schema, hasPk := st.hasPk || tc.kind = .primaryKey,
           constraints := st.constraints ++ [⟨tc.kind, constraintName table tc, indices⟩] }

def bindPartition (col : Column) (pd : PartitionDefAst) : Except SqlError PartitionDef :=
  match pd.upperBound with
  | none => .ok ⟨pd.name, true, .null, pd.nodeAddr⟩
  | some e => do pure ⟨pd.name, false, ← bindConstant e col, pd.nodeAddr⟩

/-- The partitions of a new table.  Nothing may follow the one for `MAXVALUE`. -/
def bindPartitions (col : Column) : List PartitionDefAst → Except SqlError (List PartitionDef)
  | [] => .ok []
  | pd :: pds => do
      let p ← bindPartition col pd
      if p.isMaxvalue ∧ pds ≠ [] then bindErr0 (ascii "MAXVALUE partition must be last")
      else
        let rest ← bindPartitions col pds
        pure (p :: rest)

/-- The index of a column is kept in 8 bits; 255 stands for a column that is not there. -/
def bindShardMap (schema : Schema) (pcol : Bytes) (defs : List PartitionDefAst) :
    Except SqlError ShardMap :=
  let found := columnIndex schema pcol
  let idx : UInt8 := found.elim 255 UInt8.ofNat
  let type := ((found.bind fun i => schema[i]?).map Column.type).getD .int32
  if idx = 255 then bindErr0 (ascii "partition column not found: " ++ pcol)
  else if defs = [] then bindErr0 (ascii "PARTITION BY requires at least one partition")
  else do
    let partitions ← bindPartitions ⟨pcol, type, true, 255, none⟩ defs
    pure ⟨pcol, idx, partitions⟩

def bindCreateTable (stmt : CreateTableStmt) : Except SqlError BoundCreateTable := do
  let schema ← bindColumns [] stmt.columns
  let st ← stmt.columns.zipIdx.foldlM
    (fun st (col, i) => bindColumnConstraints stmt.tableName i col st) ⟨schema, [], false⟩
  let st ← stmt.constraints.foldlM (bindTableConstraint stmt.tableName) st
  let shardMap ←
    match stmt.partitionCol with
    | none => pure none
    | some pcol => do pure (some (← bindShardMap st.schema pcol stmt.partitionDefs))
  pure ⟨stmt.tableName, st.schema, st.constraints, shardMap⟩

/-- A new partition stands before the one for `MAXVALUE`, or at the end. -/
def insertPartition (p : PartitionDef) (ps : List PartitionDef) : List PartitionDef :=
  ps.takeWhile (fun q => !q.isMaxvalue) ++ p :: ps.dropWhile fun q => !q.isMaxvalue

def bindAlterAddPartition (cat : CatalogView) (stmt : AlterAddPartitionStmt) :
    Except SqlError BoundAlterAddPartition :=
  match cat.schemaOf stmt.tableName with
  | none => unknownTable stmt.tableName
  | some schema =>
    match cat.shardMapOf stmt.tableName with
    | none => bindErr0 (ascii "table is not partitioned: " ++ stmt.tableName)
    | some existing =>
      match schema[existing.partitionColIdx.toNat]? with
      | none => .error .outOfBounds
      | some col => do
          let p ← bindPartition col stmt.partition
          pure ⟨stmt.tableName,
            { existing with partitions := insertPartition p existing.partitions }⟩

/-! ## DELETE and UPDATE -/

/-- The condition of a statement, if it has one. -/
def bindWhere (bindings : List BoundBinding) : Option Expr → Except SqlError (Option BoundExpr)
  | none => .ok none
  | some e => do pure (some (← bindExpression bindings e))

def bindDelete (cat : CatalogView) (stmt : DeleteStmt) : Except SqlError BoundDelete :=
  match cat.schemaOf stmt.tableName with
  | none => unknownTable stmt.tableName
  | some schema => do
      let where_ ← bindWhere [⟨stmt.tableName, stmt.tableName, schema⟩] stmt.where_
      pure ⟨stmt.tableName, schema, where_⟩

def bindAssignment (table : Bytes) (schema : Schema) (asgn : Assignment) :
    Except SqlError BoundAssignment :=
  match columnIndex schema asgn.column with
  | none => bindErr0 (ascii "unknown column: " ++ asgn.column)
  | some i => do pure ⟨i, ← bindExpression [⟨table, table, schema⟩] asgn.value⟩

def bindUpdate (cat : CatalogView) (stmt : UpdateStmt) : Except SqlError BoundUpdate :=
  match cat.schemaOf stmt.tableName with
  | none => unknownTable stmt.tableName
  | some schema => do
      let assignments ← stmt.assignments.mapM (bindAssignment stmt.tableName schema)
      let where_ ← bindWhere [⟨stmt.tableName, stmt.tableName, schema⟩] stmt.where_
      pure ⟨stmt.tableName, schema, assignments, where_⟩

/-! ## SELECT -/

def bindTableRef (cat : CatalogView) (ref : TableRef) : Except SqlError BoundBinding :=
  match cat.schemaOf ref.tableName with
  | none => bindErr (ascii "unknown table: " ++ ref.tableName) ref.loc
  | some schema => .ok ⟨ref.tableName, ref.alias_.getD ref.tableName, schema⟩

/-- The joined tables in turn; a condition sees the tables up to its own. -/
def bindJoins (cat : CatalogView) (bindings : List BoundBinding) :
    List JoinClause → Except SqlError (List BoundBinding × List BoundExpr)
  | [] => .ok (bindings, [])
  | join :: joins => do
      let binding ← bindTableRef cat join.right
      let on ← bindExpression (bindings ++ [binding]) join.on
      let (bindings, rest) ← bindJoins cat (bindings ++ [binding]) joins
      pure (bindings, on :: rest)

/-- A star stands for all columns of all tables. -/
def starProjections (bindings : List BoundBinding) : List BoundProjection :=
  bindings.zipIdx.flatMap fun (binding, b) =>
    binding.schema.zipIdx.map fun (col, c) =>
      ⟨.columnRef ⟨b, c, col.type, col.nullable⟩, none⟩

def bindProjections (bindings : List BoundBinding) (stmt : SelectStmt) :
    Bind (List BoundProjection) :=
  if stmt.starProjection then pure (starProjections bindings)
  else stmt.projections.mapM fun item => do pure ⟨← bindExpr bindings item.expr, item.alias_⟩

def bindHaving (bindings : List BoundBinding) : Option Expr → Bind (Option BoundExpr)
  | none => pure none
  | some e => do pure (some (← bindExpr bindings e))

/-- A column that is not one of the grouped ones stands outside the aggregates. -/
def hasUngroupedCol (groupBy : List BoundExpr) : BoundExpr → Bool
  | .columnRef ref =>
    !groupBy.any fun g =>
      match g with
      | .columnRef gref => gref.bindingId = ref.bindingId && gref.columnIdx = ref.columnIdx
      | _ => false
  | .binaryOp _ left right _ _ => hasUngroupedCol groupBy left || hasUngroupedCol groupBy right
  | .logicalOp _ left right => hasUngroupedCol groupBy left || hasUngroupedCol groupBy right
  | .notOp child => hasUngroupedCol groupBy child
  | .nullCheck _ child => hasUngroupedCol groupBy child
  | _ => false

/-- The projection with an alias; the last one, when several have it. -/
def projectionNamed (projections : List BoundProjection) (name : Bytes) :
    Option (Nat × BoundProjection) :=
  (projections.zipIdx.reverse.find? fun (p, _) => p.alias_ = some name).map fun (p, i) => (i, p)

def bindOrderByItem (bindings : List BoundBinding) (projections : List BoundProjection)
    (item : OrderByItem) : Bind BoundOrderBy :=
  match item.expr with
  | .columnRef none column _ =>
    match projectionNamed projections column with
    | some (i, p) => pure ⟨.projectionRef i p.expr.type, item.ascending⟩
    | none => do pure ⟨← bindExpr bindings item.expr, item.ascending⟩
  | e => do pure ⟨← bindExpr bindings e, item.ascending⟩

def bindSelect (cat : CatalogView) (stmt : SelectStmt) : Except SqlError BoundSelect := do
  let first ← bindTableRef cat stmt.source
  let (bindings, joinPredicates) ← bindJoins cat [first] stmt.joins
  let where_ ← bindWhere bindings stmt.where_
  let groupBy ← stmt.groupBy.mapM (bindExpression bindings)
  let (projections, aggs) ← bindProjections bindings stmt (some [])
  let (having, aggs) ← bindHaving bindings stmt.having aggs
  let isAggregated := !groupBy.isEmpty || !(aggs.getD []).isEmpty
  if isAggregated && projections.any fun p => hasUngroupedCol groupBy p.expr then
    bindErr0 (ascii "non-aggregated column in aggregated query")
  else
    let (orderBy, aggs) ← stmt.orderBy.mapM (bindOrderByItem bindings projections) aggs
    pure ⟨bindings, joinPredicates, where_, groupBy, aggs.getD [], having, projections, orderBy,
      stmt.limit, stmt.offset, isAggregated⟩

/-! ## The other statements -/

/-- A statement that only needs its table. -/
def onTable (cat : CatalogView) (name : Bytes) (stmt : BoundStatement) :
    Except SqlError BoundStatement :=
  if cat.schemaOf name = none then unknownTable name else .ok stmt

def bindDropTable (cat : CatalogView) (stmt : DropTableStmt) : Except SqlError BoundStatement :=
  if stmt.ifExists = false ∧ cat.schemaOf stmt.tableName = none then unknownTable stmt.tableName
  else .ok (.dropTable stmt.tableName stmt.ifExists)

/-- The columns of an index, as indexes. -/
def indexColumns (table : Bytes) (schema : Schema) : List Bytes → Except SqlError (List UInt8)
  | [] => .ok []
  | name :: names =>
    match columnIndex schema name with
    | none =>
      bindErr0 (ascii "column '" ++ name ++ ascii "' not found in table '" ++ table ++ ascii "'")
    | some i =>
      if (schema[i]?).map Column.type = some .bool then
        bindErr0 (ascii "cannot index BOOL column '" ++ name ++ ascii "'")
      else do
        let rest ← indexColumns table schema names
        pure (UInt8.ofNat i :: rest)

def bindCreateIndex (cat : CatalogView) (stmt : CreateIndexStmt) :
    Except SqlError BoundCreateIndex :=
  match cat.schemaOf stmt.tableName with
  | none => unknownTable stmt.tableName
  | some schema =>
    if stmt.indexName ∈ cat.indexNames stmt.tableName then
      bindErr0 (ascii "index '" ++ stmt.indexName ++ ascii "' already exists on table '" ++
        stmt.tableName ++ ascii "'")
    else do
      let cols ← indexColumns stmt.tableName schema stmt.columnNames
      pure ⟨stmt.tableName, stmt.indexName, cols, stmt.unique⟩

def bindDropIndex (cat : CatalogView) (stmt : DropIndexStmt) : Except SqlError BoundStatement :=
  if cat.schemaOf stmt.tableName = none then unknownTable stmt.tableName
  else if stmt.indexName ∉ cat.indexNames stmt.tableName then
    bindErr0 (ascii "index '" ++ stmt.indexName ++ ascii "' not found on table '" ++
      stmt.tableName ++ ascii "'")
  else .ok (.dropIndex stmt.tableName stmt.indexName)

def bindStatement (cat : CatalogView) : Statement → Except SqlError BoundStatement
  | .select stmt => .select <$> bindSelect cat stmt
  | .createTable stmt => .createTable <$> bindCreateTable stmt
  | .insert stmt => .insert <$> bindInsert cat stmt
  | .dropTable stmt => bindDropTable cat stmt
  | .delete stmt => .delete <$> bindDelete cat stmt
  | .update stmt => .update <$> bindUpdate cat stmt
  | .createIndex stmt => .createIndex <$> bindCreateIndex cat stmt
  | .dropIndex stmt => bindDropIndex cat stmt
  | .showIndexes name => onTable cat name (.showIndexes name)
  | .showConstraints name => onTable cat name (.showConstraints name)
  | .vacuum name => onTable cat name (.vacuum name)
  | .alterAddPartition stmt => .alterAddPartition <$> bindAlterAddPartition cat stmt

/-- The first statement of a text; the others are read and not executed. -/
def bindSql (cat : CatalogView) (sql : Bytes) : Except SqlError (Option BoundStatement) := do
  match ← parseSql sql with
  | [] => pure none
  | stmt :: _ => some <$> bindStatement cat stmt

end NyxDb.Sql
