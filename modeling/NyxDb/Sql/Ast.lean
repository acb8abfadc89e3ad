import NyxDb.Sql.Lexer

/-!
# Statements as the parser reads them
-/

namespace NyxDb.Sql

inductive BinaryOpKind where
  | add | sub | mul | div
  | lt | le | eq | ge | gt | ne
  deriving DecidableEq, Repr

inductive LogicalOpKind where
  | and | or
  deriving DecidableEq, Repr

inductive NullCheckKind where
  | isNull | isNotNull
  deriving DecidableEq, Repr

inductive Expr where
  | intLit (value : BitVec 64) (loc : SourceLoc)
  | doubleLit (value : BitVec 64) (loc : SourceLoc)
  | stringLit (value : Bytes) (loc : SourceLoc)
  | nullLit (loc : SourceLoc)
  | boolLit (value : Bool) (loc : SourceLoc)
  | dateLit (value : Bytes) (loc : SourceLoc)
  | timestampLit (value : Bytes) (loc : SourceLoc)
  | columnRef (table : Option Bytes) (column : Bytes) (loc : SourceLoc)
  | funcCall (name : Bytes) (args : List Expr) (star : Bool) (loc : SourceLoc)
  | binaryOp (op : BinaryOpKind) (left right : Expr) (loc : SourceLoc)
  | logicalOp (op : LogicalOpKind) (left right : Expr) (loc : SourceLoc)
  | notOp (child : Expr) (loc : SourceLoc)
  | nullCheck (kind : NullCheckKind) (child : Expr) (loc : SourceLoc)

def Expr.loc : Expr → SourceLoc
  | .intLit _ loc | .doubleLit _ loc | .stringLit _ loc | .nullLit loc | .boolLit _ loc
  | .dateLit _ loc | .timestampLit _ loc | .columnRef _ _ loc | .funcCall _ _ _ loc
  | .binaryOp _ _ _ loc | .logicalOp _ _ _ loc | .notOp _ loc | .nullCheck _ _ loc => loc

structure SelectItem where
  expr : Expr
  alias_ : Option Bytes

structure TableRef where
  tableName : Bytes
  alias_ : Option Bytes
  loc : SourceLoc
  deriving DecidableEq, Repr

structure JoinClause where
  right : TableRef
  on : Expr

structure OrderByItem where
  expr : Expr
  ascending : Bool

structure SelectStmt where
  projections : List SelectItem
  starProjection : Bool
  source : TableRef
  joins : List JoinClause
  where_ : Option Expr
  groupBy : List Expr
  having : Option Expr
  orderBy : List OrderByItem
  limit : Option (BitVec 64)
  offset : Option (BitVec 64)

structure ColumnDef where
  name : Bytes
  type : TypeId
  nullable : Bool
  maxLen : UInt16
  isPrimaryKey : Bool
  isUnique : Bool
  defaultValue : Option Value
  deriving DecidableEq, Repr

inductive ConstraintKind where
  | primaryKey | unique
  deriving DecidableEq, Repr

structure TableConstraint where
  kind : ConstraintKind
  name : Bytes
  columns : List Bytes
  deriving DecidableEq, Repr

/-- The bound of a partition; a partition without one takes what is left. -/
structure PartitionDefAst where
  name : Bytes
  upperBound : Option Expr
  nodeAddr : Bytes

structure CreateTableStmt where
  tableName : Bytes
  columns : List ColumnDef
  constraints : List TableConstraint
  partitionCol : Option Bytes
  partitionDefs : List PartitionDefAst

structure InsertStmt where
  tableName : Bytes
  columns : List Bytes
  rows : List (List Expr)

structure DropTableStmt where
  tableName : Bytes
  ifExists : Bool
  deriving DecidableEq, Repr

structure DeleteStmt where
  tableName : Bytes
  where_ : Option Expr

structure Assignment where
  column : Bytes
  value : Expr

structure UpdateStmt where
  tableName : Bytes
  assignments : List Assignment
  where_ : Option Expr

structure CreateIndexStmt where
  indexName : Bytes
  tableName : Bytes
  columnNames : List Bytes
  unique : Bool
  deriving DecidableEq, Repr

structure DropIndexStmt where
  indexName : Bytes
  tableName : Bytes
  deriving DecidableEq, Repr

structure AlterAddPartitionStmt where
  tableName : Bytes
  partition : PartitionDefAst

inductive Statement where
  | select (stmt : SelectStmt)
  | createTable (stmt : CreateTableStmt)
  | insert (stmt : InsertStmt)
  | dropTable (stmt : DropTableStmt)
  | delete (stmt : DeleteStmt)
  | update (stmt : UpdateStmt)
  | createIndex (stmt : CreateIndexStmt)
  | dropIndex (stmt : DropIndexStmt)
  | showIndexes (tableName : Bytes)
  | showConstraints (tableName : Bytes)
  | vacuum (tableName : Bytes)
  | alterAddPartition (stmt : AlterAddPartitionStmt)

end NyxDb.Sql
