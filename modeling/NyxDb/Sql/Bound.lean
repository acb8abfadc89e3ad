import NyxDb.Sql.Binder
import NyxDb.Lib.Except

/-!
# Bound statements keep their kind
-/

namespace NyxDb.Sql

inductive StatementKind where
  | select | createTable | insert | dropTable | delete | update | createIndex | dropIndex
  | showIndexes | showConstraints | vacuum | alterAddPartition
  deriving DecidableEq, Repr

def Statement.kind : Statement → StatementKind
  | .select _ => .select
  | .createTable _ => .createTable
  | .insert _ => .insert
  | .dropTable _ => .dropTable
  | .delete _ => .delete
  | .update _ => .update
  | .createIndex _ => .createIndex
  | .dropIndex _ => .dropIndex
  | .showIndexes _ => .showIndexes
  | .showConstraints _ => .showConstraints
  | .vacuum _ => .vacuum
  | .alterAddPartition _ => .alterAddPartition

def BoundStatement.kind : BoundStatement → StatementKind
  | .select _ => .select
  | .createTable _ => .createTable
  | .insert _ => .insert
  | .dropTable _ _ => .dropTable
  | .delete _ => .delete
  | .update _ => .update
  | .createIndex _ => .createIndex
  | .dropIndex _ _ => .dropIndex
  | .showIndexes _ => .showIndexes
  | .showConstraints _ => .showConstraints
  | .vacuum _ => .vacuum
  | .alterAddPartition _ => .alterAddPartition

theorem kind_of_bindStatement {cat : CatalogView} {stmt : Statement} {b : BoundStatement}
    (h : bindStatement cat stmt = .ok b) : stmt.kind = b.kind := by
  cases stmt with
  | select s | createTable s | insert s | delete s | update s | createIndex s
  | alterAddPartition s =>
    obtain ⟨x, -, rfl⟩ := except_map_eq_ok.1 h
    rfl
  | dropTable s =>
    rw [bindStatement, bindDropTable] at h
    split_ifs at h <;> cases h
    rfl
  | dropIndex s =>
    rw [bindStatement, bindDropIndex] at h
    split_ifs at h <;> cases h
    rfl
  | showIndexes name | showConstraints name | vacuum name =>
    rw [bindStatement, onTable] at h
    split at h <;> cases h
    rfl

end NyxDb.Sql
