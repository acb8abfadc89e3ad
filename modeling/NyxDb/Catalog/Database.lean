import NyxDb.Catalog.Durability
import NyxDb.Catalog.Metadata

/-!
# The database of a catalog

A catalog is there to keep a database: a table for each of some names, with its rows, schema,
indexes, constraints and shard map.  Every command is about at most one table, which it creates,
changes or drops (`Command.onTable`); a checkpoint and a restart are about none.

* `Command.run` is the command on a catalog, with its files and its log; `Command.effect` is what
  it should do to the database.
* `FullCatalog.after` and `Database.after` are the catalog and the database of a history.
* `TableView` is what can be asked about a table.
* `after_forget`: a command that leaves nothing of its table leaves the database of the history in
  which no command is about that table.
-/

namespace NyxDb

open Sql Catalog

/-- A table of a database. -/
structure TableState where
  rows : Ledger Row
  schema : Schema
  indexes : List Bytes
  constraints : List BoundConstraint
  shardMap : Option ShardMap

/-- A database by canonical names. -/
abbrev Database : Type :=
  Bytes → Option TableState

/-- What a catalog is asked to do.  `reopen` ends the process without writing anything, and loads
the data directory. -/
inductive Command where
  | addTable (name : Bytes) (schema : Schema) (constraints : List BoundConstraint)
  | setShardMap (name : Bytes) (m : ShardMap)
  | addIndex (name index : Bytes) (cols : List UInt8) (unique : Bool)
  | insert (gate : Option Nat) (name : Bytes) (rows : List Row)
  | updateRows (name : Bytes) (ids : List Nat) (schema : Schema) (rows : List Row)
  | deleteRows (name : Bytes) (ids : List Nat)
  | dropTable (gate : Option Nat) (name : Bytes) (ifExists : Bool)
  | flushAll (gate : Option Nat)
  | reopen
  deriving DecidableEq, Repr

namespace Command

/-! ## Commands on a catalog -/

def run : Command → Op FullCatalog Unit
  | .addTable name schema constraints => FullCatalog.addTable name schema constraints
  | .setShardMap name m => FullCatalog.setShardMap name m
  | .addIndex name index cols unique => FullCatalog.onBase (Catalog.addIndex name index cols unique)
  | .insert gate name rows => FullCatalog.onBase (CatalogOp.run (.insert gate name rows))
  | .updateRows name ids schema rows =>
    FullCatalog.onBase (CatalogOp.run (.updateRows name ids schema rows))
  | .deleteRows name ids => FullCatalog.onBase (CatalogOp.run (.deleteRows name ids))
  | .dropTable gate name ifExists => FullCatalog.dropTable gate name ifExists
  | .flushAll gate => FullCatalog.onBase (Catalog.flushAll gate)
  | .reopen => do
      let c ← Proc.get
      let c' ← ofExcept (FullCatalog.load c.dir)
      Proc.modify fun _ => c'

def step (c : FullCatalog) (op : Command) : FullCatalog :=
  (exec op.run c).2

def Succeeds (c : FullCatalog) (op : Command) : Prop :=
  (exec op.run c).1 = .ok ()

instance (c : FullCatalog) (op : Command) : Decidable (op.Succeeds c) :=
  decidable_of_iff ((exec op.run c).1.toOption = some ()) <| by
    unfold Succeeds
    cases (exec op.run c).1 <;> simp [Except.toOption]

/-! ## Commands on a database -/

/-- The table that a command is about. -/
def target : Command → Option Bytes
  | .addTable name _ _ => some (canonicalize name)
  | .setShardMap name _ => some (canonicalize name)
  | .addIndex name _ _ _ => some (canonicalize name)
  | .insert _ name _ => some (canonicalize name)
  | .updateRows name _ _ _ => some (canonicalize name)
  | .deleteRows name _ => some (canonicalize name)
  | .dropTable _ name _ => some (canonicalize name)
  | .flushAll _ => none
  | .reopen => none

/-- What a command makes of its table. -/
def onTable (t : Option TableState) : Command → Option TableState
  | .addTable _ schema constraints =>
    some ⟨[], schema, constraints.map BoundConstraint.name, constraints, none⟩
  | .setShardMap _ m => t.map fun t => { t with shardMap := some m }
  | .addIndex _ index _ _ => t.map fun t => { t with indexes := t.indexes ++ [index] }
  | .insert _ _ rows => t.map fun t => { t with rows := (t.rows.kill []).add rows }
  | .updateRows _ ids _ rows =>
    if ids = [] then t else t.map fun t => { t with rows := (t.rows.kill ids).add rows }
  | .deleteRows _ ids => t.map fun t => { t with rows := (t.rows.kill ids).add [] }
  | .dropTable _ _ _ => none
  | .flushAll _ => t
  | .reopen => t

def effect (d : Database) (op : Command) : Database :=
  match op.target with
  | none => d
  | some n => Function.update d n (op.onTable (d n))

theorem effect_of_target {d : Database} {op : Command} {n : Bytes} (h : op.target = some n) :
    effect d op = Function.update d n (op.onTable (d n)) := by
  unfold effect
  rw [h]

/-- A command leaves the tables that it is not about. -/
theorem effect_of_ne {d : Database} {op : Command} {m : Bytes} (h : op.target ≠ some m) :
    effect d op m = d m := by
  unfold effect
  cases htarget : op.target with
  | none => rfl
  | some n =>
    have hne : m ≠ n := by
      rintro rfl
      exact h htarget
    exact Function.update_of_ne hne _ _

/-- What a command makes of its table depends on that table only. -/
theorem effect_congr {d d' : Database} {m : Bytes} (h : d m = d' m) (op : Command) :
    effect d op m = effect d' op m := by
  by_cases htarget : op.target = some m
  · rw [effect_of_target htarget, effect_of_target htarget, Function.update_self,
      Function.update_self, h]
  · rw [effect_of_ne htarget, effect_of_ne htarget, h]

/-- The commands of a history that are not about a table. -/
def forget (n : Bytes) (ops : List Command) : List Command :=
  ops.filter fun op => op.target ≠ some n

end Command

/-! ## Histories -/

/-- What can be asked about a table. -/
structure TableView where
  rows : Option (Option (List (Nat × Row)))
  schema : Option Schema
  indexes : List Bytes
  constraints : List BoundConstraint
  shardMap : Option ShardMap
  deriving DecidableEq, Repr

namespace FullCatalog

/-- The catalog of a new data directory after some commands. -/
def after (ops : List Command) : FullCatalog :=
  Run.final Command.step empty ops

theorem after_append (ops ops' : List Command) :
    after (ops ++ ops') = Run.final Command.step (after ops) ops' :=
  List.foldl_append

/-- What a catalog answers about a table. -/
def viewOf (c : FullCatalog) (name : Bytes) : TableView :=
  ⟨c.base.rowsIn (canonicalize name), c.schemaOf name, c.indexNames name, c.constraintsOf name,
    c.shardMapOf name⟩

end FullCatalog

namespace Database

open Command

/-- The database that a history should lead to. -/
def after (ops : List Command) : Database :=
  Run.final effect (fun _ => none) ops

theorem after_append (ops ops' : List Command) :
    after (ops ++ ops') = Run.final effect (after ops) ops' :=
  List.foldl_append

/-- What a database has in a table. -/
def viewOf (d : Database) (name : Bytes) : TableView :=
  let t := d (canonicalize name)
  ⟨t.map fun t => some t.rows.live, t.map TableState.schema, (t.map TableState.indexes).getD [],
    (t.map TableState.constraints).getD [], t.bind TableState.shardMap⟩

/-- In every other table a history is the same without the commands about one. -/
theorem final_forget_of_ne {n m : Bytes} (hne : m ≠ n) {d d' : Database} (h : d m = d' m)
    (ops : List Command) : Run.final effect d ops m = Run.final effect d' (forget n ops) m := by
  induction ops generalizing d d' with
  | nil => exact h
  | cons op ops ih =>
    by_cases htarget : op.target = some n
    · have hforget : forget n (op :: ops) = forget n ops :=
        List.filter_cons_of_neg (by simpa using htarget)
      have hother : op.target ≠ some m := by
        rw [htarget]
        exact fun heq => hne (Option.some.inj heq).symm
      rw [hforget]
      exact ih ((effect_of_ne hother).trans h)
    · have hforget : forget n (op :: ops) = op :: forget n ops :=
        List.filter_cons_of_pos (by simpa using htarget)
      rw [hforget]
      exact ih (effect_congr h op)

theorem final_forget_self {n : Bytes} (d : Database) (ops : List Command) :
    Run.final effect d (forget n ops) n = d n := by
  unfold forget
  induction ops generalizing d with
  | nil => rfl
  | cons op ops ih =>
    by_cases htarget : op.target = some n
    · rw [List.filter_cons_of_neg (by simpa using htarget)]
      exact ih d
    · rw [List.filter_cons_of_pos (by simpa using htarget)]
      exact (ih (effect d op)).trans (effect_of_ne htarget)

/-- **A command that leaves nothing of its table** leaves the database of the history without the
table. -/
theorem after_forget (op : Command) {n : Bytes} (htarget : op.target = some n) {ops : List Command}
    (hnone : op.onTable (after ops n) = none) : effect (after ops) op = after (forget n ops) := by
  funext m
  rw [effect_of_target htarget, Function.update_apply]
  split
  · next heq => rw [heq, hnone, after, final_forget_self]
  · next hne => exact final_forget_of_ne hne rfl ops

end Database
end NyxDb
