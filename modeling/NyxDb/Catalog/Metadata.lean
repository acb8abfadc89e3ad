import NyxDb.Catalog.Statements
import NyxDb.Sql.Binder

/-!
# Constraints and shard maps

Beside its tables a catalog keeps the constraints and the shard map of each table, in memory and
in files of the directory of the table.  The two maps in memory are filled when a table is created
or altered and when the catalog is loaded.
-/

namespace NyxDb

open Sql Catalog

/-- The catalog with all it keeps of a table.  The functions go by canonical names. -/
structure FullCatalog where
  base : Catalog
  constraintMeta : Bytes → List BoundConstraint
  shardMaps : Bytes → Option ShardMap
  constraintFiles : Bytes → Option (List BoundConstraint)
  shardMapFiles : Bytes → Option ShardMap

/-- The data directory, with the files of constraints and shard maps. -/
structure FullDir where
  base : CatalogDir
  constraintFiles : Bytes → Option (List BoundConstraint)
  shardMapFiles : Bytes → Option ShardMap

/-- The names of the tables in a data directory. -/
def Catalog.openedNames (d : CatalogDir) : List Bytes :=
  (d.tables.filter fun x => x.2.dir.schema.isSome).map fun x => canonicalize x.1

namespace FullCatalog

def empty : FullCatalog :=
  ⟨⟨[], [], none, none⟩, fun _ => [], fun _ => none, fun _ => none, fun _ => none⟩

def dir (c : FullCatalog) : FullDir :=
  ⟨c.base.dir, c.constraintFiles, c.shardMapFiles⟩

def onBase {α : Type} (op : Op Catalog α) : Op FullCatalog α :=
  Proc.zoom base (fun cat c => { c with base := cat }) op

def schemaOf (c : FullCatalog) (name : Bytes) : Option Schema :=
  (c.base.find (canonicalize name)).map fun e => e.table.schema

def constraintsOf (c : FullCatalog) (name : Bytes) : List BoundConstraint :=
  c.constraintMeta (canonicalize name)

def shardMapOf (c : FullCatalog) (name : Bytes) : Option ShardMap :=
  c.shardMaps (canonicalize name)

def indexNames (c : FullCatalog) (name : Bytes) : List Bytes :=
  ((c.base.find (canonicalize name)).map fun e => e.indexes.map Prod.fst).getD []

def tableNames (c : FullCatalog) : List Bytes :=
  c.base.tables.map TableEntry.name

/-- What the binder asks. -/
def view (c : FullCatalog) : CatalogView :=
  ⟨c.schemaOf, c.shardMapOf, c.indexNames⟩

/-! ## Statements -/

/-- A unique index for a constraint, which is then noted. -/
def addConstraint (name : Bytes) (k : BoundConstraint) : Op FullCatalog Unit := do
  onBase (addIndex name k.name k.colIndices true)
  let canonical := canonicalize name
  Proc.modify fun c =>
    { c with
      constraintMeta := Function.update c.constraintMeta canonical
        (c.constraintMeta canonical ++ [k]) }

/-- The file of constraints gets all that are noted for the name. -/
def addTable (name : Bytes) (schema : Schema) (constraints : List BoundConstraint) :
    Op FullCatalog Unit := do
  let canonical := canonicalize name
  onBase do
    ensureWal
    writeRecord (createTablePayload canonical schema)
    createTable name schema
  fileOp fun c =>
    { c with constraintFiles := Function.update c.constraintFiles canonical (some []) }
  forEach constraints (addConstraint name)
  if constraints.isEmpty then pure ()
  else
    fileOp fun c =>
      { c with
        constraintFiles :=
          Function.update c.constraintFiles canonical (some (c.constraintMeta canonical)) }

def setShardMap (name : Bytes) (m : ShardMap) : Op FullCatalog Unit := do
  let canonical := canonicalize name
  let c ← Proc.get
  match c.base.find canonical with
  | none => Proc.throw (.tableNotFound "set_shard_map" name)
  | some _ => do
      fileOp fun c =>
        { c with shardMapFiles := Function.update c.shardMapFiles canonical (some m) }
      Proc.modify fun c => { c with shardMaps := Function.update c.shardMaps canonical (some m) }

def runCreateTable (b : BoundCreateTable) : Op FullCatalog Unit := do
  addTable b.tableName b.schema b.constraints
  match b.shardMap with
  | none => pure ()
  | some m => setShardMap b.tableName m

/-- The directory goes with all its files; the maps in memory are not told. -/
def dropTable (gate : Option Nat) (name : Bytes) (ifExists : Bool) : Op FullCatalog Unit := do
  let canonical := canonicalize name
  let c ← Proc.get
  match c.base.find canonical with
  | none => if ifExists then pure () else Proc.throw (.tableUnknown name)
  | some _ => do
      onBase (flushAll gate)
      fileOp fun c =>
        { c with
          base := { c.base with tables := c.base.tables.filter fun e => e.name != canonical }
          constraintFiles := Function.update c.constraintFiles canonical none
          shardMapFiles := Function.update c.shardMapFiles canonical none }

/-! ## Loading -/

/-- The maps are read from the directories of the tables; a table that only the log knows has
no files yet, and gets an empty one of constraints. -/
def load (d : FullDir) : Except Error FullCatalog := do
  let cat ← Catalog.load d.base
  let opened := openedNames d.base
  let created := (cat.tables.map TableEntry.name).filter fun name => name ∉ opened
  return ⟨cat, fun name => if name ∈ opened then (d.constraintFiles name).getD [] else [],
    fun name => if name ∈ opened then d.shardMapFiles name else none,
    fun name => if name ∈ created then some [] else d.constraintFiles name,
    d.shardMapFiles⟩

end FullCatalog
end NyxDb
