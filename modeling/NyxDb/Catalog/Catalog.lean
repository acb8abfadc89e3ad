import NyxDb.Index.BTree
import NyxDb.Storage.Maintenance
import NyxDb.Storage.TableScan
import NyxDb.Wal.Record
import Mathlib.Data.List.Sort

/-!
# The catalog

The catalog keeps the open tables, their indexes and the write-ahead log.  A statement is logged,
then applied to the table, then to the indexes; `flushAll` writes everything, notes the position
in the log for every table and removes the log.

A `Catalog` holds the files together with what is in memory; `Catalog.dir` is the data directory
that a crash leaves.
-/

namespace NyxDb

/-- ASCII letters in lower case. -/
def canonicalize (name : Bytes) : Bytes :=
  name.map fun c => if 65 ≤ c ∧ c ≤ 90 then c + 32 else c

/-- What `lsn.bin` says: the position in the log up to which the table is on disk, and its number
of rows at that point. -/
structure LsnCheckpoint where
  lsn : Nat
  rows : Nat
  deriving DecidableEq, Repr

/-- An open table, its `lsn.bin` and its indexes.  `strayIndexes` are index files that no open
index belongs to. -/
structure TableEntry where
  name : Bytes
  table : Table
  lsn : Option Bytes
  indexes : List (Bytes × IndexFile)
  strayIndexes : List (Bytes × IndexDisk)
  deriving DecidableEq, Repr

/-- The directory of a table in the data directory. -/
structure TableImage where
  dir : TableDir
  lsn : Option Bytes
  indexes : List (Bytes × IndexDisk)
  deriving DecidableEq, Repr

/-- The data directory. -/
structure CatalogDir where
  tables : List (Bytes × TableImage)
  wal : Option Bytes
  deriving DecidableEq, Repr

/-- The catalog.  `unopened` are directories without a schema, `writer` is the position of the
open log. -/
structure Catalog where
  tables : List TableEntry
  unopened : List (Bytes × TableImage)
  wal : Option Bytes
  writer : Option Nat
  deriving DecidableEq, Repr

/-! ## Entries -/

namespace TableEntry

def image (e : TableEntry) : TableImage :=
  ⟨e.table.dir, e.lsn, e.indexes.map (fun x => (x.1, x.2.disk)) ++ e.strayIndexes⟩

def onTable {α : Type} (c : Op Table α) : Op TableEntry α :=
  Proc.zoom table (fun t e => { e with table := t }) c

/-- Run an operation on each index. -/
def onIndexes (c : Op IndexFile Unit) : Op TableEntry Unit := do
  let e ← Proc.get
  Proc.zoom (fun e => e.indexes.map Prod.snd)
    (fun fs e => { e with indexes := (e.indexes.map Prod.fst).zip fs })
    (Proc.each (e.indexes.map fun _ => c))

def lsnBytes (cp : LsnCheckpoint) : Bytes :=
  leBytes 8 cp.lsn ++ leBytes 8 cp.rows

def readLsn (file : Option Bytes) : LsnCheckpoint :=
  match file with
  | none => ⟨0, 0⟩
  | some bs =>
    if bs.length < 16 then ⟨0, 0⟩ else ⟨leNat (bs.take 8), leNat ((bs.drop 8).take 8)⟩

/-- The file is emptied before it is written. -/
def writeLsn (cp : LsnCheckpoint) : Op TableEntry Unit := do
  fileOp fun e => { e with lsn := some [] }
  fileOp fun e => { e with lsn := some (lsnBytes cp) }

end TableEntry

/-! ## Building indexes -/

/-- The value of a row for an index key.  The getters of the other types throw on a row that the
column does not have; the one for strings does not. -/
def readColValue (c : ColumnFile) (rowId : Nat) : Except Error Value :=
  if c.capacity = 0 then .error .divisionByZero
  else if c.isNull rowId then .ok .null
  else
    match c.spec.type with
    | .varchar => .ok (.string (c.getStr rowId))
    | .invalid => .ok .null
    | _ =>
      match c.get rowId with
      | .ok v => .ok v
      | .error _ => .error .badVariantAccess

/-- The key columns of row `l`. -/
def readKey (cols : List ColumnFile) (colIndices : List UInt8) (l : Nat) :
    Except Error (List Value) :=
  colIndices.mapM fun ci =>
    match cols[ci.toNat]? with
    | none => .error .outOfBounds
    | some c => readColValue c l

/-- The entries for the live rows of a part of a table. -/
def partEntries (f : IndexFile) (p : TableScan.Part) : Except Error (List (Bytes × Nat)) :=
  (TableScan.liveIds p).mapM fun l => do
    let vals ← readKey p.columns f.colIndices l
    let key ← encodeKey f.cols vals
    return (key, p.baseRowId + l)

/-- The entries of an index over the live rows of a table. -/
def indexEntries (f : IndexFile) (t : Table) : Except Error (List (Bytes × Nat)) := do
  let entries ← (TableScan.parts t).mapM (partEntries f)
  return entries.flatten

def sortEntries (specs : List IndexColSpec) (entries : List (Bytes × Nat)) : List (Bytes × Nat) :=
  entries.insertionSort fun a b => keyLe specs a.1 b.1

def bulkBuildIndex (t : Table) : Op IndexFile Unit := do
  let f ← Proc.get
  let entries ← ofExcept (indexEntries f t)
  BTreeIndex.bulkBuild (sortEntries f.cols entries)

def rebuildIndex (t : Table) : Op IndexFile Unit := do
  IndexFile.resetTree
  bulkBuildIndex t
  IndexFile.flush

/-! ## Checking and extending indexes -/

/-- The key columns of a new row; a row that is too short is read past its end. -/
def rowKey (colIndices : List UInt8) (row : Row) : Except Error (List Value) :=
  colIndices.mapM fun ci =>
    match row[ci.toNat]? with
    | some v => .ok v
    | none => .error .outOfBounds

/-- The check of one new row against a unique index: no live row may hold its key. -/
def checkRow (t : Table) (f : IndexFile) (row : Row) : Except Error Unit := do
  let vals ← rowKey f.colIndices row
  if vals.any Value.isNull then .ok ()
  else do
    let key ← encodeKey f.cols vals
    if (BTreeIndex.rangeScan f (some key) true (some key) true).any fun id => !t.isRowDeleted id
    then .error .uniqueViolation
    else .ok ()

def checkUnique (e : TableEntry) (rows : List Row) : Except Error Unit := do
  let _ ← (e.indexes.filter fun x => x.2.isUnique).mapM fun x =>
    rows.mapM (checkRow e.table x.2)
  return ()

/-- Insert the keys of new rows, the first of which has the id `firstRowId`. -/
def insertKeys (rows : List Row) (firstRowId : Nat) : Op IndexFile Unit := do
  let f ← Proc.get
  forEach rows.zipIdx fun (row, i) =>
    BTreeIndex.insert (f.colIndices.map fun ci => row.getD ci.toNat .null) (firstRowId + i)

namespace Catalog

open TableEntry Proc Table

def dir (cat : Catalog) : CatalogDir :=
  ⟨cat.tables.map (fun e => (e.name, e.image)) ++ cat.unopened, cat.wal⟩

def find (cat : Catalog) (name : Bytes) : Option TableEntry :=
  cat.tables.find? fun e => e.name == name

/-- Replace the entry of the same name. -/
def put (e : TableEntry) (cat : Catalog) : Catalog :=
  { cat with tables := cat.tables.map fun x => if x.name = e.name then e else x }

/-- Run an operation on the entry of a table. -/
def onEntry {α : Type} (name : Bytes) (c : Op TableEntry α) : Op Catalog α := do
  let cat ← get
  match cat.find name with
  | none => throw (.tableUnknown name)
  | some e => zoom (fun _ => e) put c

/-- Run an operation on all entries. -/
def onEntries (c : Op TableEntry Unit) : Op Catalog Unit := do
  let cat ← get
  zoom tables (fun es cat => { cat with tables := es }) (each (cat.tables.map fun _ => c))

/-! ## The log -/

def walCheckpointBytes : Nat := 64 * 1024 * 1024

def ensureWal : Op Catalog Unit := do
  let cat ← get
  match cat.writer, cat.wal with
  | some _, _ => pure ()
  | none, some bs => modify fun cat => { cat with writer := some bs.length }
  | none, none => do
      fileOp fun cat => { cat with wal := some [] }
      fileOp fun cat => { cat with wal := some walHeader }
      modify fun cat => { cat with writer := some walHeaderSize }

/-- Append a record to the log. -/
def writeRecord (payload : Bytes) : Op Catalog Unit :=
  fileOp fun cat =>
    { cat with
      wal := some (cat.wal.getD [] ++ recordBytes payload)
      writer := cat.writer.map (· + (recordBytes payload).length) }

/-- Nothing is logged for no rows. -/
def logInsert (table : Bytes) (schema : Schema) (rows : List Row) : Op Catalog Unit :=
  if rows.isEmpty then pure ()
  else do
    let payload ← ofExcept (insertPayload table schema rows)
    writeRecord payload

def logUpdate (table : Bytes) (oldIndices : List Nat) (schema : Schema) (newRows : List Row) :
    Op Catalog Unit := do
  let payload ← ofExcept (updatePayload table oldIndices schema newRows)
  writeRecord payload

/-- Note in the log that the write buffer was sealed, if its base has grown. -/
def logSegmentFlush (table : Bytes) (before after : Nat) : Op Catalog Unit :=
  if before < after then writeRecord (segmentFlushPayload table after) else pure ()

/-! ## Checkpoints -/

/-- Write the index if it was changed. -/
def flushIndex : Op IndexFile Unit := do
  let f ← get
  if f.dirty then IndexFile.flush else pure ()

def flushEntry : Op TableEntry Unit := do
  let e ← get
  mapError (.within (ascii "flush_all: table '" ++ e.name ++ ascii "': ")) (onTable flush)

/-- Write everything and note the position in the log.  The log is removed if the gate, which
says how far it has been copied elsewhere, allows it. -/
def flushAll (gate : Option Nat) : Op Catalog Unit := do
  onEntries flushEntry
  onEntries (onIndexes flushIndex)
  let cat ← get
  let walOffset := cat.writer.getD 0
  onEntries do
    let e ← get
    writeLsn ⟨walOffset, e.table.rowCount⟩
  match cat.writer with
  | none => pure ()
  | some current =>
    match gate with
    | some g =>
      if current ≤ g then fileOp fun cat => { cat with wal := none, writer := none }
      else pure ()
    | none => fileOp fun cat => { cat with wal := none, writer := none }

/-! ## Tables and indexes -/

/-- The entry of a new table. -/
def newEntry (canonical : Bytes) (t : Table) : TableEntry :=
  ⟨canonical, t, none, [], []⟩

/-- The directories of the catalog while the directory of a table is made. -/
def createImages (canonical : Bytes) (schema : Schema) (cat : Catalog) : List Catalog :=
  (createSteps schema).map fun d =>
    { cat with
      unopened := (canonical, ⟨d, none, []⟩) :: cat.unopened.filter fun x => x.1 != canonical }

def createTable (name : Bytes) (schema : Schema) : Op Catalog Unit := do
  let canonical := canonicalize name
  let cat ← get
  match cat.find canonical with
  | some _ => throw (.tableExists name)
  | none => do
      let t ← mapError (.within (ascii "catalog: cannot create table '" ++ name ++ ascii "': "))
        (ofExcept (create schema flushThresholdDefault))
      crashPoints (createImages canonical schema)
      fileOp fun cat =>
        { cat with
          tables := cat.tables ++ [newEntry canonical t]
          unopened := cat.unopened.filter fun x => x.1 != canonical }
      onEntry canonical (onTable flush)

/-- The key columns of an index.  The number of columns of the table is cut to one byte. -/
def indexSpecs (schema : Schema) (colIndices : List UInt8) : Except Error (List IndexColSpec) :=
  colIndices.mapM fun ci =>
    if schema.length % 256 ≤ ci.toNat then .error .indexColumnRange
    else
      match schema[ci.toNat]? with
      | none => .error .indexColumnRange
      | some c =>
        if c.type = .bool then .error (.indexBoolColumn c.name) else .ok ⟨c.type, c.maxLen⟩

/-- Fill a new index file; it becomes an index of the table when everything is written. -/
def buildIndex (indexName : Bytes) (f : IndexFile) : Op TableEntry Unit := do
  let e ← get
  fileOp fun e' => { e' with strayIndexes := (indexName, f.disk) :: e.strayIndexes }
  let f' ← zoom (fun _ => f)
    (fun f' e' => { e' with strayIndexes := (indexName, f'.disk) :: e.strayIndexes }) do
      bulkBuildIndex e.table
      IndexFile.flush
      get
  modify fun e' =>
    { e' with indexes := e.indexes ++ [(indexName, f')], strayIndexes := e.strayIndexes }

def addIndex (tableName indexName : Bytes) (colIndices : List UInt8) (unique : Bool) :
    Op Catalog Unit := do
  let canonical := canonicalize tableName
  let cat ← get
  match cat.find canonical with
  | none => throw (.tableNotFound "add_index" tableName)
  | some e =>
    if e.indexes.any fun x => x.1 == indexName then
      throw (.indexExists indexName tableName)
    else do
      let specs ← ofExcept (indexSpecs e.table.schema colIndices)
      let f ← mapError (.within (ascii "add_index: "))
        (ofExcept (IndexFile.create specs colIndices unique))
      if e.strayIndexes.any fun x => x.1 == indexName then
        throw (.within (ascii "add_index: ") .indexFileExists)
      else onEntry canonical (buildIndex indexName f)

/-- Create a table with a unique index for every constraint. -/
def addTable (name : Bytes) (schema : Schema) (constraints : List (Bytes × List UInt8)) :
    Op Catalog Unit := do
  ensureWal
  writeRecord (createTablePayload (canonicalize name) schema)
  createTable name schema
  forEach constraints fun (indexName, cols) => addIndex name indexName cols true

/-! ## Statements on rows -/

def insert (gate : Option Nat) (tableName : Bytes) (rows : List Row) : Op Catalog Nat := do
  let canonical := canonicalize tableName
  let cat ← get
  match cat.find canonical with
  | none => throw (.tableNotFound "insert" tableName)
  | some e => do
      ensureWal
      logInsert canonical e.table.schema rows
      ofExcept (checkUnique e rows)
      let (n, after) ← onEntry canonical (onTable do
        let n ← insertMany rows
        let t ← get
        pure (n, t.wbBaseRowId))
      logSegmentFlush canonical e.table.wbBaseRowId after
      onEntry canonical (onIndexes (insertKeys rows e.table.rowCount))
      let cat ← get
      if walCheckpointBytes < cat.writer.getD 0 then flushAll gate else pure ()
      pure n

def deleteRows (name : Bytes) (rowIndices : List Nat) : Op Catalog Nat := do
  if rowIndices.isEmpty then pure 0
  else do
    let canonical := canonicalize name
    let cat ← get
    match cat.find canonical with
    | none => throw (.tableNotFound "delete" name)
    | some _ => do
        ensureWal
        writeRecord (deletePayload canonical rowIndices)
        onEntry canonical (onTable (markDeleted rowIndices))
        pure rowIndices.length

def updateRows (name : Bytes) (oldIndices : List Nat) (schema : Schema) (newRows : List Row) :
    Op Catalog Nat := do
  if oldIndices.isEmpty then pure 0
  else do
    let canonical := canonicalize name
    let cat ← get
    match cat.find canonical with
    | none => throw (.tableNotFound "update" name)
    | some _ => do
        ensureWal
        logUpdate canonical oldIndices schema newRows
        let info ← onEntry canonical (onTable (Table.updateRows oldIndices newRows))
        logSegmentFlush canonical info.wbBaseBefore info.wbBaseAfter
        onEntry canonical (onIndexes (insertKeys newRows info.firstRowId))
        pure oldIndices.length

/-- The statement `VACUUM`. -/
def runVacuum (gate : Option Nat) (name : Bytes) : Op Catalog Nat := do
  let canonical := canonicalize name
  let cat ← get
  match cat.find canonical with
  | none => throw (.tableNotFound "vacuum" name)
  | some _ => do
      mapError (.within (ascii "vacuum: seal failed: "))
        (onEntry canonical (onTable flushWriteBuffer))
      let reclaimed ← onEntry canonical (onTable vacuumTable)
      mapError (.within (ascii "vacuum: checkpoint failed: ")) (flushAll gate)
      pure reclaimed

end Catalog
end NyxDb
