import NyxDb.Catalog.Catalog

/-!
# Loading a catalog

`load` opens every table of the data directory, rebuilds the indexes that were not closed
properly, and, if there is a log, brings the tables back: tables that are only in the log are
created, every table is cut to the rows of its checkpoint, and the records after the checkpoint
are applied again.  Then the log is removed.
-/

namespace NyxDb.Catalog

open TableEntry

/-! ## Opening -/

def openEntry (name : Bytes) (img : TableImage) : Except Error TableEntry :=
  match Table.openDir img.dir with
  | .error e =>
    .error (.within (ascii "catalog: cannot open table '" ++ name ++ ascii "': ") e)
  | .ok t =>
    .ok ⟨canonicalize name, t, img.lsn, img.indexes.map fun x => (x.1, IndexFile.openFile x.2), []⟩

/-- Open the tables.  A directory without `schema.bin` is not a table. -/
def openTables (d : CatalogDir) : Except Error Catalog := do
  let tables ← (d.tables.filter fun x => x.2.dir.schema.isSome).mapM fun x => openEntry x.1 x.2
  return ⟨tables, d.tables.filter fun x => x.2.dir.schema.isNone, d.wal, none⟩

/-- Rebuild the indexes whose dirty flag is set. -/
def rebuildDirty : Op TableEntry Unit := do
  let e ← Proc.get
  onIndexes do
    let f ← Proc.get
    if f.dirty then rebuildIndex e.table else pure ()

/-! ## Replay -/

/-- A record of a seal moves the checkpoint of its table. -/
def raise (name : Bytes) (cp : LsnCheckpoint) (r : WalRecord) : LsnCheckpoint :=
  match r.body with
  | .segmentFlush count =>
    if canonicalize r.tableName = name ∧ cp.lsn < r.byteOffset then ⟨r.byteOffset, count⟩ else cp
  | _ => cp

/-- The checkpoint of a table. -/
def checkpointOf (records : List WalRecord) (e : TableEntry) : LsnCheckpoint :=
  records.foldl (raise e.name) (readLsn e.lsn)

/-- Create the table of a record if it is not there. -/
def replayCreate (r : WalRecord) : Op Catalog Unit := do
  let cat ← Proc.get
  match r.body with
  | .createTable schema =>
    match cat.find (canonicalize r.tableName) with
    | some _ => pure ()
    | none =>
      mapError (.within (ascii "catalog: wal replay create '" ++ r.tableName ++ ascii "': "))
        (createTable r.tableName schema)
  | _ => pure ()

def truncateEntry (records : List WalRecord) : Op TableEntry Unit := do
  let e ← Proc.get
  mapError (.within (ascii "catalog: truncate '" ++ e.name ++ ascii "': "))
    (onTable (Table.truncate (checkpointOf records e).rows))

/-- The text before an error of a replayed operation. -/
def replayContext (operation : String) (name : Bytes) : Error → Error :=
  .within (ascii s!"catalog: wal replay {operation} '" ++ name ++ ascii "': ")

/-- Apply a record of rows to its table. -/
def replayRows (name : Bytes) (body : WalBody) : Op Table Unit :=
  match body with
  | .insert _ rows =>
    mapError (replayContext "insert" name) do
      let _ ← Table.insertMany rows
      pure ()
  | .update ids _ rows => do
      mapError (replayContext "update (delete)" name) (Table.markDeleted ids)
      mapError (replayContext "update (insert)" name) do
        let _ ← Table.insertMany rows
        pure ()
  | .delete ids => mapError (replayContext "delete" name) (Table.markDeleted ids)
  | _ => pure ()

/-- Apply a record, unless its table is gone or has it already. -/
def replay (records : List WalRecord) (r : WalRecord) : Op Catalog Unit := do
  let cat ← Proc.get
  match cat.find (canonicalize r.tableName) with
  | none => pure ()
  | some e =>
    if r.byteOffset < (checkpointOf records e).lsn then pure ()
    else onEntry e.name (onTable (replayRows r.tableName r.body))

/-- Write a recovered table and its new checkpoint. -/
def finishEntry : Op TableEntry Unit := do
  let e ← Proc.get
  mapError (.within (ascii "catalog: post-recovery flush '" ++ e.name ++ ascii "': "))
    (onTable Table.flush)
  let e ← Proc.get
  writeLsn ⟨0, e.table.rowCount⟩

/-- The part of `load` that follows the opening of the tables. -/
def recover : Op Catalog Unit := do
  onEntries rebuildDirty
  let cat ← Proc.get
  match cat.wal with
  | none => pure ()
  | some bytes => do
      let records ← mapError (.within (ascii "catalog: wal read: ")) (ofExcept (readAll bytes))
      forEach records replayCreate
      onEntries (truncateEntry records)
      forEach records (replay records)
      onEntries finishEntry
      fileOp fun cat => { cat with wal := none }

/-- Load the catalog of a data directory. -/
def load (d : CatalogDir) : Except Error Catalog :=
  match openTables d with
  | .error e => .error e
  | .ok cat =>
    match exec recover cat with
    | (.ok (), cat') => .ok cat'
    | (.error e, _) => .error e

end NyxDb.Catalog
