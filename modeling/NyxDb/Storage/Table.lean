import NyxDb.Lib.Bitmap
import NyxDb.Lib.BinarySearch
import NyxDb.Storage.ColumnFile
import NyxDb.Storage.SchemaFile

/-!
# Tables

A table is a list of sealed segments and a write buffer.  Rows are named by ids: segment rows by
the base of their segment, rows of the write buffer by `wbBaseRowId`.  Deletions are bits, kept in
memory and in a file next to the columns.

A `Table` is an open table together with its files.  `Table.dir` is the directory that a crash
leaves.  The field `moving` is set only in the crash points of a seal, where it says how far the
files have been moved.
-/

namespace NyxDb

open Proc ColumnFile

structure SegmentMeta where
  id : Nat
  baseRowId : Nat
  rowCount : Nat
  deriving DecidableEq, Repr

/-- The directory of a segment.  A column file may be missing. -/
structure SegmentDir where
  cols : List (Option ColumnDisk)
  deleted : Option Bytes
  deriving DecidableEq, Repr

/-- The directory of a table, column files in the order of the schema. -/
structure TableDir where
  schema : Option Bytes
  cols : List (Option ColumnDisk)
  deleted : Option Bytes
  manifest : Option (List SegmentMeta)
  segments : List (Nat × SegmentDir)
  deriving DecidableEq, Repr

/-- An open segment. -/
structure Segment where
  info : SegmentMeta
  columns : List ColumnFile
  deleted : Bytes
  deletedFile : Option Bytes
  deriving DecidableEq, Repr

/-- An open table and its files. -/
structure Table where
  schema : Schema
  wbColumns : List ColumnFile
  wbDeleted : Bytes
  wbBaseRowId : Nat
  segments : List Segment
  nextSegmentId : Nat
  flushThreshold : Nat
  schemaFile : Bytes
  deletedFile : Option Bytes
  manifestFile : Option (List SegmentMeta)
  unusedSegments : List (Nat × SegmentDir)
  moving : Option TableDir
  deriving DecidableEq, Repr

/-- Bytes as they are written to `deleted.bin`; an empty bitmap removes the file. -/
def deletedImages (bm : Bytes) : List (Option Bytes) :=
  if bm.isEmpty then [none] else [some [], some bm]

/-- Subtraction of 64-bit numbers. -/
def subU64 (a b : Nat) : Nat :=
  if b ≤ a then a - b else a + 2 ^ 64 - b

/-- The bits of a bitmap over `rowCount` rows, with those of `ids` set; ids past the rows are
ignored. -/
def markBits (bm : Bytes) (rowCount : Nat) (ids : List Nat) : Bytes :=
  Bitmap.setAll (Bitmap.resize bm (Bitmap.bytesFor rowCount)) (ids.filter (· < rowCount))

/-! ## Segments -/

namespace Segment

def dir (s : Segment) : SegmentDir :=
  ⟨s.columns.map fun c => some c.file, s.deletedFile⟩

def openColumn (c : Column) (file : Option ColumnDisk) : Except Error ColumnFile :=
  match openFile (file.getD ⟨c.spec, []⟩) with
  | .ok cf => .ok cf
  | .error e => .error (.within (ascii "segment open col '" ++ c.name ++ ascii "': ") e)

/-- Open the columns of a segment directory; a missing file is created empty and refused. -/
def openDir (d : SegmentDir) (schema : Schema) (info : SegmentMeta) : Except Error Segment := do
  let columns ← (schema.zip (d.cols ++ List.replicate schema.length none)).mapM
    fun (c, file) => openColumn c file
  return ⟨info, columns, d.deleted.getD [], d.deleted⟩

def isDeleted (s : Segment) (localId : Nat) : Bool :=
  Bitmap.test s.deleted localId

def markDeleted (localIds : List Nat) : Op Segment Unit := do
  if localIds.isEmpty then pure ()
  else do
    modify fun s => { s with deleted := markBits s.deleted s.info.rowCount localIds }
    let s ← get
    forEach (deletedImages s.deleted) fun image =>
      fileOp fun s => { s with deletedFile := image }

end Segment

/-! ## Creating and opening tables -/

namespace Table

def flushThresholdDefault : Nat := 65536

/-- The directory of the table as it is on disk. -/
def dir (t : Table) : TableDir :=
  match t.moving with
  | some d => d
  | none =>
    { schema := some t.schemaFile
      cols := t.wbColumns.map fun c => some c.file
      deleted := t.deletedFile
      manifest := t.manifestFile
      segments := t.segments.map (fun s => (s.info.id, s.dir)) ++ t.unusedSegments }

/-- Check the columns one after the other; `seen` are the names so far. -/
def validateColumns : Schema → List Bytes → Except Error Unit
  | [], _ => .ok ()
  | c :: cs, seen =>
    if typeSize c.type c.maxLen = 0 then .error (.schemaInvalidType c.name)
    else if c.name.isEmpty then .error .schemaEmptyName
    else if seen.contains c.name then .error (.schemaDuplicateName c.name)
    else validateColumns cs (c.name :: seen)

def validateSchema (schema : Schema) : Except Error Unit :=
  if schema.isEmpty then .error .schemaEmpty else validateColumns schema []

/-- The columns of a new table. -/
def createColumns (schema : Schema) : Except Error (List ColumnFile) :=
  schema.mapM fun c => create c.spec

/-- A table in a fresh directory. -/
def create (schema : Schema) (flushThreshold : Nat) : Except Error Table :=
  match validateSchema schema with
  | .error e => .error (.within (ascii "create: ") e)
  | .ok () =>
    match createColumns schema with
    | .error e => .error (.within (ascii "create: ") e)
    | .ok columns =>
      .ok {
        schema
        wbColumns := columns
        wbDeleted := []
        wbBaseRowId := 0
        segments := []
        nextSegmentId := 0
        flushThreshold
        schemaFile := schemaBytes schema
        deletedFile := none
        manifestFile := none
        unusedSegments := []
        moving := none }

/-- The columns while column `i` is created, which is as far as `file`. -/
def columnsUpTo (schema : Schema) (i : Nat) (file : ColumnDisk) : List (Option ColumnDisk) :=
  (schema.take i).map (fun c => some ⟨c.spec, [some []]⟩) ++
    some file :: (schema.drop (i + 1)).map fun _ => none

/-- The states of the files of column `i` while it is created. -/
def columnSteps (schema : Schema) (i : Nat) : List ColumnDisk :=
  (schema[i]?.map fun c => createSteps c.spec).getD []

/-- The directory while the table is created: the schema file, then the columns in turn. -/
def createSteps (schema : Schema) : List TableDir :=
  let empty : TableDir := ⟨none, schema.map fun _ => none, none, none, []⟩
  let written : TableDir := { empty with schema := some (schemaBytes schema) }
  [empty, { empty with schema := some [] }, written] ++ (List.range schema.length).flatMap fun i =>
      (columnSteps schema i).map fun file =>
        { written with cols := columnsUpTo schema i file }

def openSegment (d : TableDir) (schema : Schema) (info : SegmentMeta) : Except Error Segment :=
  match d.segments.lookup info.id with
  | none => .error (.segmentMissing info.id)
  | some sd =>
    match Segment.openDir sd schema info with
    | .ok s => .ok s
    | .error e => .error (.within (ascii s!"open: segment {info.id}: ") e)

def openColumn (c : Column) (file : Option ColumnDisk) : Except Error ColumnFile :=
  match openFile (file.getD ⟨c.spec, []⟩) with
  | .error e => .error (.within (ascii "open: ") e)
  | .ok cf =>
    if cf.spec ≠ c.spec then .error (.within (ascii "open: ") (.columnHeaderMismatch c.name))
    else .ok cf

/-- Open a table.  The write buffer is taken to start after the rows of all segments. -/
def openDir (d : TableDir) : Except Error Table :=
  match d.schema with
  | none => .error (.within (ascii "open: ") .schemaMissing)
  | some bytes =>
    match readSchema bytes with
    | .error e => .error (.within (ascii "open: ") e)
    | .ok schema => do
        let metas := d.manifest.getD []
        let segments ← metas.mapM (openSegment d schema)
        let columns ← (schema.zip (d.cols ++ List.replicate schema.length none)).mapM
          fun (c, file) => openColumn c file
        return {
          schema
          wbColumns := columns
          wbDeleted := d.deleted.getD []
          wbBaseRowId := (metas.map SegmentMeta.rowCount).sum
          segments
          nextSegmentId := (metas.map fun m => m.id + 1).foldl max 0
          flushThreshold := flushThresholdDefault
          schemaFile := bytes
          deletedFile := d.deleted
          manifestFile := d.manifest
          unusedSegments := d.segments.filter fun s => !(metas.map SegmentMeta.id).contains s.1
          moving := none }

/-! ## Rows and deletions -/

/-- The rows of the write buffer, as the first column counts them. -/
def wbRowCount (t : Table) : Nat :=
  match t.wbColumns with
  | [] => 0
  | c :: _ => c.rowCount

def rowCount (t : Table) : Nat :=
  t.wbBaseRowId + t.wbRowCount

/-- Run an operation on each column of the write buffer. -/
def onColumns (ops : List (Op ColumnFile Unit)) : Op Table Unit :=
  zoom wbColumns (fun cs t => { t with wbColumns := cs }) (each ops)

def flush : Op Table Unit := do
  let t ← get
  onColumns (t.wbColumns.map fun _ => ColumnFile.flush)

def truncate (targetRows : Nat) : Op Table Unit := do
  let t ← get
  onColumns (t.wbColumns.map fun _ => ColumnFile.truncate (targetRows - t.wbBaseRowId))

def isRowDeleted (t : Table) (globalId : Nat) : Bool :=
  if t.wbBaseRowId ≤ globalId then Bitmap.test t.wbDeleted (globalId - t.wbBaseRowId)
  else
    match t.segments.find? fun s =>
      decide (s.info.baseRowId ≤ globalId) &&
        decide (globalId < s.info.baseRowId + s.info.rowCount) with
    | some s => s.isDeleted (globalId - s.info.baseRowId)
    | none => false

/-- The segment a row id below the write buffer is taken to lie in. -/
def segmentOf (segments : List Segment) (gid : Nat) : Nat :=
  bsearchLast (fun mid => decide (((segments[mid]?).map fun s => s.info.baseRowId).getD 0 ≤ gid))
    segments.length 0 segments.length

/-- The local ids of the rows that lie in segment `i`. -/
def segmentIds (segments : List Segment) (gids : List Nat) (i : Nat) : List Nat :=
  (gids.filter fun gid => segmentOf segments gid = i).map fun gid =>
    subU64 gid (((segments[i]?).map fun s => s.info.baseRowId).getD 0)

/-- Set bits of the write buffer and write them to the file. -/
def markWriteBuffer (ids : List Nat) : Op Table Unit := do
  if ids.isEmpty then pure ()
  else do
    modify fun t => { t with wbDeleted := markBits t.wbDeleted t.wbRowCount ids }
    let t ← get
    forEach (deletedImages t.wbDeleted) fun image =>
      fileOp fun t => { t with deletedFile := image }

def markDeleted (rowIndices : List Nat) : Op Table Unit := do
  if rowIndices.isEmpty then pure ()
  else do
    let t ← get
    let (wbIds, others) := rowIndices.partition fun gid => decide (t.wbBaseRowId ≤ gid)
    markWriteBuffer (wbIds.map fun gid => gid - t.wbBaseRowId)
    zoom segments (fun ss t => { t with segments := ss })
      (each ((List.range t.segments.length).map fun i =>
        Segment.markDeleted (segmentIds t.segments others i)))

/-! ## Sealing -/

/-- Put a segment directory, in place of one of the same id. -/
def putSegment (id : Nat) (sd : SegmentDir) (d : TableDir) : TableDir :=
  { d with segments := (id, sd) :: d.segments.filter fun s => s.1 != id }

def segmentDirOf (id : Nat) (d : TableDir) : SegmentDir :=
  (d.segments.lookup id).getD ⟨d.cols.map fun _ => none, none⟩

def makeSegmentDir (id : Nat) (d : TableDir) : TableDir :=
  putSegment id (segmentDirOf id d) d

def renameColumn (id i : Nat) (d : TableDir) : TableDir :=
  let sd := segmentDirOf id d
  putSegment id { sd with cols := sd.cols.set i (d.cols.getD i none) }
    { d with cols := d.cols.set i none }

def renameDeleted (id : Nat) (d : TableDir) : TableDir :=
  match d.deleted with
  | none => d
  | some bm => putSegment id { segmentDirOf id d with deleted := some bm }
    { d with deleted := none }

def createColumnFile (i : Nat) (file : ColumnDisk) (d : TableDir) : TableDir :=
  { d with cols := d.cols.set i (some file) }

/-- The changes of the directory by a seal, before the manifest. -/
def sealMoves (schema : Schema) (id : Nat) : List (TableDir → TableDir) :=
  makeSegmentDir id :: (List.range schema.length).map (renameColumn id) ++ [renameDeleted id] ++
    (List.range schema.length).flatMap fun i => (columnSteps schema i).map (createColumnFile i)

/-- The directories that a crash during the seal can leave. -/
def sealImages (t : Table) : List Table :=
  ((sealMoves t.schema t.nextSegmentId).scanl (fun d f => f d) t.dir).tail.map fun d =>
    { t with moving := some d }

/-- The directory of the new segment.  A `deleted.bin` left there by an interrupted seal stays
if the write buffer has none. -/
def sealedDir (t : Table) : SegmentDir :=
  ⟨t.wbColumns.map fun c => some c.file,
    t.deletedFile.or ((t.unusedSegments.lookup t.nextSegmentId).bind SegmentDir.deleted)⟩

/-- The table after the write buffer became the segment `seg`. -/
def sealed (t : Table) (seg : Segment) (columns : List ColumnFile) : Table :=
  { t with
    wbBaseRowId := t.wbBaseRowId + t.wbRowCount
    wbDeleted := []
    wbColumns := columns
    segments := t.segments ++ [seg]
    nextSegmentId := t.nextSegmentId + 1
    deletedFile := none
    manifestFile := some ((t.segments ++ [seg]).map Segment.info)
    unusedSegments := t.unusedSegments.filter fun s => s.1 != t.nextSegmentId
    moving := none }

/-- Make the write buffer a segment. -/
def flushWriteBuffer : Op Table Unit := do
  let t ← get
  if t.wbRowCount = 0 then pure ()
  else do
    flush
    let t ← get
    let info : SegmentMeta := ⟨t.nextSegmentId, t.wbBaseRowId, t.wbRowCount⟩
    crashPoints sealImages
    let seg ← mapError (.within (ascii "flush_write_buffer: open new segment: "))
      (ofExcept (Segment.openDir t.sealedDir t.schema info))
    let columns ← mapError (.within (ascii "flush_write_buffer: create new col: "))
      (ofExcept (createColumns t.schema))
    fileOp fun _ => t.sealed seg columns

/-- Seal a full write buffer. -/
def maybeFlush : Op Table Unit := do
  let t ← get
  if t.flushThreshold ≤ t.wbRowCount then flushWriteBuffer else pure ()

/-! ## Inserting -/

/-- The values of each column. -/
def columnBatches (n : Nat) (rows : List Row) : List (List Value) :=
  (List.range n).map fun i => rows.map fun row => row.getD i .null

def appendColumn (c : Column) (batch : List Value) : Op ColumnFile Unit :=
  mapError (.within (ascii "insert_many col " ++ c.name ++ ascii ": "))
    (appendBulk batch)

def insertMany (rows : List Row) : Op Table Nat := do
  let t ← get
  if rows.isEmpty then pure 0
  else
    match rows.find? fun row => decide (row.length ≠ t.wbColumns.length) with
    | some row => throw (.rowSize "insert_many" row.length t.wbColumns.length)
    | none => do
        onColumns (List.zipWith appendColumn t.schema (columnBatches t.wbColumns.length rows))
        maybeFlush
        pure rows.length

structure UpdateMeta where
  firstRowId : Nat
  wbBaseBefore : Nat
  wbBaseAfter : Nat
  deriving DecidableEq, Repr

def updateRows (oldIndices : List Nat) (newRows : List Row) : Op Table UpdateMeta := do
  markDeleted oldIndices
  let t ← get
  let _ ← insertMany newRows
  let t' ← get
  pure ⟨t.rowCount, t.wbBaseRowId, t'.wbBaseRowId⟩

end Table
end NyxDb
