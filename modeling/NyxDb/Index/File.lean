import NyxDb.Index.Key
import NyxDb.Lib.PageFile
import NyxDb.Lib.PagedTree

/-!
# Index files

Page `0` of an index file holds the key columns and the tree's metadata, the other pages hold
nodes.  Nodes are written through, the metadata only by `setDirty`, `flush` and `resetTree`, so a
reopened file may see a root that is out of date; the dirty flag tells.
-/

namespace NyxDb

/-- The entries of an index are encoded keys with row ids. -/
abbrev IndexPage : Type := BPlus.Node Bytes Nat

/-- The part of page `0` that changes. -/
structure IndexMeta where
  dirty : Bool
  rootPageId : Nat
  entryCount : Nat
  deriving DecidableEq, Repr

/-- An index file on disk.  `pages` starts with page `0`, which holds no node. -/
structure IndexDisk where
  cols : List IndexColSpec
  colIndices : List UInt8
  isUnique : Bool
  header : IndexMeta
  pages : PageFile IndexPage
  deriving DecidableEq, Repr

/-- An open index file: the file and the fields kept in memory. -/
structure IndexFile where
  disk : IndexDisk
  cols : List IndexColSpec
  colIndices : List UInt8
  isUnique : Bool
  rootPageId : Nat
  entryCount : Nat
  dirty : Bool
  nextPageId : Nat
  deriving DecidableEq, Repr

def pagePayloadSize : Nat := 8168

def indexPageHdrSize : Nat := 8

/-- The number of keys that fit a node of either kind. -/
def indexNodeCapacity (keySize : Nat) : Nat :=
  min 65535 ((pagePayloadSize - indexPageHdrSize - 8) / (keySize + 8))

namespace IndexFile

def keySize (f : IndexFile) : Nat :=
  computeKeySize f.cols

def nodeCapacity (f : IndexFile) : Nat :=
  indexNodeCapacity f.keySize

/-- Create an index file, unless its layout is refused. -/
def create (cols : List IndexColSpec) (colIndices : List UInt8) (isUnique : Bool) :
    Except Error IndexFile :=
  if cols.isEmpty then .error .indexNoColumns
  else if colIndices.length ≠ cols.length then .error .indexColumnsMismatch
  else if computeKeySize cols = 0 then .error .indexZeroKeySize
  else if indexNodeCapacity (computeKeySize cols) = 0 then .error .indexKeyTooLarge
  else
    .ok {
      disk := ⟨cols, colIndices, isUnique, ⟨false, 0, 0⟩, [none]⟩
      cols, colIndices, isUnique
      rootPageId := 0, entryCount := 0, dirty := false, nextPageId := 1 }

/-- The bytes of a key column in page `0`. -/
def specBytes (s : IndexColSpec) : Bytes :=
  [s.type.toByte, 0] ++ leBytes 2 s.maxLen.toNat

/-- Open an index file.  The number of key columns is kept in one byte, and the column indices
are looked for right after as many column descriptions. -/
def openFile (d : IndexDisk) : IndexFile :=
  let colCount := d.cols.length % 256
  let raw := d.cols.flatMap specBytes ++ d.colIndices
  { disk := d
    cols := d.cols.take colCount
    colIndices := (raw.drop (4 * colCount)).take colCount
    isUnique := d.isUnique
    rootPageId := d.header.rootPageId
    entryCount := d.header.entryCount
    dirty := d.header.dirty
    nextPageId := d.pages.length }

/-- The node on a page. -/
def look (f : IndexFile) (id : Nat) : Option IndexPage :=
  f.disk.pages.look id

def fetchPage (id : Nat) : Op IndexFile IndexPage := do
  let f ← Proc.get
  match f.look id with
  | some p => pure p
  | none => Proc.throw (.pageOutOfRange id)

def writePage (id : Nat) (p : IndexPage) : Op IndexFile Unit :=
  fileOp fun f => { f with disk.pages := f.disk.pages.write id p }

def reservePageId : Op IndexFile Nat := do
  let f ← Proc.get
  Proc.modify fun f => { f with nextPageId := f.nextPageId + 1 }
  pure f.nextPageId

def setRootPageId (id : Nat) : Op IndexFile Unit :=
  Proc.modify fun f => { f with rootPageId := id }

def setEntryCount (n : Nat) : Op IndexFile Unit :=
  Proc.modify fun f => { f with entryCount := n }

def writeMetaPage : Op IndexFile Unit :=
  fileOp fun f => { f with disk.header := ⟨f.dirty, f.rootPageId, f.entryCount⟩ }

def setDirty (d : Bool) : Op IndexFile Unit := do
  Proc.modify fun f => { f with dirty := d }
  writeMetaPage

def flush : Op IndexFile Unit := do
  Proc.modify fun f => { f with dirty := false }
  writeMetaPage

/-- Drop all nodes. -/
def resetTree : Op IndexFile Unit := do
  fileOp fun f => { f with disk.pages := f.disk.pages.take 1, nextPageId := 1 }
  Proc.modify fun f => { f with rootPageId := 0, entryCount := 0, dirty := false }
  writeMetaPage

end IndexFile
end NyxDb
