import NyxDb.Lib.PageFile
import NyxDb.Storage.Error

/-!
# Column files

A column is stored in pages of a fixed number of values.  The last page is kept in memory and
written when it is full or when the file is flushed, so the file may lag behind the column.
-/

namespace NyxDb

/-- What the header of a column page says about the values. -/
structure ColumnSpec where
  type : TypeId
  nullable : Bool
  maxLen : UInt16
  deriving DecidableEq, Repr

def Column.spec (c : Column) : ColumnSpec :=
  ⟨c.type, c.nullable, c.maxLen⟩

namespace ColumnSpec

/-- The bytes of a value. -/
def elemSize (s : ColumnSpec) : Nat :=
  typeSize s.type s.maxLen

/-- The number of values of a page (`column_page_capacity`, kept in 16 bits). -/
def capacity (s : ColumnSpec) : Nat :=
  if s.elemSize = 0 then 0
  else if s.nullable then 8136 * 8 / (s.elemSize * 8 + 1) % 2 ^ 16
  else 8136 / s.elemSize % 2 ^ 16

def nullBitmapBytes (s : ColumnSpec) : Nat :=
  if s.nullable then (s.capacity + 7) / 8 else 0

end ColumnSpec

/-- The values of a page. -/
abbrev ColumnPage : Type := List Value

/-- A column file on disk. -/
structure ColumnDisk where
  spec : ColumnSpec
  pages : PageFile ColumnPage
  deriving DecidableEq, Repr

/-- An open column file: the file, and the last page as it is in memory. -/
structure ColumnFile where
  file : ColumnDisk
  current : ColumnPage
  currentId : Nat
  dirty : Bool
  nextPageId : Nat
  deriving DecidableEq, Repr

namespace ColumnFile

def spec (c : ColumnFile) : ColumnSpec :=
  c.file.spec

def capacity (c : ColumnFile) : Nat :=
  c.spec.capacity

/-- The states of the file while it is created: empty, one blank page, one column page. -/
def createSteps (s : ColumnSpec) : List ColumnDisk :=
  [⟨s, []⟩, ⟨s, [none]⟩, ⟨s, [some []]⟩]

def create (s : ColumnSpec) : Except Error ColumnFile :=
  if s.elemSize = 0 then .error .columnInvalidType
  else .ok ⟨⟨s, [some []]⟩, [], 0, false, 1⟩

def openFile (d : ColumnDisk) : Except Error ColumnFile :=
  if d.pages.length = 0 then .error .columnFileEmpty
  else
    let last := d.pages.length - 1
    match d.pages.look last with
    | none => .error (.pageUnreadable last)
    | some page =>
      if d.spec.elemSize = 0 then .error .columnFileInvalidType
      else .ok ⟨d, page, last, false, d.pages.length⟩

def rowCount (c : ColumnFile) : Nat :=
  c.currentId * c.capacity + c.current.length

/-! ## Appending -/

/-- What the page calls its append function in the text of an error. -/
def appendName : Value → String
  | .null => "append_null"
  | .string _ => "append_str"
  | .bool _ => "append_bool"
  | _ => "append"

/-- Append a value to a page. -/
def appendToPage (s : ColumnSpec) (page : ColumnPage) (v : Value) : Except Error ColumnPage :=
  if v.isNull then
    if s.nullBitmapBytes = 0 then .error .columnNotNullable
    else if s.capacity ≤ page.length then .error (.pageFull (appendName v))
    else .ok (page ++ [v])
  else if v.type ≠ s.type then .error .valueTypeMismatch
  else if s.capacity ≤ page.length then .error (.pageFull (appendName v))
  else
    match v with
    | .string str =>
      if s.maxLen.toNat < str.length then .error (.stringTooLong str.length s.maxLen.toNat)
      else .ok (page ++ [v])
    | _ => .ok (page ++ [v])

def writePage (id : Nat) (p : ColumnPage) : Op ColumnFile Unit :=
  fileOp fun c => { c with file.pages := c.file.pages.write id p }

/-- Write the current page if it was changed. -/
def flush : Op ColumnFile Unit := do
  let c ← Proc.get
  if c.dirty then do
    writePage c.currentId c.current
    Proc.modify fun c => { c with dirty := false }
  else pure ()

/-- A new page in memory, which the file does not have yet. -/
def startPage (c : ColumnFile) : ColumnFile where
  file := c.file
  current := []
  currentId := c.nextPageId
  dirty := true
  nextPageId := c.nextPageId + 1

def rotatePage : Op ColumnFile Unit := do
  flush
  Proc.modify startPage

def ensureRoomForAppend : Op ColumnFile Unit := do
  let c ← Proc.get
  if c.capacity ≤ c.current.length then rotatePage else pure ()

def appendValue (v : Value) : Op ColumnFile Unit := do
  ensureRoomForAppend
  let c ← Proc.get
  let page ← ofExcept (appendToPage c.spec c.current v)
  Proc.modify fun c => { c with current := page, dirty := true }

/-- Append values up to the first that is refused. -/
def appendBulk (values : List Value) : Op ColumnFile Unit :=
  forEach values appendValue

/-! ## Reading -/

/-- The current page is read from memory, any other from the file. -/
def readPage (c : ColumnFile) (id : Nat) : Except Error ColumnPage :=
  if id = c.currentId then .ok c.current
  else if c.nextPageId ≤ id then .error (.pageOutOfRange id)
  else
    match c.file.pages.look id with
    | none => .error (.pageUnreadable id)
    | some page => .ok page

/-- The value of a row (`get_i32`, ..., `get_timestamp`). -/
def get (c : ColumnFile) (rowId : Nat) : Except Error Value :=
  if c.capacity = 0 then .error .divisionByZero
  else do
    let page ← c.readPage (rowId / c.capacity)
    match page[rowId % c.capacity]? with
    | none => .error .slotOutOfRange
    | some .null => .error .valueIsNull
    | some v => .ok v

/-- The string of a row.  A slot that holds no string reads as the empty one. -/
def getStr (c : ColumnFile) (rowId : Nat) : Bytes :=
  match c.readPage (rowId / c.capacity) with
  | .error _ => []
  | .ok page =>
    match page[rowId % c.capacity]? with
    | some (.string s) => s
    | _ => []

def isNull (c : ColumnFile) (rowId : Nat) : Bool :=
  if c.nextPageId ≤ rowId / c.capacity then false
  else
    match c.readPage (rowId / c.capacity) with
    | .error _ => false
    | .ok page => decide (c.spec.nullBitmapBytes ≠ 0) && page[rowId % c.capacity]? == some .null

/-- The pages from the first to the last. -/
def scan (c : ColumnFile) : Except Error (List ColumnPage) :=
  (List.range c.nextPageId).mapM c.readPage

/-! ## Truncation -/

/-- The pages that hold the first `targetRows` values. -/
def pagesToKeep (cap targetRows : Nat) : Nat :=
  max 1 (if targetRows % cap = 0 ∧ 0 < targetRows then targetRows / cap else targetRows / cap + 1)

/-- The values of the last of these pages. -/
def rowsToKeep (cap targetRows : Nat) : Nat :=
  if targetRows % cap = 0 ∧ 0 < targetRows then cap else targetRows % cap

/-- Keep the first `targetRows` values of the file. -/
def truncate (targetRows : Nat) : Op ColumnFile Unit := do
  let c ← Proc.get
  if c.capacity = 0 then Proc.throw .divisionByZero
  else do
    let keep := pagesToKeep c.capacity targetRows
    let needed := rowsToKeep c.capacity targetRows
    fileOp fun c => { c with file.pages := c.file.pages.resize keep, nextPageId := keep }
    match c.file.pages.look (keep - 1) with
    | none => Proc.throw (.pageUnreadable (keep - 1))
    | some page => do
        if page.length ≠ needed then writePage (keep - 1) (page.take needed) else pure ()
        Proc.modify fun c =>
          { c with current := page.take needed, currentId := keep - 1, dirty := false }

end ColumnFile
end NyxDb
