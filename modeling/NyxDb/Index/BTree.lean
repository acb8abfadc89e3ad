import NyxDb.Index.File
import NyxDb.Lib.BinarySearch

/-!
# The B+tree index

Descent, insertion with splits along the recorded path, range scans over the leaf chain and bulk
loading, as `BTreeIndex` performs them on the pages of an index file.

The loops that follow page links are bounded by a fuel argument, the number of pages of the
file; on a tree the fuel is never used up.
-/

namespace NyxDb.BTreeIndex

open IndexFile Proc

/-- The slot after the last key that is not above `key`. -/
def upperSlot (specs : List IndexColSpec) (keys : List Bytes) (key : Bytes) : Nat :=
  bsearch (fun mid => compareKeys specs (keys.getD mid []) key != .gt) keys.length 0 keys.length

def findLeafInsertSlot (specs : List IndexColSpec) (entries : List (Bytes × Nat)) (key : Bytes) :
    Nat :=
  upperSlot specs (entries.map Prod.fst) key

def findChildSlot (specs : List IndexColSpec) (keys : List Bytes) (key : Bytes) : Nat :=
  upperSlot specs keys key

/-- The slot of the first key that is not below `lo`. -/
def findLeafScanStart (specs : List IndexColSpec) (entries : List (Bytes × Nat)) (lo : Bytes) :
    Nat :=
  let keys := entries.map Prod.fst
  bsearch (fun mid => compareKeys specs (keys.getD mid []) lo == .lt) keys.length 0 keys.length

/-! ## Insertion -/

/-- A page on the way to a leaf and the slot of the child taken there; the nearest parent comes
first. -/
abbrev Path : Type := List (Nat × Nat)

def findLeaf (key : Bytes) : Nat → Nat → Path → Op IndexFile (Nat × Path)
  | 0, _, _ => throw .outOfFuel
  | fuel + 1, cur, path => do
      let f ← get
      match ← fetchPage cur with
      | .leaf _ _ => pure (cur, path)
      | .internal keys children =>
        let slot := findChildSlot f.cols keys key
        findLeaf key fuel (children.getD slot 0) ((cur, slot) :: path)

/-- Split a full leaf around the new entry; returns the first key and the page of the right
half. -/
def splitLeaf (leafId slot : Nat) (key : Bytes) (rowId : Nat) : Op IndexFile (Bytes × Nat) := do
  let f ← get
  match ← fetchPage leafId with
  | .internal _ _ => throw (.pageOutOfRange leafId)
  | .leaf entries oldSibling =>
    let n := f.nodeCapacity
    let tmp := entries.take slot ++ (key, rowId) :: (entries.drop slot).take (n - slot)
    let mid := (n + 1) / 2
    let rightId ← reservePageId
    writePage leafId (.leaf (tmp.take mid) (some rightId))
    writePage rightId (.leaf (tmp.drop mid) oldSibling)
    pure ((tmp.getD mid ([], 0)).1, rightId)

/-- Split a full internal node around a new separator and child; returns the separator that
moves up and the page of the right half. -/
def splitInternal (pageId slot : Nat) (sepKey : Bytes) (rightChild : Nat) :
    Op IndexFile (Bytes × Nat) := do
  let f ← get
  match ← fetchPage pageId with
  | .leaf _ _ => throw (.pageOutOfRange pageId)
  | .internal keys children =>
    let tmpKeys := keys.insertIdx slot sepKey
    let tmpChildren := children.insertIdx (slot + 1) rightChild
    let mid := (f.nodeCapacity + 1) / 2
    writePage pageId (.internal (tmpKeys.take mid) (tmpChildren.take (mid + 1)))
    let rightId ← reservePageId
    writePage rightId (.internal (tmpKeys.drop (mid + 1)) (tmpChildren.drop (mid + 1)))
    pure (tmpKeys.getD mid [], rightId)

/-- The part of an insertion that works on the leaf: the duplicate check of a unique index, then
the entry if there is room, else a split. -/
def insertIntoLeaf (leafId : Nat) (key : Bytes) (rowId : Nat) :
    Op IndexFile (Option (Bytes × Nat)) := do
  let f ← get
  match ← fetchPage leafId with
  | .internal _ _ => throw (.pageOutOfRange leafId)
  | .leaf entries next =>
    let slot := findLeafInsertSlot f.cols entries key
    if f.isUnique && decide (0 < slot) && !keyHasNull f.cols key &&
        compareKeys f.cols (entries.getD (slot - 1) ([], 0)).1 key == .eq then
      throw .indexDuplicateKey
    else if entries.length < f.nodeCapacity then do
      writePage leafId (.leaf (entries.insertIdx slot (key, rowId)) next)
      setEntryCount (f.entryCount + 1)
      pure none
    else do
      let split ← splitLeaf leafId slot key rowId
      pure (some split)

/-- Put a new separator and right neighbour into the parents, up to the first that has room; a
split of the root grows the tree. -/
def propagate : Path → Bytes → Nat → Op IndexFile Unit
  | [], curSep, curRight => do
      let f ← get
      let newRootId ← reservePageId
      writePage newRootId (.internal [curSep] [f.rootPageId, curRight])
      let old ← fetchPage f.rootPageId
      writePage f.rootPageId old
      setRootPageId newRootId
  | (parentId, childSlot) :: path, curSep, curRight => do
      let f ← get
      match ← fetchPage parentId with
      | .leaf _ _ => throw (.pageOutOfRange parentId)
      | .internal keys children =>
        if keys.length < f.nodeCapacity then
          writePage parentId (.internal (keys.insertIdx childSlot curSep)
              (children.insertIdx (childSlot + 1) curRight))
        else do
          let (newSep, newRight) ← splitInternal parentId childSlot curSep curRight
          propagate path newSep newRight

/-- The insertion of an encoded key into a tree that has a root. -/
def insertBelow (key : Bytes) (rowId fuel root : Nat) : Op IndexFile Unit := do
  let (leafId, path) ← findLeaf key fuel root []
  match ← insertIntoLeaf leafId key rowId with
  | none => pure ()
  | some (sep, right) => propagate path sep right

def insert (keyVals : List Value) (rowId : Nat) : Op IndexFile Unit := do
  let f ← get
  let key ← ofExcept (encodeKey f.cols keyVals)
  if f.rootPageId = 0 then do
    setDirty true
    let leafId ← reservePageId
    writePage leafId (.leaf [(key, rowId)] none)
    setRootPageId leafId
    setEntryCount 1
  else do
    if !f.dirty then setDirty true
    insertBelow key rowId f.disk.pages.length f.rootPageId

/-! ## Range scans -/

/-- Whether a key is past the upper end of a scan. -/
def pastHi (specs : List IndexColSpec) (hi : Option Bytes) (hiIncl : Bool) (k : Bytes) : Bool :=
  match hi with
  | none => false
  | some hi =>
    match compareKeys specs k hi with
    | .gt => true
    | .eq => !hiIncl
    | .lt => false

/-- The row ids of the entries up to the upper end, and whether it was reached. -/
def scanEntries (specs : List IndexColSpec) (hi : Option Bytes) (hiIncl : Bool) :
    List (Bytes × Nat) → List Nat × Bool
  | [] => ([], false)
  | (k, rid) :: es =>
    if pastHi specs hi hiIncl k then ([], true)
    else
      let (ids, stop) := scanEntries specs hi hiIncl es
      (rid :: ids, stop)

/-- Follow the right links. -/
def scanSiblings (f : IndexFile) (hi : Option Bytes) (hiIncl : Bool) : Nat → Option Nat → List Nat
  | 0, _ => []
  | _, none => []
  | fuel + 1, some cur =>
    match f.look cur with
    | some (.leaf entries next) =>
      let (ids, stop) := scanEntries f.cols hi hiIncl entries
      if stop then ids else ids ++ scanSiblings f hi hiIncl fuel next
    | _ => []

/-- The entries of the first leaf that a scan looks at.  An exclusive lower end drops the entry
in the first slot if its key is the bound. -/
def scanStart (specs : List IndexColSpec) (lo : Option Bytes) (loIncl : Bool)
    (entries : List (Bytes × Nat)) : List (Bytes × Nat) :=
  match lo with
  | none => entries
  | some lo =>
    match entries.drop (findLeafScanStart specs entries lo) with
    | [] => []
    | (k, rid) :: es =>
      if !loIncl && compareKeys specs k lo == .eq then es else (k, rid) :: es

/-- Descend to the first leaf of a scan and read on from there. -/
def scanFrom (f : IndexFile) (lo : Option Bytes) (loIncl : Bool) (hi : Option Bytes)
    (hiIncl : Bool) : Nat → Nat → List Nat
  | 0, _ => []
  | fuel + 1, cur =>
    match f.look cur with
    | none => []
    | some (.leaf entries next) =>
      let (ids, stop) := scanEntries f.cols hi hiIncl (scanStart f.cols lo loIncl entries)
      if stop then ids
      else ids ++ scanSiblings f hi hiIncl f.disk.pages.length next
    | some (.internal keys children) =>
      let slot := match lo with
        | none => 0
        | some lo => findChildSlot f.cols keys lo
      scanFrom f lo loIncl hi hiIncl fuel (children.getD slot 0)

/-- The row ids that a range scan hands to a callback that never stops it. -/
def rangeScan (f : IndexFile) (lo : Option Bytes) (loIncl : Bool) (hi : Option Bytes)
    (hiIncl : Bool) : List Nat :=
  if f.rootPageId = 0 then []
  else scanFrom f lo loIncl hi hiIncl f.disk.pages.length f.rootPageId

/-! ## Bulk loading -/

/-- A node of the level under construction: its page and its first key. -/
abbrev LevelEntry : Type := Nat × Bytes

/-- Set the right link of the leaf written before. -/
def linkPrev (prevLeaf : Option Nat) (lid : Nat) : Op IndexFile Unit :=
  match prevLeaf with
  | none => pure ()
  | some prev => do
      match ← fetchPage prev with
      | .leaf es _ => writePage prev (.leaf es (some lid))
      | .internal _ _ => pure ()

/-- Write the leaves, `fill` entries each, and link every leaf to the next. -/
def buildLeaves (fill : Nat) :
    Nat → List (Bytes × Nat) → Option Nat → List LevelEntry → Op IndexFile (List LevelEntry)
  | 0, _, _, level => pure level
  | fuel + 1, entries, prevLeaf, level =>
    match entries with
    | [] => pure level
    | e :: _ => do
        let lid ← reservePageId
        writePage lid (.leaf (entries.take fill) none)
        linkPrev prevLeaf lid
        buildLeaves fill fuel (entries.drop fill) (some lid) (level ++ [(lid, e.1)])

/-- Write the parents of one level, `cap + 1` children each. -/
def buildParents (cap : Nat) :
    Nat → List LevelEntry → List LevelEntry → Op IndexFile (List LevelEntry)
  | 0, _, nextLevel => pure nextLevel
  | fuel + 1, level, nextLevel =>
    match level with
    | [] => pure nextLevel
    | first :: _ => do
        let children := level.take (cap + 1)
        let nid ← reservePageId
        writePage nid (.internal (children.tail.map Prod.snd) (children.map Prod.fst))
        buildParents cap fuel (level.drop (cap + 1)) (nextLevel ++ [(nid, first.2)])

/-- Build level over level until one node is left. -/
def buildLevels (cap : Nat) : Nat → List LevelEntry → Op IndexFile (List LevelEntry)
  | 0, level => pure level
  | fuel + 1, level =>
    if 1 < level.length then do
      let nextLevel ← buildParents cap level.length level []
      buildLevels cap fuel nextLevel
    else pure level

def bulkBuild (entries : List (Bytes × Nat)) : Op IndexFile Unit := do
  if entries.isEmpty then pure ()
  else do
    setDirty true
    let f ← get
    let cap := f.nodeCapacity
    let fill := max 1 (cap * 3 / 4)
    let leaves ← buildLeaves fill entries.length entries none []
    let level ← buildLevels cap leaves.length leaves
    let rootId := (level.headD (0, [])).1
    let root ← fetchPage rootId
    writePage rootId root
    setRootPageId rootId
    setEntryCount entries.length

end NyxDb.BTreeIndex
