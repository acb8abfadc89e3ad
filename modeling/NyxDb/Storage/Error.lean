import NyxDb.Lib.Proc
import NyxDb.Storage.Value

/-!
# Errors

The errors the modelled operations return, with the texts of the source.  Three are not
results but abnormal ends: an uncaught exception, a machine trap and a read past the end of an
array; `outOfFuel` stands for a loop that follows page links without end.
-/

namespace NyxDb

/-- The bytes of an ASCII text. -/
def ascii (s : String) : Bytes :=
  s.toList.map fun c => UInt8.ofNat c.toNat

inductive Error where
  | indexNoColumns
  | indexColumnsMismatch
  | indexZeroKeySize
  | indexKeyTooLarge
  | indexDuplicateKey
  | pageOutOfRange (id : Nat)
  | poolFull
  | pageNotInPool (id : Nat)
  | pageNotPinned (id : Nat)
  | outOfFuel
  | badVariantAccess
  | divisionByZero
  | outOfBounds
  | schemaShortRead (part : String)
  | schemaBadMagic
  | columnNotNullable
  | pageFull (operation : String)
  | stringTooLong (length maxLen : Nat)
  | valueTypeMismatch
  | pageTypeMismatch (text : String)
  | slotOutOfRange
  | valueIsNull
  | pageUnreadable (id : Nat)
  | columnInvalidType
  | columnFileEmpty
  | columnFileInvalidType
  | schemaEmpty
  | schemaInvalidType (name : Bytes)
  | schemaEmptyName
  | schemaDuplicateName (name : Bytes)
  | schemaMissing
  | columnHeaderMismatch (name : Bytes)
  | segmentMissing (id : Nat)
  | directoryNotEmpty
  | rowSize (operation : String) (size columns : Nat)
  | walNoHeader
  | walBadMagic
  | tableNotFound (operation : String) (name : Bytes)
  | tableExists (name : Bytes)
  | tableUnknown (name : Bytes)
  | uniqueViolation
  | indexExists (index table : Bytes)
  | indexFileExists
  | indexColumnRange
  | indexBoolColumn (column : Bytes)
  | noIndexes (table : Bytes)
  | indexNotFound (index table : Bytes)
  | within (context : Bytes) (e : Error)
  deriving DecidableEq, Repr

namespace Error

/-- The text of an error. -/
def message : Error → Bytes
  | indexNoColumns => ascii "IndexFile::create: no columns"
  | indexColumnsMismatch => ascii "IndexFile::create: col_indices size mismatch"
  | indexZeroKeySize => ascii "IndexFile::create: zero key size (unsupported type?)"
  | indexKeyTooLarge => ascii "IndexFile::create: key size too large for a single page"
  | indexDuplicateKey => ascii "unique constraint violated: duplicate key"
  | pageOutOfRange id => ascii s!"read_page: page {id} out of range"
  | poolFull => ascii "acquire_fresh_slot: fresh pool full, no evictable frame"
  | pageNotInPool id => ascii s!"unpin_page: page {id} not in pool"
  | pageNotPinned id => ascii s!"unpin_page: page {id} not pinned"
  | outOfFuel => ascii "the page links do not end"
  | badVariantAccess => ascii "std::get: wrong index for variant"
  | divisionByZero => ascii "division by zero"
  | outOfBounds => ascii "read past the end of an array"
  | schemaShortRead part => ascii s!"schema read: short read on {part}"
  | schemaBadMagic => ascii "schema read: bad magic"
  | columnNotNullable => ascii "append_null: column is not nullable"
  | pageFull operation => ascii s!"{operation}: page full"
  | stringTooLong length maxLen => ascii s!"string of length {length} exceeds VARCHAR({maxLen})"
  | valueTypeMismatch => ascii "append_bulk: value type does not match column type"
  | pageTypeMismatch text => ascii text
  | slotOutOfRange => ascii "get: slot out of range"
  | valueIsNull => ascii "get: value is null"
  | pageUnreadable id =>
    if id = 0 then ascii "read_page: checksum mismatch on page 0"
    else ascii s!"read_page: page_id mismatch on page {id}"
  | columnInvalidType => ascii "create: invalid type or max_len=0 for VARCHAR"
  | columnFileEmpty => ascii "open: file is empty"
  | columnFileInvalidType => ascii "open: page header has invalid type"
  | schemaEmpty => ascii "schema is empty"
  | schemaInvalidType name => ascii "schema column '" ++ name ++ ascii "' has invalid type"
  | schemaEmptyName => ascii "schema has a column with empty name"
  | schemaDuplicateName name =>
    ascii "schema has duplicate column name '" ++ name ++ ascii "'"
  | schemaMissing => ascii "schema read: cannot open"
  | columnHeaderMismatch name =>
    ascii "column '" ++ name ++ ascii "' file header does not match schema"
  | segmentMissing id => ascii s!"segment {id}: cannot open"
  | directoryNotEmpty => ascii "Directory not empty"
  | rowSize operation size columns =>
    ascii s!"{operation}: row size {size} does not match column count {columns}"
  | walNoHeader => ascii "WalReader: cannot read header"
  | walBadMagic => ascii "WalReader: bad magic"
  | tableNotFound operation name => ascii s!"{operation}: table not found: " ++ name
  | tableExists name => ascii "catalog: table '" ++ name ++ ascii "' already exists"
  | tableUnknown name => ascii "catalog: table '" ++ name ++ ascii "' does not exist"
  | uniqueViolation => ascii "unique constraint violation"
  | indexExists index table =>
    ascii "add_index: index '" ++ index ++ ascii "' already exists on table '" ++ table ++ ascii "'"
  | indexFileExists => ascii "IndexFile::create: file already exists"
  | indexColumnRange => ascii "add_index: column index out of range"
  | indexBoolColumn column => ascii "add_index: cannot index BOOL column '" ++ column ++ ascii "'"
  | noIndexes table => ascii "drop_index: no indexes on table '" ++ table ++ ascii "'"
  | indexNotFound index table =>
    ascii "drop_index: index '" ++ index ++ ascii "' not found on table '" ++ table ++ ascii "'"
  | within context e => context ++ e.message

end Error

/-- A procedure of the modelled program. -/
abbrev Op (σ α : Type) : Type := Proc Error σ α

end NyxDb
