import NyxDb.Lib.Double
import NyxDb.Storage.SchemaFile

/-!
# Statements written by the coordinator

The coordinator does not send the rows of an `INSERT` as they came.  It writes a new statement for
each partition, with the values as literals, and so it does when it moves rows to a new partition.
The two writers agree but for dates and timestamps.
-/

namespace NyxDb

/-- Texts with another one between them. -/
def joinTexts (sep : Bytes) (texts : List Bytes) : Bytes :=
  (texts.intersperse sep).flatten

namespace ShardCoordinator

def quoted (text : Bytes) : Bytes :=
  ascii "'" ++ text ++ ascii "'"

/-- A value in the `INSERT` of `route_insert_`. -/
def renderValue : Value → Bytes
  | .null => ascii "NULL"
  | .int32 v => decimalInt v.toInt
  | .int64 v => decimalInt v.toInt
  | .double bits => fixedSix bits
  | .bool b => if b then ascii "TRUE" else ascii "FALSE"
  | .string s => quoted s
  | .date days => ascii "DATE " ++ quoted (decimalInt days.toInt)
  | .timestamp micros => ascii "TIMESTAMP " ++ quoted (decimalInt micros.toInt)

/-- A value in the `INSERT` of rows that move to a new partition. -/
def renderMigrated : Value → Bytes
  | .date days => decimalInt days.toInt
  | .timestamp micros => decimalInt micros.toInt
  | v => renderValue v

/-- The bound of a new partition in a condition; there is none for truth values.  A date is written
as the number of its alternative in the type of values. -/
def renderBound : Value → Bytes
  | .null | .bool _ => []
  | .date _ => quoted (ascii "6")
  | .timestamp micros => decimalInt micros.toInt
  | v => renderValue v

def renderRow (render : Value → Bytes) (row : Row) : Bytes :=
  ascii "(" ++ joinTexts (ascii ", ") (row.map render) ++ ascii ")"

def insertText (render : Value → Bytes) (table : Bytes) (rows : List Row) : Bytes :=
  ascii "INSERT INTO " ++ table ++ ascii " VALUES " ++
    joinTexts (ascii ", ") (rows.map (renderRow render))

def typeText (col : Column) : Bytes :=
  match col.type with
  | .int32 => ascii "INT"
  | .int64 => ascii "BIGINT"
  | .double => ascii "DOUBLE"
  | .varchar => ascii "VARCHAR(" ++ decimal col.maxLen.toNat ++ ascii ")"
  | .bool => ascii "BOOL"
  | .date => ascii "DATE"
  | .timestamp => ascii "TIMESTAMP"
  | _ => ascii "INT"

def columnText (col : Column) : Bytes :=
  col.name ++ ascii " " ++ typeText col ++ if col.nullable then [] else ascii " NOT NULL"

/-- The table for a new partition: the types of the columns and whether they may be `NULL`. -/
def createText (table : Bytes) (schema : Schema) : Bytes :=
  ascii "CREATE TABLE " ++ table ++ ascii " (" ++
    joinTexts (ascii ", ") (schema.map columnText) ++ ascii ")"

/-- The condition of the rows below a bound. -/
def belowText (partitionCol bound : Bytes) : Bytes :=
  ascii " WHERE " ++ partitionCol ++ ascii " < " ++ bound

end ShardCoordinator
end NyxDb
