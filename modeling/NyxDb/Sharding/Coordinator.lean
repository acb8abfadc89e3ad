import NyxDb.Catalog.Metadata
import NyxDb.Server.Peer
import NyxDb.Sharding.Rendering

/-!
# The shard coordinator

The coordinator has a catalog of its own, with the schemas and the shard maps of the tables, and
no rows.  It binds a statement against its catalog and sends it, or statements it writes itself,
to the nodes.  The nodes are whatever answers statements.
-/

namespace NyxDb

open Sql Server Proc

/-- The coordinator's catalog and the nodes by their addresses. -/
structure Cluster (N : Type) where
  catalog : FullCatalog
  peers : Bytes → Peer N

namespace ShardCoordinator

variable {N : Type} (answer : Answer N)

abbrev Run (N α : Type) : Type := Proc Bytes (Cluster N) α

def onCatalog {α : Type} (op : Op FullCatalog α) : Run N α :=
  zoom Cluster.catalog (fun cat c => { c with catalog := cat }) (translate Error.message op)

/-- A statement for a node, through the pool. -/
def send (addr sql : Bytes) : Run N ExecuteResult :=
  fun c =>
    let o := (c.peers addr).execute answer addr sql
    ⟨o.1, { c with peers := Function.update c.peers addr o.2 }, []⟩

/-- A statement whose error is reported with a context. -/
def sendIn (context : Bytes → Bytes) (addr sql : Bytes) : Run N ExecuteResult :=
  mapError (fun msg => context addr ++ ascii ": " ++ msg) (send answer addr sql)

/-- A statement for the nodes of all partitions, whatever they answer. -/
def sendToPartitions (sql : Bytes) (m : ShardMap) : Run N Unit :=
  forEach m.partitions fun p => attempt do
    let _ ← send answer p.nodeAddr sql
    pure ()

def emptyResult : ExecuteResult := ⟨[], [], 0⟩

/-- Only a number of rows. -/
def affected (total : Nat) : ExecuteResult := ⟨[], [], total⟩

/-- The results of the nodes one after the other, with the columns of the first. -/
def mergeResults : List ExecuteResult → ExecuteResult
  | [] => emptyResult
  | part :: parts =>
    { schema := part.schema
      columns := (List.range part.schema.length).map fun c =>
        (part :: parts).flatMap fun r => (r.columns[c]?).getD []
      rowsAffected := ((part :: parts).map ExecuteResult.rowsAffected).sum % 2 ^ 64 }

/-! ## INSERT -/

/-- The value a row is placed by.  The number of columns is cut to 8 bits for the comparison. -/
def partitionValue (m : ShardMap) (row : Row) : Value :=
  if m.partitionColIdx < UInt8.ofNat row.length then
    (row[m.partitionColIdx.toNat]?).getD .null
  else .null

/-- A row goes to the others of its partition. -/
def addToShard (shard : Nat) (row : Row) : List (Nat × List Row) → List (Nat × List Row)
  | [] => [(shard, [row])]
  | (i, rows) :: rest =>
    if i = shard then (i, rows ++ [row]) :: rest else (i, rows) :: addToShard shard row rest

/-- The rows by their partitions. -/
def byShard (m : ShardMap) : List Row → List (Nat × List Row) → Except Error (List (Nat × List Row))
  | [], groups => .ok groups
  | row :: rows, groups => do
      let shard ← shardForValue m (partitionValue m row)
      byShard m rows (addToShard shard row groups)

/-- One statement for each partition that has rows, until one fails. -/
def insertGroups (table : Bytes) (m : ShardMap) : List (Nat × List Row) → Nat → Run N Nat
  | [], total => pure total
  | (shard, rows) :: groups, total =>
    match m.partitions[shard]? with
    | none => throw (Error.message .outOfBounds)
    | some p => do
        let r ← sendIn answer (ascii "coordinator INSERT on shard " ++ ·) p.nodeAddr
          (insertText renderValue table rows)
        insertGroups table m groups ((total + r.rowsAffected) % 2 ^ 64)

def routeInsert (stmt : BoundInsert) : Run N ExecuteResult := do
  let c ← get
  match c.catalog.shardMapOf stmt.tableName with
  | none => throw (ascii "route_insert: no shard map")
  | some m =>
    if (c.catalog.schemaOf stmt.tableName).isNone then
      throw (ascii "route_insert: schema not found")
    else
      match byShard m stmt.rows [] with
      | .error e => throw e.message
      | .ok groups => do
          let total ← insertGroups answer stmt.tableName m groups 0
          pure (affected total)

/-! ## DELETE and UPDATE -/

/-- The statement for a node that has not been visited. -/
def visit (verb sql addr : Bytes) (acc : List Bytes × Nat) : Run N (List Bytes × Nat) :=
  if addr ∈ acc.1 then pure acc
  else do
    let r ← sendIn answer (ascii "coordinator " ++ verb ++ ascii " on shard " ++ ·) addr sql
    pure (acc.1 ++ [addr], (acc.2 + r.rowsAffected) % 2 ^ 64)

def visitPartitions (verb sql : Bytes) : List PartitionDef → List Bytes × Nat →
    Run N (List Bytes × Nat)
  | [], acc => pure acc
  | p :: ps, acc => do
      let acc ← visit answer verb sql p.nodeAddr acc
      visitPartitions verb sql ps acc

/-- The partitions of all tables that have a shard map. -/
def visitTables (verb sql : Bytes) : List Bytes → List Bytes × Nat → Run N (List Bytes × Nat)
  | [], acc => pure acc
  | name :: names, acc => do
      let c ← get
      match c.catalog.shardMapOf name with
      | none => visitTables verb sql names acc
      | some m => do
          let acc ← visitPartitions answer verb sql m.partitions acc
          visitTables verb sql names acc

/-- What `route_delete_` and `route_update_` have in common: the table of the statement is not
looked at. -/
def routeWrite (verb sql : Bytes) : Run N ExecuteResult := do
  let c ← get
  let acc ← visitTables answer verb sql c.catalog.tableNames ([], 0)
  pure (affected acc.2)

def routeDelete (sql : Bytes) : Run N ExecuteResult :=
  routeWrite answer (ascii "DELETE") sql

def routeUpdate (sql : Bytes) : Run N ExecuteResult :=
  routeWrite answer (ascii "UPDATE") sql

/-! ## SELECT -/

/-- The literal a column is compared with, `NULL` for any other expression. -/
def literalValue : BoundExpr → Value
  | .intLit v t => if t = .int32 then .int32 (v.setWidth 32) else .int64 v
  | .doubleLit v => .double v
  | .stringLit s => .string s
  | .dateLit d => .date d
  | .timestampLit t => .timestamp t
  | _ => .null

/-- The partitions for a condition.  Of the column only its index is looked at. -/
def targetShards (m : ShardMap) (where_ : Option BoundExpr) : Except Error (List Nat) := do
  let pruned ←
    match where_ with
    | some (.binaryOp op (.columnRef ref) right _ _) =>
      if ref.columnIdx = m.partitionColIdx.toNat ∧ (literalValue right).isNull = false then
        prunePartitions m (UInt8.ofNat ref.columnIdx) op (literalValue right)
      else pure []
    | _ => pure []
  pure (if pruned = [] then List.range m.partitions.length else pruned)

/-- The statement for all partitions at once; their answers. -/
def sendAll (sql : Bytes) : List PartitionDef → Run N (List (Except Bytes ExecuteResult))
  | [] => pure []
  | p :: ps => do
      let r ← result (send answer p.nodeAddr sql)
      let rs ← sendAll sql ps
      pure (r :: rs)

def fanOutSelect (stmt : BoundSelect) (sql : Bytes) (m : ShardMap) : Run N ExecuteResult :=
  match targetShards m stmt.where_ with
  | .error e => throw e.message
  | .ok targets => do
      let answers ← sendAll answer sql (targets.filterMap fun i => m.partitions[i]?)
      let parts ← ofExcept (answers.mapM id)
      pure (mergeResults parts)

/-! ## ALTER TABLE ADD PARTITION -/

/-- The rows of a result. -/
def resultRow (r : ExecuteResult) (i : Nat) : Except Error Row :=
  r.columns.mapM fun column =>
    match column[i]? with
    | some v => .ok v
    | none => .error .outOfBounds

def resultRows (r : ExecuteResult) : Except Error (List Row) :=
  (List.range r.rowCount).mapM (resultRow r)

/-- The rows below the bound go from the source to the new partition.  That the source keeps them
is not an error. -/
def migrateRows (table partitionCol bound source target : Bytes) : Run N Unit := do
  let rows ← sendIn answer (fun _ => ascii "alter_add_partition: SELECT migration rows") source
    (ascii "SELECT * FROM " ++ table ++ belowText partitionCol bound)
  if rows.rowCount = 0 then pure ()
  else
    match resultRows rows with
    | .error e => throw e.message
    | .ok values => do
        let _ ← sendIn answer (fun _ => ascii "alter_add_partition: INSERT migrated rows") target
          (insertText renderMigrated table values)
        attempt do
          let _ ← send answer source (ascii "DELETE FROM " ++ table ++ belowText partitionCol bound)
          pure ()

def handleAlterPartition (stmt : BoundAlterAddPartition) : Run N ExecuteResult := do
  let c ← get
  let new := stmt.updatedShardMap
  match c.catalog.shardMapOf stmt.tableName with
  | none => throw (ascii "alter_add_partition: table is not partitioned")
  | some old =>
    match new.partitions.find? fun p => old.partitions.all fun q => q.name != p.name with
    | none => throw (ascii "alter_add_partition: could not identify new partition")
    | some p =>
      match c.catalog.schemaOf stmt.tableName with
      | none => throw (ascii "alter_add_partition: schema not found")
      | some schema => do
          let _ ← sendIn answer (fun _ => ascii "alter_add_partition: CREATE TABLE on new shard")
            p.nodeAddr (createText stmt.tableName schema)
          match old.partitions.find? PartitionDef.isMaxvalue with
          | none => throw (ascii "alter_add_partition: no MAXVALUE source partition")
          | some source => do
              if p.isMaxvalue ∨ renderBound p.upperBound = [] then pure ()
              else
                migrateRows answer stmt.tableName new.partitionCol (renderBound p.upperBound)
                  source.nodeAddr p.nodeAddr
              onCatalog (FullCatalog.setShardMap stmt.tableName new)
              pure emptyResult

/-! ## Statements -/

/-- The table for the coordinator first, then for each partition, until one fails. -/
def createTable (stmt : BoundCreateTable) (sql : Bytes) : Run N ExecuteResult := do
  onCatalog (FullCatalog.runCreateTable stmt)
  match stmt.shardMap with
  | none => pure emptyResult
  | some m => do
      forEach m.partitions fun p => do
        let _ ← sendIn answer (ascii "coordinator: CREATE TABLE on shard " ++ ·) p.nodeAddr sql
        pure ()
      pure emptyResult

/-- A statement for the partitions of a table, if it has a shard map. -/
def broadcast (table sql : Bytes) : Run N Unit := do
  let c ← get
  match c.catalog.shardMapOf table with
  | none => pure ()
  | some m => sendToPartitions answer sql m

/-- A statement for a table that must have a shard map. -/
def withShardMap (table : Bytes) (run : Run N ExecuteResult) : Run N ExecuteResult := do
  let c ← get
  if (c.catalog.shardMapOf table).isSome then run
  else throw (ascii "coordinator: no shard map for table " ++ table)

def runStatement (sql : Bytes) : BoundStatement → Run N ExecuteResult
  | .createTable stmt => createTable answer stmt sql
  | .dropTable table ifExists => do
      broadcast answer table sql
      onCatalog (FullCatalog.dropTable none table ifExists)
      pure emptyResult
  | .alterAddPartition stmt => handleAlterPartition answer stmt
  | .vacuum table => do
      broadcast answer table sql
      pure emptyResult
  | .insert stmt => withShardMap stmt.tableName (routeInsert answer stmt)
  | .delete stmt => withShardMap stmt.tableName (routeDelete answer sql)
  | .update stmt => withShardMap stmt.tableName (routeUpdate answer sql)
  | .select stmt => do
      let c ← get
      match c.catalog.shardMapOf ((stmt.bindings.head?.map BoundBinding.tableName).getD []) with
      | none => throw (ascii "coordinator: no shard map for queried table")
      | some m => fanOutSelect answer stmt sql m
  | .createIndex stmt => do
      broadcast answer stmt.tableName sql
      pure emptyResult
  | .dropIndex table _ => do
      broadcast answer table sql
      pure emptyResult
  | .showIndexes _ | .showConstraints _ => pure emptyResult

/-- `ShardCoordinator::execute`. -/
def execute (sql : Bytes) : Run N ExecuteResult := do
  let c ← get
  match bindSql c.catalog.view sql with
  | .error e => throw (e.message sql)
  | .ok none => pure emptyResult
  | .ok (some stmt) => runStatement answer sql stmt

end ShardCoordinator
end NyxDb
