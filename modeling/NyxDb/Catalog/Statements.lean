import NyxDb.Catalog.ReplayMode
import NyxDb.Wal.Codec

/-!
# Statements

The statements that change a database, as the frontend hands them to the catalog.  Those on rows
all do the same three things: they append a record to the log, they remove rows of the table and
add others, with a second record if the write buffer was sealed, and they put the new keys into
the indexes.  `RowsChanged` says so once for all of them.
-/

namespace NyxDb.Catalog

open List

/-! ## Statements of the frontend -/

/-- `DELETE` without `WHERE`: every row id of the table is named. -/
def deleteAll (name : Bytes) : Op Catalog Nat := do
  let cat ← Proc.get
  match cat.find (canonicalize name) with
  | none => Proc.throw (.tableNotFound "delete" name)
  | some e =>
    if e.table.rowCount = 0 then pure 0
    else deleteRows name (range e.table.rowCount)

/-- Everything is written before the directory of the table is removed; the log is not told. -/
def dropTable (gate : Option Nat) (name : Bytes) (ifExists : Bool) : Op Catalog Unit := do
  let canonical := canonicalize name
  let cat ← Proc.get
  match cat.find canonical with
  | none => if ifExists then pure () else Proc.throw (.tableUnknown name)
  | some _ => do
      flushAll gate
      fileOp fun cat => { cat with tables := cat.tables.filter fun e => e.name != canonical }

/-- A statement.  Rows are given by their ids, as the scan of an `UPDATE` or a `DELETE` finds
them. -/
inductive Statement where
  | createTable (name : Bytes) (schema : Schema) (constraints : List (Bytes × List UInt8))
  | dropTable (name : Bytes) (ifExists : Bool)
  | createIndex (table index : Bytes) (cols : List UInt8) (unique : Bool)
  | insert (name : Bytes) (rows : List Row)
  | update (name : Bytes) (oldIndices : List Nat) (schema : Schema) (newRows : List Row)
  | delete (name : Bytes) (rowIndices : List Nat)
  | deleteAll (name : Bytes)
  | vacuum (name : Bytes)
  deriving DecidableEq, Repr

/-- Run a statement, whose result is not looked at. -/
def Statement.run (gate : Option Nat) : Statement → Op Catalog Unit
  | .createTable name schema constraints => addTable name schema constraints
  | .dropTable name ifExists => Catalog.dropTable gate name ifExists
  | .createIndex table index cols unique => addIndex table index cols unique
  | .insert name rows => do
      let _ ← Catalog.insert gate name rows
      pure ()
  | .update name oldIndices schema newRows => do
      let _ ← updateRows name oldIndices schema newRows
      pure ()
  | .delete name rowIndices => do
      let _ ← deleteRows name rowIndices
      pure ()
  | .deleteAll name => do
      let _ ← Catalog.deleteAll name
      pure ()
  | .vacuum name => do
      let _ ← runVacuum gate name
      pure ()

/-! ## The log -/

/-- The catalog with its log open. -/
def logOpened (cat : Catalog) : Catalog :=
  match cat.writer, cat.wal with
  | some _, _ => cat
  | none, some bs => { cat with writer := some bs.length }
  | none, none => { cat with wal := some walHeader, writer := some walHeaderSize }

/-- The catalog with more bytes in its log. -/
def appended (bs : Bytes) (cat : Catalog) : Catalog :=
  if bs.isEmpty then cat
  else
    { cat with
      wal := some (cat.wal.getD [] ++ bs)
      writer := cat.writer.map (· + bs.length) }

section Log

variable (cat : Catalog)

theorem exec_ensureWal : exec ensureWal cat = (.ok (), cat.logOpened) := by
  obtain ⟨-, -, wal, writer⟩ := cat
  cases writer with
  | some n => rfl
  | none => cases wal <;> rfl

theorem recordBytes_ne_nil (payload : Bytes) : recordBytes payload ≠ [] := by
  intro h
  have hlen := congrArg length h
  simp [recordBytes, length_leBytes] at hlen

theorem exec_writeRecord (payload : Bytes) :
    exec (writeRecord payload) cat = (.ok (), cat.appended (recordBytes payload)) := by
  unfold appended
  rw [if_neg (by simpa using recordBytes_ne_nil payload)]
  rfl

theorem appended_append (bs bs' : Bytes) :
    (cat.appended bs).appended bs' = cat.appended (bs ++ bs') := by
  unfold appended
  cases bs with
  | nil => simp
  | cons b bs =>
    cases bs' with
    | nil => simp
    | cons b' bs' =>
      simp only [isEmpty_cons, Bool.false_eq_true, if_false, Option.getD_some,
        cons_append, append_assoc, Option.map_map]
      congr 2
      funext n
      simp only [Function.comp_apply, length_cons, length_append]
      omega

/-- The tables do not see the log. -/
theorem find_logOpened (name : Bytes) : cat.logOpened.find name = cat.find name := by
  unfold logOpened
  split <;> rfl

theorem find_appended (bs name : Bytes) : (cat.appended bs).find name = cat.find name := by
  unfold appended
  split <;> rfl

theorem put_logOpened (e : TableEntry) : put e cat.logOpened = (put e cat).logOpened := by
  obtain ⟨-, -, wal, writer⟩ := cat
  cases writer with
  | some n => rfl
  | none => cases wal <;> rfl

theorem put_appended (e : TableEntry) (bs : Bytes) :
    put e (cat.appended bs) = (put e cat).appended bs := by
  unfold appended
  split <;> rfl

/-- The log is no part of what the tables hold. -/
theorem Tracks.logged {R : TableEntry → Ledger Row → Prop} {cat : Catalog} {db : Contents}
    (h : Tracks R cat db) (bs : Bytes) : Tracks R (cat.logOpened.appended bs) db := by
  have hopened : Tracks R cat.logOpened db := by
    unfold logOpened
    split
    · exact h
    · exact h.withLog _ _
    · exact h.withLog _ _
  unfold appended
  split
  · exact hopened
  · exact hopened.withLog _ _

theorem tables_logged (cat : Catalog) (bs : Bytes) :
    (cat.logOpened.appended bs).tables = cat.tables := by
  unfold appended logOpened
  split <;> split <;> rfl

end Log

end Catalog

/-- The bytes that a call of the writer appends. -/
def LogCall.bytes (call : LogCall) : Except Error Bytes := do
  match ← call.payload with
  | none => return []
  | some payload => return recordBytes payload

/-- What follows the record of a statement in which the write buffer was sealed. -/
def sealBytes (table : Bytes) (before after : Nat) : Bytes :=
  if before < after then recordBytes (segmentFlushPayload table after) else []

namespace Catalog

open TableEntry

section Log

variable {cat : Catalog} {table : Bytes} {schema : Schema} {rows : List Row} {bs : Bytes}

theorem exec_logInsert : exec (logInsert table schema rows) cat =
    match LogCall.bytes ⟨table, .insert schema rows⟩ with
    | .ok bs => (.ok (), cat.appended bs)
    | .error err => (.error err, cat) := by
  unfold logInsert LogCall.bytes LogCall.payload
  dsimp only
  cases rows.isEmpty with
  | true => rfl
  | false =>
    cases hp : insertPayload table schema rows with
    | error err => rfl
    | ok payload => exact exec_writeRecord cat payload

theorem exec_logUpdate {ids : List Nat} : exec (logUpdate table ids schema rows) cat =
    match LogCall.bytes ⟨table, .update ids schema rows⟩ with
    | .ok bs => (.ok (), cat.appended bs)
    | .error err => (.error err, cat) := by
  unfold logUpdate LogCall.bytes LogCall.payload
  dsimp only
  cases hp : updatePayload table ids schema rows with
  | error err => rfl
  | ok payload => exact exec_writeRecord cat payload

theorem exec_logSegmentFlush (before after : Nat) : exec (logSegmentFlush table before after) cat =
      (.ok (), cat.appended (sealBytes table before after)) := by
  unfold logSegmentFlush sealBytes
  split
  · exact exec_writeRecord cat _
  · rfl

end Log

/-! ## Statements on rows -/

/-- The catalog after a statement that changes the rows of a table. -/
def changed (cat : Catalog) (canonical : Bytes) (e : TableEntry) (t' : Table)
    (idx : List (Bytes × IndexFile)) (bs : Bytes) : Catalog :=
  (put { e with table := t', indexes := idx } cat).logOpened.appended
    (bs ++ sealBytes canonical e.table.wbBaseRowId t'.wbBaseRowId)

/-- The end of `insert`: a checkpoint when the log has become long. -/
def afterInsert (gate : Option Nat) (n : Nat) : Op Catalog Nat := do
  let cat ← Proc.get
  if walCheckpointBytes < cat.writer.getD 0 then flushAll gate else pure ()
  pure n

section Rows

variable {cat cat' : Catalog} {name : Bytes} {e : TableEntry} {t' : Table}
  {idx : List (Bytes × IndexFile)} {bs : Bytes} {rows : List Row} {ids : List Nat} {n : Nat}
  {gate : Option Nat}

section

variable (hfind : cat.find name = some e)
include hfind

/-- The record of a seal, and the indexes, after the table was changed. -/
theorem exec_sealThenKeys {β : Type} {firstRowId : Nat}
    (hkeys : exec (onIndexes (insertKeys rows firstRowId)) { e with table := t' } =
      (.ok (), { e with table := t', indexes := idx })) (before after : Nat)
    (rest : Op Catalog β) :
    exec (do
      logSegmentFlush name before after
      onEntry name (onIndexes (insertKeys rows firstRowId))
      rest) (put { e with table := t' } cat) =
    exec rest ((put { e with table := t', indexes := idx } cat).appended
      (sealBytes name before after)) := by
  have hself : ((put { e with table := t' } cat).appended (sealBytes name before after)).find name =
      some { e with table := t' } := by
    rw [find_appended]
    exact find_put_self hfind (find_some hfind).2
  have hlast : exec (onEntry name (onIndexes (insertKeys rows firstRowId)))
      ((put { e with table := t' } cat).appended (sealBytes name before after)) =
      (.ok (), (put { e with table := t', indexes := idx } cat).appended
        (sealBytes name before after)) := by
    have hname : ({ e with table := t', indexes := idx } : TableEntry).name =
      ({ e with table := t' } : TableEntry).name := rfl
    rw [exec_onEntry hself, hkeys, put_appended]
    rw [put_put hname]
  rw [exec_bind_ok (exec_logSegmentFlush before after), exec_bind_ok hlast]

theorem exec_onEntry_onTable {α : Type} {c : Op Table α} {a : α}
    (hc : exec c e.table = (.ok a, t')) :
    exec (onEntry name (onTable c)) cat = (.ok a, put { e with table := t' } cat) := by
  rw [exec_onEntry hfind, exec_onTable, hc]

/-- The entry is found when the log has been written. -/
theorem find_logged : (cat.logOpened.appended bs).find name = some e := by
  rw [find_appended, find_logOpened, hfind]

end

theorem put_logged (x : TableEntry) (bs' : Bytes) :
    (put x (cat.logOpened.appended bs)).appended bs' =
      (put x cat).logOpened.appended (bs ++ bs') := by
  rw [put_appended, put_logOpened, appended_append]

/-- **`insert`**, when all its parts succeed. -/
theorem RowsChanged.exec_insert (gate : Option Nat)
    (h : RowsChanged cat (canonicalize name) (.insert e.table.schema rows) e t' idx)
    (hbytes : LogCall.bytes ⟨canonicalize name, .insert e.table.schema rows⟩ = .ok bs)
    (hcheck : checkUnique e rows = .ok ()) :
    ∃ n, exec (insert gate name rows) cat =
      exec (afterInsert gate n) (cat.changed (canonicalize name) e t' idx bs) := by
  obtain ⟨n, htable⟩ := h.table
  have hinsert : exec (Table.insertMany rows) e.table = (.ok n, t') := by
    rw [show WalBody.markedIds (.insert e.table.schema rows) = [] from rfl, Table.marked_nil]
      at htable
    exact htable
  have hinner : exec (do
      let n ← Table.insertMany rows
      let t ← Proc.get
      pure (n, t.wbBaseRowId)) e.table = (.ok (n, t'.wbBaseRowId), t') := by
    rw [exec_bind_ok hinsert]
    rfl
  refine ⟨n, ?_⟩
  unfold insert
  rw [exec_get_bind, h.find]
  rw [exec_bind_ok (exec_ensureWal cat), exec_bind_ok (by rw [exec_logInsert, hbytes]),
    hcheck, exec_bind_ok (exec_ofExcept _ _),
    exec_bind_ok (exec_onEntry_onTable (find_logged h.find) hinner)]
  refine (exec_sealThenKeys (find_logged h.find) h.keys _ _ _).trans ?_
  rw [put_logged]
  rfl

theorem RowsChanged.exec_updateRows {schema : Schema} (hids : ids ≠ [])
    (h : RowsChanged cat (canonicalize name) (.update ids schema rows) e t' idx)
    (hbytes : LogCall.bytes ⟨canonicalize name, .update ids schema rows⟩ = .ok bs) :
    exec (updateRows name ids schema rows) cat =
      (.ok ids.length, cat.changed (canonicalize name) e t' idx bs) := by
  obtain ⟨n, htable⟩ := h.table
  have hupdate : exec (Table.updateRows ids rows) e.table = _ := exec_updateRows_table htable
  unfold updateRows
  rw [if_neg (by simpa using hids), exec_get_bind, h.find]
  rw [exec_bind_ok (exec_ensureWal cat), exec_bind_ok (by rw [exec_logUpdate, hbytes]),
    exec_bind_ok (exec_onEntry_onTable (find_logged h.find) hupdate)]
  refine (exec_sealThenKeys (find_logged h.find) h.keys _ _ _).trans ?_
  rw [put_logged]
  rfl

/-- A deletion adds no rows. -/
theorem RowsChanged.delete_parts (h : RowsChanged cat name (.delete ids) e t' idx) :
    t' = e.table.marked ids ∧ idx = e.indexes := by
  obtain ⟨n, htable⟩ := h.table
  refine ⟨(congrArg Prod.snd htable).symm, ?_⟩
  have hkeys := h.keys
  rw [show WalBody.newRows (.delete ids) = [] from rfl, exec_insertKeys_nil] at hkeys
  exact (congrArg (fun x => x.2.indexes) hkeys).symm

theorem RowsChanged.exec_deleteRows (hids : ids ≠ [])
    (h : RowsChanged cat (canonicalize name) (.delete ids) e t' idx)
    (hbytes : LogCall.bytes ⟨canonicalize name, .delete ids⟩ = .ok bs) :
    exec (deleteRows name ids) cat =
      (.ok ids.length, cat.changed (canonicalize name) e t' idx bs) := by
  obtain ⟨rfl, rfl⟩ := h.delete_parts
  have hbs : bs = recordBytes (deletePayload (canonicalize name) ids) :=
    (Except.ok.inj hbytes).symm
  have hbase := (Table.sameIds_marked e.table ids).base
  subst hbs
  unfold deleteRows
  rw [if_neg (by simpa using hids), exec_get_bind, h.find]
  rw [exec_bind_ok (exec_ensureWal cat), exec_bind_ok (exec_writeRecord _ _),
    exec_bind_ok (exec_onEntry_onTable (find_logged h.find) (Table.exec_markDeleted ids _))]
  -- the write buffer is not sealed
  unfold changed sealBytes
  rw [hbase, if_neg (Nat.lt_irrefl _), List.append_nil, ← put_logOpened]
  rfl

/-! ### What a successful statement has done -/

/-- The keys have been put into the indexes of the entry. -/
theorem keys_of_sealThenKeys {β : Type} {rest : Op Catalog β} {b : β}
    {firstRowId before after : Nat}
    (hfind : cat.find name = some e) (h : exec (do
      logSegmentFlush name before after
      onEntry name (onIndexes (insertKeys rows firstRowId))
      rest) (put { e with table := t' } cat) = (.ok b, cat')) :
    ∃ idx, exec (onIndexes (insertKeys rows firstRowId)) { e with table := t' } =
      (.ok (), { e with table := t', indexes := idx }) := by
  rw [exec_bind_ok (exec_logSegmentFlush _ _)] at h
  obtain ⟨_, _, hkeys, -⟩ := exec_bind_eq_ok h
  obtain ⟨idx, hidx, -⟩ := onIndexes_eq_ok (by
    rw [find_appended]
    exact find_put_self hfind (find_some hfind).2) hkeys
  exact ⟨idx, hidx⟩

/-- The record has been written. -/
theorem bytes_of_log {call : LogCall} {c : Op Catalog Unit} (hc : exec c cat = match call.bytes with
      | .ok bs => (.ok (), cat.appended bs)
      | .error err => (.error err, cat))
    (h : exec c cat = (.ok (), cat')) : ∃ bs, call.bytes = .ok bs ∧ cat' = cat.appended bs := by
  cases hbytes : call.bytes with
  | error err =>
    rw [hc, hbytes] at h
    cases h
  | ok bs =>
    rw [hc, hbytes] at h
    exact ⟨bs, rfl, (congrArg Prod.snd h).symm⟩

theorem changed_of_insert (h : exec (insert gate name rows) cat = (.ok n, cat')) : ∃ e t' idx bs m,
      RowsChanged cat (canonicalize name) (.insert e.table.schema rows) e t' idx ∧
      LogCall.bytes ⟨canonicalize name, .insert e.table.schema rows⟩ = .ok bs ∧
      exec (afterInsert gate m) (cat.changed (canonicalize name) e t' idx bs) = (.ok n, cat') := by
  have hrun := h
  unfold insert at h
  rw [exec_get_bind] at h
  split at h
  · cases h
  · next e hfind =>
    rw [exec_bind_ok (exec_ensureWal cat)] at h
    obtain ⟨_, _, hlog, h⟩ := exec_bind_eq_ok h
    obtain ⟨bs, hbytes, rfl⟩ := bytes_of_log exec_logInsert hlog
    obtain ⟨_, _, hcheck, h⟩ := exec_bind_eq_ok h
    obtain ⟨hunique, rfl⟩ := Prod.mk.inj hcheck
    obtain ⟨⟨m, _⟩, _, hrows, h⟩ := exec_bind_eq_ok h
    obtain ⟨t', htable, rfl⟩ := onTable_eq_ok (find_logged hfind) hrows
    obtain ⟨m', t₁, hinsert, hrest⟩ := exec_bind_eq_ok htable
    obtain ⟨-, rfl⟩ := Prod.mk.inj hrest
    obtain ⟨idx, hidx⟩ := keys_of_sealThenKeys (find_logged hfind) h
    have hchanged : RowsChanged cat (canonicalize name) (.insert e.table.schema rows) e t₁ idx := by
      refine ⟨hfind, ⟨m', ?_⟩, hidx⟩
      rw [show WalBody.markedIds (.insert e.table.schema rows) = [] from rfl, Table.marked_nil]
      exact hinsert
    obtain ⟨k, hexec⟩ := hchanged.exec_insert gate hbytes hunique
    exact ⟨e, t₁, idx, bs, k, hchanged, hbytes, hexec.symm.trans hrun⟩

theorem changed_of_updateRows {schema : Schema} (hids : ids ≠ [])
    (h : exec (updateRows name ids schema rows) cat = (.ok n, cat')) :
    ∃ e t' idx bs, RowsChanged cat (canonicalize name) (.update ids schema rows) e t' idx ∧
      LogCall.bytes ⟨canonicalize name, .update ids schema rows⟩ = .ok bs ∧
      cat' = cat.changed (canonicalize name) e t' idx bs := by
  have hrun := h
  unfold updateRows at h
  rw [if_neg (by simpa using hids), exec_get_bind] at h
  split at h
  · cases h
  · next e hfind =>
    rw [exec_bind_ok (exec_ensureWal cat)] at h
    obtain ⟨_, _, hlog, h⟩ := exec_bind_eq_ok h
    obtain ⟨bs, hbytes, rfl⟩ := bytes_of_log exec_logUpdate hlog
    obtain ⟨_, _, hrows, h⟩ := exec_bind_eq_ok h
    obtain ⟨t', htable, rfl⟩ := onTable_eq_ok (find_logged hfind) hrows
    obtain ⟨rfl, hinsert⟩ := updateRows_eq_ok htable
    obtain ⟨idx, hidx⟩ := keys_of_sealThenKeys (find_logged hfind) h
    have hchanged : RowsChanged cat (canonicalize name) (.update ids schema rows) e t' idx :=
      ⟨hfind, hinsert, hidx⟩
    have hexec := hchanged.exec_updateRows hids hbytes
    rw [hrun] at hexec
    exact ⟨e, t', idx, bs, hchanged, hbytes, congrArg Prod.snd hexec⟩

end Rows

end NyxDb.Catalog
