import NyxDb.Catalog.Checkpoint

/-!
# Applying the records of another node

A follower applies the records of its leader in replay mode: the statements do what they always
do, but nothing is written to the log of the follower.  A record that is applied without an error
changes the contents as it says (`Tracks.exec_applyReplicatedRecord`).
-/

namespace NyxDb.Catalog

open TableEntry List Table Proc

/-! ## Statements in replay mode -/

/-- `insert` in replay mode. -/
def insertReplayed (tableName : Bytes) (rows : List Row) : Op Catalog Nat := do
  let canonical := canonicalize tableName
  let cat ← get
  match cat.find canonical with
  | none => throw (.tableNotFound "insert" tableName)
  | some e => do
      ofExcept (checkUnique e rows)
      let n ← onEntry canonical (onTable (insertMany rows))
      onEntry canonical (onIndexes (insertKeys rows e.table.rowCount))
      pure n

/-- `delete_rows` in replay mode. -/
def deleteRowsReplayed (name : Bytes) (rowIndices : List Nat) : Op Catalog Nat := do
  if rowIndices.isEmpty then pure 0
  else do
    let canonical := canonicalize name
    let cat ← get
    match cat.find canonical with
    | none => throw (.tableNotFound "delete" name)
    | some _ => do
        onEntry canonical (onTable (markDeleted rowIndices))
        pure rowIndices.length

/-- `update_rows` in replay mode, in which the schema is not used. -/
def updateRowsReplayed (name : Bytes) (oldIndices : List Nat) (newRows : List Row) :
    Op Catalog Nat := do
  if oldIndices.isEmpty then pure 0
  else do
    let canonical := canonicalize name
    let cat ← get
    match cat.find canonical with
    | none => throw (.tableNotFound "update" name)
    | some _ => do
        let info ← onEntry canonical (onTable (Table.updateRows oldIndices newRows))
        onEntry canonical (onIndexes (insertKeys newRows info.firstRowId))
        pure oldIndices.length

/-- `Database::apply_replicated_record`.  A table is created without its constraints. -/
def applyReplicatedRecord (name : Bytes) (body : WalBody) : Op Catalog Unit :=
  match body with
  | .createTable schema => createTable name schema
  | .insert _ rows => do
      let _ ← insertReplayed name rows
      pure ()
  | .delete rowIndices => do
      let _ ← deleteRowsReplayed name rowIndices
      pure ()
  | .update rowIndices _ rows => do
      let _ ← updateRowsReplayed name rowIndices rows
      pure ()
  | .segmentFlush _ => pure ()

/-! ## Parts of a statement -/

section Parts

variable {cat cat' : Catalog} {name : Bytes} {e e' : TableEntry}

variable {α : Type} {rows : List Row}

/-- What a successful operation on the table of an entry has done. -/
theorem onTable_eq_ok {c : Op Table α} {a : α} (hfind : cat.find name = some e)
    (h : exec (onEntry name (onTable c)) cat = (.ok a, cat')) :
    ∃ t', exec c e.table = (.ok a, t') ∧ cat' = put { e with table := t' } cat := by
  rw [exec_onEntry hfind] at h
  obtain ⟨hres, hput⟩ := Prod.mk.inj h
  exact ⟨_, Prod.ext hres rfl, hput.symm⟩

/-- What a successful operation on its indexes has done. -/
theorem onIndexes_eq_ok {c : Op IndexFile Unit} (hfind : cat.find name = some e)
    (h : exec (onEntry name (onIndexes c)) cat = (.ok (), cat')) :
    ∃ idx, exec (onIndexes c) e = (.ok (), { e with indexes := idx }) ∧
      cat' = put { e with indexes := idx } cat := by
  rw [exec_onEntry hfind] at h
  obtain ⟨hres, hput⟩ := Prod.mk.inj h
  exact ⟨_, Prod.ext hres rfl, hput.symm⟩

theorem put_put (hname : e'.name = e.name) (cat : Catalog) : put e' (put e cat) = put e' cat := by
  have hmap : (cat.tables.map fun x => if x.name = e.name then e else x).map
      (fun x => if x.name = e'.name then e' else x) =
      cat.tables.map fun x => if x.name = e'.name then e' else x := by
    rw [map_map]
    refine map_congr_left fun x _ => ?_
    rw [Function.comp_apply, hname]
    by_cases hx : x.name = e.name
    · rw [if_pos hx, if_pos rfl, if_pos hx]
    · rw [if_neg hx]
  unfold put
  rw [hmap]

theorem put_self (hnames : (cat.tables.map TableEntry.name).Nodup) (he : e ∈ cat.tables) :
    put e cat = cat := by
  have hmap : (cat.tables.map fun x => if x.name = e.name then e else x) = cat.tables := by
    refine map_congr_left (g := id) (fun x hx => ?_) |>.trans (map_id _)
    by_cases hname : x.name = e.name
    · rw [if_pos hname]
      exact (inj_on_of_nodup_map hnames hx he hname).symm
    · rw [if_neg hname]
      rfl
  unfold put
  rw [hmap]

/-- What succeeds in a statement that changes the rows of a table: the change of the table and the
insertion of the new keys. -/
structure RowsChanged (cat : Catalog) (canonical : Bytes) (body : WalBody) (e : TableEntry)
    (t' : Table) (idx : List (Bytes × IndexFile)) : Prop where
  find : cat.find canonical = some e
  table : ∃ n, exec (insertMany body.newRows) (e.table.marked body.markedIds) = (.ok n, t')
  keys : exec (onIndexes (insertKeys body.newRows e.table.rowCount)) { e with table := t' } =
    (.ok (), { e with table := t', indexes := idx })

/-- The indexes after the table. -/
theorem keys_eq_ok {firstRowId : Nat} {t' : Table} (hfind : cat.find name = some e)
    (h : exec (onEntry name (onIndexes (insertKeys rows firstRowId)))
      (put { e with table := t' } cat) = (.ok (), cat')) :
    ∃ idx, exec (onIndexes (insertKeys rows firstRowId)) { e with table := t' } =
        (.ok (), { e with table := t', indexes := idx }) ∧
      cat' = put { e with table := t', indexes := idx } cat := by
  have hself : (put { e with table := t' } cat).find name = some { e with table := t' } :=
    find_put_self hfind (find_some hfind).2
  obtain ⟨idx, hkeys, rfl⟩ := onIndexes_eq_ok hself h
  refine ⟨idx, hkeys, ?_⟩
  rw [put_put]
  rfl

theorem exec_insertKeys_nil (firstRowId : Nat) (e : TableEntry) :
    exec (onIndexes (insertKeys [] firstRowId)) e = (.ok (), e) :=
  exec_onIndexes_same fun _ _ => rfl

/-- A deletion adds no rows. -/
theorem rowsChanged_delete (hfind : cat.find name = some e) (ids : List Nat) :
    RowsChanged cat name (.delete ids) e (e.table.marked ids) e.indexes :=
  ⟨hfind, ⟨0, rfl⟩, exec_insertKeys_nil _ _⟩

theorem rowCount_marked (t : Table) (ids : List Nat) : (t.marked ids).rowCount = t.rowCount := by
  unfold rowCount wbRowCount
  rw [(sameIds_marked t ids).base, wbColumns_marked]

/-- The table of an update: the old rows are marked, then the new ones are added. -/
theorem exec_updateRows_table {t t' : Table} {ids : List Nat} {n : Nat}
    (h : exec (insertMany rows) (t.marked ids) = (.ok n, t')) :
    exec (Table.updateRows ids rows) t = (.ok ⟨t.rowCount, t.wbBaseRowId, t'.wbBaseRowId⟩, t') := by
  unfold Table.updateRows
  rw [exec_bind_ok (exec_markDeleted ids t), exec_get_bind,
    exec_bind_ok h, rowCount_marked, (sameIds_marked t ids).base]
  rfl

theorem updateRows_eq_ok {t t' : Table} {ids : List Nat}
    {info : UpdateMeta} (h : exec (Table.updateRows ids rows) t = (.ok info, t')) :
    info = ⟨t.rowCount, t.wbBaseRowId, t'.wbBaseRowId⟩ ∧
      ∃ n, exec (insertMany rows) (t.marked ids) = (.ok n, t') := by
  have hrun := h
  unfold Table.updateRows at h
  rw [exec_bind_ok (exec_markDeleted ids t), exec_get_bind] at h
  obtain ⟨n, _, hinsert, hrest⟩ := exec_bind_eq_ok h
  obtain ⟨-, rfl⟩ := Prod.mk.inj hrest
  rw [exec_updateRows_table hinsert] at hrun
  exact ⟨(Except.ok.inj (Prod.mk.inj hrun).1).symm, n, hinsert⟩

end Parts

/-! ## The contents after a record -/

/-- The part of the catalog that belongs to the log.  Nothing is logged in replay mode. -/
def logView (cat : Catalog) : Option Bytes × Option Nat :=
  (cat.wal, cat.writer)

section Records

variable {cat cat' : Catalog} {db : Contents} {name : Bytes} {e : TableEntry}

variable {ids : List Nat} {n : Nat} {rows : List Row} {schema : Schema}

variable {body : WalBody} {t' : Table} {idx : List (Bytes × IndexFile)}

theorem RowsChanged.held {g : Ledger Row} (h : RowsChanged cat name body e t' idx)
    (hheld : Held e g) :
    Held { e with table := t', indexes := idx } ((g.kill body.markedIds).add body.newRows) ∧
      t'.schema = e.table.schema := by
  obtain ⟨n, hrows⟩ := h.table
  obtain ⟨_, _, _, hheld⟩ := hheld
  obtain ⟨⟨segs', wb', dur', hheld'⟩, hschema, hconf⟩ := hheld.exec_rows hrows
  rw [← hschema] at hconf
  exact ⟨⟨segs', wb', dur', hheld'.exec_keys hconf h.keys⟩, hschema⟩

/-- The rows and the indexes of a table have been changed. -/
theorem RowsChanged.tracks (h : RowsChanged cat name body e t' idx) (ht : Tracks Held cat db) :
    Tracks Held (Catalog.put { e with table := t', indexes := idx } cat)
      (db.change name body.markedIds body.newRows) := by
  obtain ⟨g, hg, hheld⟩ := ht.find h.find
  rw [Contents.change_self hg]
  exact ht.put h.find rfl (h.held hheld).1

section

variable (h : Tracks Held cat db)
include h

theorem Tracks.exec_insertReplayed (hexec : exec (insertReplayed name rows) cat = (.ok n, cat')) :
    Tracks Held cat' (db.change (canonicalize name) [] rows) ∧ logView cat' = logView cat := by
  unfold insertReplayed at hexec
  rw [exec_get_bind] at hexec
  split at hexec
  · cases hexec
  · next e hfind =>
    obtain ⟨u, _, hcheck, hexec⟩ := exec_bind_eq_ok hexec
    obtain ⟨-, rfl⟩ := Prod.mk.inj hcheck
    obtain ⟨n', _, hrows, hexec⟩ := exec_bind_eq_ok hexec
    obtain ⟨_, hkeys⟩ := exec_map_eq_ok hexec
    obtain ⟨t', hinsert, rfl⟩ := onTable_eq_ok hfind hrows
    obtain ⟨idx, hidx, rfl⟩ := keys_eq_ok hfind hkeys
    rw [← marked_nil e.table] at hinsert
    have hchanged : RowsChanged cat _ (.insert e.table.schema rows) e t' idx :=
      ⟨hfind, ⟨n', hinsert⟩, hidx⟩
    exact ⟨hchanged.tracks h, rfl⟩

theorem Tracks.exec_deleteRowsReplayed
    (hexec : exec (deleteRowsReplayed name ids) cat = (.ok n, cat')) :
    Tracks Held cat' (db.change (canonicalize name) ids []) ∧ logView cat' = logView cat := by
  unfold deleteRowsReplayed at hexec
  cases ids with
  | nil =>
    obtain ⟨-, rfl⟩ := Prod.mk.inj hexec
    rw [Contents.change_nil]
    exact ⟨h, rfl⟩
  | cons i ids =>
    rw [isEmpty_cons, if_neg Bool.false_ne_true, exec_get_bind] at hexec
    split at hexec
    · cases hexec
    · next e hfind =>
      obtain ⟨u, hmark⟩ := exec_map_eq_ok hexec
      obtain ⟨_, htable, rfl⟩ := onTable_eq_ok hfind hmark
      rw [exec_markDeleted] at htable
      obtain ⟨-, rfl⟩ := Prod.mk.inj htable
      exact ⟨(rowsChanged_delete hfind _).tracks h, rfl⟩

theorem Tracks.exec_updateRowsReplayed
    (hexec : exec (updateRowsReplayed name ids rows) cat = (.ok n, cat')) :
    Tracks Held cat' (if ids.isEmpty then db else db.change (canonicalize name) ids rows) ∧
      logView cat' = logView cat := by
  unfold updateRowsReplayed at hexec
  cases ids with
  | nil =>
    obtain ⟨-, rfl⟩ := Prod.mk.inj hexec
    exact ⟨h, rfl⟩
  | cons i ids =>
    rw [isEmpty_cons, if_neg Bool.false_ne_true, exec_get_bind] at hexec
    split at hexec
    · cases hexec
    · next e hfind =>
      obtain ⟨_, _, hrows, hexec⟩ := exec_bind_eq_ok hexec
      obtain ⟨u, hkeys⟩ := exec_map_eq_ok hexec
      obtain ⟨t', hupdate, rfl⟩ := onTable_eq_ok hfind hrows
      obtain ⟨rfl, hinsert⟩ := updateRows_eq_ok hupdate
      obtain ⟨idx, hidx, rfl⟩ := keys_eq_ok hfind hkeys
      have hchanged : RowsChanged cat _ (.update (i :: ids) e.table.schema rows) e t' idx :=
        ⟨hfind, hinsert, hidx⟩
      exact ⟨hchanged.tracks h, rfl⟩

end

/-- What the record of a new table must have so that its files can be read again. -/
def Creatable (name : Bytes) (schema : Schema) : Prop :=
  name.length < 2 ^ 16 ∧ Schema.fits schema = true ∧ ∀ c ∈ schema, 0 < c.spec.capacity

instance (name : Bytes) (schema : Schema) : Decidable (Creatable name schema) :=
  inferInstanceAs (Decidable (_ ∧ _ ∧ _))

theorem length_of_fits (h : Schema.fits schema = true) : schema.length < 2 ^ 16 := by
  unfold Schema.fits at h
  rw [Bool.and_eq_true, decide_eq_true_eq] at h
  exact h.1

/-- **A new table** is empty and in order, before it is written and after. -/
theorem held_newEntry {t : Table} (hnew : Creatable name schema)
    (hcreate : create schema flushThresholdDefault = .ok t) :
    EntryHeld (newEntry (canonicalize name) t) [] [] 0 [] ∧ t.schema = schema ∧
      ∃ t', exec flush t = (.ok (), t') ∧ t'.schema = schema ∧
        EntryHeld (newEntry (canonicalize name) t') [] [] 0 [] := by
  obtain ⟨hname, hfits, hcap⟩ := hnew
  obtain ⟨hheld, hfiles, hschema, hsegs, hbase, hdel⟩ :=
    create_holds_of_read hcap (readSchema_schemaBytes hfits) hcreate
  have hentry : EntryHeld (newEntry (canonicalize name) t) [] [] 0 [] := by
    refine ⟨⟨canonicalize_idem name, ?_, ?_, hfiles, rfl, fun x hx => absurd hx not_mem_nil,
      hheld, ?_, by decide⟩, fresh_of_deleted_nil hdel [], rfl⟩
    · change (canonicalize name).length < 2 ^ 16
      rw [length_canonicalize]
      exact hname
    · change t.schema.length < 2 ^ 16
      rw [hschema]
      exact length_of_fits hfits
    · change InSync t
      unfold InSync
      rw [hsegs, hbase]
      exact ⟨trivial, rfl⟩
  obtain ⟨t', hflush, hschema', hflushed⟩ := hentry.exec_flush
  exact ⟨hentry, hschema, t', hflush, hschema'.trans hschema, hflushed⟩

/-- The catalog right after a table was added. -/
def created (cat : Catalog) (canonical : Bytes) (t : Table) : Catalog :=
  { cat with
    tables := cat.tables ++ [newEntry canonical t]
    unopened := cat.unopened.filter fun x => x.1 != canonical }

theorem find_created {canonical : Bytes} (t : Table) (hfind : cat.find canonical = none) :
    (created cat canonical t).find canonical = some (newEntry canonical t) := by
  have hnone : cat.tables.find? (fun e => e.name == canonical) = none := hfind
  unfold created Catalog.find
  rw [find?_append, hnone]
  simp [newEntry]

/-- What a successful creation has done: the new table is written once. -/
theorem createTable_eq_ok (hexec : exec (createTable name schema) cat = (.ok (), cat')) :
    ∃ t t', cat.find (canonicalize name) = none ∧
      create schema flushThresholdDefault = .ok t ∧
      exec flush t = (.ok (), t') ∧
      cat' = put (newEntry (canonicalize name) t') (created cat (canonicalize name) t) := by
  unfold createTable at hexec
  rw [exec_get_bind] at hexec
  cases hfind : cat.find (canonicalize name) with
  | some e =>
    rw [hfind] at hexec
    cases hexec
  | none =>
    rw [hfind] at hexec
    obtain ⟨t, _, hcreate, hexec⟩ := exec_bind_eq_ok hexec
    obtain ⟨hres, rfl⟩ := Prod.mk.inj hcreate
    have hok : create schema flushThresholdDefault = .ok t := by
      cases hc : create schema flushThresholdDefault with
      | error err =>
        rw [hc] at hres
        cases hres
      | ok t₀ =>
        rw [hc] at hres
        cases hres
        rfl
    obtain ⟨t', htable, rfl⟩ := onTable_eq_ok (find_created t hfind) hexec
    exact ⟨t, t', rfl, hok, htable, rfl⟩

theorem Tracks.created {R : TableEntry → Ledger Row → Prop} {canonical : Bytes} {t t' : Table}
    (h : Tracks R cat db) (hfind : cat.find canonical = none) (hnew : R (newEntry canonical t) [])
    (hflushed : R (newEntry canonical t') []) :
    Tracks R (Catalog.put (newEntry canonical t') (created cat canonical t))
      (db.create canonical) := by
  have hadded := h.create (e := newEntry canonical t) hfind
    (filter_subset_self (p := fun x => x.1 != canonical) cat.unopened) hnew
  have hname : (newEntry canonical t').name = (newEntry canonical t).name := rfl
  have hput := hadded.put (find_created t hfind) hname hflushed
  have hsame : db.create canonical canonical = some [] := Function.update_self _ _ _
  rw [← hsame] at hput
  exact Function.update_eq_self canonical (db.create canonical) ▸ hput

theorem Tracks.exec_createTable (h : Tracks Held cat db) (hnew : Creatable name schema)
    (hexec : exec (createTable name schema) cat = (.ok (), cat')) :
    Tracks Held cat' (db.create (canonicalize name)) ∧ logView cat' = logView cat := by
  obtain ⟨t, t', hfind, hok, hflush, rfl⟩ := createTable_eq_ok hexec
  obtain ⟨hheld, -, t'', hflush', -, hflushed⟩ := held_newEntry hnew hok
  obtain rfl : t' = t'' := congrArg Prod.snd (hflush.symm.trans hflush')
  exact ⟨h.created hfind ⟨[], [], 0, hheld⟩ ⟨[], [], 0, hflushed⟩, rfl⟩

/-- The record can be applied to the files of a follower. -/
def Replicable (name : Bytes) : WalBody → Prop
  | .createTable schema => Creatable name schema
  | _ => True

instance (name : Bytes) : DecidablePred (Replicable name)
  | .createTable schema => inferInstanceAs (Decidable (Creatable name schema))
  | .insert _ _ | .delete _ | .update _ _ _ | .segmentFlush _ => isTrue trivial

/-- **A record of another node** changes the contents as it says. -/
theorem Tracks.exec_applyReplicatedRecord (h : Tracks Held cat db) {body : WalBody}
    (hfits : Replicable name body)
    (hexec : exec (applyReplicatedRecord name body) cat = (.ok (), cat')) :
    Tracks Held cat' (db.apply name body) ∧ logView cat' = logView cat := by
  cases body with
  | createTable schema => exact h.exec_createTable hfits hexec
  | insert schema rows =>
    obtain ⟨n, hrun⟩ := exec_map_eq_ok hexec
    exact h.exec_insertReplayed hrun
  | delete ids =>
    obtain ⟨n, hrun⟩ := exec_map_eq_ok hexec
    exact h.exec_deleteRowsReplayed hrun
  | update ids schema rows =>
    obtain ⟨n, hrun⟩ := exec_map_eq_ok hexec
    exact h.exec_updateRowsReplayed hrun
  | segmentFlush count =>
    obtain ⟨-, rfl⟩ := Prod.mk.inj hexec
    exact ⟨h, rfl⟩

end Records

end NyxDb.Catalog
