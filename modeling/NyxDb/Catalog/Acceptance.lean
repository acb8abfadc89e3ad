import NyxDb.Catalog.Statements

/-!
# Statements that are accepted

A statement on rows goes through if its rows conform to the schema of the table and none of them
brings a key that a unique index has already.  The tree of a unique index does not know which
rows are deleted, so that their keys count as well.
-/

namespace NyxDb

open BTreeIndex (Holds Duplicate)
open IndexFile (SameKeys)
open List

/-! ## Keys -/

/-- No row brings a key that a unique index, or a row before it, has already. -/
def KeysFree (f : IndexFile) (rows : List Row) : Prop :=
  ∀ es, Holds f es → ∀ before row after, rows = before ++ row :: after →
    ¬ Duplicate f (es ++ newEntries f before 0) (rowEntry f row 0).1

variable {f : IndexFile} {rows : List Row} {schema : Schema}

theorem Duplicate.of_keys {es es' : List (Bytes × Nat)} {key : Bytes} (h : Duplicate f es key)
    (hkeys : es.map Prod.fst ⊆ es'.map Prod.fst) : Duplicate f es' key := by
  obtain ⟨huniq, hnull, e, he, heq⟩ := h
  obtain ⟨e', he', hfst⟩ := mem_map.mp (hkeys (mem_map_of_mem he))
  exact ⟨huniq, hnull, e', he', hfst ▸ heq⟩

/-- The keys of new rows do not depend on their ids. -/
theorem fst_newEntries (f : IndexFile) (rows : List Row) (firstRowId : Nat) :
    (newEntries f rows firstRowId).map Prod.fst = rows.map fun row => (rowEntry f row 0).1 := by
  conv_rhs => rw [← zipIdx_map_fst 0 rows]
  rw [newEntries, map_map, map_map]
  rfl

/-- Keys that are free go into the index. -/
theorem exec_insertKeys_free {es : List (Bytes × Nat)} (hf : Holds f es) (hfit : IndexFits schema f)
    (hrows : ∀ row ∈ rows, Conforms schema row) (hfree : KeysFree f rows) (firstRowId : Nat) :
    ∃ f', exec (insertKeys rows firstRowId) f = (.ok (), f') ∧ SameKeys f f' := by
  obtain ⟨f', _, -, hsame, hrun⟩ := exec_insertKeys hf hfit hrows firstRowId
  rcases hrun with ⟨hrun, -⟩ | ⟨-, hstopped⟩
  · exact ⟨f', hrun, hsame⟩
  · -- the row at which the insertion stops has a key that is not free
    exfalso
    obtain ⟨_, _, _, hins, hperm, hdup⟩ := hstopped.entries
    obtain ⟨before, _, hzip, rfl, htail⟩ := map_eq_append_iff.mp hins
    obtain ⟨x, after, rfl, rfl, rfl⟩ := map_eq_cons_iff.mp htail
    have hsplit : rows = before.map Prod.fst ++ x.1 :: after.map Prod.fst := by
      rw [← map_cons, ← map_append, ← hzip, zipIdx_map_fst]
    refine hfree es hf _ _ _ hsplit (Duplicate.of_keys (hdup.perm hperm) ?_)
    rw [map_append, map_append, fst_newEntries, map_map, map_map, map_map]
    exact Subset.refl _

/-! ## Records -/

theorem walValueBytes_of_accepts {c : Column} {v : Value}
    (h : ColumnFile.accepts c.spec v = true) : ∃ bs, walValueBytes c.type v = .ok bs := by
  unfold walValueBytes
  cases hnull : v.isNull with
  | true => exact ⟨_, rfl⟩
  | false =>
    have htype : v.type = c.type := (accepts_typed h).resolve_left (by simp [hnull])
    have hvalid : c.type ≠ .invalid := by
      rw [← htype]
      intro hinv
      cases v with
      | null => cases hnull
      | _ => cases hinv
    rw [if_neg Bool.false_ne_true, if_pos (by rw [walType, if_neg hvalid, htype])]
    exact ⟨_, rfl⟩

/-- Rows that conform can be written to the log. -/
theorem walRowBytes_of_conforms {row : Row} (h : Conforms schema row) :
    ∃ bs, walRowBytes schema row = .ok bs := by
  induction h with
  | nil => exact ⟨[], rfl⟩
  | cons hv _ ih =>
    obtain ⟨first, hfirst⟩ := walValueBytes_of_accepts hv
    obtain ⟨rest, hrest⟩ := ih
    refine ⟨first ++ rest, ?_⟩
    rw [walRowBytes, hfirst, hrest]
    rfl

theorem walRowsBytes_of_conforms (h : ∀ row ∈ rows, Conforms schema row) :
    ∃ bs, walRowsBytes schema rows = .ok bs := by
  obtain ⟨_, hbss⟩ := mapM_ok fun row hrow => walRowBytes_of_conforms (h row hrow)
  unfold walRowsBytes
  rw [hbss]
  exact ⟨_, rfl⟩

/-- The call for rows that conform.  No rows make no record. -/
theorem bytes_insert (table : Bytes) (h : ∀ row ∈ rows, Conforms schema row) :
    ∃ bs, LogCall.bytes ⟨table, .insert schema rows⟩ = .ok bs ∧ (bs = [] ↔ rows = []) := by
  unfold LogCall.bytes LogCall.payload insertPayload
  cases rows with
  | nil => exact ⟨[], rfl, by simp⟩
  | cons row rows =>
    obtain ⟨_, hbody⟩ := walRowsBytes_of_conforms h
    dsimp only [isEmpty]
    rw [hbody]
    refine ⟨_, rfl, ?_⟩
    simp [Catalog.recordBytes_ne_nil]

theorem bytes_update (table : Bytes) (ids : List Nat) (h : ∀ row ∈ rows, Conforms schema row) :
    ∃ bs, LogCall.bytes ⟨table, .update ids schema rows⟩ = .ok bs ∧ bs ≠ [] := by
  obtain ⟨_, hbody⟩ := walRowsBytes_of_conforms h
  unfold LogCall.bytes LogCall.payload updatePayload
  dsimp only
  rw [hbody]
  exact ⟨_, rfl, Catalog.recordBytes_ne_nil _⟩

/-! ## Entries -/

namespace TableEntry

/-- The unique constraints of a table: the unique indexes, with their columns. -/
def uniqueIndexes (e : TableEntry) : List (Bytes × List UInt8) :=
  (e.indexes.filter fun x => x.2.isUnique).map fun x => (x.1, x.2.colIndices)

theorem uniqueIndexes_congr {e e' : TableEntry}
    (h : Forall₂ (fun x y => y.1 = x.1 ∧ SameKeys x.2 y.2) e.indexes e'.indexes) :
    e'.uniqueIndexes = e.uniqueIndexes := by
  unfold uniqueIndexes
  generalize e.indexes = xs at h
  generalize e'.indexes = ys at h
  induction h with
  | nil => rfl
  | @cons x y xs ys hxy _ ih =>
    rw [filter_cons, filter_cons, hxy.2.isUnique]
    split
    · rw [map_cons, map_cons, ih, hxy.1, hxy.2.colIndices]
    · exact ih

end TableEntry

namespace Catalog

open TableEntry

section Entry

variable {cat : Catalog} {name : Bytes} {e : TableEntry} {segs : List (List Row)} {wb : List Row}
  {dur : Nat} {g : Ledger Row}

/-- Rows that conform are added, whatever was removed before. -/
theorem EntryHeld.exec_insertMany (h : EntryHeld e segs wb dur g) (ids : List Nat) {rows : List Row}
    (hrows : ∀ row ∈ rows, Conforms e.table.schema row) :
    ∃ t', exec (Table.insertMany rows) (e.table.marked ids) = (.ok rows.length, t') := by
  have hheld := h.holds.marked ids
  have hfiles := h.files.marked ids
  have hconf : ∀ row ∈ rows, Conforms (e.table.marked ids).schema row := by
    rw [Table.schema_marked]
    exact hrows
  rcases Nat.lt_or_ge (wb.length + rows.length) (e.table.marked ids).flushThreshold with hlt | hge
  · obtain ⟨_, hexec, -⟩ := hheld.exec_insertMany_append hconf hlt
    exact ⟨_, hexec⟩
  · have hne : rows ≠ [] := by
      rintro rfl
      have hroom := h.room
      rw [hfiles.threshold] at hge
      simp only [length_nil, Nat.add_zero] at hge
      omega
    obtain ⟨t', hexec, -⟩ := hheld.exec_insertMany_seal hfiles hne hconf hge
    exact ⟨t', hexec⟩

/-- A statement on rows that is accepted.  Only an insertion looks at the unique indexes before it
changes the table. -/
structure Accepted (e : TableEntry) (body : WalBody) : Prop where
  rows : ∀ row ∈ body.newRows, Conforms e.table.schema row
  keys : ∀ x ∈ e.indexes, KeysFree x.2 body.newRows
  unique : ∀ schema rows, body = .insert schema rows → checkUnique e rows = .ok ()

/-- A deletion is always accepted. -/
theorem accepted_delete (e : TableEntry) (ids : List Nat) : Accepted e (.delete ids) where
  rows row hrow := absurd hrow not_mem_nil
  keys x _ es _ before row after heq := by
    cases before <;> cases heq
  unique schema rows heq := by cases heq

variable {body : WalBody}

/-- Without unique indexes, rows are accepted if they conform. -/
theorem accepted_of_not_unique (hidx : ∀ x ∈ e.indexes, x.2.isUnique = false)
    (hrows : ∀ row ∈ body.newRows, Conforms e.table.schema row) : Accepted e body where
  rows := hrows
  keys x hx := by
    rintro - - - - - - ⟨huniq, -⟩
    rw [hidx x hx] at huniq
    cases huniq
  unique schema rows _ := by
    have hnone : e.indexes.filter (fun x => x.2.isUnique) = [] := by
      simpa using hidx
    unfold checkUnique
    rw [hnone]
    rfl

/-- **What is accepted succeeds**, and no index changes its columns. -/
theorem EntryHeld.rowsChanged (h : EntryHeld e segs wb dur g) (hfind : cat.find name = some e)
    (hacc : Accepted e body) :
    ∃ t' idx, RowsChanged cat name body e t' idx ∧
      Forall₂ (fun x y => y.1 = x.1 ∧ SameKeys x.2 y.2) e.indexes idx := by
  obtain ⟨t', hrows⟩ := h.exec_insertMany body.markedIds hacc.rows
  obtain ⟨idx, hkeys, hidx⟩ := exec_onIndexes (e := { e with table := t' })
    (c := insertKeys body.newRows e.table.rowCount) (Q := SameKeys) fun x hx => by
      obtain ⟨hfit, _, hes⟩ := h.indexes x hx
      exact exec_insertKeys_free hes hfit hacc.rows (hacc.keys x hx) e.table.rowCount
  exact ⟨t', idx, ⟨hfind, ⟨_, hrows⟩, hkeys⟩, hidx⟩

end Entry

/-! ## Replay mode -/

section Replay

variable {cat : Catalog} {name : Bytes} {e : TableEntry} {t' : Table}
  {idx : List (Bytes × IndexFile)} {rows : List Row} {ids : List Nat}

theorem RowsChanged.exec_insertReplayed {schema : Schema}
    (h : RowsChanged cat (canonicalize name) (.insert schema rows) e t' idx)
    (hcheck : checkUnique e rows = .ok ()) :
    ∃ n, exec (insertReplayed name rows) cat =
      (.ok n, put { e with table := t', indexes := idx } cat) := by
  obtain ⟨n, htable⟩ := h.table
  have hinsert : exec (Table.insertMany rows) e.table = (.ok n, t') := by
    rw [show WalBody.markedIds (.insert schema rows) = [] from rfl, Table.marked_nil] at htable
    exact htable
  refine ⟨n, ?_⟩
  unfold insertReplayed
  rw [exec_get_bind, h.find]
  dsimp only
  rw [hcheck, exec_bind_ok (exec_ofExcept _ _), exec_bind_ok (exec_onEntry_onTable h.find hinsert)]
  exact exec_sealThenKeys h.find h.keys 0 0 (pure n)

theorem RowsChanged.exec_updateRowsReplayed {schema : Schema} (hids : ids ≠ [])
    (h : RowsChanged cat (canonicalize name) (.update ids schema rows) e t' idx) :
    exec (updateRowsReplayed name ids rows) cat =
      (.ok ids.length, put { e with table := t', indexes := idx } cat) := by
  obtain ⟨n, htable⟩ := h.table
  have hupdate : exec (Table.updateRows ids rows) e.table = _ := exec_updateRows_table htable
  unfold updateRowsReplayed
  rw [if_neg (by simpa using hids), exec_get_bind, h.find]
  rw [exec_bind_ok (exec_onEntry_onTable h.find hupdate)]
  exact exec_sealThenKeys h.find h.keys 0 0 (pure ids.length)

theorem RowsChanged.exec_deleteRowsReplayed (hids : ids ≠ [])
    (h : RowsChanged cat (canonicalize name) (.delete ids) e t' idx) :
    exec (deleteRowsReplayed name ids) cat =
      (.ok ids.length, put { e with table := t', indexes := idx } cat) := by
  obtain ⟨rfl, rfl⟩ := h.delete_parts
  unfold deleteRowsReplayed
  rw [if_neg (by simpa using hids), exec_get_bind, h.find]
  rw [exec_bind_ok (exec_onEntry_onTable h.find (Table.exec_markDeleted ids _))]
  rfl

theorem newRows_logged (body : WalBody) : body.logged.newRows = body.newRows := by
  cases body <;> rfl

theorem markedIds_logged (body : WalBody) : body.logged.markedIds = body.markedIds := by
  cases body <;> rfl

/-- The records that statements on rows write: those that name no row to change are not written. -/
def Effective : WalBody → Prop
  | .insert _ rows => rows ≠ []
  | .update ids _ _ => ids ≠ []
  | .delete ids => ids ≠ []
  | .createTable _ => False
  | .segmentFlush _ => False

/-- **A record of rows that is accepted is applied.** -/
theorem RowsChanged.exec_applyReplicatedRecord {body : WalBody} (heff : Effective body)
    (h : RowsChanged cat (canonicalize name) body e t' idx)
    (hcheck : ∀ schema rows, body = .insert schema rows → checkUnique e rows = .ok ()) :
    exec (applyReplicatedRecord name body) cat =
      (.ok (), put { e with table := t', indexes := idx } cat) := by
  unfold applyReplicatedRecord
  cases body with
  | createTable schema => exact heff.elim
  | segmentFlush count => exact heff.elim
  | insert schema rows =>
    obtain ⟨n, hexec⟩ := h.exec_insertReplayed (hcheck schema rows rfl)
    rw [exec_bind_ok hexec]
    rfl
  | update ids schema rows =>
    rw [exec_bind_ok (h.exec_updateRowsReplayed heff)]
    rfl
  | delete ids =>
    rw [exec_bind_ok (h.exec_deleteRowsReplayed heff)]
    rfl

end Replay

end Catalog
end NyxDb
