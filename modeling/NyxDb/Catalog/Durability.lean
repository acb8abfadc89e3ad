import NyxDb.Catalog.Layout

/-!
# Durability

Operations of a catalog and reopenings, in any order.  After each of them the data directory alone
says what the tables hold: loading it gives the rows that the catalog had (`load_durable`).

For that a record must not be older than the checkpoint of its table.  `flush_all` writes the
length of the log to `lsn.bin` and then removes the log; the records of the next log start again
at its beginning, before the noted length, and replay leaves them out.  Only reopening with a log
sets the checkpoint back.
-/

namespace NyxDb.Catalog

open TableEntry List
open Table (RedoOk)

/-! ## Operations -/

inductive CatalogOp where
  | addTable (name : Bytes) (schema : Schema) (constraints : List (Bytes × List UInt8))
  | insert (gate : Option Nat) (name : Bytes) (rows : List Row)
  | updateRows (name : Bytes) (oldIndices : List Nat) (schema : Schema) (newRows : List Row)
  | deleteRows (name : Bytes) (rowIndices : List Nat)
  | flushAll (gate : Option Nat)
  | reopen
  deriving DecidableEq, Repr

/-- Reopening ends the process without writing anything, and loads the data directory. -/
def CatalogOp.run : CatalogOp → Op Catalog Unit
  | .addTable name schema constraints => Catalog.addTable name schema constraints
  | .insert gate name rows => do
      let _ ← Catalog.insert gate name rows
      pure ()
  | .updateRows name oldIndices schema newRows => do
      let _ ← Catalog.updateRows name oldIndices schema newRows
      pure ()
  | .deleteRows name rowIndices => do
      let _ ← Catalog.deleteRows name rowIndices
      pure ()
  | .flushAll gate => Catalog.flushAll gate
  | .reopen => do
      let cat ← Proc.get
      let cat' ← ofExcept (load cat.dir)
      Proc.modify fun _ => cat'

def CatalogOp.step (cat : Catalog) (op : CatalogOp) : Catalog :=
  (exec op.run cat).2

def CatalogOp.Succeeds (cat : Catalog) (op : CatalogOp) : Prop :=
  (exec op.run cat).1 = .ok ()

instance (cat : Catalog) (op : CatalogOp) : Decidable (op.Succeeds cat) :=
  decidable_of_iff ((exec op.run cat).1.toOption = some ()) <| by
    unfold CatalogOp.Succeeds
    cases (exec op.run cat).1 <;> simp [Except.toOption]

/-- What a successful operation does to the rows, said without files. -/
def CatalogOp.effect (db : Contents) : CatalogOp → Contents
  | .addTable name _ _ => db.create (canonicalize name)
  | .insert _ name rows => db.change (canonicalize name) [] rows
  | .updateRows name ids _ rows => if ids = [] then db else db.change (canonicalize name) ids rows
  | .deleteRows name ids => db.change (canonicalize name) ids []
  | .flushAll _ => db
  | .reopen => db

/-- What a successful operation does to the layouts. -/
def CatalogOp.relayout (l : Bytes → Option (Schema × List Bytes)) :
    CatalogOp → Bytes → Option (Schema × List Bytes)
  | .addTable name schema constraints =>
    Function.update l (canonicalize name) (some (schema, constraints.map Prod.fst))
  | _ => l

/-- Where the next record of the log begins. -/
def position (cat : Catalog) : Nat :=
  cat.writer.getD walHeaderSize

/-! ## Operations that recovery repeats -/

/-- A statement on the rows of a table: the checkpoint on disk is not ahead of the log, and the
numbers of the statement fit their fields. -/
def InLog (cat : Catalog) (e : TableEntry) (body : WalBody) : Prop :=
  (readLsn e.lsn).lsn ≤ cat.position ∧ body.FitsRecord ∧
    e.table.rowCount + body.newRows.length < 2 ^ 64

/-- The length of the record of a statement. -/
def recordSize (table : Bytes) (body : WalBody) : Nat :=
  match LogCall.bytes ⟨table, body⟩ with
  | .ok bs => bs.length
  | .error _ => 0

/-- The condition under which an operation is safe in a state. -/
def CatalogOp.LoggedPastCheckpoint (cat : Catalog) : CatalogOp → Prop
  | .addTable name schema constraints =>
    Creatable name schema ∧ ∀ x ∈ constraints, x.2.length < 256
  | .insert _ name rows => ∀ e ∈ cat.find (canonicalize name),
      InLog cat e (.insert e.table.schema rows) ∧
        cat.position + recordSize e.name (.insert e.table.schema rows) + 2 ^ 17 < 2 ^ 64
  | .updateRows name ids schema rows => ids = [] ∨
      ∀ e ∈ cat.find (canonicalize name), InLog cat e (.update ids schema rows)
  | .deleteRows name ids => ids = [] ∨
      ∀ e ∈ cat.find (canonicalize name), InLog cat e (.delete ids)
  | .flushAll _ => cat.writer.getD 0 < 2 ^ 64
  | .reopen => Recoverable cat

instance (cat : Catalog) (e : TableEntry) (body : WalBody) : Decidable (InLog cat e body) :=
  inferInstanceAs (Decidable (_ ∧ _ ∧ _))

instance (cat : Catalog) : DecidablePred (CatalogOp.LoggedPastCheckpoint cat) := fun op => by
  cases op <;> dsimp only [CatalogOp.LoggedPastCheckpoint] <;> infer_instance

/-! ## The log -/

/-- The records of the log of a catalog. -/
inductive LogIs (cat : Catalog) : List WalRecord → Prop where
  | closed : cat.wal = none → cat.writer = none → LogIs cat []
  | opened {bs : Bytes} {recs : List WalRecord} : cat.wal = some bs →
      cat.writer = some bs.length → LogHolds bs recs → LogIs cat recs

section Log

variable {cat cat' : Catalog} {recs : List WalRecord} {name bs payload : Bytes} {body : WalBody}
  (h : LogIs cat recs)
include h

theorem LogIs.congr (hwal : cat'.wal = cat.wal)
    (hwriter : cat'.writer = cat.writer) : LogIs cat' recs := by
  cases h with
  | closed hw hr => exact .closed (hwal.trans hw) (hwriter.trans hr)
  | opened hw hr hlog => exact .opened (hwal.trans hw) (hwriter.trans hr) hlog

theorem LogIs.logOpened :
    ∃ bs, cat.logOpened.wal = some bs ∧ cat.logOpened.writer = some bs.length ∧
      bs.length = cat.position ∧ LogHolds bs recs := by
  unfold Catalog.logOpened position
  cases h with
  | closed hw hr =>
    rw [hw, hr]
    exact ⟨walHeader, rfl, rfl, rfl, .empty⟩
  | opened hw hr hlog =>
    rw [hr]
    exact ⟨_, hw, hr, rfl, hlog⟩

theorem LogIs.offset : ∀ r ∈ recs, r.byteOffset < cat.position := by
  obtain ⟨_, -, -, hlen, hlog⟩ := h.logOpened
  rw [← hlen]
  exact fun r hr => (hlog.offset.2 r hr).2

theorem LogIs.append {n : Nat} (hopen : cat.writer = some n)
    (hencodes : Encodes payload name body) :
    LogIs (cat.appended (recordBytes payload)) (recs ++ [⟨n, name, body⟩]) ∧
      (cat.appended (recordBytes payload)).writer = some (n + (recordBytes payload).length) := by
  unfold appended
  rw [if_neg (by simpa using recordBytes_ne_nil payload)]
  cases h with
  | closed hwal hwriter =>
    rw [hwriter] at hopen
    cases hopen
  | @opened bs recs hwal hwriter hlog =>
    obtain rfl : bs.length = n := Option.some.inj (hwriter.symm.trans hopen)
    rw [hwal, hwriter]
    exact ⟨.opened rfl (by simp) (hlog.append hencodes), rfl⟩

theorem LogIs.open : LogIs cat.logOpened recs ∧ cat.logOpened.writer = some cat.position := by
  obtain ⟨_, hwal, hwriter, hlen, hlog⟩ := h.logOpened
  exact ⟨.opened hwal hwriter hlog, hlen ▸ hwriter⟩

end Log

/-! ## Statements on rows -/

section Entry

variable {cat : Catalog} {recs : List WalRecord} {e : TableEntry} {g : Ledger Row} {body : WalBody}
  {t' : Table} {idx : List (Bytes × IndexFile)}

theorem Settled.other {r : WalRecord} (h : Settled recs e g)
    (hne : canonicalize r.tableName ≠ e.name) : Settled (recs ++ [r]) e g := by
  obtain ⟨segs, wb, hok, hfresh, hledger⟩ := h
  exact ⟨segs, wb, hok.other hne, hfresh, hledger⟩

theorem Settled.withIndexes (h : Settled recs e g)
    (hidx : ∀ x ∈ idx, IndexFits e.table.schema x.2 ∧ ∃ es, BTreeIndex.Holds x.2 es) :
    Settled recs { e with indexes := idx } g := by
  obtain ⟨segs, wb, hok, hfresh, hledger⟩ := h
  exact ⟨segs, wb, hok.withIndexes hidx, hfresh, hledger⟩

theorem isRows_logged (h : Effective body) : body.logged.isRows = true := by
  cases body with
  | createTable schema => exact h.elim
  | segmentFlush count => exact h.elim
  | _ => rfl

/-- **The rows of a table are changed**, after the record of it was written at `off`.  If the write
buffer was sealed, the record of that follows. -/
theorem Settled.changed (h : Settled recs e g) {name : Bytes}
    (hrows : RowsChanged cat name body e t' idx) (heff : Effective body) {off off' : Nat}
    (hoff : (checkpointOf recs e).lsn ≤ off) (hlt : off < off')
    (hrecs : ∀ r ∈ recs, r.byteOffset < off') :
    (t'.wbBaseRowId = e.table.wbBaseRowId ∧
      Settled (recs ++ [⟨off, e.name, body.logged⟩]) { e with table := t', indexes := idx }
        ((g.kill body.markedIds).add body.newRows)) ∨
    (e.table.wbBaseRowId < t'.wbBaseRowId ∧ Settled (recs ++ [⟨off, e.name, body.logged⟩] ++
          [⟨off', e.name, .segmentFlush t'.wbBaseRowId⟩]) { e with table := t', indexes := idx }
        ((g.kill body.markedIds).add body.newRows)) := by
  have hindexes : ∀ x ∈ idx, IndexFits t'.schema x.2 ∧ ∃ es, BTreeIndex.Holds x.2 es := by
    obtain ⟨⟨_, _, _, hheld⟩, -⟩ := hrows.held h.held
    exact hheld.indexes
  obtain ⟨segs, wb, hok, hfresh, hledger⟩ := h
  have hheld : EntryHeld e segs wb (keptOf recs e) g :=
    { hok with fresh := hfresh, ledger := hledger }
  obtain ⟨n, htable⟩ := hrows.table
  have hids := Table.sameIds_marked e.table body.markedIds
  let r : WalRecord := ⟨off, e.name, body.logged⟩
  obtain ⟨hcp, hpend⟩ := hok.checkpoint_append (r := r) rfl (isRows_logged heff) hoff
  obtain ⟨-, -, ⟨cols, rfl, hheld'⟩ | ⟨hne, hsealed, hheld'⟩⟩ := hheld.exec_rows_cases htable
  · -- the write buffer has room: the record is still to be replayed
    let t := (e.table.marked body.markedIds).withColumns cols
    have hids' : Table.SameIds e.table t := ⟨hids.infos, hids.base⟩
    have hkept : keptOf (recs ++ [r]) { e with table := t, indexes := idx } = keptOf recs e := by
      unfold keptOf
      rw [hids'.infos]
      exact congrArg (fun cp : LsnCheckpoint => cp.rows - _) hcp
    have hredo : RedoOk t (wb ++ body.newRows) (keptOf recs e) (pendingOf (recs ++ [r]) e) := by
      rw [hpend, ← newRows_logged body]
      refine hok.redo.extend hok.kept hids' fun k l => ?_
      rw [Table.sameBits_withColumns _ cols k l, Table.rowBit_marked, hok.holds.wbRowCount,
        markedIds_logged]
    refine Or.inl ⟨hids.base, segs, wb ++ body.newRows,
      { hheld'.withIndexes hindexes with holds := ?_, kept := ?_, redo := ?_ }, hheld'.fresh,
      hheld'.ledger⟩
    · exact hkept ▸ hheld'.holds
    · rw [hkept, length_append]
      exact Nat.le_trans hok.kept (Nat.le_add_right _ _)
    · rw [hkept]
      exact hredo
  · -- the record of the seal is the checkpoint
    have hpos : 0 < (wb ++ body.newRows).length := by
      rw [length_append]
      have := length_pos_iff.mpr hne
      omega
    let r' : WalRecord := ⟨off', e.name, .segmentFlush t'.wbBaseRowId⟩
    let e' : TableEntry := { e with table := t', indexes := idx }
    have hcp' : checkpointOf (recs ++ [r] ++ [r']) e' = ⟨off', t'.wbBaseRowId⟩ := by
      rw [checkpointOf_append]
      show raise e.name (checkpointOf (recs ++ [r]) e) _ = _
      rw [hcp]
      exact if_pos ⟨hok.canonical, Nat.lt_of_le_of_lt hoff hlt⟩
    have hkept : keptOf (recs ++ [r] ++ [r']) e' = 0 := by
      unfold keptOf
      rw [hcp']
      exact Nat.sub_eq_zero_of_le (Nat.le_of_eq hheld'.sync.2)
    have hold : ∀ x ∈ recs ++ [r], x.byteOffset < off' := forall_mem_concat hrecs hlt
    have hnone : ∀ x ∈ pendingOf (recs ++ [r] ++ [r']) e', x.isRows = false := by
      intro x hx
      unfold pendingOf at hx
      rw [hcp', recordsFrom_append, recordsFrom_eq_nil hold] at hx
      obtain ⟨y, hy, rfl⟩ := mem_map.mp hx
      rw [mem_singleton.mp (mem_filter.mp hy).1]
      rfl
    refine Or.inr ⟨?_, segs ++ [wb ++ body.newRows], [],
      { hheld'.withIndexes hindexes with holds := ?_, kept := ?_, redo := ?_ }, hheld'.fresh,
      hheld'.ledger⟩
    · rw [hsealed.base, hids.base]
      omega
    · exact hkept ▸ hheld'.holds
    · exact Nat.le_of_eq hkept
    · exact Table.redoOk_of_noRows _ (Nat.zero_le _) hnone

end Entry

/-! ## The invariant -/

/-- The tables are those of the contents, and the data directory says so. -/
structure Durable (cat : Catalog) (db : Contents) (recs : List WalRecord) : Prop where
  log : LogIs cat recs
  tables : Tracks (Settled recs) cat db
  known : ∀ r ∈ recs, ∃ e ∈ cat.tables, e.name = canonicalize r.tableName
  size : ∀ name g, db name = some g → g.length < 2 ^ 64

/-- The numbers of rows stay in bounds when one table is changed. -/
theorem size_update {db : Contents} {g : Ledger Row}
    (h : ∀ name x, db name = some x → x.length < 2 ^ 64) (h₀ : g.length < 2 ^ 64) (key : Bytes) :
    ∀ name x, Function.update db key (some g) name = some x → x.length < 2 ^ 64 := by
  intro name x hx
  rw [Function.update_apply] at hx
  split at hx
  · cases hx
    exact h₀
  · exact h name x hx

section Durable

variable {cat cat' : Catalog} {db : Contents} {recs : List WalRecord} {name bs : Bytes}
  {e : TableEntry} {t' : Table} {idx : List (Bytes × IndexFile)} {body : WalBody} {schema : Schema}

theorem Durable.held (h : Durable cat db recs) : Tracks Held cat db :=
  h.tables.mono fun _ _ _ hr => hr.held

theorem Durable.logOpened (h : Durable cat db recs) : Durable cat.logOpened db recs := by
  refine ⟨h.log.open.1, h.tables.logged [], ?_, h.size⟩
  have htables : cat.logOpened.tables = cat.tables := tables_logged cat []
  rw [htables]
  exact h.known

theorem payload_of_bytes {call : LogCall} (h : call.bytes = .ok bs) (hne : bs ≠ []) :
    ∃ payload, call.payload = .ok (some payload) ∧ bs = recordBytes payload := by
  obtain ⟨payload, hp, h⟩ := except_bind_eq_ok.mp h
  cases payload with
  | none =>
    cases h
    exact absurd rfl hne
  | some payload =>
    cases h
    exact ⟨payload, hp, rfl⟩

/-- The names of the tables stay when an entry is replaced. -/
theorem exists_name_put {x : TableEntry} {n : Bytes} (h : ∃ e ∈ cat.tables, e.name = n) :
    ∃ e ∈ (put x cat).tables, e.name = n := by
  obtain ⟨e, he, rfl⟩ := h
  have hmem : e.name ∈ (put x cat).tables.map TableEntry.name := by
    rw [names_put]
    exact mem_map_of_mem he
  exact mem_map.mp hmem

/-- **A statement on rows.** -/
theorem Durable.changed (h : Durable cat db recs) (hrows : RowsChanged cat name body e t' idx)
    (hbytes : LogCall.bytes ⟨name, body⟩ = .ok bs) (hin : InLog cat e body) (heff : Effective body)
    (hne : bs ≠ []) :
    ∃ recs', Durable (cat.changed name e t' idx bs)
      (db.change name body.markedIds body.newRows) recs' := by
  obtain ⟨hoff, hfits, hsize⟩ := hin
  obtain ⟨g, hg, hsettled⟩ := h.tables.find hrows.find
  obtain ⟨_, _, _, hheld⟩ := hsettled.held
  obtain rfl : e.name = name := (find_some hrows.find).2
  have hcanon := hheld.canonical
  have hshort := hheld.short
  obtain ⟨payload, hpayload, rfl⟩ := payload_of_bytes hbytes hne
  -- the log
  have hput : LogIs (put { e with table := t', indexes := idx } cat) recs := h.log.congr rfl rfl
  obtain ⟨hlog, hwriter⟩ := hput.open.1.append hput.open.2
    (LogCall.encodes hpayload (Or.inr ⟨hshort, hfits⟩))
  have hpos : ∀ r ∈ recs, r.byteOffset < cat.position + (recordBytes payload).length :=
    fun r hr => Nat.lt_of_lt_of_le (h.log.offset r hr) (Nat.le_add_right _ _)
  have hcp : (checkpointOf recs e).lsn ≤ cat.position :=
    checkpointOf_lsn_le hoff fun r hr => Nat.le_of_lt (h.log.offset r hr)
  have hafter : t'.wbBaseRowId < 2 ^ 64 := by
    obtain ⟨⟨_, _, _, hheld'⟩, -⟩ := hrows.held hsettled.held
    have hcount : t'.rowCount = _ := hheld'.rowCount
    rw [Ledger.length_add, Ledger.length_kill, ← hheld.rowCount] at hcount
    have hle : t'.wbBaseRowId ≤ t'.rowCount := Nat.le_add_right _ _
    omega
  -- what all records of this statement have in common
  have hdone : ∀ recs', LogIs (cat.changed e.name e t' idx (recordBytes payload)) recs' →
      (∀ r ∈ recs', r ∈ recs ∨ r.tableName = e.name) →
      (∀ x ∈ cat.tables, x.name ≠ e.name → ∀ g, Settled recs x g → Settled recs' x g) →
      Settled recs' { e with table := t', indexes := idx }
        ((g.kill body.markedIds).add body.newRows) →
      Durable (cat.changed e.name e t' idx (recordBytes payload))
        (db.change e.name body.markedIds body.newRows) recs' := by
    intro recs' hlog' hmem hother hnew
    refine ⟨hlog', ?_, ?_, ?_⟩
    · have hsame : ({ e with table := t', indexes := idx } : TableEntry).name = e.name := rfl
      rw [Contents.change_self hg]
      exact (h.tables.putWith hrows.find hsame hother hnew).logged _
    · intro r hr
      unfold changed
      rw [tables_logged]
      apply exists_name_put
      rcases hmem r hr with hr | hr
      · exact h.known r hr
      · refine ⟨e, (find_some hrows.find).1, ?_⟩
        rw [hr, hcanon]
    · rw [Contents.change_self hg]
      apply size_update h.size
      rw [Ledger.length_add, Ledger.length_kill, ← hheld.rowCount]
      exact hsize
  have hne' : ∀ x : TableEntry, x.name ≠ e.name → canonicalize e.name ≠ x.name := by
    intro x hx
    rw [hcanon]
    exact hx.symm
  have hlt : cat.position < cat.position + (recordBytes payload).length :=
    Nat.lt_add_of_pos_right (length_pos_iff.mpr (recordBytes_ne_nil payload))
  rcases hsettled.changed hrows heff hcp hlt hpos with ⟨hbase, hnew⟩ | ⟨hbase, hnew⟩
  · -- no seal
    refine ⟨_, hdone _ ?_ ?_ ?_ hnew⟩
    · unfold changed sealBytes
      rw [if_neg (by omega), append_nil]
      exact hlog
    · exact forall_mem_concat (fun r hr => Or.inl hr) (Or.inr rfl)
    · exact fun x _ hx g hs => hs.other (hne' x hx)
  · refine ⟨_, hdone _ ?_ ?_ ?_ hnew⟩
    · unfold changed sealBytes
      rw [if_pos hbase, ← appended_append]
      exact (hlog.append hwriter (encodes_segmentFlush hshort hafter)).1
    · exact forall_mem_concat (forall_mem_concat (fun r hr => Or.inl hr) (Or.inr rfl)) (Or.inr rfl)
    · exact fun x _ hx g hs => (hs.other (hne' x hx)).other (hne' x hx)

/-- A statement that changes nothing opens the log. -/
theorem changed_nothing (h : Tracks Held cat db) (hrows : RowsChanged cat name body e t' idx)
    (hnew : body.newRows = []) (hmarked : body.markedIds = []) :
    cat.changed name e t' idx [] = cat.logOpened := by
  obtain ⟨n, htable⟩ := hrows.table
  have hkeys := hrows.keys
  rw [hnew, hmarked, Table.marked_nil] at htable
  obtain rfl : e.table = t' := congrArg Prod.snd htable
  rw [hnew, exec_insertKeys_nil] at hkeys
  obtain rfl : e.indexes = idx := congrArg (fun x => x.2.indexes) hkeys
  unfold changed sealBytes
  rw [if_neg (Nat.lt_irrefl _), put_self h.names (find_some hrows.find).1]
  rfl

theorem length_sealBytes {table : Bytes} (h : table.length < 2 ^ 16) (before after : Nat) :
    (sealBytes table before after).length < 2 ^ 17 := by
  unfold sealBytes
  split
  · simp only [recordBytes, segmentFlushPayload, walPayload, length_append, length_cons,
      length_nil, length_leBytes]
    omega
  · simp

/-- Where the log ends after a statement on rows. -/
theorem LogIs.writer_changed (h : LogIs cat recs) (hshort : name.length < 2 ^ 16) (e : TableEntry)
    (t' : Table) (idx : List (Bytes × IndexFile)) (bs : Bytes) :
    (cat.changed name e t' idx bs).writer.getD 0 < cat.position + bs.length + 2 ^ 17 := by
  have hput : LogIs (put { e with table := t', indexes := idx } cat) recs := h.congr rfl rfl
  have hseal := length_sealBytes hshort e.table.wbBaseRowId t'.wbBaseRowId
  have hopen := hput.open.2
  unfold changed appended
  split
  · rw [hopen]
    show cat.position < _
    omega
  · rw [hopen]
    show cat.position + _ < _
    rw [length_append]
    omega

section

variable (h : Durable cat db recs)
include h

/-- **A checkpoint.**  It leaves no records, or all of them. -/
theorem Durable.flushAll (hoff : cat.writer.getD 0 < 2 ^ 64) (gate : Option Nat) :
    ∃ cat', exec (Catalog.flushAll gate) cat = (.ok (), cat') ∧ cat'.layout = cat.layout ∧
      cat'.wal = (if compacts gate cat then none else cat.wal) ∧
      Durable cat' db (if compacts gate cat then [] else recs) := by
  obtain ⟨es, hwritten, hsame, hexec⟩ := h.held.exec_flushAll hoff h.size gate
  unfold checkpointed at hexec
  split at hexec
  · next hcompacts =>
    -- the log is removed
    refine ⟨_, hexec, layout_eq_of_same hsame, ?_⟩
    rw [if_pos hcompacts, if_pos hcompacts]
    refine ⟨rfl, .closed rfl rfl, ?_, by simp, h.size⟩
    exact (hwritten.mono fun e _ g hr => hr.2 [] (by simp)).withLog none none
  · next hcompacts =>
    have hlog : LogIs ⟨es, cat.unopened, cat.wal, cat.writer⟩ recs := h.log.congr rfl rfl
    refine ⟨_, hexec, layout_eq_of_same hsame, ?_⟩
    rw [if_neg hcompacts, if_neg hcompacts]
    refine ⟨rfl, hlog, ?_, ?_, h.size⟩
    · refine hwritten.mono fun e _ g hr => hr.2 recs ?_
      cases h.log with
      | closed hwal hwriter => simp
      | opened hwal hwriter hlog =>
        rw [hwriter]
        exact fun r hr => (hlog.offset.2 r hr).2
    · intro r hr
      obtain ⟨e, he, hname⟩ := h.known r hr
      obtain ⟨g, hg, -⟩ := h.tables.tables e he
      rw [← hname]
      exact hwritten.only e.name g hg

theorem Durable.afterInsert (hoff : cat.writer.getD 0 < 2 ^ 64) {gate : Option Nat} {m n : Nat}
    (hexec : exec (Catalog.afterInsert gate m) cat = (.ok n, cat')) :
    cat'.layout = cat.layout ∧ ∃ recs', Durable cat' db recs' := by
  unfold Catalog.afterInsert at hexec
  rw [exec_get_bind] at hexec
  split at hexec
  · obtain ⟨_, hflush, hlayout, -, hdurable⟩ := h.flushAll hoff gate
    rw [exec_bind_ok hflush] at hexec
    obtain ⟨-, rfl⟩ := Prod.mk.inj hexec
    exact ⟨hlayout, _, hdurable⟩
  · obtain ⟨-, rfl⟩ := Prod.mk.inj hexec
    exact ⟨rfl, recs, h⟩

theorem Durable.insert {gate : Option Nat} {rows : List Row} {n : Nat}
    (hc : CatalogOp.LoggedPastCheckpoint cat (.insert gate name rows))
    (hexec : exec (Catalog.insert gate name rows) cat = (.ok n, cat')) :
    cat'.layout = cat.layout ∧
      ∃ recs', Durable cat' (db.change (canonicalize name) [] rows) recs' := by
  obtain ⟨e, t', idx, bs, m, hrows, hbytes, hafter⟩ := changed_of_insert hexec
  have hlayout := layout_changed h.held hrows bs
  suffices h' : cat'.layout = (cat.changed (canonicalize name) e t' idx bs).layout ∧
      ∃ recs', Durable cat' (db.change (canonicalize name) [] rows) recs' from
    ⟨h'.1.trans hlayout, h'.2⟩
  obtain ⟨hin, hlen⟩ := hc e hrows.find
  obtain ⟨g, -, hsettled⟩ := h.tables.find hrows.find
  obtain ⟨_, _, _, hheld⟩ := hsettled.held
  have hname := (find_some hrows.find).2
  have hshort := hheld.short
  have hend : (cat.changed (canonicalize name) e t' idx bs).writer.getD 0 < 2 ^ 64 := by
    rw [hname] at hshort hlen
    have hwriter := h.log.writer_changed hshort e t' idx bs
    unfold recordSize at hlen
    rw [hbytes] at hlen
    dsimp only at hlen
    omega
  obtain ⟨k, htable⟩ := hrows.table
  obtain ⟨bs', hbytes', hempty⟩ :=
    bytes_insert (canonicalize name) (hheld.exec_rows htable).2.2
  obtain rfl : bs = bs' := Except.ok.inj (hbytes.symm.trans hbytes')
  rcases eq_or_ne rows [] with rfl | hne
  · obtain rfl := hempty.mpr rfl
    rw [changed_nothing h.held hrows rfl rfl] at hafter hend ⊢
    rw [Contents.change_nil]
    exact h.logOpened.afterInsert hend hafter
  · obtain ⟨_, hdurable⟩ := h.changed hrows hbytes hin hne fun hbs => hne (hempty.mp hbs)
    exact hdurable.afterInsert hend hafter

theorem Durable.updateRows {ids : List Nat}
    {rows : List Row} {n : Nat} (hc : CatalogOp.LoggedPastCheckpoint cat
      (.updateRows name ids schema rows))
    (hexec : exec (Catalog.updateRows name ids schema rows) cat = (.ok n, cat')) :
    cat'.layout = cat.layout ∧
      ∃ recs', Durable cat' (CatalogOp.effect db (.updateRows name ids schema rows)) recs' := by
  rcases eq_or_ne ids [] with rfl | hids
  · obtain ⟨-, rfl⟩ := Prod.mk.inj hexec
    exact ⟨rfl, recs, h⟩
  · rw [CatalogOp.effect, if_neg hids]
    obtain ⟨e, _, _, bs, hrows, hbytes, rfl⟩ := changed_of_updateRows hids hexec
    have hin := hc.resolve_left hids e hrows.find
    have hne : bs ≠ [] := by
      rintro rfl
      obtain ⟨_, hp, hbytes⟩ := except_bind_eq_ok.mp hbytes
      obtain ⟨bs, -, rfl⟩ := except_map_eq_ok.mp hp
      exact recordBytes_ne_nil bs (Except.ok.inj hbytes)
    exact ⟨layout_changed h.held hrows _, h.changed hrows hbytes hin hids hne⟩

theorem Durable.deleteRows {ids : List Nat} {n : Nat}
    (hc : CatalogOp.LoggedPastCheckpoint cat (.deleteRows name ids))
    (hexec : exec (Catalog.deleteRows name ids) cat = (.ok n, cat')) :
    cat'.layout = cat.layout ∧
      ∃ recs', Durable cat' (db.change (canonicalize name) ids []) recs' := by
  rcases eq_or_ne ids [] with rfl | hids
  · obtain ⟨-, rfl⟩ := Prod.mk.inj hexec
    rw [Contents.change_nil]
    exact ⟨rfl, recs, h⟩
  cases hfind : cat.find (canonicalize name) with
  | none =>
    unfold Catalog.deleteRows at hexec
    rw [if_neg (by simpa using hids), exec_get_bind, hfind] at hexec
    cases hexec
  | some e =>
    have hrows := rowsChanged_delete hfind ids
    rw [hrows.exec_deleteRows hids rfl] at hexec
    obtain ⟨-, rfl⟩ := Prod.mk.inj hexec
    have hin := hc.resolve_left hids e hfind
    exact ⟨layout_changed h.held hrows _, h.changed hrows rfl hin hids (recordBytes_ne_nil _)⟩

end

/-- A new table has no checkpoint, and of its records only the first is in the log. -/
theorem settled_new (h : EntryHeld e [] [] 0 []) (hlsn : e.lsn = none)
    (hrecs : ∀ r ∈ recs, canonicalize r.tableName = e.name → ∃ schema,
      r.body = .createTable schema) :
    Settled recs e [] := by
  have hcp : checkpointOf recs e = ⟨0, 0⟩ := by
    unfold checkpointOf
    rw [hlsn]
    change recs.foldl (raise e.name) ⟨0, 0⟩ = ⟨0, 0⟩
    induction recs with
    | nil => rfl
    | cons r recs ih =>
      have hone : raise e.name ⟨0, 0⟩ r = ⟨0, 0⟩ := by
        by_cases hname : canonicalize r.tableName = e.name
        · obtain ⟨schema, hbody⟩ := hrecs r mem_cons_self hname
          unfold raise
          rw [hbody]
        · exact raise_of_ne hname _
      rw [foldl_cons, hone]
      exact ih fun r' hr' => hrecs r' (mem_cons_of_mem _ hr')
  have hkept : keptOf recs e = 0 := by
    unfold keptOf
    rw [hcp]
    exact Nat.zero_sub _
  refine ⟨[], [], { h with holds := ?_, kept := Nat.le_of_eq hkept, redo := ?_ }, h.fresh, h.ledger⟩
  · rw [hkept]
    exact h.holds
  · refine Table.redoOk_of_noRows _ (Nat.zero_le _) fun body hbody => ?_
    obtain ⟨r, hr, rfl⟩ := mem_map.mp hbody
    obtain ⟨hr, hsel⟩ := mem_filter.mp hr
    rw [Bool.and_eq_true, decide_eq_true_eq] at hsel
    obtain ⟨schema, hbody⟩ := hrecs r hr hsel.1
    rw [hbody]
    rfl

variable (h : Durable cat db recs)
include h

/-- **A new table**, without its constraints. -/
theorem Durable.createTable (hnew : Creatable name schema)
    (hexec : exec (createTable name schema) (cat.logOpened.appended
      (recordBytes (createTablePayload (canonicalize name) schema))) = (.ok (), cat')) :
    ∃ recs', Durable cat' (db.create (canonicalize name)) recs' := by
  obtain ⟨t, t', hfind, hok, hflush, rfl⟩ := createTable_eq_ok hexec
  obtain ⟨hheld, -, t'', hflush', -, hwritten⟩ := held_newEntry hnew hok
  obtain rfl : t' = t'' := congrArg Prod.snd (hflush.symm.trans hflush')
  -- the record
  obtain ⟨hlog, -⟩ := h.log.open.1.append h.log.open.2 (encodes_createTable hheld.short hnew.2.1)
  -- the other tables have other names
  have hnone : ∀ e ∈ cat.tables, e.name ≠ canonicalize name := by
    rw [find_appended, find_logOpened] at hfind
    exact find_eq_none.mp hfind
  have hother : Tracks (Settled (recs ++ [⟨cat.position, canonicalize name, .createTable schema⟩]))
      cat db := by
    refine h.tables.mono fun e he g hs => hs.other ?_
    rw [canonicalize_idem]
    exact (hnone e he).symm
  have hfresh : ∀ r ∈ recs ++ [⟨cat.position, canonicalize name, .createTable schema⟩],
      canonicalize r.tableName = canonicalize name → ∃ schema, r.body = .createTable schema := by
    refine forall_mem_concat (fun r hr heq => ?_) fun _ => ⟨schema, rfl⟩
    obtain ⟨e, he, hname⟩ := h.known r hr
    exact absurd (hname.trans heq) (hnone e he)
  have htracks := (hother.logged (recordBytes
    (createTablePayload (canonicalize name) schema))).created
    hfind (settled_new hheld rfl hfresh) (settled_new hwritten rfl hfresh)
  refine ⟨_, hlog.congr rfl rfl, htracks, fun r hr => exists_name_put ?_, ?_⟩
  · revert r
    refine forall_mem_concat (fun r hr => ?_)
      ⟨newEntry (canonicalize name) t, mem_append_right _ mem_cons_self,
        (canonicalize_idem name).symm⟩
    obtain ⟨e, he, hname⟩ := h.known r hr
    refine ⟨e, mem_append_left _ ?_, hname⟩
    rwa [tables_logged]
  · exact size_update (g := []) h.size (Nat.two_pow_pos 64) _

theorem Durable.addIndex {index : Bytes} {cols : List UInt8}
    {unique : Bool} (hfew : cols.length < 256)
    (hexec : exec (addIndex name index cols unique) cat = (.ok (), cat')) :
    Durable cat' db recs := by
  rcases addIndex_cases h.held name index hfew with ⟨_, hfail⟩ |
    ⟨e, f', _, hfind, -, hrun, ⟨_, _, _, hheld⟩, -⟩
  · rw [hfail] at hexec
    cases hexec
  · obtain rfl := congrArg Prod.snd (hrun.symm.trans hexec)
    obtain ⟨g, hg, hsettled⟩ := h.tables.find hfind
    have hsame : ({ e with indexes := e.indexes ++ [(index, f')] } : TableEntry).name =
      e.name := rfl
    have hput := h.tables.put hfind hsame (hsettled.withIndexes hheld.indexes)
    rw [← hg, Function.update_eq_self] at hput
    exact ⟨h.log.congr rfl rfl, hput, fun r hr => exists_name_put (h.known r hr), h.size⟩

/-- **`add_table`.** -/
theorem Durable.addTable {constraints : List (Bytes × List UInt8)}
    (hc : CatalogOp.LoggedPastCheckpoint cat (.addTable name schema constraints))
    (hexec : exec (Catalog.addTable name schema constraints) cat = (.ok (), cat')) :
    cat'.layout = CatalogOp.relayout cat.layout (.addTable name schema constraints) ∧
      ∃ recs', Durable cat' (db.create (canonicalize name)) recs' := by
  obtain ⟨hnew, hfew⟩ := hc
  unfold Catalog.addTable at hexec
  rw [exec_bind_ok (exec_ensureWal cat), exec_bind_ok (exec_writeRecord _ _)] at hexec
  obtain ⟨_, cat₁, hcreate, hrest⟩ := exec_bind_eq_ok hexec
  obtain ⟨recs', hdurable⟩ := h.createTable hnew hcreate
  have hlayout := layout_createTable hnew hcreate
  rw [layout_logged] at hlayout
  -- the indexes of the constraints, one after the other, behind those that are there
  suffices hindexes : ∀ names, cat₁.layout =
      Function.update cat.layout (canonicalize name) (some (schema, names)) →
      cat'.layout = Function.update cat.layout (canonicalize name)
        (some (schema, names ++ constraints.map Prod.fst)) ∧
      Durable cat' (db.create (canonicalize name)) recs' by
    obtain ⟨hlayout', hdurable'⟩ := hindexes [] hlayout
    exact ⟨hlayout', recs', hdurable'⟩
  clear hcreate hexec hlayout
  induction constraints generalizing cat₁ with
  | nil =>
    obtain rfl : cat₁ = cat' := congrArg Prod.snd hrest
    intro names hnames
    rw [map_nil, append_nil]
    exact ⟨hnames, hdurable⟩
  | cons x constraints ih =>
    obtain ⟨_, cat₂, hindex, hmore⟩ := exec_bind_eq_ok hrest
    intro names hnames
    have hfew₁ := hfew x mem_cons_self
    have hnext := layout_addIndex hdurable.held hfew₁ hindex
    rw [hnames, Function.update_self, Option.map_some, Function.update_idem] at hnext
    have hall := ih (fun y hy => hfew y (mem_cons_of_mem _ hy)) cat₂ hmore
      (hdurable.addIndex hfew₁ hindex) _ hnext
    rwa [append_assoc] at hall

theorem Durable.load (hkeys : Recoverable cat) :
    ∃ cat', Catalog.load cat.dir = .ok cat' ∧ cat'.layout = cat.layout ∧ Durable cat' db [] := by
  have hload : Reloads cat db := by
    cases h.log with
    | closed hwal hwriter => exact h.tables.reload hwal hkeys
    | opened hwal hwriter hlog =>
      exact h.tables.load_wal hwal (readAll_of_logHolds hlog) hkeys
        (fun r hr _ _ => h.known r hr) h.size
  obtain ⟨ys, hload, hsame, htracks⟩ := hload
  exact ⟨_, hload, layout_eq_of_same hsame, .closed rfl rfl,
    htracks.mono fun _ _ _ hr => hr.2, by simp, h.size⟩

theorem Durable.shows : cat.Shows db :=
  h.held.shows fun _ _ hheld => hheld.scan

/-- **One operation.** -/
theorem Durable.step {op : CatalogOp}
    (hok : op ≠ .reopen → op.Succeeds cat) (hc : op.LoggedPastCheckpoint cat) :
    (op.step cat).layout = op.relayout cat.layout ∧
      ∃ recs', Durable (op.step cat) (op.effect db) recs' := by
  cases op with
  | addTable name schema constraints =>
    exact h.addTable hc (Prod.ext (hok nofun) rfl)
  | insert gate name rows =>
    obtain ⟨n, hexec⟩ := exec_map_eq_ok (Prod.ext (hok nofun) rfl)
    exact h.insert hc hexec
  | updateRows name ids schema rows =>
    obtain ⟨n, hexec⟩ := exec_map_eq_ok (Prod.ext (hok nofun) rfl)
    exact h.updateRows hc hexec
  | deleteRows name ids =>
    obtain ⟨n, hexec⟩ := exec_map_eq_ok (Prod.ext (hok nofun) rfl)
    exact h.deleteRows hc hexec
  | flushAll gate =>
    obtain ⟨cat', hexec, hlayout, -, hdurable⟩ := h.flushAll hc gate
    have hstep : CatalogOp.step cat (.flushAll gate) = cat' := congrArg Prod.snd hexec
    rw [hstep]
    exact ⟨hlayout, _, hdurable⟩
  | reopen =>
    obtain ⟨cat', hload, hlayout, hdurable⟩ := h.load hc
    have hstep : CatalogOp.step cat .reopen = cat' := by
      unfold CatalogOp.step CatalogOp.run
      rw [exec_get_bind, hload]
      rfl
    rw [hstep]
    exact ⟨hlayout, [], hdurable⟩

end Durable

/-! ## Runs -/

/-- The data directory of a process that is killed now has everything. -/
def CrashSafe (cat : Catalog) : Prop :=
  ∃ cat', load cat.dir = .ok cat' ∧ ∀ name, (cat'.find name).map (fun e => TableScan.scan e.table) =
      (cat.find name).map fun e => TableScan.scan e.table

theorem Durable.crashSafe {cat : Catalog} {db : Contents} {recs : List WalRecord}
    (h : Durable cat db recs) (hkeys : Recoverable cat) : CrashSafe cat := by
  obtain ⟨cat', hload, -, hdurable⟩ := h.load hkeys
  refine ⟨cat', hload, fun name => ?_⟩
  rw [hdurable.shows name, h.shows name]

/-- The catalog of an empty data directory. -/
def emptyCatalog : Catalog := ⟨[], [], none, none⟩

theorem durable_empty : Durable emptyCatalog (fun _ => none) [] := by
  exact ⟨.closed rfl rfl, ⟨nodup_nil, nofun, nofun, nofun⟩, by simp, nofun⟩

/-- **Durability.**  In a run of operations that succeed and are logged past the checkpoint, and of
reopenings, a crash loses nothing, in any state in which the indexes can be rebuilt. -/
theorem load_durable {ops : List CatalogOp} (hrun : Run.Along CatalogOp.step
      (fun cat op => (op ≠ .reopen → op.Succeeds cat) ∧
        op.LoggedPastCheckpoint cat) emptyCatalog ops) :
    ∀ cat ∈ Run.states CatalogOp.step emptyCatalog ops, Recoverable cat → CrashSafe cat := by
  intro cat hcat hkeys
  have hinv := hrun.invariant (I := fun cat => ∃ db recs, Durable cat db recs)
    (fun cat op ⟨_, _, h⟩ ⟨hok, hc⟩ => ⟨_, (h.step hok hc).2⟩) ⟨_, _, durable_empty⟩ cat hcat
  obtain ⟨db, recs, h⟩ := hinv
  exact h.crashSafe hkeys

/-- What a scan of a table returns. -/
def rowsIn (cat : Catalog) (name : Bytes) : Option (Option (List (Nat × Row))) :=
  (cat.find name).map fun e => (TableScan.scan e.table).toOption

/-- `CREATE TABLE t (a INT PRIMARY KEY)`, two rows, a restart, one row more, the first one deleted,
and a checkpoint. -/
def restartThenCheckpoint : List CatalogOp :=
  [.addTable [116] Table.oneColumn [([112], [0])], .insert none [116] [[.int32 1], [.int32 2]],
    .reopen,
    .insert none [116] [[.int32 3]],
    .deleteRows [116] [0],
    .flushAll none]

theorem load_durable_restartThenCheckpoint :
    rowsIn (Run.final CatalogOp.step emptyCatalog restartThenCheckpoint) [116] =
        some (some [(1, [.int32 2]), (2, [.int32 3])]) ∧
      CrashSafe (Run.final CatalogOp.step emptyCatalog restartThenCheckpoint) :=
  ⟨by decide +kernel,
    load_durable (by decide +kernel) _ (Run.final_mem_states _ _) (by decide +kernel)⟩

/-- A row, a checkpoint, another row. -/
def insertAfterCheckpoint : List CatalogOp :=
  [.addTable [116] Table.oneColumn [], .insert none [116] [[.int32 1]], .flushAll none,
    .insert none [116] [[.int32 2]]]

theorem CrashSafe.rowsIn {cat : Catalog} (h : CrashSafe cat) (name : Bytes) :
    (load cat.dir).toOption.map (fun cat' => rowsIn cat' name) = some (cat.rowsIn name) := by
  obtain ⟨cat', hload, hrows⟩ := h
  have hsame := congrArg (Option.map Except.toOption) (hrows name)
  rw [Option.map_map, Option.map_map] at hsame
  rw [hload]
  exact congrArg some hsame

/-- All four operations succeed, but the second row is lost in a crash after the last one. -/
theorem lost_insertAfterCheckpoint :
    Run.Along CatalogOp.step (fun cat op => op.Succeeds cat) emptyCatalog insertAfterCheckpoint ∧
      ¬ CrashSafe (Run.final CatalogOp.step emptyCatalog insertAfterCheckpoint) := by
  refine ⟨by decide +kernel, fun hsafe => ?_⟩
  have hbefore : rowsIn (Run.final CatalogOp.step emptyCatalog insertAfterCheckpoint) [116] =
    some (some [(0, [.int32 1]), (1, [.int32 2])]) := by decide +kernel
  have hafter :
      (load (Run.final CatalogOp.step emptyCatalog insertAfterCheckpoint).dir).toOption.map
        (fun cat' => rowsIn cat' [116]) = some (some (some [(0, [.int32 1])])) := by
    decide +kernel
  rw [hsafe.rowsIn [116], hbefore] at hafter
  revert hafter
  decide

end NyxDb.Catalog
