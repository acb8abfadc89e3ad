import NyxDb.Catalog.Contents

/-!
# Checkpoints and loading

`flushAll` brings the files of all tables up to what is in memory and notes so in `lsn.bin`
(`Tracks.exec_flushAll`).  A catalog whose tables are settled is found as it was when it is
loaded (`Tracks.load_noWal`).
-/

namespace NyxDb.Catalog

open TableEntry List
open Table (Fresh)

/-- Together with the records of the log, the files of the table have the rows of the ledger. -/
def Settled (recs : List WalRecord) (e : TableEntry) (g : Ledger Row) : Prop :=
  ∃ segs wb, EntryOk recs e segs wb ∧ Fresh e.table wb ∧ e.table.ledger segs wb = g

/-- The files of all indexes are up to date. -/
def Clean (e : TableEntry) : Prop :=
  ∀ x ∈ e.indexes, x.2.dirty = false

theorem Settled.held {recs : List WalRecord} {e : TableEntry} {g : Ledger Row}
    (h : Settled recs e g) : Held e g := by
  obtain ⟨segs, wb, hok, hfresh, hledger⟩ := h
  exact ⟨segs, wb, keptOf recs e, { hok with fresh := hfresh, ledger := hledger }⟩

/-! ## Writing one table -/

section Entry

variable {e : TableEntry} {segs : List (List Row)} {wb : List Row} {dur : Nat} {g : Ledger Row}

section

variable (h : EntryHeld e segs wb dur g)
include h

theorem EntryHeld.rowCount : e.table.rowCount = g.length := by
  rw [← h.ledger, h.holds.length_ledger h.sync]

theorem EntryHeld.exec_flush :
    ∃ t', exec Table.flush e.table = (.ok (), t') ∧ t'.schema = e.table.schema ∧
      EntryHeld { e with table := t' } segs wb wb.length g := by
  obtain ⟨cols, hexec, hheld, -⟩ := h.holds.exec_flush
  have hbits := Table.sameBits_withColumns e.table cols
  exact ⟨e.table.withColumns cols, hexec, rfl, { h with
    files := h.files.withColumns cols
    holds := hheld
    fresh := h.fresh.congr ⟨rfl, rfl⟩ hbits
    ledger := (Table.ledger_congr hbits _ _).trans h.ledger }⟩

theorem EntryHeld.exec_flushEntry : ∃ t', exec flushEntry e = (.ok (), { e with table := t' }) ∧
      t'.schema = e.table.schema ∧ EntryHeld { e with table := t' } segs wb wb.length g := by
  obtain ⟨t', hexec, hschema, hheld⟩ := h.exec_flush
  refine ⟨t', ?_, hschema, hheld⟩
  unfold flushEntry
  rw [exec_get_bind, exec_mapError, exec_onTable, hexec]
  rfl

theorem EntryHeld.exec_flushIndexes :
    ∃ idx, exec (onIndexes flushIndex) e = (.ok (), { e with indexes := idx }) ∧
      EntryHeld { e with indexes := idx } segs wb dur g ∧ Clean { e with indexes := idx } ∧
      Forall₂ (fun x y => y.1 = x.1 ∧ IndexFile.SameKeys x.2 y.2) e.indexes idx := by
  obtain ⟨idx, hexec, hidx⟩ := exec_onIndexes (e := e) (c := flushIndex)
    (Q := fun f f' => (IndexFits e.table.schema f' ∧ ∃ es, BTreeIndex.Holds f' es) ∧
      f'.dirty = false ∧ IndexFile.SameKeys f f') fun x hx => by
      obtain ⟨hfit, es, hes⟩ := h.indexes x hx
      obtain ⟨f', hrun, hes', hsame, hclean⟩ := exec_flushIndex hes
      exact ⟨f', hrun, ⟨hfit.sameKeys hsame, es, hes'⟩, hclean, hsame⟩
  have hall : ∀ x ∈ idx, (IndexFits e.table.schema x.2 ∧ ∃ es, BTreeIndex.Holds x.2 es) ∧
      x.2.dirty = false := by
    intro x hx
    obtain ⟨y, -, -, hsound, hclean, -⟩ := forall₂_mem_right hidx hx
    exact ⟨hsound, hclean⟩
  exact ⟨idx, hexec, h.withIndexes fun x hx => (hall x hx).1, fun x hx => (hall x hx).2,
    hidx.imp fun x y hxy => ⟨hxy.1, hxy.2.2.2⟩⟩

end

/-- A table that is on disk up to its last row, and whose `lsn.bin` says so. -/
theorem EntryHeld.settled (h : EntryHeld e segs wb wb.length g) {off : Nat} (hoff : off < 2 ^ 64)
    (hsize : g.length < 2 ^ 64) {recs : List WalRecord} (hrecs : ∀ r ∈ recs, r.byteOffset < off) :
    Settled recs { e with lsn := some (lsnBytes ⟨off, e.table.rowCount⟩) } g := by
  have hread : readLsn (some (lsnBytes ⟨off, e.table.rowCount⟩)) = ⟨off, e.table.rowCount⟩ :=
    readLsn_lsnBytes hoff (by rw [h.rowCount]; exact hsize)
  have hcp : checkpointOf recs { e with lsn := some (lsnBytes ⟨off, e.table.rowCount⟩) } =
      ⟨off, e.table.rowCount⟩ := by
    rw [checkpointOf_of_newer]
    · exact hread
    · intro r hr
      rw [hread]
      exact Nat.le_of_lt (hrecs r hr)
  have hkept : keptOf recs { e with lsn := some (lsnBytes ⟨off, e.table.rowCount⟩) } =
      wb.length := by
    unfold keptOf
    rw [hcp]
    rw [h.holds.rowCount, h.sync.2, Nat.add_sub_cancel_left]
  have hpend : pendingOf recs { e with lsn := some (lsnBytes ⟨off, e.table.rowCount⟩) } = [] := by
    unfold pendingOf
    rw [hcp]
    exact recordsFrom_eq_nil hrecs _
  refine ⟨segs, wb, { h with holds := ?_, kept := ?_, redo := ?_ }, h.fresh, h.ledger⟩
  · rw [hkept]
    exact h.holds
  · exact Nat.le_of_eq hkept
  · rw [hkept, hpend]
    exact Table.redoOk_nil _ (Nat.le_refl _)

end Entry

/-! ## Writing all tables -/

section Flush

variable {cat : Catalog} {db : Contents}

/-- Whether a checkpoint removes the log. -/
def compacts (gate : Option Nat) (cat : Catalog) : Bool :=
  cat.writer.isSome && gate.all fun limit => decide (cat.writer.getD 0 ≤ limit)

/-- The catalog with other entries, after the decision about the log. -/
def checkpointed (gate : Option Nat) (cat : Catalog) (es : List TableEntry) : Catalog :=
  if compacts gate cat then ⟨es, cat.unopened, none, none⟩
  else ⟨es, cat.unopened, cat.wal, cat.writer⟩

theorem exec_flushAll_of {α : Type} {R S : α → TableEntry → Prop} {xs : List α}
    (hrel : Forall₂ R xs cat.tables)
    (hstep : ∀ a e, R a e → ∃ e₁ e₂, exec flushEntry e = (.ok (), e₁) ∧
      exec (onIndexes flushIndex) e₁ = (.ok (), e₂) ∧
      S a { e₂ with lsn := some (lsnBytes ⟨cat.writer.getD 0, e₂.table.rowCount⟩) })
    (gate : Option Nat) :
    ∃ es, Forall₂ S xs es ∧ exec (flushAll gate) cat = (.ok (), checkpointed gate cat es) := by
  obtain ⟨ys, hys, hrel₁⟩ := exec_onEntries cat (c := flushEntry) hrel
    (S := fun a e₁ => ∃ e₂, exec (onIndexes flushIndex) e₁ = (.ok (), e₂) ∧
      S a { e₂ with lsn := some (lsnBytes ⟨cat.writer.getD 0, e₂.table.rowCount⟩) })
    fun a e ha => by
      obtain ⟨e₁, e₂, h₁, h₂, hs⟩ := hstep a e ha
      exact ⟨e₁, h₁, e₂, h₂, hs⟩
  obtain ⟨zs, hzs, hrel₂⟩ := exec_onEntries { cat with tables := ys } (c := onIndexes flushIndex)
    hrel₁ (S := fun a e₂ =>
      S a { e₂ with lsn := some (lsnBytes ⟨cat.writer.getD 0, e₂.table.rowCount⟩) })
    fun a e₁ ⟨e₂, h₂, hs⟩ => ⟨e₂, h₂, hs⟩
  obtain ⟨es, hes, hrel₃⟩ := exec_onEntries { cat with tables := zs } (c := do
      let e ← Proc.get
      writeLsn ⟨cat.writer.getD 0, e.table.rowCount⟩)
    hrel₂ (S := S) fun a e₂ hs => by
      refine ⟨_, ?_, hs⟩
      rw [exec_get_bind, exec_writeLsn]
  refine ⟨es, hrel₃, ?_⟩
  unfold flushAll checkpointed compacts
  rw [exec_bind_ok hys, exec_bind_ok hzs, exec_get_bind, exec_bind_ok hes]
  cases hwriter : cat.writer with
  | none => rfl
  | some current =>
    cases gate with
    | none => rfl
    | some limit =>
      by_cases hle : current ≤ limit
      · simp [hle]
      · simp [hle]

/-- Two entries of one name, schema and names of indexes. -/
def SameLayout (e y : TableEntry) : Prop :=
  y.name = e.name ∧ y.table.schema = e.table.schema ∧
    y.indexes.map Prod.fst = e.indexes.map Prod.fst

/-- What is written for an entry by `flushAll`. -/
def Written (off : Nat) (e : TableEntry) (g : Ledger Row) : Prop :=
  Clean e ∧ ∀ recs : List WalRecord, (∀ r ∈ recs, r.byteOffset < off) → Settled recs e g

/-- **A checkpoint.**  It never fails, and leaves every table as the contents say; the log is
removed if the gate allows it. -/
theorem Tracks.exec_flushAll (h : Tracks Held cat db) (hoff : cat.writer.getD 0 < 2 ^ 64)
    (hsize : ∀ name g, db name = some g → g.length < 2 ^ 64) (gate : Option Nat) :
    ∃ es, Tracks (Written (cat.writer.getD 0)) ⟨es, cat.unopened, cat.wal, cat.writer⟩ db ∧
      Forall₂ SameLayout cat.tables es ∧
      exec (flushAll gate) cat = (.ok (), checkpointed gate cat es) := by
  obtain ⟨es, hrel, hexec⟩ := exec_flushAll_of h.forall₂_self
    (S := fun e y => SameLayout e y ∧ ∃ g, db e.name = some g ∧ Written (cat.writer.getD 0) y g)
    (fun e y ⟨hy, g, hg, segs, wb, dur, hheld⟩ => by
      subst hy
      obtain ⟨_, hrun₁, hschema, h₁⟩ := hheld.exec_flushEntry
      obtain ⟨_, hrun₂, h₂, hclean, hidx⟩ := h₁.exec_flushIndexes
      have hnames := forall₂_map_eq hidx fun x y hxy => hxy.1
      refine ⟨_, _, hrun₁, hrun₂, ⟨rfl, hschema, hnames⟩, g, hg, hclean, fun recs hrecs => ?_⟩
      exact h₂.settled hoff (hsize _ g hg) hrecs) gate
  exact ⟨es, h.replace (hrel.imp fun e y hy => ⟨hy.1.1, hy.2⟩), hrel.imp fun e y hy => hy.1, hexec⟩

end Flush

/-! ## Loading -/

/-- The indexes that have to be rebuilt can be: the first column, which says how many rows there
are, is not ahead of the columns of the key on disk. -/
def Recoverable (cat : Catalog) : Prop :=
  ∀ e ∈ cat.tables, ∀ x ∈ e.indexes, x.2.disk.header.dirty = true →
    KeysOnDisk e.table.dir x.2.disk.colIndices

instance (cat : Catalog) : Decidable (Recoverable cat) :=
  inferInstanceAs (Decidable (∀ _ ∈ _, ∀ _ ∈ _, _))

/-- The files have the contents of the catalog: without a log and with clean indexes it is found. -/
def Reloads (cat : Catalog) (db : Contents) : Prop :=
  ∃ ys, load cat.dir = .ok ⟨ys, cat.unopened, none, none⟩ ∧ Forall₂ SameLayout cat.tables ys ∧
    Tracks (fun e g => Clean e ∧ Settled [] e g) ⟨ys, cat.unopened, none, none⟩ db

section Load

variable {cat : Catalog} {db : Contents} {recs : List WalRecord}

theorem clean_of_rebuilt {e y : TableEntry} {t : Table}
    (h : Forall₂ (fun x z => z.1 = x.1 ∧ Rebuilt t (IndexFile.openFile x.2.disk) z.2)
      e.indexes y.indexes) : Clean y := by
  intro z hz
  obtain ⟨x, -, -, hrebuilt⟩ := forall₂_mem_right h hz
  exact hrebuilt.clean

/-- **Without a log**, a settled catalog is found as it was. -/
theorem Tracks.reload (h : Tracks (Settled []) cat db) (hwal : cat.wal = none)
    (hkeys : Recoverable cat) : Reloads cat db := by
  choose! gOf hdb segsOf wbOf hok hfresh hledger using h.tables
  have hready : ∀ e ∈ cat.tables, Ready [] e (segsOf e) (wbOf e) :=
    fun e he => (hok e he).ready (hkeys e he)
  obtain ⟨ys, hload, hys⟩ := Catalog.load_noWal hwal hready h.unopened
  have hsame : Forall₂ SameLayout cat.tables ys := hys.imp fun e y hr =>
    ⟨hr.name, hr.opened.schema, forall₂_map_eq hr.indexes fun x z hxz => hxz.1⟩
  refine ⟨ys, hload, hsame, h.replace ?_⟩
  have hmem := (forall₂_and_left (p := fun e => e ∈ cat.tables) _ _).mpr ⟨fun e he => he, hys⟩
  refine hmem.imp fun e y ⟨he, hr⟩ => ?_
  obtain ⟨hids, hbits⟩ := (hok e he).opened hr.opened
  refine ⟨hr.name, gOf e, hdb e he, clean_of_rebuilt hr.indexes, segsOf e, wbOf e,
    (hok e he).reindexed hr, (hfresh e he).congr hids hbits, ?_⟩
  rw [Table.ledger_congr hbits, hledger e he]

/-- **A settled catalog is found as it was.** -/
theorem Tracks.load_noWal (h : Tracks (fun e g => Clean e ∧ Settled [] e g) cat db)
    (hwal : cat.wal = none) : Reloads cat db := by
  -- nothing has to be rebuilt where everything is clean
  refine (h.mono fun e _ g hr => hr.2).reload hwal fun e he x hx hdirty => ?_
  obtain ⟨_, -, hclean, _, _, hok, -⟩ := h.tables e he
  obtain ⟨-, _, hes⟩ := hok.indexes x hx
  have hheader := hes.header
  rw [if_neg (by rw [hclean x hx]; exact Bool.false_ne_true)] at hheader
  rw [hheader] at hdirty
  cases hdirty

/-- **With a log**, a settled catalog is found as it was, too. -/
theorem Tracks.load_wal (h : Tracks (Settled recs) cat db) {bs : Bytes} (hwal : cat.wal = some bs)
    (hread : readAll bs = .ok recs) (hkeys : Recoverable cat)
    (hknown : ∀ r ∈ recs, ∀ schema, r.body = .createTable schema →
      ∃ e ∈ cat.tables, e.name = canonicalize r.tableName)
    (hsize : ∀ name g, db name = some g → g.length < 2 ^ 64) : Reloads cat db := by
  choose! gOf hdb segsOf wbOf hok hfresh hledger using h.tables
  have hready : ∀ e ∈ cat.tables, Ready recs e (segsOf e) (wbOf e) :=
    fun e he => (hok e he).ready (hkeys e he)
  obtain ⟨ys, hload, hys⟩ :=
    Catalog.load_wal hwal hread hready h.names h.unopened hknown
  have hsame : Forall₂ SameLayout cat.tables ys := by
    refine hys.imp fun e y hy => ?_
    obtain ⟨t₀, hr⟩ := hy
    exact ⟨hr.name, hr.table.schema.trans hr.opened.schema,
      forall₂_map_eq hr.indexes fun x z hxz => hxz.1⟩
  refine ⟨ys, hload, hsame, h.replace ?_⟩
  have hmem := (forall₂_and_left (p := fun e => e ∈ cat.tables) _ _).mpr ⟨fun e he => he, hys⟩
  refine hmem.imp fun e y ⟨he, t₀, hr⟩ => ?_
  obtain ⟨hids, hbits⟩ := (hok e he).opened hr.opened
  obtain ⟨hheld, hids', hbits'⟩ := (hok e he).redo.replayed (hok e he).kept hids hbits hr.table
  have hledger' : y.table.ledger (segsOf e) (wbOf e) = gOf e := by
    rw [Table.ledger_congr hbits', hledger e he]
  have hrows : y.table.rowCount < 2 ^ 64 := by
    rw [← hheld.length_ledger (((hok e he).sync).sameIds hids'), hledger']
    exact hsize _ _ (hdb e he)
  exact ⟨hr.name, gOf e, hdb e he, clean_of_rebuilt hr.indexes, segsOf e, wbOf e,
    (hok e he).recovered hr hrows, (hfresh e he).congr hids' hbits', hledger'⟩

end Load

end NyxDb.Catalog
