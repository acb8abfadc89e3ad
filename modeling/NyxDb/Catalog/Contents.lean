import NyxDb.Catalog.TableLedger

/-!
# The contents of a database

What a database is for, said without files: every table is a ledger of rows, and a record of the
log creates a table, adds rows or removes some (`Contents.apply`).  `Tracks R cat db` connects a
catalog to its contents, entry by entry through a relation `R`; `Held` is such a relation for the
tables in memory, whatever their files have.
-/

namespace NyxDb

open List BTreeIndex TableEntry

/-- The rows of the tables of a database. -/
abbrev Contents : Type :=
  Bytes → Option (Ledger Row)

namespace Contents

/-- Remove some rows of a table and add others. -/
def change (name : Bytes) (ids : List Nat) (rows : List Row) (db : Contents) : Contents :=
  Function.update db name ((db name).map fun g => (g.kill ids).add rows)

def create (name : Bytes) (db : Contents) : Contents :=
  Function.update db name (some [])

/-- What a record of the log does.  A statement that updates no row adds none. -/
def apply (db : Contents) (name : Bytes) : WalBody → Contents
  | .createTable _ => db.create (canonicalize name)
  | .insert _ rows => db.change (canonicalize name) [] rows
  | .delete ids => db.change (canonicalize name) ids []
  | .update ids _ rows => if ids.isEmpty then db else db.change (canonicalize name) ids rows
  | .segmentFlush _ => db

theorem change_self {name : Bytes} {db : Contents} {g : Ledger Row} (h : db name = some g)
    (ids : List Nat) (rows : List Row) :
    db.change name ids rows = Function.update db name (some ((g.kill ids).add rows)) := by
  rw [change, h]
  rfl

theorem change_nil (name : Bytes) (db : Contents) : db.change name [] [] = db := by
  unfold change
  have hsame : ((db name).map fun g => Ledger.add [] (Ledger.kill [] g)) = db name := by
    cases db name with
    | none => rfl
    | some g => simp
  rw [hsame, Function.update_eq_self]

end Contents

namespace Catalog

open Table (Holds Files InSync Fresh flushThresholdDefault)

/-- Scans of the tables return the live rows of the contents. -/
def Shows (cat : Catalog) (db : Contents) : Prop :=
  ∀ name, (cat.find name).map (fun e => TableScan.scan e.table) = (db name).map fun g => .ok g.live

/-- The tables of the catalog are those of the contents, and each is related to its rows. -/
structure Tracks (R : TableEntry → Ledger Row → Prop) (cat : Catalog) (db : Contents) : Prop where
  names : (cat.tables.map name).Nodup
  unopened : ∀ x ∈ cat.unopened, x.2.dir.schema = none
  tables : ∀ e ∈ cat.tables, ∃ g, db e.name = some g ∧ R e g
  only : ∀ name g, db name = some g → ∃ e ∈ cat.tables, e.name = name

section Tracks

variable {R S : TableEntry → Ledger Row → Prop} {cat : Catalog} {db : Contents} {name : Bytes}
  {e e' : TableEntry} {g : Ledger Row}

section

variable (h : Tracks R cat db)
include h

theorem Tracks.find (hfind : cat.find name = some e) :
    ∃ g, db name = some g ∧ R e g := by
  obtain ⟨he, rfl⟩ := find_some hfind
  exact h.tables e he

/-- A table of the contents is there. -/
theorem Tracks.found (hg : db name = some g) : ∃ e, cat.find name = some e ∧ R e g := by
  obtain ⟨e, he, rfl⟩ := h.only name g hg
  have hfind := find_of_mem h.names he
  obtain ⟨_, hg', hr⟩ := h.find hfind
  cases hg.symm.trans hg'
  exact ⟨e, hfind, hr⟩

theorem Tracks.shows
    (hscan : ∀ e g, R e g → TableScan.scan e.table = .ok g.live) : cat.Shows db := by
  intro name
  cases hfind : cat.find name with
  | some e =>
    obtain ⟨g, hg, hr⟩ := h.find hfind
    rw [hg, Option.map_some, Option.map_some, hscan e g hr]
  | none =>
    cases hdb : db name with
    | none => rfl
    | some g =>
      obtain ⟨e, hfind', -⟩ := h.found hdb
      cases hfind.symm.trans hfind'

theorem Tracks.mono (himp : ∀ e ∈ cat.tables, ∀ g, R e g → S e g) :
    Tracks S cat db :=
  { h with tables := fun e he => (h.tables e he).imp fun g hg => ⟨hg.1, himp e he g hg.2⟩ }

/-- The log is no part of the tables. -/
theorem Tracks.withLog (wal : Option Bytes) (writer : Option Nat) :
    Tracks R { cat with wal := wal, writer := writer } db :=
  { h with }

/-- One entry is replaced, and the others keep what they had in another form. -/
theorem Tracks.putWith (hfind : cat.find name = some e)
    (hname : e'.name = e.name)
    (hother : ∀ x ∈ cat.tables, x.name ≠ name → ∀ g, R x g → S x g) (hnew : S e' g) :
    Tracks S (Catalog.put e' cat) (Function.update db name (some g)) := by
  obtain ⟨he, rfl⟩ := find_some hfind
  constructor
  · rw [names_put]
    exact h.names
  · exact h.unopened
  · intro x hx
    rcases mem_put hname hx with rfl | ⟨hx, hne⟩
    · refine ⟨g, ?_, hnew⟩
      rw [hname, Function.update_self]
    · obtain ⟨g', hg', hr⟩ := h.tables x hx
      refine ⟨g', ?_, hother x hx hne g' hr⟩
      rw [Function.update_of_ne hne, hg']
  · intro other g' hg'
    by_cases hother : other = e.name
    · subst hother
      refine ⟨e', ?_, hname⟩
      exact mem_map.mpr ⟨e, he, if_pos hname.symm⟩
    · rw [Function.update_of_ne hother] at hg'
      obtain ⟨x, hx, rfl⟩ := h.only other g' hg'
      exact ⟨x, mem_map.mpr ⟨x, hx, if_neg (hname ▸ hother)⟩, rfl⟩

theorem Tracks.put (hfind : cat.find name = some e) (hname : e'.name = e.name)
    (hnew : R e' g) : Tracks R (Catalog.put e' cat) (Function.update db name (some g)) :=
  h.putWith hfind hname (fun _ _ _ _ hr => hr) hnew

/-- All entries are replaced by entries of the same names. -/
theorem Tracks.replace {es : List TableEntry} {wal : Option Bytes}
    {writer : Option Nat}
    (hes : Forall₂ (fun e e' => e'.name = e.name ∧ ∃ g, db e.name = some g ∧ S e' g)
      cat.tables es) :
    Tracks S ⟨es, cat.unopened, wal, writer⟩ db := by
  have hnames : es.map name = cat.tables.map name :=
    forall₂_map_eq hes fun e y hy => hy.1
  constructor
  · rw [hnames]
    exact h.names
  · exact h.unopened
  · intro x hx
    obtain ⟨e, -, hname, g, hg, hs⟩ := forall₂_mem_right hes hx
    exact ⟨g, hname ▸ hg, hs⟩
  · intro other g hg
    obtain ⟨e, he, rfl⟩ := h.only other g hg
    have hmem : e.name ∈ es.map name := by
      rw [hnames]
      exact mem_map_of_mem he
    exact mem_map.mp hmem

/-- Every entry with its ledger, as operations on all entries need it. -/
theorem Tracks.forall₂_self :
    Forall₂ (fun e e' => e' = e ∧ ∃ g, db e.name = some g ∧ R e g) cat.tables cat.tables :=
  forall₂_same.mpr fun e he => ⟨rfl, h.tables e he⟩

theorem Tracks.create (hfind : cat.find e.name = none)
    {unopened : List (Bytes × TableImage)} (hsub : unopened ⊆ cat.unopened) (hnew : R e []) :
    Tracks R { cat with tables := cat.tables ++ [e], unopened := unopened } (db.create e.name) := by
  have hnone := find_eq_none.mp hfind
  constructor
  · rw [map_append, nodup_append]
    refine ⟨h.names, by simp, ?_⟩
    intro a ha b hb hab
    obtain ⟨x, hx, rfl⟩ := mem_map.mp ha
    obtain rfl : b = e.name := by simpa using hb
    exact hnone x hx hab
  · exact fun x hx => h.unopened x (hsub hx)
  · intro x hx
    rcases mem_append.mp hx with hx | hx
    · obtain ⟨g', hg', hr⟩ := h.tables x hx
      refine ⟨g', ?_, hr⟩
      rw [Contents.create, Function.update_of_ne (hnone x hx), hg']
    · obtain rfl : x = e := by simpa using hx
      exact ⟨[], Function.update_self _ _ _, hnew⟩
  · intro other g' hg'
    by_cases hother : other = e.name
    · exact ⟨e, mem_append_right _ mem_cons_self, hother.symm⟩
    · rw [Contents.create, Function.update_of_ne hother] at hg'
      obtain ⟨x, hx, hname⟩ := h.only other g' hg'
      exact ⟨x, mem_append_left _ hx, hname⟩

end

end Tracks

/-! ## Tables in memory -/

/-- An open table in order, with the rows of the ledger. -/
structure EntryHeld (e : TableEntry) (segs : List (List Row)) (wb : List Row) (dur : Nat)
    (g : Ledger Row) : Prop extends EntryOpen e segs wb dur where
  fresh : Fresh e.table wb
  ledger : e.table.ledger segs wb = g

/-- The table is in order and has the rows of the ledger; its files may be behind. -/
def Held (e : TableEntry) (g : Ledger Row) : Prop :=
  ∃ segs wb dur, EntryHeld e segs wb dur g

section Held

variable {e : TableEntry} {segs : List (List Row)} {wb : List Row} {dur : Nat} {g : Ledger Row}
  {t' : Table}

theorem EntryHeld.scan (h : EntryHeld e segs wb dur g) : TableScan.scan e.table = .ok g.live := by
  rw [h.holds.scan_ledger h.sync, h.ledger]

theorem Held.scan (h : Held e g) : TableScan.scan e.table = .ok g.live := by
  obtain ⟨_, _, _, h⟩ := h
  exact h.scan

variable (h : EntryHeld e segs wb dur g)
include h

/-- Another table of the same schema, in order. -/
theorem EntryHeld.withTable {segs' : List (List Row)}
    {wb' : List Row} {dur' : Nat} {g' : Ledger Row} (hschema : t'.schema = e.table.schema)
    (hfiles : Files t') (hheld : Holds t' segs' wb' dur') (hsync : InSync t')
    (hroom : wb'.length < flushThresholdDefault) (hfresh : Fresh t' wb')
    (hledger : t'.ledger segs' wb' = g') : EntryHeld { e with table := t' } segs' wb' dur' g' where
  canonical := h.canonical
  short := h.short
  columns := hschema ▸ h.columns
  files := hfiles
  stray := h.stray
  indexes := hschema ▸ h.indexes
  holds := hheld
  sync := hsync
  room := hroom
  fresh := hfresh
  ledger := hledger

/-- **Rows are removed and added**: to the write buffer, or to a new segment with the rest of the
write buffer. -/
theorem EntryHeld.exec_rows_cases {ids : List Nat} {rows : List Row} {n : Nat}
    (hexec : exec (Table.insertMany rows) (e.table.marked ids) = (.ok n, t')) :
    (∀ row ∈ rows, Conforms e.table.schema row) ∧ t'.schema = e.table.schema ∧
      ((∃ cols, t' = (e.table.marked ids).withColumns cols ∧
          EntryHeld { e with table := t' } segs (wb ++ rows) dur ((g.kill ids).add rows)) ∨
        (rows ≠ [] ∧ Table.SealedTo (e.table.marked ids) (wb ++ rows) t' ∧
          EntryHeld { e with table := t' } (segs ++ [wb ++ rows]) [] 0
            ((g.kill ids).add rows))) := by
  have hthreshold := h.files.threshold
  obtain ⟨hconf, hcases⟩ := h.holds.exec_apply h.files (hthreshold ▸ h.room) hexec
  have hheld := h.holds.marked ids
  have hfiles := h.files.marked ids
  have hids := Table.sameIds_marked e.table ids
  have hsync := h.sync.sameIds hids
  have hfresh := h.fresh.marked h.holds ids
  have hledger : (e.table.marked ids).ledger segs wb = g.kill ids := by
    rw [h.holds.ledger_marked h.sync, h.ledger]
  have hschema := Table.schema_marked e.table ids
  rcases hcases with ⟨hlt, cols, rfl, hheld'⟩ | ⟨hne, -, hheld', hsealed⟩
  · refine ⟨hconf, hschema, Or.inl ⟨cols, rfl, h.withTable hschema (hfiles.withColumns cols) hheld'
      ⟨hsync.1, hsync.2⟩ ?_ (hfresh.append cols rows) ?_⟩⟩
    · rw [length_append, ← hthreshold]
      exact hlt
    · rw [hheld.ledger_append hfresh, hledger]
  · have hschema' : t'.schema = e.table.schema := hsealed.schema.trans hschema
    refine ⟨hconf, hschema', Or.inr ⟨hne, hsealed, h.withTable hschema' hsealed.files hheld'
      (hsync.sealedTo hsealed) (by decide) ?_ ?_⟩⟩
    · exact Table.fresh_of_deleted_nil hsealed.deleted []
    · have hadd := hheld.ledger_append hfresh (e.table.marked ids).wbColumns rows
      rw [hsealed.ledger hheld, ← hledger, ← hadd]
      exact (Table.ledger_congr (Table.sameBits_withColumns _ _) _ _).symm

theorem EntryHeld.exec_rows {ids : List Nat} {rows : List Row}
    {n : Nat} (hexec : exec (Table.insertMany rows) (e.table.marked ids) = (.ok n, t')) :
    Held { e with table := t' } ((g.kill ids).add rows) ∧
      t'.schema = e.table.schema ∧ ∀ row ∈ rows, Conforms e.table.schema row := by
  obtain ⟨hconf, hschema, ⟨-, -, hheld⟩ | ⟨-, -, hheld⟩⟩ := h.exec_rows_cases hexec
  · exact ⟨⟨_, _, _, hheld⟩, hschema, hconf⟩
  · exact ⟨⟨_, _, _, hheld⟩, hschema, hconf⟩

theorem EntryHeld.withIndexes {idx : List (Bytes × IndexFile)}
    (hidx : ∀ x ∈ idx, IndexFits e.table.schema x.2 ∧ ∃ es, Holds x.2 es) :
    EntryHeld { e with indexes := idx } segs wb dur g :=
  { h with indexes := hidx }

end Held

/-- **The keys of new rows** are put into the indexes. -/
theorem EntryHeld.exec_keys {e e' : TableEntry} {segs : List (List Row)} {wb : List Row} {dur : Nat}
    {g : Ledger Row} (h : EntryHeld e segs wb dur g) {rows : List Row} {firstRowId : Nat}
    (hrows : ∀ row ∈ rows, Conforms e.table.schema row)
    (hexec : exec (onIndexes (insertKeys rows firstRowId)) e = (.ok (), e')) :
    EntryHeld e' segs wb dur g := by
  obtain ⟨_, hidx, hrel⟩ := exec_onIndexes (e := e) (c := insertKeys rows firstRowId)
    (Q := fun _ f' => IndexFits e.table.schema f' ∧ ∃ es, Holds f' es) fun x hx => by
      obtain ⟨hfit, _, hes⟩ := h.indexes x hx
      have hone := exec_of_onIndexes (congrArg Prod.fst hexec) hx
      obtain ⟨_, es', hes', hsame, hrun⟩ := exec_insertKeys hes hfit hrows firstRowId
      rcases hrun with ⟨hrun, -⟩ | ⟨hrun, -⟩
      · exact ⟨_, hrun, hfit.sameKeys hsame, es', hes'⟩
      · rw [hrun] at hone
        cases hone
  rw [hidx] at hexec
  obtain ⟨-, rfl⟩ := Prod.mk.inj hexec
  refine h.withIndexes fun x hx => ?_
  obtain ⟨_, -, -, hin⟩ := forall₂_mem_right hrel hx
  exact hin

end Catalog
end NyxDb
