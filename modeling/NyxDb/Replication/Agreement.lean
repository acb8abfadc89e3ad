import NyxDb.Catalog.Upkeep

/-!
# Agreement of a leader and its follower

A leader runs statements, a follower applies the records that they write to the log.  The two have
the same tables, the same live rows and the same unique constraints as long as every statement
says all it does in records of the log and the follower can apply these (`agreement`).

That is not so in general.  A table is created without its constraints on the follower, and
`CREATE INDEX`, `DROP TABLE` and `VACUUM` write no record at all; an `INSERT` is logged before it
is checked, so that the follower gets rows that the leader refused; and records name rows by
their ids, which a vacuum on either side changes.
-/

namespace NyxDb.Replication

open Catalog TableEntry List
open IndexFile (SameKeys)

/-! ## The system -/

/-- A leader and its follower.  `stopped` is set when a record could not be applied: the records
after it are not looked at. -/
structure Pair where
  leader : Catalog
  follower : Catalog
  stopped : Bool
  deriving DecidableEq, Repr

/-- What can happen: a statement on the leader, after which the follower applies the new records,
or a visit of the merge worker on either side. -/
inductive PairStep where
  | statement (s : Statement) (gate : Option Nat)
  | visitLeader (table : Bytes)
  | visitFollower (table : Bytes)
  deriving DecidableEq, Repr

/-- The catalog with an empty log. -/
def freshLog (cat : Catalog) : Catalog :=
  { cat with wal := some walHeader, writer := some walHeaderSize }

/-- The records that a statement writes: what it leaves in an empty log of which nothing may be
removed. -/
def loggedRecords (s : Statement) (cat : Catalog) : List WalRecord :=
  match readAll ((exec (s.run (some 0)) (freshLog cat)).2.wal.getD []) with
  | .ok recs => recs
  | .error _ => []

def applyRecords (recs : List WalRecord) : Op Catalog Unit :=
  forEach recs fun r => applyReplicatedRecord r.tableName r.body

/-- The merge worker looks at a table. -/
def visit (table : Bytes) : Op Catalog Unit :=
  onEntry table (onTable (Table.maybeMergeTable Table.mergeThresholdDefault))

namespace Pair

/-- The follower applies records, in order and up to the first that fails. -/
def receive (p : Pair) (recs : List WalRecord) : Pair :=
  if p.stopped then p
  else
    match exec (applyRecords recs) p.follower with
    | (.ok (), cat) => { p with follower := cat }
    | (.error _, cat) => { p with follower := cat, stopped := true }

def step (p : Pair) : PairStep → Pair
  | .statement s gate =>
    { p with leader := (exec (s.run gate) p.leader).2 }.receive (loggedRecords s p.leader)
  | .visitLeader table => { p with leader := (exec (visit table) p.leader).2 }
  | .visitFollower table => { p with follower := (exec (visit table) p.follower).2 }

/-- The rows of a table are the same on both sides, in some order. -/
def sameRows : Except Error (List Row) → Except Error (List Row) → Prop
  | .ok rows, .ok rows' => rows.Perm rows'
  | _, _ => False

/-- A table is there on both sides or on none, with the same schema, rows and unique indexes. -/
def sameTable : Option TableEntry → Option TableEntry → Prop
  | none, none => True
  | some e, some e' => e.table.schema = e'.table.schema ∧
      sameRows e.table.exposed e'.table.exposed ∧ e.uniqueIndexes = e'.uniqueIndexes
  | _, _ => False

/-- **Agreement.**  All records were applied, and the follower has what the leader has. -/
def Agree (p : Pair) : Prop :=
  p.stopped = false ∧ ∀ name, sameTable (p.leader.find name) (p.follower.find name)

/-- The rows of a table. -/
def rowsOf (name : Bytes) (cat : Catalog) : Option (List Row) :=
  (cat.find name).bind fun e => e.table.exposed.toOption

theorem exposed_of_rowsOf {name : Bytes} {cat : Catalog} {rows : List Row}
    (h : rowsOf name cat = some rows) :
    ∃ e, cat.find name = some e ∧ e.table.exposed = .ok rows := by
  obtain ⟨e, hfind, hrows⟩ := Option.bind_eq_some_iff.mp h
  cases hexposed : e.table.exposed with
  | error err =>
    rw [hexposed] at hrows
    cases hrows
  | ok xs =>
    rw [hexposed] at hrows
    cases hrows
    exact ⟨e, hfind, hexposed⟩

theorem Agree.perm_rows {p : Pair} (h : p.Agree) {name : Bytes} {rows rows' : List Row}
    (hl : rowsOf name p.leader = some rows) (hf : rowsOf name p.follower = some rows') :
    rows.Perm rows' := by
  obtain ⟨e, hfind, hexposed⟩ := exposed_of_rowsOf hl
  obtain ⟨_, hfind', hexposed'⟩ := exposed_of_rowsOf hf
  have hsame := h.2 name
  rw [hfind, hfind'] at hsame
  obtain ⟨-, hperm, -⟩ := hsame
  rwa [hexposed, hexposed'] at hperm

end Pair

/-! ## Steps that both sides accept -/

/-- A statement on the rows of a table, if there is one of the name, is accepted on both sides and
its numbers fit their fields. -/
def RowsAcceptedOnBoth (p : Pair) (name : Bytes) (body : Schema → WalBody) : Prop :=
  ∀ e, p.leader.find (canonicalize name) = some e →
    (body e.table.schema).FitsRecord ∧ Accepted e (body e.table.schema) ∧
    e.table.rowCount + (body e.table.schema).newRows.length < 2 ^ 64 ∧
    ∀ e', p.follower.find (canonicalize name) = some e' → Accepted e' (body e.table.schema)

/-- The condition: tables are created without constraints and under new names, no other unique
index is created, no table is dropped, statements on rows are accepted, and a table is vacuumed
only if nothing in it is deleted. -/
def AcceptedOnBoth (p : Pair) : PairStep → Prop
  | .statement (.createTable name schema constraints) _ =>
    constraints = [] ∧ p.leader.find (canonicalize name) = none ∧ Creatable name schema ∧
      Table.validateSchema schema = .ok ()
  | .statement (.dropTable name _) _ => p.leader.find (canonicalize name) = none
  | .statement (.createIndex table _ cols unique) _ =>
    p.leader.find (canonicalize table) = none ∨ unique = false ∧ cols.length < 256
  | .statement (.insert name rows) _ => RowsAcceptedOnBoth p name fun schema => .insert schema rows
  | .statement (.update name ids schema rows) _ => ids = [] ∨
      RowsAcceptedOnBoth p name (fun schema => .update ids schema rows) ∧
        ∀ e, p.leader.find (canonicalize name) = some e → schema = e.table.schema
  | .statement (.delete name ids) _ => ids = [] ∨ RowsAcceptedOnBoth p name fun _ => .delete ids
  | .statement (.deleteAll name) _ =>
    ∀ e, p.leader.find (canonicalize name) = some e → e.table.rowCount < 2 ^ 64
  | .statement (.vacuum name) _ =>
    ∀ e, p.leader.find (canonicalize name) = some e → Table.NoneDead e.table
  | .visitLeader table => ∀ e, p.leader.find table = some e → Table.NoVacuumDue e.table
  | .visitFollower table => ∀ e, p.follower.find table = some e → Table.NoVacuumDue e.table

/-! ## What both sides keep -/

/-- The schema and the unique indexes of the tables. -/
abbrev Layout : Type :=
  Bytes → Schema × List (Bytes × List UInt8)

/-- The table is in order, has the rows of the ledger, and is laid out as it should be. -/
def Keeps (layout : Layout) (e : TableEntry) (g : Ledger Row) : Prop :=
  Held e g ∧ (e.table.schema, e.uniqueIndexes) = layout e.name

section Keeps

variable {layout : Layout} {cat : Catalog} {db : Contents} {name : Bytes} {e : TableEntry}
  {g : Ledger Row}

theorem Held.exposed (h : Held e g) : e.table.exposed = .ok g.values := by
  obtain ⟨_, _, _, h⟩ := h
  rw [h.holds.exposed, h.ledger]

section

variable (h : Tracks (Keeps layout) cat db)
include h

/-- **Two catalogs with the same contents and the same layout agree.** -/
theorem sameTable_of_keeps {cat' : Catalog}
    (h' : Tracks (Keeps layout) cat' db) (name : Bytes) :
    Pair.sameTable (cat.find name) (cat'.find name) := by
  cases hfind : cat.find name with
  | some e =>
    obtain ⟨g, hg, hheld, hlayout⟩ := h.find hfind
    obtain ⟨e', hfind', hheld', hlayout'⟩ := h'.found hg
    rw [(find_some hfind).2, ← (find_some hfind').2, ← hlayout'] at hlayout
    obtain ⟨hschema, hunique⟩ := Prod.mk.inj hlayout
    rw [hfind']
    refine ⟨hschema, ?_, hunique⟩
    rw [Held.exposed hheld, Held.exposed hheld']
    exact Perm.refl _
  | none =>
    cases hfind' : cat'.find name with
    | none => trivial
    | some e' =>
      obtain ⟨g, hg, -⟩ := h'.find hfind'
      obtain ⟨e, hfound, -⟩ := h.found hg
      cases hfind.symm.trans hfound

/-- One entry is replaced by one with the same rows and the same layout. -/
theorem tracks_put_same (e' : TableEntry)
    (hfind : cat.find name = some e) (hname : e'.name = e.name) (hg : db name = some g)
    (hheld : Held e' g) (hschema : e'.table.schema = e.table.schema)
    (hunique : e'.uniqueIndexes = e.uniqueIndexes) :
    Tracks (Keeps layout) (put e' cat) db := by
  obtain ⟨-, -, -, hlayout⟩ := h.find hfind
  have hput := h.put hfind hname (g := g) ⟨hheld, by rw [hschema, hunique, hname, hlayout]⟩
  rwa [← hg, Function.update_eq_self] at hput

/-- **A statement on rows** keeps the layout. -/
theorem tracks_rowsChanged {body : WalBody} {t' : Table} {idx : List (Bytes × IndexFile)}
    (hrows : RowsChanged cat name body e t' idx)
    (hidx : Forall₂ (fun x y => y.1 = x.1 ∧ SameKeys x.2 y.2) e.indexes idx) :
    Tracks (Keeps layout) (put { e with table := t', indexes := idx } cat)
      (db.change name body.markedIds body.newRows) := by
  obtain ⟨g, hg, hheld, hlayout⟩ := h.find hrows.find
  obtain ⟨hheld', hschema⟩ := hrows.held hheld
  rw [Contents.change_self hg]
  refine h.put hrows.find rfl ⟨hheld', ?_⟩
  have hunique : ({ e with table := t', indexes := idx } : TableEntry).uniqueIndexes =
    e.uniqueIndexes := uniqueIndexes_congr hidx
  rw [← hlayout]
  exact Prod.ext hschema hunique

/-- **A checkpoint** keeps everything, and also a log of which nothing may be removed. -/
theorem tracks_flushAll (gate : Option Nat) :
    ∃ cat', exec (flushAll gate) cat = (.ok (), cat') ∧ Tracks (Keeps layout) cat' db ∧
      (gate = some 0 → 0 < cat.writer.getD 0 → cat'.wal = cat.wal) := by
  obtain ⟨_, hrel, hexec⟩ := exec_flushAll_of h.forall₂_self
    (S := fun e y => y.name = e.name ∧ ∃ g, db e.name = some g ∧ Keeps layout y g)
    (fun _ e ⟨he, g, hg, ⟨segs, wb, dur, hheld⟩, hlayout⟩ => by
      subst he
      obtain ⟨t', hrun₁, hschema, h₁⟩ := hheld.exec_flushEntry
      obtain ⟨idx, hrun₂, h₂, -, hidx⟩ := h₁.exec_flushIndexes
      refine ⟨_, _, hrun₁, hrun₂, rfl, g, hg, ⟨segs, wb, wb.length, { h₂ with }⟩, ?_⟩
      rw [← hlayout]
      exact Prod.ext hschema (uniqueIndexes_congr hidx)) gate
  refine ⟨_, hexec, ?_, ?_⟩
  · unfold checkpointed
    split <;> exact h.replace hrel
  · rintro rfl _
    rw [checkpointed, compacts, if_neg]
    simp only [Option.all_some, Bool.and_eq_true, decide_eq_true_eq]
    omega

theorem tracks_afterInsert (gate : Option Nat) (n : Nat) :
    Tracks (Keeps layout) (exec (afterInsert gate n) cat).2 db ∧ (gate = some 0 →
      0 < cat.writer.getD 0 → (exec (afterInsert gate n) cat).2.wal = cat.wal) := by
  unfold afterInsert
  rw [exec_get_bind]
  split
  · obtain ⟨_, hexec, hkept⟩ := tracks_flushAll h gate
    rw [exec_bind_ok hexec]
    exact hkept
  · exact ⟨h, fun _ _ => rfl⟩

end

end Keeps

/-! ## The records of a statement -/

section Records

variable {s : Statement} {cat : Catalog} {bs : Bytes} {call : LogCall}

/-- What a statement leaves in the empty log. -/
theorem loggedRecords_eq {recs : List WalRecord}
    (hwal : (exec (s.run (some 0)) (freshLog cat)).2.wal = some bs)
    (hread : readAll bs = .ok recs) : loggedRecords s cat = recs := by
  unfold loggedRecords
  rw [hwal, Option.getD_some, hread]

/-- The records of a call of the writer and of a seal. -/
theorem readAll_call (hbytes : call.bytes = .ok bs) (hfits : call.FitsRecord)
    (htable : call.table.length < 2 ^ 16) (before : Nat) {after : Nat} (hafter : after < 2 ^ 64) :
    ∃ recs, readAll (walHeader ++ (bs ++ sealBytes call.table before after)) = .ok recs ∧
      recs.map (fun r => (r.tableName, r.body)) =
        (if bs.isEmpty then [] else [(call.table, call.body.logged)]) ++
          if before < after then [(call.table, .segmentFlush after)] else [] := by
  -- the log with the record of the call
  obtain ⟨recs, hlog, hrecs⟩ : ∃ recs, LogHolds (walHeader ++ bs) recs ∧
      recs.map (fun r => (r.tableName, r.body)) =
        if bs.isEmpty then [] else [(call.table, call.body.logged)] := by
    obtain ⟨payload, hp, hbytes⟩ := except_bind_eq_ok.mp hbytes
    cases payload with
    | none =>
      cases hbytes
      exact ⟨[], .empty, rfl⟩
    | some payload =>
      cases hbytes
      refine ⟨_, .append .empty (LogCall.encodes hp hfits), ?_⟩
      rw [if_neg (by simpa using recordBytes_ne_nil payload)]
      rfl
  unfold sealBytes
  split
  · have hmore := hlog.append (encodes_segmentFlush htable hafter)
    rw [append_assoc] at hmore
    refine ⟨_, readAll_of_logHolds hmore, ?_⟩
    rw [map_append, hrecs]
    rfl
  · rw [append_nil, append_nil]
    exact ⟨recs, readAll_of_logHolds hlog, hrecs⟩

end Records

/-! ## Applying the records -/

section Apply

variable {layout : Layout} {db : Contents} {name : Bytes} {e : TableEntry} {body : WalBody}

/-- What the record says is accepted if the statement is. -/
theorem Accepted.logged (h : Accepted e body) : Accepted e body.logged := by
  refine ⟨?_, ?_, ?_⟩
  · rw [newRows_logged]
    exact h.rows
  · rw [newRows_logged]
    exact h.keys
  · intro schema rows heq
    cases body with
    | insert schema' rows' =>
      cases heq
      exact h.unique schema' rows rfl
    | _ => cases heq

variable {recs : List WalRecord}

/-- Records are applied without a look at their offsets. -/
theorem applyRecords_congr {xs : List (Bytes × WalBody)}
    (h : recs.map (fun r => (r.tableName, r.body)) = xs) :
    applyRecords recs = forEach xs fun x => applyReplicatedRecord x.1 x.2 := by
  rw [← h, Proc.forEach_map]
  rfl

/-- **The follower applies the records of a statement on rows.** -/
theorem tracks_receive {cat : Catalog} (h : Tracks (Keeps layout) cat db)
    (hfind : cat.find name = some e) (hacc : Accepted e body) (heff : Effective body)
    {before after : Nat} (hrecs : recs.map (fun r => (r.tableName, r.body)) =
      (name, body.logged) :: if before < after then [(name, .segmentFlush after)] else []) :
    ∃ cat', exec (applyRecords recs) cat = (.ok (), cat') ∧
      Tracks (Keeps layout) cat' (db.change name body.markedIds body.newRows) := by
  obtain ⟨g, -, ⟨_, _, _, hheld⟩, -⟩ := h.find hfind
  have hname : canonicalize name = name := by
    rw [← (find_some hfind).2]
    exact hheld.canonical
  obtain ⟨_, _, hrows, hidx⟩ := hheld.rowsChanged hfind (Accepted.logged hacc)
  have htracks := tracks_rowsChanged h hrows hidx
  rw [newRows_logged, markedIds_logged] at htracks
  refine ⟨_, ?_, htracks⟩
  rw [← hname] at hrows
  rw [applyRecords_congr hrecs, exec_forEach_cons, exec_bind_ok
    (hrows.exec_applyReplicatedRecord (by cases body <;> exact heff) (Accepted.logged hacc).unique)]
  -- the record of a seal does nothing
  split <;> rfl

end Apply

/-! ## Statements on rows -/

/-- Both sides have the same contents and the same layout. -/
def Linked (p : Pair) : Prop :=
  p.stopped = false ∧ ∃ layout db, Tracks (Keeps layout) p.leader db ∧
    Tracks (Keeps layout) p.follower db

variable {gate : Option Nat} {s : Statement}

theorem linked_statement {p : Pair} {recs : List WalRecord}
    {layout : Layout} {cat : Catalog} {db : Contents} (hstopped : p.stopped = false)
    (hl : Tracks (Keeps layout) (exec (s.run gate) p.leader).2 db)
    (hlogged : loggedRecords s p.leader = recs)
    (hexec : exec (applyRecords recs) p.follower = (.ok (), cat))
    (hf : Tracks (Keeps layout) cat db) : Linked (p.step (.statement s gate)) := by
  rw [Pair.step, Pair.receive]
  rw [hlogged, hstopped, if_neg Bool.false_ne_true, hexec]
  exact ⟨rfl, layout, db, hl, hf⟩

/-- How a statement on rows ends: at once, or with the end of an insertion. -/
def Ends (gate : Option Nat) (cat cat' : Catalog) : Prop :=
  cat' = cat ∨ ∃ n, cat' = (exec (afterInsert gate n) cat).2

section Rows

variable {layout : Layout} {cat cat' : Catalog} {db : Contents} {name : Bytes} {e : TableEntry}
  {t' : Table} {idx : List (Bytes × IndexFile)} {bs : Bytes} {body : WalBody}

theorem Ends.tracks (h : Ends gate cat cat')
    (ht : Tracks (Keeps layout) cat db) : Tracks (Keeps layout) cat' db := by
  rcases h with rfl | ⟨n, rfl⟩
  · exact ht
  · exact (tracks_afterInsert ht gate n).1

/-- A log of which nothing may be removed is kept. -/
theorem Ends.wal (h : Ends (some 0) cat cat') (ht : Tracks (Keeps layout) cat db)
    (hopen : 0 < cat.writer.getD 0) : cat'.wal = cat.wal := by
  rcases h with rfl | ⟨n, rfl⟩
  · rfl
  · exact (tracks_afterInsert ht _ n).2 rfl hopen

/-- The log that a statement on rows leaves, if there was an empty one. -/
theorem changed_freshLog (cat : Catalog) (name : Bytes) (e : TableEntry) (t' : Table)
    (idx : List (Bytes × IndexFile)) (bs : Bytes) :
    ((freshLog cat).changed name e t' idx bs).wal =
        some (walHeader ++ (bs ++ sealBytes name e.table.wbBaseRowId t'.wbBaseRowId)) ∧
      0 < ((freshLog cat).changed name e t' idx bs).writer.getD 0 := by
  unfold changed appended
  split
  · next hempty =>
    rw [isEmpty_iff.mp hempty]
    exact ⟨rfl, show 0 < walHeaderSize by decide⟩
  · refine ⟨rfl, ?_⟩
    exact Nat.lt_of_lt_of_le (by decide) (Nat.le_add_right _ _)

/-- **A statement on rows**, on both sides. -/
theorem linked_rows {p : Pair} (h : Linked p)
    (hfind : p.leader.find name = some e) (hbytes : LogCall.bytes ⟨name, body⟩ = .ok bs)
    (hfits : body.FitsRecord) (hacc : Accepted e body)
    (hsize : e.table.rowCount + body.newRows.length < 2 ^ 64)
    (hacc' : ∀ e', p.follower.find name = some e' → Accepted e' body)
    (hrun : ∀ gate cat t' idx, RowsChanged cat name body e t' idx →
      Ends gate (cat.changed name e t' idx bs) (exec (s.run gate) cat).2)
    (heff : Effective body ∧ bs ≠ [] ∨ body.newRows = [] ∧ body.markedIds = [] ∧ bs = []) :
    Linked (p.step (.statement s gate)) := by
  obtain ⟨hstopped, layout, db, hl, hf⟩ := h
  obtain ⟨g, hg, hkept, -⟩ := hl.find hfind
  obtain ⟨_, _, _, hheld⟩ := id hkept
  have htable : name.length < 2 ^ 16 := by
    rw [← (find_some hfind).2]
    exact hheld.short
  obtain ⟨t', idx, hrows, hidx⟩ := hheld.rowsChanged hfind hacc
  have hfresh : RowsChanged (freshLog p.leader) name body e t' idx :=
    ⟨hfind, hrows.table, hrows.keys⟩
  have hafter : t'.wbBaseRowId < 2 ^ 64 := by
    obtain ⟨_, _, _, hheld'⟩ := (hrows.held hkept).1
    have hle : t'.wbBaseRowId ≤ t'.rowCount := Nat.le_add_right _ _
    have hrowCount : t'.rowCount = _ := hheld'.rowCount
    have hcount : ((g.kill body.markedIds).add body.newRows).length =
        e.table.rowCount + body.newRows.length := by
      rw [hheld.rowCount, Ledger.length_add, Ledger.length_kill]
    omega
  -- the leader
  have hleader := (hrun gate _ t' idx hrows).tracks ((tracks_rowsChanged hl hrows hidx).logged _)
  -- the records
  obtain ⟨recs, hread, hrecs⟩ := readAll_call hbytes
    (Or.inr ⟨htable, hfits⟩) htable e.table.wbBaseRowId hafter
  have hlogged : loggedRecords s p.leader = recs := by
    obtain ⟨hwal, hopen⟩ := changed_freshLog p.leader name e t' idx bs
    refine loggedRecords_eq ?_ hread
    rw [(hrun (some 0) _ t' idx hfresh).wal
      ((tracks_rowsChanged (hl.withLog _ _) hfresh hidx).logged _) hopen, hwal]
  -- the follower
  rcases heff with ⟨heff, hne⟩ | ⟨hnew, hmarked, rfl⟩
  · obtain ⟨e', hfind', -⟩ := hf.found hg
    rw [if_neg (by simpa using hne)] at hrecs
    obtain ⟨_, hexec, hfollower⟩ := tracks_receive hf hfind' (hacc' e' hfind') heff hrecs
    exact linked_statement hstopped hleader hlogged hexec hfollower
  · -- nothing was written, and nothing was changed
    rw [hnew, hmarked, Contents.change_nil] at hleader
    refine linked_statement hstopped hleader hlogged ?_ hf
    rw [applyRecords_congr hrecs, isEmpty_nil, if_pos rfl, nil_append]
    split <;> rfl

end Rows

/-! ## Other statements -/

section Other

variable {layout : Layout} {p : Pair} {cat : Catalog} {db : Contents} {s : Statement} {name : Bytes}

/-- A statement that writes no records and keeps the contents of the leader. -/
theorem linked_unlogged (h : Linked p)
    (hrun : ∀ layout db cat gate, cat.find = p.leader.find → Tracks (Keeps layout) cat db →
      Tracks (Keeps layout) (exec (s.run gate) cat).2 db ∧
        (gate = some 0 → cat = freshLog p.leader →
          (exec (s.run gate) cat).2.wal = some walHeader)) :
    Linked (p.step (.statement s gate)) := by
  obtain ⟨hstopped, layout, db, hl, hf⟩ := h
  have hnone : loggedRecords s p.leader = [] :=
    loggedRecords_eq ((hrun layout db (freshLog p.leader) (some 0) rfl (hl.withLog _ _)).2 rfl rfl)
      (readAll_of_logHolds .empty)
  exact linked_statement hstopped (hrun layout db p.leader gate rfl hl).1 hnone rfl hf

theorem linked_unchanged (h : Linked p)
    (hrun : ∀ cat gate, cat.find = p.leader.find → (exec (s.run gate) cat).2 = cat) :
    Linked (p.step (.statement s gate)) := by
  refine linked_unlogged h fun layout db cat gate hfind ht => ?_
  rw [hrun cat gate hfind]
  refine ⟨ht, fun _ hcat => ?_⟩
  rw [hcat]
  rfl

section

variable (h : Tracks (Keeps layout) cat db)
include h

/-- **`CREATE INDEX`**, not unique. -/
theorem tracks_addIndex (table index : Bytes) {cols : List UInt8} (hfew : cols.length < 256) :
    Tracks (Keeps layout) (exec (addIndex table index cols false) cat).2 db ∧
      (exec (addIndex table index cols false) cat).2.wal = cat.wal := by
  have hheld : Tracks Held cat db := h.mono fun _ _ _ hr => hr.1
  rcases addIndex_cases hheld table index hfew with ⟨_, hfail⟩ |
    ⟨e, f', g, hfind, hg, hrun, hheld', hunique⟩
  · rw [hfail]
    exact ⟨h, rfl⟩
  · rw [hrun]
    refine ⟨tracks_put_same h _ hfind rfl hg hheld' rfl ?_, rfl⟩
    simp [uniqueIndexes, hunique]

/-- **`VACUUM`** of a table in which nothing is deleted. -/
theorem tracks_runVacuum (gate : Option Nat)
    (hnone : ∀ e, cat.find (canonicalize name) = some e → Table.NoneDead e.table) :
    Tracks (Keeps layout) (exec (runVacuum gate name) cat).2 db ∧
      (gate = some 0 → 0 < cat.writer.getD 0 →
        (exec (runVacuum gate name) cat).2.wal = cat.wal) := by
  unfold runVacuum
  rw [exec_get_bind]
  cases hfind : cat.find (canonicalize name) with
  | none => exact ⟨h, fun _ _ => rfl⟩
  | some e =>
    obtain ⟨g, hg, ⟨_, _, _, hheld⟩, -⟩ := h.find hfind
    obtain ⟨t', hseal, hkept, hsealed⟩ := hheld.exec_flushWriteBuffer
    have hschema : t'.schema = e.table.schema := by
      rcases hsealed with rfl | hsealed
      · rfl
      · exact hsealed.schema
    have hfirst : exec (mapError (Error.within (ascii "vacuum: seal failed: "))
        (onEntry (canonicalize name) (onTable Table.flushWriteBuffer))) cat =
        (.ok (), put { e with table := t' } cat) := by
      rw [exec_mapError, exec_onEntry_onTable hfind hseal]
      rfl
    have hself : (put { e with table := t' } cat).find (canonicalize name) =
        some { e with table := t' } := find_put_self hfind (find_some hfind).2
    have hvacuum : exec (onEntry (canonicalize name) (onTable Table.vacuumTable))
        (put { e with table := t' } cat) =
        (.ok 0, put { e with table := t' } cat) := by
      rw [exec_onEntry_onTable hself ((hnone e hfind).exec_vacuumTable hheld.holds hsealed),
        put_put rfl]
    obtain ⟨cat', hflush, hkept', hwal⟩ :=
      tracks_flushAll (tracks_put_same h { e with table := t' } hfind rfl hg hkept hschema rfl) gate
    have hlast : exec (mapError (Error.within (ascii "vacuum: checkpoint failed: "))
        (flushAll gate)) (put { e with table := t' } cat) = (.ok (), cat') := by
      rw [exec_mapError, hflush]
      rfl
    rw [exec_bind_ok hfirst, exec_bind_ok hvacuum, exec_bind_ok hlast]
    exact ⟨hkept', hwal⟩

/-- The merge worker finds nothing to vacuum. -/
theorem tracks_visit (hcalm : ∀ e, cat.find name = some e → Table.NoVacuumDue e.table) :
    Tracks (Keeps layout) (exec (visit name) cat).2 db := by
  unfold visit
  cases hfind : cat.find name with
  | none =>
    unfold onEntry
    rw [exec_get_bind, hfind]
    exact h
  | some e =>
    obtain ⟨g, hg, ⟨_, _, _, hheld⟩, -⟩ := h.find hfind
    obtain ⟨_, hmerge, hschema, hkept⟩ :=
      hheld.exec_mergeSegments (k := Table.mergeThresholdDefault) (by decide)
    rw [← (hcalm e hfind).exec_maybeMergeTable] at hmerge
    rw [exec_onEntry_onTable hfind hmerge]
    exact tracks_put_same h _ hfind rfl hg hkept hschema rfl

end

variable {schema : Schema}

/-- **A new table.** -/
theorem tracks_createTable {t : Table} (h : Tracks (Keeps layout) cat db)
    (hfind : cat.find (canonicalize name) = none) (hnew : Creatable name schema)
    (hcreate : Table.create schema Table.flushThresholdDefault = .ok t) :
    ∃ t', exec (createTable name schema) cat = (.ok (),
        put (newEntry (canonicalize name) t') (created cat (canonicalize name) t)) ∧
      Tracks (Keeps (Function.update layout (canonicalize name) (schema, [])))
        (put (newEntry (canonicalize name) t') (created cat (canonicalize name) t))
        (db.create (canonicalize name)) := by
  obtain ⟨hheld, hschema, t', hflush, hschema', hheld'⟩ := held_newEntry hnew hcreate
  refine ⟨t', ?_, ?_⟩
  · unfold createTable
    rw [exec_get_bind, hfind]
    rw [hcreate, exec_bind_ok (exec_mapError _ _ _), exec_bind_ok (exec_crashPoints _ _),
      exec_bind_ok (exec_fileOp _ _)]
    exact exec_onEntry_onTable (find_created t hfind) hflush
  · have hold : Tracks (Keeps (Function.update layout (canonicalize name)
        (schema, []))) cat db := by
      refine h.mono fun e he g hkept => ⟨hkept.1, ?_⟩
      rw [Function.update_of_ne (find_eq_none.mp hfind e he)]
      exact hkept.2
    have hlayout : ∀ x : Table, x.schema = schema → ((newEntry (canonicalize name) x).table.schema,
        (newEntry (canonicalize name) x).uniqueIndexes) =
        Function.update layout (canonicalize name) (schema, []) (canonicalize name) := by
      intro x hx
      rw [Function.update_self]
      exact Prod.ext hx rfl
    exact hold.created hfind ⟨⟨[], [], 0, hheld⟩, hlayout t hschema⟩
      ⟨⟨[], [], 0, hheld'⟩, hlayout t' hschema'⟩

theorem exec_addTable_new {cat' : Catalog}
    (hexec : exec (createTable name schema) (cat.logOpened.appended
      (recordBytes (createTablePayload (canonicalize name) schema))) = (.ok (), cat')) :
    exec (addTable name schema []) cat = (.ok (), cat') := by
  unfold addTable
  rw [exec_bind_ok (exec_ensureWal cat), exec_bind_ok (exec_writeRecord _ _), exec_bind_ok hexec]
  rfl

/-- **`CREATE TABLE`** without constraints, on both sides. -/
theorem linked_createTable (h : Linked p) {t : Table}
    (hfind : p.leader.find (canonicalize name) = none) (hnew : Creatable name schema)
    (hcreate : Table.create schema Table.flushThresholdDefault = .ok t) :
    Linked (p.step (.statement (.createTable name schema []) gate)) := by
  obtain ⟨hstopped, _, _, hl, hf⟩ := h
  have hnone : ∀ cat : Catalog, cat.find (canonicalize name) = none →
      (cat.logOpened.appended (recordBytes (createTablePayload (canonicalize name) schema))).find
        (canonicalize name) = none := by
    intro cat hcat
    rw [find_appended, find_logOpened, hcat]
  -- the leader
  obtain ⟨_, hexec₁, htracks₁⟩ := tracks_createTable (hl.logged _) (hnone _ hfind) hnew hcreate
  -- the records
  have hlogged : ∃ recs, loggedRecords (.createTable name schema []) p.leader = recs ∧
      recs.map (fun r => (r.tableName, r.body)) = [(canonicalize name, .createTable schema)] := by
    obtain ⟨_, hexec₂, -⟩ := tracks_createTable ((hl.withLog _ _).logged _)
      (hnone (freshLog p.leader) hfind) hnew hcreate
    have hshort : (canonicalize name).length < 2 ^ 16 := by
      rw [length_canonicalize]
      exact hnew.1
    have hlog := LogHolds.append .empty (encodes_createTable hshort hnew.2.1)
    refine ⟨_, loggedRecords_eq ?_ (readAll_of_logHolds hlog), rfl⟩
    exact congrArg (fun r => r.2.wal) (exec_addTable_new hexec₂)
  obtain ⟨recs, hlogged, hrecs⟩ := hlogged
  -- the follower
  have hfind' : p.follower.find (canonicalize (canonicalize name)) = none := by
    rw [canonicalize_idem]
    cases hfind' : p.follower.find (canonicalize name) with
    | none => rfl
    | some e =>
      obtain ⟨g, hg, -⟩ := hf.find hfind'
      obtain ⟨e', hfound, -⟩ := hl.found hg
      cases hfind.symm.trans hfound
  obtain ⟨_, hexec₃, htracks₃⟩ := tracks_createTable hf hfind'
    ⟨by rw [length_canonicalize]; exact hnew.1, hnew.2⟩ hcreate
  rw [canonicalize_idem] at hexec₃ htracks₃
  have happly : ∀ cat, exec (createTable (canonicalize name) schema) p.follower = (.ok (), cat) →
      exec (applyRecords recs) p.follower = (.ok (), cat) := by
    intro cat hexec
    rw [applyRecords_congr hrecs]
    show exec (createTable (canonicalize name) schema >>= fun _ => _) p.follower = _
    rw [exec_bind_ok hexec]
    rfl
  refine linked_statement hstopped ?_ hlogged (happly _ hexec₃) htracks₃
  show Tracks _ (exec (addTable name schema []) p.leader).2 _
  rw [exec_addTable_new hexec₁]
  exact htracks₁

end Other

/-! ## Runs -/

section Runs

variable {p : Pair}

/-- The result of a statement is not looked at. -/
theorem snd_exec_run {α : Type} (c : Op Catalog α) (cat : Catalog) : (exec (do
      let _ ← c
      pure ()) cat).2 = (exec c cat).2 :=
  exec_bind_pure_snd c (fun _ => ()) cat

variable {name : Bytes} {ids : List Nat}

/-- The table that has to be there for a statement. -/
def target : Statement → Option Bytes
  | .createTable _ _ _ => none
  | .dropTable name _ | .createIndex name _ _ _ | .insert name _ | .update name _ _ _
  | .delete name _ | .deleteAll name | .vacuum name => some name

section

variable (h : Linked p)
include h

/-- A statement on a table that is not there is rejected and writes nothing. -/
theorem linked_missing (hs : target s = some name)
    (hfind : p.leader.find (canonicalize name) = none) :
    Linked (p.step (.statement s gate)) := by
  refine linked_unchanged h fun cat gate hcat => ?_
  rw [← hcat] at hfind
  cases s <;> cases hs <;> unfold Statement.run <;> dsimp only
  case dropTable ifExists =>
    rw [dropTable, exec_get_bind, hfind]
    cases ifExists <;> rfl
  case createIndex =>
    rw [addIndex, exec_get_bind, hfind]
    rfl
  all_goals rw [snd_exec_run]
  case insert | deleteAll | vacuum =>
    simp only [Catalog.insert, deleteAll, runVacuum, exec_get_bind, hfind]
    rfl
  case update | delete =>
    simp only [updateRows, deleteRows]
    split
    · rfl
    · rw [exec_get_bind, hfind]
      rfl

/-- So only a table that is there has to be looked at. -/
theorem linked_of_found (hs : target s = some name)
    (hfound : ∀ e, p.leader.find (canonicalize name) = some e →
      Linked (p.step (.statement s gate))) : Linked (p.step (.statement s gate)) := by
  cases hfind : p.leader.find (canonicalize name) with
  | none => exact linked_missing h hs hfind
  | some e => exact hfound e hfind

theorem linked_insert {rows : List Row}
    (hc : RowsAcceptedOnBoth p name fun schema => .insert schema rows) :
    Linked (p.step (.statement (.insert name rows) gate)) := by
  refine linked_of_found h rfl fun e hfind => ?_
  obtain ⟨hfits, hacc, hsize, hacc'⟩ := hc e hfind
  obtain ⟨_, hbytes, hempty⟩ := bytes_insert (canonicalize name) hacc.rows
  refine linked_rows h hfind hbytes hfits hacc hsize hacc' ?_ ?_
  · intro gate cat t' idx hrows
    obtain ⟨n, hexec⟩ := hrows.exec_insert gate hbytes (hacc.unique _ rows rfl)
    refine Or.inr ⟨n, ?_⟩
    rw [← hexec]
    exact snd_exec_run _ cat
  · rcases eq_or_ne rows [] with rfl | hne
    · exact Or.inr ⟨rfl, rfl, hempty.mpr rfl⟩
    · exact Or.inl ⟨hne, fun hbs => hne (hempty.mp hbs)⟩

theorem linked_update {schema : Schema} {rows : List Row} (hids : ids ≠ [])
    (hc : RowsAcceptedOnBoth p name fun schema => .update ids schema rows)
    (hschema : ∀ e, p.leader.find (canonicalize name) = some e → schema = e.table.schema) :
    Linked (p.step (.statement (.update name ids schema rows) gate)) := by
  refine linked_of_found h rfl fun e hfind => ?_
  obtain ⟨hfits, hacc, hsize, hacc'⟩ := hc e hfind
  obtain rfl := hschema e hfind
  have hconforms : ∀ row ∈ rows, Conforms e.table.schema row := hacc.rows
  obtain ⟨_, hbytes, hne⟩ := bytes_update (canonicalize name) ids hconforms
  refine linked_rows h hfind hbytes hfits hacc hsize hacc' ?_ (Or.inl ⟨hids, hne⟩)
  intro gate cat t' idx hrows
  refine Or.inl ?_
  refine (snd_exec_run (updateRows name ids e.table.schema rows) cat).trans ?_
  rw [hrows.exec_updateRows hids hbytes]

/-- A deletion, as a statement of its own or as one of all rows. -/
theorem linked_deletion {e : TableEntry} (hids : ids ≠ [])
    (hfind : p.leader.find (canonicalize name) = some e) (hfits : (WalBody.delete ids).FitsRecord)
    (hsize : e.table.rowCount < 2 ^ 64) (hrun : ∀ gate cat, cat.find (canonicalize name) = some e →
      (exec (s.run gate) cat).2 = (exec (deleteRows name ids) cat).2) :
    Linked (p.step (.statement s gate)) := by
  have hbytes : LogCall.bytes ⟨canonicalize name, .delete ids⟩ =
    .ok (recordBytes (deletePayload (canonicalize name) ids)) := rfl
  refine linked_rows h hfind hbytes hfits (accepted_delete e ids) hsize
    (fun e' _ => accepted_delete e' ids) ?_ (Or.inl ⟨hids, recordBytes_ne_nil _⟩)
  intro gate cat t' idx hrows
  refine Or.inl ?_
  rw [hrun gate cat hrows.find, hrows.exec_deleteRows hids hbytes]

theorem linked_delete (hids : ids ≠ []) (hc : RowsAcceptedOnBoth p name fun _ => .delete ids) :
    Linked (p.step (.statement (.delete name ids) gate)) := by
  refine linked_of_found h rfl fun e hfind => ?_
  obtain ⟨hfits, -, hsize, -⟩ := hc e hfind
  exact linked_deletion h hids hfind hfits hsize fun gate cat _ => snd_exec_run _ cat

theorem linked_deleteAll
    (hc : ∀ e, p.leader.find (canonicalize name) = some e → e.table.rowCount < 2 ^ 64) :
    Linked (p.step (.statement (.deleteAll name) gate)) := by
  have hrun : ∀ cat gate, (exec (Statement.run gate (.deleteAll name)) cat).2 =
      (exec (deleteAll name) cat).2 := fun cat _ => snd_exec_run _ cat
  refine linked_of_found h rfl fun e hfind => ?_
  by_cases hempty : e.table.rowCount = 0
  · refine linked_unchanged h fun cat gate hcat => ?_
    rw [hrun, deleteAll, exec_get_bind, congrFun hcat, hfind]
    dsimp only
    rw [if_pos hempty]
    rfl
  · have hsize := hc e hfind
    have hids : range e.table.rowCount ≠ [] := fun hnil =>
      hempty (by simpa using congrArg length hnil)
    refine linked_deletion h hids hfind ?_ hsize ?_
    · refine ⟨by rw [length_range]; exact hsize, fun i hi => ?_⟩
      exact Nat.lt_trans (mem_range.mp hi) hsize
    · intro gate cat hcat
      rw [hrun, deleteAll, exec_get_bind, hcat]
      dsimp only
      rw [if_neg hempty]

/-- **One step.** -/
theorem linked_step {step : PairStep} (hc : AcceptedOnBoth p step) :
    Linked (p.step step) := by
  cases step with
  | visitLeader table =>
    obtain ⟨hstopped, layout, db, hl, hf⟩ := h
    exact ⟨hstopped, layout, db, tracks_visit hl hc, hf⟩
  | visitFollower table =>
    obtain ⟨hstopped, layout, db, hl, hf⟩ := h
    exact ⟨hstopped, layout, db, hl, tracks_visit hf hc⟩
  | statement s gate =>
    cases s with
    | createTable name schema constraints =>
      obtain ⟨rfl, hfind, hnew, hvalid⟩ := hc
      obtain ⟨t, hcreate⟩ := Table.create_of_valid hnew.2.2 hvalid Table.flushThresholdDefault
      exact linked_createTable h hfind hnew hcreate
    | dropTable name ifExists => exact linked_missing h rfl hc
    | createIndex table index cols unique =>
      rcases hc with hfind | ⟨rfl, hfew⟩
      · exact linked_missing h rfl hfind
      · refine linked_unlogged h fun layout db cat gate _ ht => ?_
        obtain ⟨hkept, hwal⟩ := tracks_addIndex ht table index hfew
        refine ⟨hkept, fun _ hcat => hwal.trans ?_⟩
        rw [hcat]
        rfl
    | insert name rows => exact linked_insert h hc
    | update name ids schema rows =>
      rcases eq_or_ne ids [] with rfl | hids
      · exact linked_unchanged h fun cat gate _ => rfl
      · obtain ⟨hrows, hschema⟩ := hc.resolve_left hids
        exact linked_update h hids hrows hschema
    | delete name ids =>
      rcases eq_or_ne ids [] with rfl | hids
      · exact linked_unchanged h fun cat gate _ => rfl
      · exact linked_delete h hids (hc.resolve_left hids)
    | deleteAll name => exact linked_deleteAll h hc
    | vacuum name =>
      refine linked_unlogged h fun layout db cat gate hcat ht => ?_
      have hnone : ∀ e, cat.find (canonicalize name) = some e → Table.NoneDead e.table := by
        rwa [hcat]
      obtain ⟨hkept, hwal⟩ := tracks_runVacuum ht gate hnone
      rw [show (exec (Statement.run gate (.vacuum name)) cat).2 = _ from snd_exec_run _ cat]
      refine ⟨hkept, fun hgate hfresh => ?_⟩
      subst hfresh
      exact hwal hgate (show 0 < walHeaderSize by decide)

theorem agree_of_linked : p.Agree := by
  obtain ⟨hstopped, _, _, hl, hf⟩ := h
  exact ⟨hstopped, sameTable_of_keeps hl hf⟩

end

/-- A catalog in order is laid out as its tables are. -/
theorem linked_start {cat : Catalog} {db : Contents} (h : Tracks Held cat db) (wal : Option Bytes)
    (writer : Option Nat) : Linked ⟨cat, { cat with wal, writer }, false⟩ := by
  let layout : Layout := fun name =>
    ((cat.find name).map fun e => (e.table.schema, e.uniqueIndexes)).getD ([], [])
  have hkeeps : Tracks (Keeps layout) cat db := by
    refine h.mono fun e he g hheld => ⟨hheld, ?_⟩
    show _ = ((cat.find e.name).map fun e => (e.table.schema, e.uniqueIndexes)).getD ([], [])
    rw [find_of_mem h.names he]
    rfl
  exact ⟨rfl, layout, db, hkeeps, hkeeps.withLog wal writer⟩

/-- **Agreement.**  A leader with its tables in order, and a follower that starts from the same
state with a log of its own: in every run of accepted steps they agree in every state. -/
theorem agreement {cat : Catalog} {db : Contents} (hcat : Tracks Held cat db)
    (wal : Option Bytes) (writer : Option Nat) {steps : List PairStep}
    (haccepted : Run.Along Pair.step AcceptedOnBoth ⟨cat, { cat with wal, writer }, false⟩ steps) :
    ∀ p ∈ Run.states Pair.step ⟨cat, { cat with wal, writer }, false⟩ steps, p.Agree := by
  intro p hp
  exact agree_of_linked
    (haccepted.invariant (I := Linked) (fun _ _ h => linked_step h)
      (linked_start hcat wal writer) p hp)

/-- A statement on rows of a table with few rows and without unique indexes. -/
theorem rowsAccepted_of_not_unique {body : Schema → WalBody} (schema : Schema)
    (hl : ∀ e ∈ p.leader.find (canonicalize name), e.table.schema = schema ∧
      (∀ x ∈ e.indexes, x.2.isUnique = false) ∧
      e.table.rowCount + (body schema).newRows.length < 2 ^ 64)
    (hf : ∀ e ∈ p.follower.find (canonicalize name), e.table.schema = schema ∧
      ∀ x ∈ e.indexes, x.2.isUnique = false) (hfits : (body schema).FitsRecord)
    (hrows : ∀ row ∈ (body schema).newRows, Conforms schema row) :
    RowsAcceptedOnBoth p name body := by
  intro e he
  obtain ⟨rfl, hidx, hsize⟩ := hl e he
  refine ⟨hfits, accepted_of_not_unique hidx hrows, hsize, fun e' he' => ?_⟩
  obtain ⟨hschema, hidx'⟩ := hf e' he'
  exact accepted_of_not_unique hidx' (by rwa [hschema])

/-- `CREATE TABLE t (a INT)`, `INSERT INTO t VALUES (1), (2)`, `CREATE INDEX`, a deletion of the
first row, and visits of the merge worker. -/
def createThenDelete : List PairStep :=
  [.statement (.createTable [116] Table.oneColumn []) none,
    .statement (.insert [116] [[.int32 1], [.int32 2]]) none,
    .statement (.createIndex [116] [105] [0] false) none,
    .visitFollower [116],
    .statement (.delete [116] [0]) none]

def emptyPair : Pair :=
  ⟨⟨[], [], none, none⟩, ⟨[], [], none, none⟩, false⟩

theorem accepted_createThenDelete :
    Run.Along Pair.step AcceptedOnBoth emptyPair createThenDelete := by
  refine ⟨⟨rfl, rfl, by decide, rfl⟩, ?_, Or.inr ⟨rfl, by decide⟩, ?_, Or.inr ?_, trivial⟩
  · unfold AcceptedOnBoth
    refine rowsAccepted_of_not_unique Table.oneColumn ?_ ?_ ?_ ?_
    · decide +kernel
    · decide +kernel
    · exact ⟨by decide, by decide, by decide, by simp [Value.fits]⟩
    · decide
  · unfold AcceptedOnBoth
    decide +kernel
  · refine rowsAccepted_of_not_unique Table.oneColumn ?_ ?_ ⟨by decide, by decide⟩ (by decide)
    · decide +kernel
    · decide +kernel

/-- Both sides have the second row alone at the end. -/
theorem agreement_createThenDelete :
    (∀ p ∈ Run.states Pair.step emptyPair createThenDelete, p.Agree) ∧
      Pair.rowsOf [116] (Run.final Pair.step emptyPair createThenDelete).leader =
        some [[.int32 2]] := by
  have hempty : Tracks Held emptyPair.leader fun _ => none := ⟨nodup_nil, nofun, nofun, nofun⟩
  exact ⟨agreement hempty none none accepted_createThenDelete, by decide +kernel⟩

/-- `CREATE TABLE t (a INT PRIMARY KEY)`, and `INSERT INTO t VALUES (1)` twice. -/
def insertTwice : List PairStep :=
  [.statement (.createTable [116] Table.oneColumn [([112], [0])]) none,
    .statement (.insert [116] [[.int32 1]]) none,
    .statement (.insert [116] [[.int32 1]]) none]

/-- The leader rejects the second row, but the record of it is in the log; the follower, which has
no unique index, adds it. -/
theorem disagree_insertTwice : ∃ p ∈ Run.states Pair.step emptyPair insertTwice,
      Pair.rowsOf [116] p.leader = some [[.int32 1]] ∧
      Pair.rowsOf [116] p.follower = some [[.int32 1], [.int32 1]] ∧ ¬ p.Agree := by
  have hl : Pair.rowsOf [116] (Run.final Pair.step emptyPair insertTwice).leader =
    some [[.int32 1]] := by decide +kernel
  have hf : Pair.rowsOf [116] (Run.final Pair.step emptyPair insertTwice).follower =
    some [[.int32 1], [.int32 1]] := by decide +kernel
  refine ⟨_, Run.final_mem_states _ _, hl, hf, fun hagree => ?_⟩
  have hlen := (hagree.perm_rows hl hf).length_eq
  cases hlen

end Runs

end NyxDb.Replication
