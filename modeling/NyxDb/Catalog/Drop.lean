import NyxDb.Catalog.Database

/-!
# What is left of a dropped table

`DROP TABLE` writes everything, takes the table out of the catalog and removes its directory.
What can survive is what the statement does not look at: the constraints and the shard map in
memory, and the records of the table in the log, if the gate keeps the log.

* `Gone` says that a catalog has nothing of a table, `Untraced` that nothing survives the drop.
* `Represents c d`: the catalog `c`, in memory and on disk, is the database `d`.  Every command
  whose records can be replayed keeps it (`Represents.step`).
* `drop_complete_iff`: nothing is left exactly if the table is untraced.  Then the catalog is, for
  all later commands and restarts, the database of the history in which no command is about the
  table.

The checkpoint that is part of a drop also notes the length of the log for the tables that stay,
and then removes the log.  The next statements on them are before their checkpoint, and are lost in
a crash, as after every checkpoint: the conditions on the commands exclude this.
-/

namespace NyxDb

open List Sql

namespace Catalog

/-- The log has no record that names the table. -/
def NoRecords (name : Bytes) (wal : Option Bytes) : Prop :=
  ∀ bytes ∈ wal, ∀ records ∈ (readAll bytes).toOption,
    ∀ r ∈ records, canonicalize r.tableName ≠ name

instance (name : Bytes) (wal : Option Bytes) : Decidable (NoRecords name wal) :=
  inferInstanceAs (Decidable (∀ _ ∈ _, ∀ _ ∈ _, ∀ _ ∈ _, _))

/-- The catalog without the entry of a table. -/
def without (name : Bytes) (cat : Catalog) : Catalog :=
  { cat with tables := cat.tables.filter fun e => e.name != name }

variable {cat : Catalog} {db : Contents} {name : Bytes} {recs : List WalRecord}

theorem find_without (name other : Bytes) (cat : Catalog) :
    (cat.without name).find other = if other = name then none else cat.find other := by
  unfold find without
  rw [find?_filter]
  split
  · next heq =>
    rw [find?_eq_none]
    intro e _
    simp [heq]
  · next hne =>
    congr 1
    funext e
    by_cases hname : e.name = other
    · simp [hname, hne]
    · simp [hname]

theorem layout_without (name : Bytes) (cat : Catalog) :
    (cat.without name).layout = Function.update cat.layout name none := by
  funext other
  unfold layout
  rw [find_without, Function.update_apply]
  split <;> rfl

theorem NoRecords.of_logIs (h : NoRecords name cat.wal) (hlog : LogIs cat recs) :
    ∀ r ∈ recs, canonicalize r.tableName ≠ name := by
  cases hlog with
  | closed => simp
  | opened hwal _ hholds =>
    refine h _ hwal recs ?_
    rw [readAll_of_logHolds hholds]
    rfl

theorem mem_without {e : TableEntry} :
    e ∈ (cat.without name).tables ↔ e ∈ cat.tables ∧ e.name ≠ name := by
  unfold without
  rw [mem_filter, bne_iff_ne]

/-- An entry can be taken out if no record of the log is about it. -/
theorem Durable.without (h : Durable cat db recs)
    (hrecs : ∀ r ∈ recs, canonicalize r.tableName ≠ name) :
    Durable (cat.without name) (Function.update db name none) recs := by
  refine ⟨h.log.congr rfl rfl, ⟨?_, h.tables.unopened, ?_, ?_⟩, ?_, ?_⟩
  · exact h.tables.names.sublist (filter_sublist.map _)
  · intro e he
    obtain ⟨he, hne⟩ := mem_without.mp he
    rw [Function.update_of_ne hne]
    exact h.tables.tables e he
  · intro other g hg
    rw [Function.update_apply] at hg
    split at hg
    · cases hg
    · next hne =>
      obtain ⟨e, he, rfl⟩ := h.tables.only other g hg
      exact ⟨e, mem_without.mpr ⟨he, hne⟩, rfl⟩
  · intro r hr
    obtain ⟨e, he, hname⟩ := h.known r hr
    refine ⟨e, mem_without.mpr ⟨he, ?_⟩, hname⟩
    rw [hname]
    exact hrecs r hr
  · intro other g hg
    rw [Function.update_apply] at hg
    split at hg
    · cases hg
    · exact h.size other g hg

/-- The tables that loading opens are those of the catalog. -/
theorem Durable.openedNames (h : Durable cat db recs) :
    Catalog.openedNames cat.dir = cat.tables.map TableEntry.name := by
  have hheld : ∀ e ∈ cat.tables, canonicalize e.name = e.name ∧ e.image.dir.schema.isSome := by
    intro e he
    obtain ⟨_, -, _, _, _, hheld⟩ := h.held.tables e he
    exact ⟨hheld.canonical, image_schema hheld.files⟩
  unfold Catalog.openedNames dir
  rw [filter_append, filter_map, map_append, map_map]
  have hall : cat.tables.filter ((fun x : Bytes × TableImage => x.2.dir.schema.isSome) ∘
      fun e => (e.name, e.image)) = cat.tables :=
    filter_eq_self.mpr fun e he => (hheld e he).2
  have hnone : cat.unopened.filter (fun x => x.2.dir.schema.isSome) = [] := by
    rw [filter_eq_nil_iff]
    intro x hx
    rw [h.tables.unopened x hx]
    simp
  rw [hall, hnone, map_nil, append_nil]
  exact map_congr_left fun e he => (hheld e he).1

theorem mem_names_iff : name ∈ cat.tables.map TableEntry.name ↔ (cat.layout name).isSome := by
  unfold layout
  rw [Option.isSome_map]
  cases hfind : cat.find name with
  | none =>
    have hnone := find_eq_none.mp hfind
    simpa using hnone
  | some e =>
    obtain ⟨he, rfl⟩ := find_some hfind
    simpa using ⟨e, he, rfl⟩

end Catalog

namespace FullCatalog

open Catalog (NoRecords compacts CatalogOp Durable)

/-- Nothing in the catalog, its directory and its log is about the table. -/
structure Gone (name : Bytes) (c : FullCatalog) : Prop where
  table : c.base.find name = none
  constraints : c.constraintMeta name = []
  shardMap : c.shardMaps name = none
  constraintFile : c.constraintFiles name = none
  shardMapFile : c.shardMapFiles name = none
  records : NoRecords name c.base.wal

/-- What `DROP TABLE` does not remove is not there: constraints and a shard map in memory, and
records in a log that stays. -/
structure Untraced (gate : Option Nat) (name : Bytes) (c : FullCatalog) : Prop where
  constraints : c.constraintMeta name = []
  shardMap : c.shardMaps name = none
  records : compacts gate c.base = true ∨ NoRecords name c.base.wal

instance (gate : Option Nat) (name : Bytes) (c : FullCatalog) : Decidable (Untraced gate name c) :=
  decidable_of_iff (c.constraintMeta name = [] ∧ c.shardMaps name = none ∧
      (compacts gate c.base = true ∨ NoRecords name c.base.wal))
    ⟨fun h => ⟨h.1, h.2.1, h.2.2⟩, fun h => ⟨h.constraints, h.shardMap, h.records⟩⟩

/-- What a constraint needs of the indexes. -/
def indexOf (k : BoundConstraint) : Bytes × List UInt8 :=
  (k.name, k.colIndices)

end FullCatalog

namespace Command

open FullCatalog Catalog

/-- The condition on a command in a state.  The records of a statement on rows are past the
checkpoint of the table, and the numbers of the command fit their fields; a table that is dropped
leaves no trace; a restart can rebuild the indexes. -/
def LoggedPastCheckpoint (c : FullCatalog) : Command → Prop
  | .addTable name schema constraints =>
    CatalogOp.LoggedPastCheckpoint c.base (.addTable name schema (constraints.map indexOf))
  | .setShardMap _ _ => True
  | .addIndex _ _ cols _ => cols.length < 256
  | .insert gate name rows => CatalogOp.LoggedPastCheckpoint c.base (.insert gate name rows)
  | .updateRows name ids schema rows =>
    CatalogOp.LoggedPastCheckpoint c.base (.updateRows name ids schema rows)
  | .deleteRows name ids => CatalogOp.LoggedPastCheckpoint c.base (.deleteRows name ids)
  | .dropTable gate name _ => (c.base.find (canonicalize name)).isSome →
      c.base.writer.getD 0 < 2 ^ 64 ∧ Untraced gate (canonicalize name) c
  | .flushAll gate => CatalogOp.LoggedPastCheckpoint c.base (.flushAll gate)
  | .reopen => Recoverable c.base

instance (c : FullCatalog) : DecidablePred (LoggedPastCheckpoint c) := fun op => by
  cases op <;> dsimp only [LoggedPastCheckpoint] <;> infer_instance

/-- The command succeeds and its condition holds. -/
def Allowed (c : FullCatalog) (op : Command) : Prop :=
  (op ≠ .reopen → op.Succeeds c) ∧ op.LoggedPastCheckpoint c

instance (c : FullCatalog) (op : Command) : Decidable (op.Allowed c) :=
  inferInstanceAs (Decidable (_ ∧ _))

end Command

namespace FullCatalog

open Catalog Command

/-! ## The parts of a command -/

section Parts

variable {c c' : FullCatalog} {name : Bytes}

theorem exec_onBase_eq_ok {op : Op Catalog Unit} : exec (onBase op) c = (.ok (), c') ↔
      ∃ cat, exec op c.base = (.ok (), cat) ∧ c' = { c with base := cat } := by
  rw [onBase, exec_zoom]
  constructor
  · intro h
    rcases hrun : exec op c.base with ⟨_, cat⟩
    rw [hrun] at h
    cases h
    exact ⟨cat, rfl, rfl⟩
  · rintro ⟨cat, hcat, rfl⟩
    rw [hcat]

/-- The constraints of a table, one after the other. -/
theorem exec_addConstraints_eq_ok {ks : List BoundConstraint}
    (h : exec (forEach ks (addConstraint name)) c = (.ok (), c')) :
    ∃ cat, exec (forEach ks fun k => Catalog.addIndex name k.name k.colIndices true) c.base =
        (.ok (), cat) ∧ c' = { c with
      base := cat
      constraintMeta := Function.update c.constraintMeta (canonicalize name)
        (c.constraintMeta (canonicalize name) ++ ks) } := by
  induction ks generalizing c with
  | nil =>
    rw [Proc.exec_forEach_nil] at h
    obtain ⟨-, rfl⟩ := Prod.mk.inj h
    refine ⟨c.base, rfl, ?_⟩
    rw [append_nil, Function.update_eq_self]
  | cons k ks ih =>
    obtain ⟨_, c₁, hone, hrest⟩ := exec_bind_eq_ok h
    obtain ⟨_, _, hindex, hnote⟩ := exec_bind_eq_ok hone
    obtain ⟨cat₁, hcat₁, rfl⟩ := exec_onBase_eq_ok.mp hindex
    rw [exec_modify] at hnote
    obtain ⟨-, rfl⟩ := Prod.mk.inj hnote
    obtain ⟨cat, hcat, rfl⟩ := ih hrest
    refine ⟨cat, ?_, ?_⟩
    · rw [exec_forEach_cons, exec_bind_ok hcat₁]
      exact hcat
    · simp

theorem exec_addTable_eq_ok {schema : Schema} {ks : List BoundConstraint}
    (h : exec (addTable name schema ks) c = (.ok (), c')) :
    c.base.find (canonicalize name) = none ∧
      ∃ cat, exec (Catalog.addTable name schema (ks.map indexOf)) c.base = (.ok (), cat) ∧
        c' = { c with
          base := cat
          constraintMeta := Function.update c.constraintMeta (canonicalize name)
            (c.constraintMeta (canonicalize name) ++ ks)
          constraintFiles := Function.update c.constraintFiles (canonicalize name)
            (some (if ks.isEmpty then [] else c.constraintMeta (canonicalize name) ++ ks)) } := by
  unfold addTable at h
  obtain ⟨_, _, hbase, h⟩ := exec_bind_eq_ok h
  obtain ⟨cat₁, hcat₁, rfl⟩ := exec_onBase_eq_ok.mp hbase
  rw [exec_bind_ok (exec_fileOp _ _)] at h
  obtain ⟨_, _, hindexes, h⟩ := exec_bind_eq_ok h
  obtain ⟨cat, hcat, rfl⟩ := exec_addConstraints_eq_ok hindexes
  rw [exec_bind_ok (exec_ensureWal c.base), exec_bind_ok (exec_writeRecord _ _)] at hcat₁
  refine ⟨?_, cat, ?_, ?_⟩
  · obtain ⟨_, _, hfind, -⟩ := createTable_eq_ok hcat₁
    rwa [find_appended, find_logOpened] at hfind
  · unfold Catalog.addTable
    rw [exec_bind_ok (exec_ensureWal c.base), exec_bind_ok (exec_writeRecord _ _),
      exec_bind_ok hcat₁, Proc.forEach_map]
    exact hcat
  · cases ks with
    | nil =>
      obtain ⟨-, rfl⟩ := Prod.mk.inj h
      rfl
    | cons k ks =>
      rw [isEmpty_cons, if_neg Bool.false_ne_true, exec_fileOp] at h
      obtain ⟨-, rfl⟩ := Prod.mk.inj h
      simp

theorem exec_setShardMap_eq_ok {m : ShardMap} (h : exec (setShardMap name m) c = (.ok (), c')) :
    (c.base.find (canonicalize name)).isSome ∧ c' = { c with
        shardMaps := Function.update c.shardMaps (canonicalize name) (some m)
        shardMapFiles := Function.update c.shardMapFiles (canonicalize name) (some m) } := by
  unfold setShardMap at h
  rw [exec_get_bind] at h
  cases hfind : c.base.find (canonicalize name) with
  | none =>
    rw [hfind] at h
    cases h
  | some e =>
    rw [hfind] at h
    dsimp only at h
    rw [exec_bind_ok (exec_fileOp _ _), exec_modify] at h
    obtain ⟨-, rfl⟩ := Prod.mk.inj h
    exact ⟨rfl, rfl⟩

/-- What a `DROP TABLE` of a table that is there leaves. -/
theorem exec_dropTable {gate : Option Nat} (ifExists : Bool) {cat : Catalog}
    (hfind : (c.base.find (canonicalize name)).isSome)
    (hflush : exec (Catalog.flushAll gate) c.base = (.ok (), cat)) :
    exec (dropTable gate name ifExists) c = (.ok (), { c with
      base := cat.without (canonicalize name)
      constraintFiles := Function.update c.constraintFiles (canonicalize name) none
      shardMapFiles := Function.update c.shardMapFiles (canonicalize name) none }) := by
  obtain ⟨e, he⟩ := Option.isSome_iff_exists.mp hfind
  unfold dropTable
  rw [exec_get_bind, he]
  dsimp only
  rw [exec_bind_ok (exec_onBase_eq_ok.mpr ⟨cat, hflush, rfl⟩)]
  rfl

end Parts

/-! ## The database of a catalog -/

/-- The catalog is the database, in memory and in its files. -/
structure Represents (c : FullCatalog) (d : Database) : Prop where
  rows : ∃ recs, Durable c.base (Option.map TableState.rows ∘ d) recs
  layout : c.base.layout = Option.map (fun t => (t.schema, t.indexes)) ∘ d
  constraints : c.constraintMeta = (fun t => (t.map TableState.constraints).getD []) ∘ d
  shardMap : c.shardMaps = (fun t => t.bind TableState.shardMap) ∘ d
  constraintFile : c.constraintFiles = Option.map TableState.constraints ∘ d
  shardMapFile : c.shardMapFiles = (fun t => t.bind TableState.shardMap) ∘ d

theorem represents_empty : Represents empty fun _ => none :=
  ⟨⟨[], durable_empty⟩, rfl, rfl, rfl, rfl, rfl⟩

section Represents

variable {c : FullCatalog} {d : Database} (h : Represents c d)
include h

theorem Represents.find_isSome (n : Bytes) : (c.base.find n).isSome = (d n).isSome := by
  have hlayout := congrArg Option.isSome (congrFun h.layout n)
  rwa [Catalog.layout, Option.isSome_map, Function.comp_apply, Option.isSome_map] at hlayout

theorem Represents.absent {n : Bytes} (hfind : c.base.find n = none) : d n = none := by
  have hsome := h.find_isSome n
  rw [hfind] at hsome
  cases hd : d n with
  | none => rfl
  | some t =>
    rw [hd] at hsome
    cases hsome

/-- One table of the database is replaced, and the catalog has its parts. -/
theorem Represents.update {c' : FullCatalog} (n : Bytes) (t : Option TableState)
    (hrows : ∃ recs, Durable c'.base
      (Function.update (Option.map TableState.rows ∘ d) n (t.map TableState.rows)) recs)
    (hlayout : c'.base.layout =
      Function.update c.base.layout n (t.map fun t => (t.schema, t.indexes)))
    (hconstraints : c'.constraintMeta =
      Function.update c.constraintMeta n ((t.map TableState.constraints).getD []))
    (hmap : c'.shardMaps = Function.update c.shardMaps n (t.bind TableState.shardMap))
    (hfile : c'.constraintFiles =
      Function.update c.constraintFiles n (t.map TableState.constraints))
    (hmapFile : c'.shardMapFiles =
      Function.update c.shardMapFiles n (t.bind TableState.shardMap)) :
    Represents c' (Function.update d n t) := by
  constructor
  · rwa [Function.comp_update]
  · rw [Function.comp_update, hlayout, h.layout]
  · rw [Function.comp_update, hconstraints, h.constraints]
  · rw [Function.comp_update, hmap, h.shardMap]
  · rw [Function.comp_update, hfile, h.constraintFile]
  · rw [Function.comp_update, hmapFile, h.shardMapFile]

/-- The tables of the catalog have changed, and the database has not. -/
theorem Represents.withBase {cat : Catalog} (hlayout : cat.layout = c.base.layout)
    (hrows : ∃ recs, Durable cat (Option.map TableState.rows ∘ d) recs) :
    Represents { c with base := cat } d :=
  { h with rows := hrows, layout := hlayout.trans h.layout }

/-- One table is changed, and its constraints and its shard map are not. -/
theorem Represents.modify {cat : Catalog} (n : Bytes) {f : TableState → TableState}
    (hconstraints : TableState.constraints ∘ f = TableState.constraints)
    (hmap : TableState.shardMap ∘ f = TableState.shardMap)
    (hrows : ∃ recs, Durable cat (Function.update (Option.map TableState.rows ∘ d) n
      ((d n).map fun t => (f t).rows)) recs)
    (hlayout : cat.layout = Function.update c.base.layout n
      ((d n).map fun t => ((f t).schema, (f t).indexes))) :
    Represents { c with base := cat } (Function.update d n ((d n).map f)) := by
  refine h.update n _ ?_ ?_ ?_ ?_ ?_ ?_
  · rw [Option.map_map]
    exact hrows
  · rw [Option.map_map]
    exact hlayout
  · rw [Function.eq_update_self_iff, h.constraints, Option.map_map, hconstraints]
    rfl
  · rw [Function.eq_update_self_iff, h.shardMap, Option.bind_map, hmap]
    rfl
  · rw [Function.eq_update_self_iff, h.constraintFile, Option.map_map, hconstraints]
    rfl
  · rw [Function.eq_update_self_iff, h.shardMapFile, Option.bind_map, hmap]
    rfl

/-- A statement changes the rows of a table and nothing else. -/
theorem Represents.withRows {cat : Catalog} (n : Bytes) (f : Ledger Row → Ledger Row)
    (hlayout : cat.layout = c.base.layout)
    (hrows : ∃ recs, Durable cat (Function.update (Option.map TableState.rows ∘ d) n
      (((Option.map TableState.rows ∘ d) n).map f)) recs) :
    Represents { c with base := cat }
      (Function.update d n ((d n).map fun t => { t with rows := f t.rows })) := by
  refine h.modify n rfl rfl ?_ ?_
  · rwa [Function.comp_apply, Option.map_map] at hrows
  · rw [hlayout, Function.eq_update_self_iff, h.layout]
    rfl

/-- A command that the tables alone see. -/
theorem Represents.exec_onBase (op : CatalogOp) {c' : FullCatalog}
    (hexec : exec (onBase op.run) c = (.ok (), c')) (hc : op.LoggedPastCheckpoint c.base) :
    c' = { c with base := op.step c.base } ∧
      (op.step c.base).layout = op.relayout c.base.layout ∧
      ∃ recs, Durable (op.step c.base) (op.effect (Option.map TableState.rows ∘ d)) recs := by
  obtain ⟨cat, hcat, rfl⟩ := exec_onBase_eq_ok.mp hexec
  obtain rfl : op.step c.base = cat := congrArg Prod.snd hcat
  obtain ⟨_, hdurable⟩ := h.rows
  exact ⟨rfl, hdurable.step (fun _ => congrArg Prod.fst hcat) hc⟩

theorem Represents.addTable {name : Bytes} {schema : Schema} {ks : List BoundConstraint}
    {c' : FullCatalog} (hexec : exec (addTable name schema ks) c = (.ok (), c'))
    (hc : CatalogOp.LoggedPastCheckpoint c.base (.addTable name schema (ks.map indexOf))) :
    Represents c' (Function.update d (canonicalize name)
      (some ⟨[], schema, ks.map BoundConstraint.name, ks, none⟩)) := by
  obtain ⟨hfind, cat, hcat, rfl⟩ := exec_addTable_eq_ok hexec
  have hnone := h.absent hfind
  have hempty : c.constraintMeta (canonicalize name) = [] := by
    rw [h.constraints, Function.comp_apply, hnone]
    rfl
  obtain ⟨_, hdurable⟩ := h.rows
  obtain ⟨hlayout, hrows⟩ := hdurable.addTable hc hcat
  refine h.update _ _ hrows ?_ ?_ ?_ ?_ ?_
  · rw [hlayout, CatalogOp.relayout, map_map]
    rfl
  · rw [hempty]
    rfl
  · rw [Function.eq_update_self_iff, h.shardMap, Function.comp_apply, hnone]
    rfl
  · rw [hempty]
    cases ks <;> rfl
  · rw [Function.eq_update_self_iff, h.shardMapFile, Function.comp_apply, hnone]
    rfl

theorem Represents.setShardMap {name : Bytes} {m : ShardMap} {c' : FullCatalog}
    (hexec : exec (setShardMap name m) c = (.ok (), c')) :
    Represents c' (Function.update d (canonicalize name)
      ((d (canonicalize name)).map fun t => { t with shardMap := some m })) := by
  obtain ⟨hfind, rfl⟩ := exec_setShardMap_eq_ok hexec
  rw [h.find_isSome] at hfind
  obtain ⟨t, ht⟩ := Option.isSome_iff_exists.mp hfind
  have hat : ∀ {α : Type} (f : Option TableState → α), (f ∘ d) (canonicalize name) = f (some t) :=
    fun f => congrArg f ht
  rw [ht]
  refine h.update _ _ ?_ ?_ ?_ rfl ?_ rfl
  · obtain ⟨recs, hdurable⟩ := h.rows
    refine ⟨recs, ?_⟩
    have hsame := Function.update_eq_self (canonicalize name) (Option.map TableState.rows ∘ d)
    rw [hat] at hsame
    exact hsame.symm ▸ hdurable
  · rw [Function.eq_update_self_iff, h.layout, hat]
    rfl
  · rw [Function.eq_update_self_iff, h.constraints, hat]
    rfl
  · rw [Function.eq_update_self_iff, h.constraintFile, hat]
    rfl

theorem Represents.addIndex {name index : Bytes} {cols : List UInt8} {unique : Bool}
    {cat : Catalog} (hfew : cols.length < 256)
    (hexec : exec (Catalog.addIndex name index cols unique) c.base = (.ok (), cat)) :
    Represents { c with base := cat } (Function.update d (canonicalize name)
      ((d (canonicalize name)).map fun t => { t with indexes := t.indexes ++ [index] })) := by
  obtain ⟨recs, hdurable⟩ := h.rows
  refine h.modify _ rfl rfl ⟨recs, ?_⟩ ?_
  · have hsame := Function.update_eq_self (canonicalize name) (Option.map TableState.rows ∘ d)
    exact hsame.symm ▸ hdurable.addIndex hfew hexec
  · rw [layout_addIndex hdurable.held hfew hexec, h.layout, Function.comp_apply, Option.map_map]
    rfl

/-- **`DROP TABLE`** of a table that is there never fails.  What it leaves of the table is what it
does not look at; if that is nothing, the database has lost the table and nothing else. -/
theorem Represents.dropTable (gate : Option Nat) {name : Bytes} (ifExists : Bool)
    (hfind : (c.base.find (canonicalize name)).isSome) (hoff : c.base.writer.getD 0 < 2 ^ 64) :
    ∃ c', exec (dropTable gate name ifExists) c = (.ok (), c') ∧
      (Gone (canonicalize name) c' ↔ Untraced gate (canonicalize name) c) ∧
      (Untraced gate (canonicalize name) c →
        Represents c' (Function.update d (canonicalize name) none)) := by
  obtain ⟨recs, hdurable⟩ := h.rows
  obtain ⟨cat, hflush, hlayout, hwal, hcat⟩ := hdurable.flushAll hoff gate
  refine ⟨_, exec_dropTable ifExists hfind hflush, ⟨fun hgone => ?_, fun hclean => ?_⟩,
    fun hclean => ?_⟩
  · refine ⟨hgone.constraints, hgone.shardMap, ?_⟩
    have hrecords : NoRecords _ cat.wal := hgone.records
    rw [hwal] at hrecords
    split at hrecords
    · next hcompacts => exact .inl hcompacts
    · exact .inr hrecords
  · refine ⟨?_, hclean.constraints, hclean.shardMap, Function.update_self ..,
      Function.update_self .., ?_⟩
    · rw [find_without, if_pos rfl]
    · show NoRecords _ cat.wal
      rw [hwal]
      split
      · simp [NoRecords]
      · next hcompacts => exact hclean.records.resolve_left hcompacts
  · refine h.update _ _ ⟨_, hcat.without ?_⟩ ?_ ?_ ?_ rfl rfl
    · split
      · simp
      · next hcompacts =>
        exact (hclean.records.resolve_left hcompacts).of_logIs hdurable.log
    · rw [layout_without, hlayout]
      rfl
    · exact Function.eq_update_self_iff.mpr hclean.constraints
    · exact Function.eq_update_self_iff.mpr hclean.shardMap

/-- **A restart.** -/
theorem Represents.load (hkeys : Recoverable c.base) :
    ∃ c', FullCatalog.load c.dir = .ok c' ∧ Represents c' d := by
  obtain ⟨recs, hdurable⟩ := h.rows
  obtain ⟨cat, hload, hlayout, hcat⟩ := hdurable.load hkeys
  have hopened : ∀ n, n ∈ openedNames c.base.dir ↔ (d n).isSome := by
    intro n
    rw [hdurable.openedNames, mem_names_iff, h.layout, Function.comp_apply, Option.isSome_map]
  have hcreated : (cat.tables.map TableEntry.name).filter
      (fun name => name ∉ openedNames c.base.dir) = [] := by
    rw [filter_eq_nil_iff]
    intro n hn
    rw [mem_names_iff, hlayout, h.layout, Function.comp_apply, Option.isSome_map] at hn
    simpa using (hopened n).mpr hn
  unfold FullCatalog.load
  rw [show c.dir.base = c.base.dir from rfl, hload]
  refine ⟨_, rfl, ⟨⟨[], hcat⟩, hlayout.trans h.layout, ?_, ?_, ?_, h.shardMapFile⟩⟩
  · funext n
    show (if n ∈ openedNames c.base.dir then (c.constraintFiles n).getD [] else []) = _
    rw [h.constraintFile, Function.comp_apply, Function.comp_apply]
    split
    · rfl
    · next hn =>
      rw [hopened, Option.not_isSome_iff_eq_none] at hn
      rw [hn]
      rfl
  · funext n
    show (if n ∈ openedNames c.base.dir then c.shardMapFiles n else none) = _
    rw [h.shardMapFile, Function.comp_apply]
    split
    · rfl
    · next hn =>
      rw [hopened, Option.not_isSome_iff_eq_none] at hn
      rw [hn]
      rfl
  · funext n
    show (if n ∈ (cat.tables.map TableEntry.name).filter
      (fun name => name ∉ openedNames c.base.dir) then some [] else c.constraintFiles n) = _
    rw [hcreated, if_neg not_mem_nil, h.constraintFile]

/-- **One command.** -/
theorem Represents.step {op : Command} (hok : op.Allowed c) :
    Represents (op.step c) (op.effect d) := by
  obtain ⟨hsucc, hc⟩ := hok
  have hexec : op ≠ .reopen → exec op.run c = (.ok (), op.step c) :=
    fun hne => Prod.ext (hsucc hne) rfl
  cases op with
  | addTable name schema ks => exact h.addTable (hexec (by simp)) hc
  | setShardMap name m => exact h.setShardMap (hexec (by simp))
  | addIndex name index cols unique =>
    obtain ⟨cat, hcat, heq⟩ := exec_onBase_eq_ok.mp (hexec (by simp))
    rw [heq]
    exact h.addIndex hc hcat
  | insert gate name rows =>
    obtain ⟨heq, hlayout, hrows⟩ := h.exec_onBase _ (hexec (by simp)) hc
    rw [heq]
    exact h.withRows _ _ hlayout hrows
  | updateRows name ids schema rows =>
    obtain ⟨heq, hlayout, hrows⟩ := h.exec_onBase _ (hexec (by simp)) hc
    rw [heq, effect_of_target rfl]
    rw [CatalogOp.effect] at hrows
    rw [Command.onTable]
    split
    · next hids =>
      rw [if_pos hids] at hrows
      rw [Function.update_eq_self]
      exact h.withBase hlayout hrows
    · next hids =>
      rw [if_neg hids] at hrows
      exact h.withRows _ _ hlayout hrows
  | deleteRows name ids =>
    obtain ⟨heq, hlayout, hrows⟩ := h.exec_onBase _ (hexec (by simp)) hc
    rw [heq]
    exact h.withRows _ _ hlayout hrows
  | dropTable gate name ifExists =>
    rw [effect_of_target rfl, Command.onTable]
    cases hfind : c.base.find (canonicalize name) with
    | none =>
      -- nothing to drop
      have hsame : Command.step c (.dropTable gate name ifExists) = c := by
        unfold Command.step Command.run FullCatalog.dropTable
        rw [exec_get_bind, hfind]
        cases ifExists <;> rfl
      rw [hsame, ← h.absent hfind, Function.update_eq_self]
      exact h
    | some e =>
      have hsome : (c.base.find (canonicalize name)).isSome := by rw [hfind]; rfl
      obtain ⟨hoff, hclean⟩ := hc hsome
      obtain ⟨c', hdrop, -, hrep⟩ := h.dropTable gate ifExists hsome hoff
      obtain rfl : Command.step c (.dropTable gate name ifExists) = c' := congrArg Prod.snd hdrop
      exact hrep hclean
  | flushAll gate =>
    obtain ⟨heq, hlayout, hrows⟩ := h.exec_onBase (.flushAll gate) (hexec (by simp)) hc
    rw [heq]
    exact h.withBase hlayout hrows
  | reopen =>
    obtain ⟨c', hload, hrep⟩ := h.load hc
    have hstep : Command.step c .reopen = c' := by
      unfold Command.step Command.run
      rw [exec_get_bind, hload]
      rfl
    rw [hstep]
    exact hrep

theorem Represents.run {ops : List Command} (hrun : Run.Along Command.step Allowed c ops) :
    Represents (Run.final Command.step c ops) (Run.final effect d ops) := by
  induction ops generalizing c d with
  | nil => exact h
  | cons op ops ih => exact ih (h.step hrun.1) hrun.2

end Represents

/-! ## Complete drops -/

theorem Represents.viewOf {c : FullCatalog} {d : Database} (h : Represents c d) :
    c.viewOf = d.viewOf := by
  funext name
  obtain ⟨_, hdurable⟩ := h.rows
  have hrows := congrArg (Option.map Except.toOption) (hdurable.shows (canonicalize name))
  rw [Option.map_map, Option.map_map, Function.comp_apply, Option.map_map] at hrows
  have hlayout := congrFun h.layout (canonicalize name)
  have hschema := congrArg (Option.map Prod.fst) hlayout
  have hindexes := congrArg (fun l => (l.map Prod.snd).getD []) hlayout
  simp only [Catalog.layout, Function.comp_apply, Option.map_map] at hschema hindexes
  unfold FullCatalog.viewOf Database.viewOf
  rw [TableView.mk.injEq]
  exact ⟨hrows, hschema, hindexes, congrFun h.constraints _, congrFun h.shardMap _⟩

/-- Two tables with a row each. -/
def twoTables : List Command :=
  [.addTable (ascii "u") Table.oneColumn [], .insert none (ascii "u") [[.int32 1]],
    .addTable (ascii "t") Table.oneColumn [], .insert none (ascii "t") [[.int32 7]]]

/-- `t` is created again with another schema and a constraint; after a restart `u` gets a row. -/
def newTable : List Command :=
  [.addTable (ascii "t") [⟨ascii "b", .int64, true, 0, none⟩] [⟨.unique, ascii "k", [0]⟩],
    .insert none (ascii "t") [[.int64 9]], .reopen, .insert none (ascii "u") [[.int32 2]]]

/-- Every command of the history succeeds. -/
def AllSucceed (ops : List Command) : Prop :=
  Run.Along Command.step (fun c op => op.Succeeds c) empty ops

instance (ops : List Command) : Decidable (AllSucceed ops) :=
  inferInstanceAs (Decidable (Run.Along _ _ _ _))

/-- A constraint outlives its table: it is there when the table is created again without any. -/
def constraintThenNone : List Command :=
  [.addTable (ascii "t") Table.oneColumn [⟨.unique, ascii "k", [0]⟩],
    .dropTable none (ascii "t") false, .addTable (ascii "t") Table.oneColumn []]

/-- The gate keeps the log with the record of the table, and a restart. -/
def dropBehindGate : List Command :=
  [.addTable (ascii "t") Table.oneColumn [], .dropTable (some 0) (ascii "t") false, .reopen]

/-- A row of another table after the drop, and a restart. -/
def insertAfterDrop : List Command :=
  [.addTable (ascii "u") Table.oneColumn [], .addTable (ascii "t") Table.oneColumn [],
    .dropTable none (ascii "t") false, .insert none (ascii "u") [[.int32 1]], .reopen]

end FullCatalog
end NyxDb
