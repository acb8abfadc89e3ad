import NyxDb.Catalog.Catalog
import NyxDb.Index.Structure
import NyxDb.Storage.TableReopen

/-!
# Indexes of tables

What the catalog does to the indexes of a table, in terms of the entries they hold: inserting the
keys of new rows, writing and reopening an index file, and rebuilding an index from the rows of
its table.
-/

namespace NyxDb

open ColumnFile (Stores accepts)
open List IndexFile TableScan BTreeIndex

/-! ## Keys of rows -/

variable {v : Value} {specs : List IndexColSpec} {vals : List Value} {f : IndexFile}
  {schema : Schema} {es : List (Bytes × Nat)} {c : ColumnFile} {t : Table}

/-- The index file is one of a table with the schema. -/
structure IndexFits (schema : Schema) (f : IndexFile) : Prop where
  specs : Catalog.indexSpecs schema f.colIndices = .ok f.cols
  few : f.cols.length < 256
  diskCols : f.disk.cols = f.cols
  diskColIndices : f.disk.colIndices = f.colIndices
  diskIsUnique : f.disk.isUnique = f.isUnique

theorem IndexFits.sameKeys {f' : IndexFile} (h : IndexFits schema f) (hs : SameKeys f f') :
    IndexFits schema f' where
  specs := by
    rw [hs.colIndices, hs.cols]
    exact h.specs
  few := by
    rw [hs.cols]
    exact h.few
  diskCols := by rw [hs.diskCols, hs.cols, h.diskCols]
  diskColIndices := by rw [hs.diskColIndices, hs.colIndices, h.diskColIndices]
  diskIsUnique := by rw [hs.diskIsUnique, hs.isUnique, h.diskIsUnique]

/-- The column of each key column. -/
theorem indexSpecs_columns {colIndices : List UInt8}
    (h : Catalog.indexSpecs schema colIndices = .ok specs) :
    Forall₂ (fun (ci : UInt8) s => ∃ c, schema[ci.toNat]? = some c ∧ c.type ≠ .bool ∧
      s = IndexColSpec.mk c.type c.maxLen) colIndices specs := by
  refine (forall₂_of_mapM h).imp fun ci s hs => ?_
  split at hs
  · cases hs
  · split at hs
    · cases hs
    · next c hc =>
      split at hs
      · cases hs
      · next hbool =>
        cases hs
        exact ⟨c, hc, hbool, rfl⟩

/-- The key values of a row. -/
def keyOf (f : IndexFile) (row : Row) : List Value :=
  f.colIndices.map fun ci => row.getD ci.toNat .null

theorem accepts_typed {s : ColumnSpec} (h : accepts s v = true) :
    v.isNull = true ∨ v.type = s.type := by
  unfold accepts at h
  cases hnull : v.isNull with
  | true => exact Or.inl rfl
  | false =>
    rw [hnull, if_neg Bool.false_ne_true, Bool.and_eq_true, decide_eq_true_eq] at h
    exact Or.inr h.1

/-- Rows that conform to the schema have keys. -/
theorem IndexFits.encodeKey (h : IndexFits schema f) {row : Row} (hrow : Conforms schema row) :
    ∃ key, encodeKey f.cols (keyOf f row) = .ok key := by
  refine encodeKey_ok ?_
  rw [keyOf, forall₂_map_right_iff]
  refine (indexSpecs_columns h.specs).flip.imp fun s ci hs => ?_
  obtain ⟨c, hc, _, rfl⟩ := hs
  exact accepts_typed ((conforms_iff.mp hrow).2 ci.toNat c hc)

/-! ## Inserting keys -/

/-- The entry of a row in an index. -/
def rowEntry (f : IndexFile) (row : Row) (rowId : Nat) : Bytes × Nat :=
  entryOf f.cols (keyOf f row, rowId)

/-- The entries of new rows. -/
def newEntries (f : IndexFile) (rows : List Row) (firstRowId : Nat) : List (Bytes × Nat) :=
  rows.zipIdx.map fun x => rowEntry f x.1 (firstRowId + x.2)

/-- Whether they succeed or not, insertions keep the index sound. -/
theorem exec_insertKeys (hf : Holds f es) (hfit : IndexFits schema f) {rows : List Row}
    (hrows : ∀ row ∈ rows, Conforms schema row) (firstRowId : Nat) :
    ∃ f' es', Holds f' es' ∧ SameKeys f f' ∧ ((exec (insertKeys rows firstRowId) f = (.ok (), f') ∧
          InsertedAll f es
            (rows.zipIdx.map fun x => (keyOf f x.1, firstRowId + x.2)) es') ∨
        (exec (insertKeys rows firstRowId) f = (.error .indexDuplicateKey, f') ∧
          Stopped f es
            (rows.zipIdx.map fun x => (keyOf f x.1, firstRowId + x.2)) es')) := by
  have hkeys : ∀ ins ∈ rows.zipIdx.map fun x => (keyOf f x.1, firstRowId + x.2),
      ∃ key, encodeKey f.cols ins.1 = .ok key := by
    intro ins hins
    obtain ⟨x, hx, rfl⟩ := mem_map.mp hins
    exact hfit.encodeKey (hrows x.1 (fst_mem_of_mem_zipIdx hx))
  have hrun := exec_insertAll hf hkeys (SameKeys.refl f)
  rw [Proc.forEach_map] at hrun
  exact hrun

/-! ## Writing and opening index files -/

/-- What the file of an index needs so that the index can be opened: it is one of a table with the
schema, and unless its dirty flag is set it stores entries. -/
structure IndexDiskOk (schema : Schema) (d : IndexDisk) : Prop where
  fits : IndexFits schema (IndexFile.openFile d)
  pages : 0 < d.pages.length
  capacity : 0 < (IndexFile.openFile d).nodeCapacity
  clean : d.header.dirty = false → ∃ es, Holds (IndexFile.openFile d) es

theorem length_flatMap_specBytes (specs : List IndexColSpec) :
    (specs.flatMap specBytes).length = 4 * specs.length := by
  induction specs with
  | nil => rfl
  | cons s specs ih =>
    rw [flatMap_cons, length_append, ih, length_cons, specBytes,
      length_append, length_leBytes, length_cons, length_singleton]
    omega

/-- The key columns are found again in the file. -/
theorem IndexFits.openFile (h : IndexFits schema f) : (IndexFile.openFile f.disk).cols = f.cols ∧
      (IndexFile.openFile f.disk).colIndices = f.colIndices ∧
      (IndexFile.openFile f.disk).isUnique = f.isUnique := by
  have hlen : f.colIndices.length = f.cols.length := (indexSpecs_columns h.specs).length_eq
  have hmod : f.cols.length % 256 = f.cols.length := Nat.mod_eq_of_lt h.few
  refine ⟨?_, ?_, h.diskIsUnique⟩
  · show f.disk.cols.take (f.disk.cols.length % 256) = _
    rw [h.diskCols, hmod, take_length]
  · show ((f.disk.cols.flatMap specBytes ++ f.disk.colIndices).drop
      (4 * (f.disk.cols.length % 256))).take (f.disk.cols.length % 256) = _
    rw [h.diskCols, hmod, h.diskColIndices, ← length_flatMap_specBytes, drop_left, ← hlen,
      take_length]

theorem IndexFits.opened (h : IndexFits schema f) :
    IndexFits schema (IndexFile.openFile f.disk) := by
  obtain ⟨hcols, hidx, huniq⟩ := h.openFile
  exact h.sameKeys ⟨hcols, hidx, huniq, rfl, rfl, rfl⟩

/-- An index that was written is found as it was. -/
theorem openFile_clean (hfit : IndexFits schema f) (hf : Holds f es) (hclean : f.dirty = false) :
    IndexFile.openFile f.disk = f := by
  obtain ⟨hcols, hidx, huniq⟩ := hfit.openFile
  have hhead : f.disk.header = ⟨f.dirty, f.rootPageId, f.entryCount⟩ := by
    simpa [hclean] using hf.header
  show IndexFile.mk f.disk (IndexFile.openFile f.disk).cols (IndexFile.openFile f.disk).colIndices
    f.disk.isUnique f.disk.header.rootPageId f.disk.header.entryCount f.disk.header.dirty
    f.disk.pages.length = f
  rw [hcols, hidx, hfit.diskIsUnique, hhead, hf.length]

theorem IndexFits.diskOk (hfit : IndexFits schema f) (hf : Holds f es) :
    IndexDiskOk schema f.disk where
  fits := hfit.opened
  pages := hf.length ▸ hf.nonempty
  capacity := by
    rw [nodeCapacity, keySize, hfit.openFile.1]
    exact hf.capacity
  clean hd := by
    have hhead := hf.header
    cases hdirty : f.dirty with
    | true =>
      rw [hdirty, hd] at hhead
      cases hhead
    | false => exact ⟨es, (openFile_clean hfit hf hdirty).symm ▸ hf⟩

/-- The index with the header written. -/
def flushedIndex (f : IndexFile) : IndexFile :=
  { f with dirty := false, disk.header := ⟨false, f.rootPageId, f.entryCount⟩ }

theorem exec_flush_index (f : IndexFile) : exec flush f = (.ok (), flushedIndex f) := rfl

theorem sameKeys_flushed (f : IndexFile) : SameKeys f (flushedIndex f) :=
  ⟨rfl, rfl, rfl, rfl, rfl, rfl⟩

theorem holds_flushed (hf : Holds f es) : Holds (flushedIndex f) es := by
  refine ⟨⟨hf.length, hf.nonempty, hf.capacity, rfl⟩, ?_⟩
  rcases hf.tree with h | ⟨h, t, ht, hes, hord⟩
  · exact Or.inl h
  · exact Or.inr ⟨h, t, { ht with }, hes, hord⟩

theorem exec_flushIndex (hf : Holds f es) :
    ∃ f', exec Catalog.flushIndex f = (.ok (), f') ∧ Holds f' es ∧ SameKeys f f' ∧
      f'.dirty = false := by
  cases hdirty : f.dirty with
  | false =>
    refine ⟨f, ?_, hf, SameKeys.refl f, hdirty⟩
    rw [Catalog.flushIndex, exec_get_bind, hdirty]
    rfl
  | true =>
    refine ⟨flushedIndex f, ?_, holds_flushed hf, sameKeys_flushed f, rfl⟩
    rw [Catalog.flushIndex, exec_get_bind, hdirty]
    rfl

/-! ## Reading keys from columns -/

theorem readColValue_eq {d : List Value} (h : Stores c vals d) {l : Nat} (hv : vals[l]? = some v)
    (hacc : accepts c.spec v = true) : readColValue c l = .ok v := by
  have hcap := h.cap_pos
  unfold readColValue
  rw [if_neg (by omega), h.isNull hv]
  cases hnull : v.isNull with
  | true =>
    unfold accepts at hacc
    rw [hnull] at hacc
    rw [decide_eq_true (of_decide_eq_true hacc)]
    cases v <;> first | rfl | cases hnull
  | false =>
    rw [Bool.and_false, if_neg Bool.false_ne_true]
    have htype : v.type = c.spec.type := (accepts_typed hacc).resolve_left (by simp [hnull])
    have hget := h.get hv hnull
    rw [← htype]
    cases v with
    | null => cases hnull
    | string str =>
      show Except.ok (Value.string (c.getStr l)) = _
      rw [h.getStr hv]
    | _ => simp [Value.type, hget]

/-- A string is read from any row, a NULL may be found in its place. -/
theorem readColValue_varchar (hcap : 0 < c.capacity) (hc : c.spec.type = .varchar) (l : Nat) :
    ∃ v, readColValue c l = .ok v ∧ (v.isNull = true ∨ v.type = c.spec.type) := by
  unfold readColValue
  rw [if_neg (by omega), hc]
  cases c.isNull l with
  | true => exact ⟨.null, rfl, Or.inl rfl⟩
  | false => exact ⟨_, rfl, Or.inr rfl⟩

/-- The values of each key column of the rows can be read. -/
theorem partEntries_ok (hfit : IndexFits schema f) {p : Part}
    (hread : ∀ ci ∈ f.colIndices, ∀ c, schema[ci.toNat]? = some c →
      ∃ col, p.columns[ci.toNat]? = some col ∧ ∀ l < p.localRowCount,
        ∃ v, readColValue col l = .ok v ∧ (v.isNull = true ∨ v.type = c.type)) :
    ∃ es, partEntries f p = .ok es := by
  have hone : ∀ l ∈ liveIds p, ∃ e : Bytes × Nat, (do
      let vals ← readKey p.columns f.colIndices l
      let key ← encodeKey f.cols vals
      return (key, p.baseRowId + l)) = Except.ok (ε := Error) e := by
    intro l hl
    have hlt : l < p.localRowCount := mem_range.mp (mem_filter.mp hl).1
    obtain ⟨vals, hvals, htyped⟩ : ∃ vals, readKey p.columns f.colIndices l = .ok vals ∧
        Forall₂ (fun s v => Value.isNull v = true ∨ v.type = s.type) f.cols vals := by
      have hcols := indexSpecs_columns hfit.specs
      unfold readKey
      generalize f.cols = specs at hcols
      generalize f.colIndices = cis at hcols hread
      induction hcols with
      | nil => exact ⟨[], rfl, .nil⟩
      | @cons ci s cis specs hs _ ih =>
        obtain ⟨c, hc, _, rfl⟩ := hs
        obtain ⟨col, hcol, hvs⟩ := hread ci mem_cons_self c hc
        obtain ⟨v, hv, htype⟩ := hvs l hlt
        obtain ⟨vals, hvals, hall⟩ := ih fun ci' hci' => hread ci' (mem_cons_of_mem _ hci')
        refine ⟨v :: vals, ?_, .cons htype hall⟩
        rw [mapM_cons, hvals]
        simp only [hcol, hv]
        rfl
    obtain ⟨key, hkey⟩ := encodeKey_ok htyped
    refine ⟨(key, p.baseRowId + l), ?_⟩
    rw [hvals]
    show (encodeKey f.cols vals >>= _) = _
    rw [hkey]
    rfl
  exact mapM_ok hone

theorem columnOf_get {rows : List Row} {l : Nat} (hl : l < rows.length) (i : Nat) :
    (columnOf i rows)[l]? = some ((rows.getD l []).getD i .null) := by
  rw [columnOf, getElem?_map, getElem?_eq_getElem hl, getD_eq_getElem _ _ hl]
  rfl

/-- The entries of a part are those of its live rows. -/
theorem partEntries_eq (hfit : IndexFits schema f) {p : Part} {rows : List Row}
    (hp : PartHolds schema p rows) (hconf : ∀ row ∈ rows, Conforms schema row) :
    partEntries f p = .ok ((partRows p rows).map fun x => rowEntry f x.2 x.1) := by
  unfold partRows
  rw [map_map]
  refine mapM_eq_ok fun l hl => ?_
  have hlt : l < rows.length := by
    rw [← hp.count]
    exact mem_range.mp (mem_filter.mp hl).1
  have hrow : Conforms schema (rows.getD l []) := by
    refine hconf _ ?_
    rw [getD_eq_getElem _ _ hlt]
    exact getElem_mem hlt
  have hkey : readKey p.columns f.colIndices l = .ok (keyOf f (rows.getD l [])) := by
    refine mapM_eq_ok fun ci hci => ?_
    obtain ⟨_, -, c, hc, -⟩ := forall₂_mem_left (indexSpecs_columns hfit.specs) hci
    obtain ⟨_, hcol, hspec, d, hst, _⟩ := hp.columns.get hc
    rw [hcol]
    refine readColValue_eq hst (columnOf_get hlt _) ?_
    rw [hspec]
    exact (conforms_iff.mp hrow).2 ci.toNat c hc
  obtain ⟨_, hkey'⟩ := hfit.encodeKey hrow
  rw [hkey]
  show (encodeKey f.cols (keyOf f (rows.getD l [])) >>= _) = _
  simp only [Function.comp_apply, rowAt, rowEntry, entryOf, hkey']
  rfl

/-- **The entries of an index** over a table are those of the live rows. -/
theorem indexEntries_eq {segs : List (List Row)} {wb : List Row} {dur : Nat}
    (h : t.Holds segs wb dur) (hfit : IndexFits t.schema f) :
    indexEntries f t = .ok ((t.liveRows segs wb).map fun x => rowEntry f x.2 x.1) := by
  have hparts : Forall₂ (fun p es => partEntries f p = .ok es) (parts t)
      ((zipWith partRows (parts t) (segs ++ [wb])).map
        fun rows => rows.map fun x => rowEntry f x.2 x.1) := by
    rw [map_zipWith]
    exact forall₂_zipWith h.parts fun p _ rows hrows hp =>
      partEntries_eq hfit hp (h.conforms rows hrows)
  unfold indexEntries
  rw [mapM_of_forall₂ hparts]
  show Except.ok _ = Except.ok _
  rw [Table.liveRows, map_flatten]

/-! ## Rebuilding -/

/-- The number of values that a column file has. -/
def ColumnDisk.rows (d : ColumnDisk) : Nat :=
  (d.pages.map fun p => (p.getD []).length).sum

theorem rows_of_stores {d : List Value} (h : Stores c vals d) : c.file.rows = d.length := by
  obtain ⟨_, tail, hl, _, rfl⟩ := h
  unfold ColumnDisk.rows
  rw [hl.pages]
  cases tail <;> simp [length_flatten, Function.comp_def]

/-- The rows that the first column has on disk can be read in all columns of the key: of a column
of strings any row can be read, any other column must have as many rows. -/
def KeysOnDisk (dir : TableDir) (colIndices : List UInt8) : Prop :=
  ∀ ci ∈ colIndices, ∀ first ∈ dir.cols.head?.join, ∀ file ∈ (dir.cols[ci.toNat]?).join,
    file.spec.type = .varchar ∨ first.rows ≤ file.rows

instance (dir : TableDir) (colIndices : List UInt8) : Decidable (KeysOnDisk dir colIndices) :=
  inferInstanceAs (Decidable (∀ _ ∈ _, ∀ _ ∈ _, ∀ _ ∈ _, _))

/-- The entries of the rows on disk can be read when the columns of the key have the rows. -/
theorem indexEntries_reopened {t' : Table} {segs : List (List Row)} {wb : List Row} {dur : Nat}
    (h : t.OnFiles segs wb dur) (hfiles : t.Files) (hr : t.Reopened segs wb dur t')
    (hfit : IndexFits t.schema f) (hkeys : KeysOnDisk t.dir f.colIndices) :
    ∃ es, indexEntries f t' = .ok es := by
  have hparts : ∀ p ∈ parts t', ∃ es, partEntries f p = .ok es := by
    intro p hp
    rcases mem_append.mp hp with hp | hp
    · obtain ⟨s, hs, rfl⟩ := mem_map.mp hp
      obtain ⟨rows, hrows, hseg⟩ := forall₂_mem_left hr.segments hs
      have hconf := h.conforms rows (mem_append_left _ hrows)
      refine ⟨_, partEntries_eq hfit ⟨hseg.count, ?_, ?_⟩ hconf⟩
      · exact hseg.full.imp fun _ _ ⟨d, hst, _⟩ => ⟨d, hst, Nat.zero_le _⟩
      · exact fun row hrow => (hconf row hrow).length
    · rw [mem_singleton.mp hp]
      refine partEntries_ok hfit fun ci hci c hc => ?_
      obtain ⟨col, hcol, hspec, n, _, hn, hst⟩ := hr.columns.get hc
      refine ⟨col, hcol, fun l hl => ?_⟩
      have hdir : t.dir.cols = t'.wbColumns.map fun col => some col.file := by
        have hfile := congrArg (map some) hr.columnFiles
        rw [map_map, map_map] at hfile
        unfold Table.dir
        rw [hfiles.settled]
        exact hfile.symm
      -- the first column tells how many rows there are
      obtain ⟨c₀, _, hschema⟩ := exists_cons_of_ne_nil h.nonempty
      obtain ⟨first, hfirst, _, _, _, _, hst₀⟩ := hr.columns.get (i := 0) (c := c₀) (by
        rw [hschema]
        rfl)
      rw [← head?_eq_getElem?] at hfirst
      obtain ⟨cols, hcols⟩ := head?_eq_some_iff.mp hfirst
      have hcount : t'.wbRowCount = first.file.rows := by
        unfold Table.wbRowCount
        rw [hcols]
        show first.rowCount = _
        rw [hst₀.rowCount, rows_of_stores hst₀]
      have hspec' : col.spec.type = c.type := congrArg ColumnSpec.type hspec
      rcases hkeys ci hci first.file (by rw [hdir, hcols]; rfl) col.file
        (by rw [hdir, getElem?_map, hcol]; rfl) with hvar | hle
      · obtain ⟨v, hv, htype⟩ := readColValue_varchar hst.cap_pos hvar l
        rw [hspec'] at htype
        exact ⟨v, hv, htype⟩
      · rw [rows_of_stores hst, length_columnOf, length_take_of_le hn] at hle
        have hlt : l < (wb.take n).length := by
          rw [length_take_of_le hn]
          have : l < t'.wbRowCount := hl
          omega
        have hval := columnOf_get hlt ci.toNat
        have hacc : accepts c.spec (((wb.take n).getD l []).getD ci.toNat .null) = true := by
          refine (conforms_iff.mp (h.conforms wb (by simp) _ ?_)).2 ci.toNat c hc
          rw [getD_eq_getElem _ _ hlt]
          exact mem_of_mem_take (getElem_mem hlt)
        exact ⟨_, readColValue_eq hst hval (hspec ▸ hacc), accepts_typed hacc⟩
  obtain ⟨ess, hess⟩ := mapM_ok hparts
  refine ⟨ess.flatten, ?_⟩
  unfold indexEntries
  rw [hess]
  rfl

theorem sortEntries_pairwise (hpos : WidthsPos specs) (hgood : ∀ e ∈ es, GoodKey specs e.1) :
    (sortEntries specs es).Pairwise fun a b => keyLe specs a.1 b.1 := by
  have ho := keyLe_orderOn hpos
  -- on the good keys the comparison is a total order
  let r : {e : Bytes × Nat // GoodKey specs e.1} → {e : Bytes × Nat // GoodKey specs e.1} → Prop :=
    fun a b => keyLe specs a.1.1 b.1.1
  have : Std.Total r := ⟨fun a b => ho.total a.2 b.2⟩
  have : IsTrans _ r := ⟨fun a b c => ho.trans a.2 b.2 c.2⟩
  obtain ⟨es, rfl⟩ : ∃ es' : List {e : Bytes × Nat // GoodKey specs e.1},
      es'.map Subtype.val = es := ⟨es.pmap Subtype.mk hgood, by simp [map_pmap]⟩
  unfold sortEntries
  rw [← map_insertionSort r _ Subtype.val es fun _ _ _ _ => Iff.rfl, pairwise_map]
  exact pairwise_insertionSort r es

/-- The index without nodes. -/
def resetIndex (f : IndexFile) : IndexFile :=
  { f with
    disk := { f.disk with pages := f.disk.pages.take 1, header := ⟨false, 0, 0⟩ }
    rootPageId := 0
    entryCount := 0
    dirty := false
    nextPageId := 1 }

theorem exec_resetTree (f : IndexFile) : exec resetTree f = (.ok (), resetIndex f) := rfl

theorem holds_reset (hpages : 0 < f.disk.pages.length) (hcap : 0 < f.nodeCapacity) :
    Holds (resetIndex f) [] := by
  refine ⟨⟨?_, Nat.one_pos, hcap, rfl⟩, Or.inl ⟨rfl, rfl⟩⟩
  show (f.disk.pages.take 1).length = 1
  rw [length_take]
  omega

theorem exec_bulkBuildIndex (hf : Holds f []) (hes : indexEntries f t = .ok es) :
    ∃ f', exec (bulkBuildIndex t) f = (.ok (), f') ∧ Holds f' (sortEntries f.cols es) ∧
      SameKeys f f' := by
  have hrun : exec (bulkBuildIndex t) f =
      exec (bulkBuild (sortEntries f.cols es)) f := by
    unfold bulkBuildIndex
    rw [exec_get_bind, hes, exec_bind_ok (exec_ofExcept _ f)]
  rw [hrun]
  exact exec_bulkBuild_sorted hf fun hgood =>
    sortEntries_pairwise hgood.1 fun e he => hgood.2 e ((mem_insertionSort _).mpr he)

/-- **Rebuilding** an index leaves exactly the entries of the table. -/
theorem exec_rebuildIndex (hpages : 0 < f.disk.pages.length) (hcap : 0 < f.nodeCapacity)
    (hes : indexEntries f t = .ok es) :
    ∃ f', exec (rebuildIndex t) f = (.ok (), f') ∧ Holds f' (sortEntries f.cols es) ∧
      SameKeys f f' ∧ f'.dirty = false := by
  have hreset : SameKeys f (resetIndex f) := ⟨rfl, rfl, rfl, rfl, rfl, rfl⟩
  obtain ⟨f₁, hbuild, hf₁, hsame⟩ := exec_bulkBuildIndex (holds_reset hpages hcap) (t := t) hes
  refine ⟨flushedIndex f₁, ?_, holds_flushed hf₁,
    (hreset.trans hsame).trans (sameKeys_flushed f₁), rfl⟩
  unfold rebuildIndex
  rw [exec_bind_ok (exec_resetTree f), exec_bind_ok hbuild]
  exact exec_flush_index f₁

end NyxDb
