import NyxDb.Storage.ColumnContents
import NyxDb.Storage.RowIds
import Mathlib.Data.List.TakeWhile

/-!
# The rows of a table

`Table.Holds t segs wb dur` says what an open table holds: the rows of its segments, the rows of
its write buffer, and that the column files of the write buffer have at least `dur` of these.
Every operation on tables has a specification in these terms, and a scan returns the rows that
are not marked as deleted, part by part.
-/

namespace NyxDb

open List Table ColumnFile

/-- The values of column `i`. -/
def columnOf (i : Nat) (rows : List Row) : List Value :=
  rows.map fun row => row.getD i .null

@[simp] theorem length_columnOf (i : Nat) (rows : List Row) :
    (columnOf i rows).length = rows.length := by
  simp [columnOf]

theorem columnOf_take (i n : Nat) (rows : List Row) :
    columnOf i (rows.take n) = (columnOf i rows).take n := by
  simp [columnOf, map_take]

/-- Every column accepts its value of the row. -/
def Conforms (schema : Schema) (row : Row) : Prop :=
  Forall₂ (fun c v => accepts (Column.spec c) v = true) schema row

instance (schema : Schema) (row : Row) : Decidable (Conforms schema row) :=
  inferInstanceAs (Decidable (Forall₂ _ schema row))

variable {schema : Schema} {P Q : Nat → ColumnFile → Prop} {cols : List ColumnFile} {c : Column}
  {i dur n : Nat} {rows : List Row}

theorem Conforms.length {row : Row} (h : Conforms schema row) : row.length = schema.length :=
  (Forall₂.length_eq h).symm

theorem conforms_iff {row : Row} : Conforms schema row ↔ row.length = schema.length ∧
      ∀ i c, schema[i]? = some c → accepts c.spec (row.getD i .null) = true := by
  constructor
  · intro h
    refine ⟨h.length, fun i c hc => ?_⟩
    obtain ⟨hi, rfl⟩ := List.getElem?_eq_some_iff.mp hc
    have hrow : i < row.length := by
      rw [h.length]
      exact hi
    rw [getD_eq_getElem _ _ hrow]
    exact (forall₂_iff_get.mp h).2 i hi hrow
  · rintro ⟨hlen, h⟩
    refine forall₂_iff_get.mpr ⟨hlen.symm, fun i hi hrow => ?_⟩
    have hacc := h i _ (getElem?_eq_getElem hi)
    rwa [getD_eq_getElem _ _ hrow] at hacc

/-! ## Columns of one part -/

/-- The columns are those of the schema, and `P` holds for each. -/
structure EachColumn (schema : Schema) (cols : List ColumnFile) (P : Nat → ColumnFile → Prop) :
    Prop where
  length : cols.length = schema.length
  column : ∀ {i : Nat} {c : Column} {col : ColumnFile}, schema[i]? = some c →
    cols[i]? = some col → col.spec = c.spec ∧ P i col

section

variable (h : EachColumn schema cols P)
include h

theorem EachColumn.imp (himp : ∀ i col, P i col → Q i col) : EachColumn schema cols Q :=
  ⟨h.length, fun hc hcol => ⟨(h.column hc hcol).1, himp _ _ (h.column hc hcol).2⟩⟩

theorem EachColumn.get (hc : schema[i]? = some c) :
    ∃ col, cols[i]? = some col ∧ col.spec = c.spec ∧ P i col := by
  have hi := lt_of_getElem? hc
  obtain ⟨col, hcol⟩ : ∃ col, cols[i]? = some col := ⟨_, getElem?_eq_getElem (h.length ▸ hi)⟩
  exact ⟨col, hcol, h.column hc hcol⟩

/-- The rule for an operation on every column. -/
theorem EachColumn.exec_each {ops : List (Op ColumnFile Unit)} (hlen : ops.length = cols.length)
    (hops : ∀ i c col op, schema[i]? = some c → ops[i]? = some op → col.spec = c.spec → P i col →
      ∃ col', exec op col = (.ok (), col') ∧ col'.spec = col.spec ∧ Q i col') :
    ∃ cols', exec (Proc.each ops) cols = (.ok (), cols') ∧ EachColumn schema cols' Q := by
  obtain ⟨cols', hexec, hlen', hcols'⟩ := Proc.exec_each_at
    (P := fun i x y => ∀ c, schema[i]? = some c → y.spec = c.spec ∧ Q i y) hlen (by
      intro i op col hop hcol
      have hi := lt_of_getElem? hcol
      obtain ⟨c, hc⟩ : ∃ c, schema[i]? = some c := ⟨_, getElem?_eq_getElem (h.length ▸ hi)⟩
      obtain ⟨hspec, hp⟩ := h.column hc hcol
      obtain ⟨col', hexec, hspec', hq⟩ := hops i c col op hc hop hspec hp
      refine ⟨col', hexec, fun c' hc' => ?_⟩
      rw [hc] at hc'
      cases hc'
      exact ⟨hspec'.trans hspec, hq⟩)
  refine ⟨cols', hexec, hlen'.trans h.length, fun {i c col'} hc hcol' => ?_⟩
  obtain ⟨col, hcol, _⟩ := h.get hc
  exact hcols' i col col' hcol hcol' c hc

end

/-- The columns hold the rows; each file has at least `dur` of them. -/
def Full (rows : List Row) (dur : Nat) (i : Nat) (col : ColumnFile) : Prop :=
  ∃ d, Stores col (columnOf i rows) d ∧ dur ≤ d.length

/-- The columns hold as many of the rows as the files do, which is at least `dur`. -/
def OnDisk (rows : List Row) (dur : Nat) (i : Nat) (col : ColumnFile) : Prop :=
  ∃ n, dur ≤ n ∧ n ≤ rows.length ∧ Stores col (columnOf i (rows.take n)) (columnOf i (rows.take n))

/-- The columns and their files hold the rows. -/
abbrev Written (schema : Schema) (cols : List ColumnFile) (rows : List Row) : Prop :=
  EachColumn schema cols fun i col => Stores col (columnOf i rows) (columnOf i rows)

theorem EachColumn.cap_pos (h : EachColumn schema cols (Full rows dur)) (hc : c ∈ schema) :
    0 < c.spec.capacity := by
  obtain ⟨i, hi⟩ := mem_iff_getElem?.mp hc
  obtain ⟨_, _, hspec, d, hst, _⟩ := h.get hi
  rw [← hspec]
  exact hst.cap_pos

theorem createColumns_hold (hcap : ∀ c ∈ schema, 0 < c.spec.capacity) :
    ∃ cols, createColumns schema = .ok cols ∧ EachColumn schema cols (Full [] 0) := by
  have hmap : ∃ cols, createColumns schema = .ok cols ∧ cols.length = schema.length ∧
      ∀ i c col, schema[i]? = some c → cols[i]? = some col →
        col.spec = c.spec ∧ Full [] 0 i col := by
    refine mapM_ok_at fun i c hc => ?_
    obtain ⟨col, hcol, hspec, hst⟩ :=
      create_stores (hcap c (mem_of_getElem? hc))
    exact ⟨col, hcol, hspec, [], hst, Nat.zero_le _⟩
  obtain ⟨cols, hcols, hlen, hall⟩ := hmap
  exact ⟨cols, hcols, hlen, fun hc hcol => hall _ _ _ hc hcol⟩

theorem getElem?_appends (hn : n = schema.length) (hc : schema[i]? = some c) :
    (zipWith appendColumn schema (columnBatches n rows))[i]? =
      some (appendColumn c (columnOf i rows)) := by
  have := lt_of_getElem? hc
  rw [getElem?_zipWith, hc, columnBatches, getElem?_map, getElem?_range (by omega)]
  rfl

theorem exec_appendColumn (c : Column) (batch : List Value) {col : ColumnFile}
    {vals d : List Value} (h : Stores col vals d) :
    ∃ col' d', col'.spec = col.spec ∧ d <+: d' ∧
      if batch.all (accepts col.spec) = true
        then exec (appendColumn c batch) col = (.ok (), col') ∧ Stores col' (vals ++ batch) d'
        else ∃ e, exec (appendColumn c batch) col = (.error e, col') := by
  obtain ⟨col', d', hspec, hd, hst, hexec⟩ := exec_appendBulk batch h
  refine ⟨col', d', hspec, hd, ?_⟩
  unfold appendColumn
  rw [exec_mapError]
  by_cases hall : batch.all (accepts col.spec) = true
  · rw [if_pos hall] at hexec ⊢
    rw [takeWhile_eq_self_iff.mpr (all_eq_true.mp hall)] at hst
    rw [hexec]
    exact ⟨rfl, hst⟩
  · rw [if_neg hall] at hexec ⊢
    obtain ⟨e, he⟩ := hexec
    rw [he]
    exact ⟨_, rfl⟩

theorem all_accepts_columnOf (hrows : ∀ row ∈ rows, Conforms schema row)
    (hc : schema[i]? = some c) :
    (columnOf i rows).all (accepts c.spec) = true := by
  rw [all_eq_true]
  intro v hv
  obtain ⟨row, hrow, rfl⟩ := mem_map.mp hv
  exact (conforms_iff.mp (hrows row hrow)).2 i c hc

section

variable (h : EachColumn schema cols (Full rows dur))
include h

theorem EachColumn.exec_append {news : List Row} (hnews : ∀ row ∈ news, Conforms schema row) :
    ∃ cols', exec (Proc.each (zipWith appendColumn schema
        (columnBatches cols.length news))) cols = (.ok (), cols') ∧
      EachColumn schema cols' (Full (rows ++ news) dur) := by
  refine h.exec_each (by simp [columnBatches, h.length]) ?_
  intro i c col op hc hop hspec ⟨d, hst, hdur⟩
  rw [getElem?_appends h.length hc] at hop
  cases hop
  obtain ⟨col', d', hspec', hd, hexec⟩ := exec_appendColumn c (columnOf i news) hst
  rw [hspec, if_pos (all_accepts_columnOf hnews hc)] at hexec
  refine ⟨col', hexec.1, hspec', d', ?_, Nat.le_trans hdur hd.length_le⟩
  rw [columnOf, map_append]
  exact hexec.2

/-- Rows that could be appended conform to the schema. -/
theorem EachColumn.conforms_of_append {news : List Row}
    (hlen : ∀ row ∈ news, row.length = schema.length)
    (hok : (exec (Proc.each (zipWith appendColumn schema
      (columnBatches cols.length news))) cols).1 = .ok ()) :
    ∀ row ∈ news, Conforms schema row := by
  intro row hrow
  refine conforms_iff.mpr ⟨hlen row hrow, fun i c hc => ?_⟩
  obtain ⟨col, hcol, hspec, d, hst, _⟩ := h.get hc
  have hone := Proc.exec_of_each_ok hok (getElem?_appends h.length hc) hcol
  obtain ⟨_, _, _, _, hexec⟩ := exec_appendColumn c (columnOf i news) hst
  by_cases hall : (columnOf i news).all (accepts col.spec) = true
  · rw [← hspec]
    exact all_eq_true.mp hall _ (mem_map_of_mem hrow)
  · rw [if_neg hall] at hexec
    obtain ⟨e, he⟩ := hexec
    rw [he] at hone
    cases hone

theorem EachColumn.exec_flush :
    ∃ cols', exec (Proc.each (cols.map fun _ => ColumnFile.flush)) cols = (.ok (), cols') ∧
      Written schema cols' rows := by
  refine h.exec_each (by simp) ?_
  intro i c col op hc hop hspec ⟨d, hst, _⟩
  rw [getElem?_map] at hop
  obtain ⟨_, _, rfl⟩ := Option.map_eq_some_iff.mp hop
  obtain ⟨col', hexec, hspec', hst', _⟩ := ColumnFile.exec_flush hst
  exact ⟨col', hexec, hspec', hst'⟩

end

theorem EachColumn.exec_truncate (h : EachColumn schema cols (OnDisk rows dur)) (hn : n ≤ dur) :
    ∃ cols', exec (Proc.each (cols.map fun _ => ColumnFile.truncate n)) cols = (.ok (), cols') ∧
      EachColumn schema cols' (Full (rows.take n) n) := by
  refine h.exec_each (by simp) ?_
  intro i c col op hc hop hspec ⟨m, hm, hle, hst⟩
  rw [getElem?_map] at hop
  obtain ⟨_, _, rfl⟩ := Option.map_eq_some_iff.mp hop
  have hlen : (columnOf i (rows.take m)).length = m := by
    rw [length_columnOf, length_take_of_le hle]
  obtain ⟨col', hexec, hspec', hst'⟩ :=
    ColumnFile.exec_truncate hst (Nat.le_trans (Nat.le_trans hn hm) (Nat.le_of_eq hlen.symm))
  rw [← columnOf_take, take_take, Nat.min_eq_left (Nat.le_trans hn hm)] at hst'
  refine ⟨col', hexec, hspec', _, hst', ?_⟩
  rw [length_columnOf, length_take_of_le (Nat.le_trans (Nat.le_trans hn hm) hle)]

/-- A column finds in its file what was written there. -/
theorem Full.openFile {col : ColumnFile} (h : Full rows dur i col) :
    ∃ col', openFile col.file = .ok col' ∧ col'.file = col.file ∧
      OnDisk rows dur i col' := by
  obtain ⟨d, hst, hdur⟩ := h
  obtain ⟨col', hopen, hfile, _⟩ := openFile_stores hst
  have hd : d = columnOf i (rows.take d.length) := by
    rw [columnOf_take]
    exact prefix_iff_eq_take.mp hst.prefix
  have hle : d.length ≤ rows.length := by
    rw [← length_columnOf i rows]
    exact hst.prefix.length_le
  refine ⟨col', hopen, hfile, d.length, hdur, hle, ?_⟩
  rwa [← hd]

/-- The columns of a schema with their files, as the files are opened. -/
def withFiles (schema : Schema) (cols : List ColumnFile) : List (Column × Option ColumnDisk) :=
  schema.zip (cols.map (fun col => some col.file) ++ replicate schema.length none)

theorem EachColumn.withFiles_get (h : EachColumn schema cols P) (hc : schema[i]? = some c) :
    ∃ col, cols[i]? = some col ∧ (withFiles schema cols)[i]? = some (c, some col.file) := by
  have hi := lt_of_getElem? hc
  obtain ⟨col, hcol, _⟩ := h.get hc
  refine ⟨col, hcol, getElem?_zip_eq_some.mpr ⟨hc, ?_⟩⟩
  rw [getElem?_append_left (by simpa [h.length] using hi), getElem?_map, hcol]
  rfl

theorem EachColumn.openFiles (h : EachColumn schema cols P)
    {f : Column × Option ColumnDisk → Except Error ColumnFile}
    (hopen : ∀ i c col, col.spec = c.spec → P i col →
      ∃ col', f (c, some col.file) = .ok col' ∧ col'.spec = col.spec ∧ Q i col') :
    ∃ cols', (withFiles schema cols).mapM f = .ok cols' ∧ EachColumn schema cols' Q := by
  have hmap : ∃ cols', (withFiles schema cols).mapM f = .ok cols' ∧
      cols'.length = (withFiles schema cols).length ∧
      ∀ i x y, (withFiles schema cols)[i]? = some x → cols'[i]? = some y →
        y.spec = x.1.spec ∧ Q i y := by
    refine mapM_ok_at fun i x hx => ?_
    obtain ⟨hc, _⟩ := getElem?_zip_eq_some.mp hx
    obtain ⟨col, hcol, hx'⟩ := h.withFiles_get hc
    obtain ⟨hspec, hp⟩ := h.column hc hcol
    obtain ⟨col', hopen', hspec', hq⟩ := hopen i x.1 col hspec hp
    rw [hx', Option.some.injEq] at hx
    rw [← hx]
    exact ⟨col', hopen', hspec'.trans hspec, hq⟩
  obtain ⟨cols', hcols', hlen, hall⟩ := hmap
  refine ⟨cols', hcols', by simp [hlen, withFiles, h.length], fun {i c col'} hc hcol' => ?_⟩
  obtain ⟨col, _, hx⟩ := h.withFiles_get hc
  exact hall i _ col' hx hcol'

end NyxDb
