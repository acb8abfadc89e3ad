import NyxDb.Catalog.MetadataFiles
import NyxDb.Storage.TableReopen

/-!
# Tables that can be used

A page of a column has 8136 bytes for values and null bits.  A `VARCHAR` may be longer than that:
its pages have room for no value, nothing can be inserted, and every division of a row number by
the number of values of a page traps, also the one of recovery.  `usable_iff` says which tables can
be filled, read and recovered.
-/

namespace NyxDb.Table

open ColumnFile (accepts)
open List TableScan

/-! ## Columns with room -/

/-- A page takes a value of the greatest length. -/
def OnePage (c : Column) : Prop :=
  c.type = .varchar → c.maxLen.toNat ≤ if c.nullable then 8133 else 8134

theorem div_mod_pos_iff {a b : Nat} (ha : a < 2 ^ 16) (hb : 0 < b) :
    0 < a / b % 2 ^ 16 ↔ b ≤ a := by
  rw [Nat.mod_eq_of_lt (Nat.lt_of_le_of_lt (Nat.div_le_self a b) ha), Nat.div_pos_iff]
  omega

theorem capacity_pos_iff {c : Column} (hsize : typeSize c.type c.maxLen ≠ 0) :
    0 < c.spec.capacity ↔ OnePage c := by
  obtain ⟨_, type, nullable, maxLen, _⟩ := c
  unfold OnePage ColumnSpec.capacity ColumnSpec.elemSize Column.spec
  rw [if_neg hsize]
  cases type with
  | varchar =>
    have hpos : 0 < maxLen.toNat := by
      by_contra hzero
      exact hsize (if_neg hzero)
    simp only [typeSize, if_pos hpos, forall_const]
    cases nullable with
    | true =>
      rw [if_pos rfl, if_pos rfl, div_mod_pos_iff (by omega) (by omega)]
      omega
    | false =>
      simp only [Bool.false_eq_true, if_false]
      rw [div_mod_pos_iff (by omega) (by omega)]
      omega
  | invalid => exact absurd rfl hsize
  | _ => cases nullable <;> simp [typeSize]

variable {schema : Schema}

theorem typeSize_of_validateColumns {seen : List Bytes} (h : validateColumns schema seen = .ok ()) :
    ∀ c ∈ schema, typeSize c.type c.maxLen ≠ 0 := by
  induction schema generalizing seen with
  | nil => simp
  | cons c schema ih =>
    rw [validateColumns] at h
    split at h
    · cases h
    · rename_i hsize
      split at h
      · cases h
      · split at h
        · cases h
        · exact forall_mem_cons.mpr ⟨hsize, ih h⟩

theorem typeSize_of_validateSchema (h : validateSchema schema = .ok ()) :
    ∀ c ∈ schema, typeSize c.type c.maxLen ≠ 0 := by
  unfold validateSchema at h
  split at h
  · cases h
  · exact typeSize_of_validateColumns h

theorem onePage_iff (h : validateSchema schema = .ok ()) :
    (∀ c ∈ schema, 0 < c.spec.capacity) ↔ ∀ c ∈ schema, OnePage c :=
  forall₂_congr fun c hc => capacity_pos_iff (typeSize_of_validateSchema h c hc)

/-! ## A row of the largest values -/

/-- Values of the types of the columns, with strings of the greatest length. -/
def Largest (schema : Schema) (row : Row) : Prop :=
  Forall₂ (fun (c : Column) (v : Value) => v.type = c.type ∧
    ∀ s, v = .string s → s.length = c.maxLen.toNat) schema row

theorem Largest.conforms {row : Row} (hsize : ∀ c ∈ schema, typeSize c.type c.maxLen ≠ 0)
    (h : Largest schema row) : Conforms schema row := by
  induction h with
  | nil => exact .nil
  | @cons c v schema row hv _ ih =>
    obtain ⟨hc, hrest⟩ := forall_mem_cons.mp hsize
    refine .cons ?_ (ih hrest)
    obtain ⟨htype, hlen⟩ := hv
    cases v with
    | null =>
      -- `NULL` has the type that no column has
      rw [← htype] at hc
      exact absurd rfl hc
    | string s =>
      have hs := hlen s rfl
      simp [accepts, Value.isNull, Column.spec, htype, hs]
    | _ => simp [accepts, Value.isNull, Column.spec, htype]

variable {t : Table} {wb : List Row} {dur : Nat} {row : Row}

/-- The first row of a table is inserted and read back. -/
theorem Holds.insert_first (h : Holds t [] [] dur) (hbase : t.wbBaseRowId = 0)
    (hdel : t.wbDeleted = []) (hroom : 1 < t.flushThreshold) (hrow : Conforms t.schema row) :
    ∃ cols, exec (insertMany [row]) t = (.ok 1, t.withColumns cols) ∧
      Holds (t.withColumns cols) [] [row] dur ∧
      TableScan.scan (t.withColumns cols) = .ok [(0, row)] := by
  have hrows : ∀ r ∈ [row], Conforms t.schema r := by simpa using hrow
  obtain ⟨cols, hexec, hheld⟩ := h.exec_insertMany_append hrows (by simpa using hroom)
  have hsegs : t.segments = [] := forall₂_nil_right_iff.mp h.segments
  refine ⟨cols, hexec, hheld, ?_⟩
  have hbuffer : bufferPart (t.withColumns cols) = ⟨0, 1, cols, []⟩ := by
    rw [bufferPart, hheld.wbRowCount]
    show TableScan.Part.mk t.wbBaseRowId 1 cols t.wbDeleted = _
    rw [hbase, hdel]
  have hparts : TableScan.parts (t.withColumns cols) = [⟨0, 1, cols, []⟩] := by
    rw [TableScan.parts, hbuffer]
    show t.segments.map _ ++ _ = _
    rw [hsegs]
    rfl
  rw [hheld.scan, liveRows, hparts]
  simp [partRows, liveIds, rowAt]

/-- The recovery of a table that was never flushed: its files are cut to no rows, and the row in
the log is inserted again. -/
def Recovers (schema : Schema) (d : TableDir) (row : Row) : Prop :=
  ∃ t₁ t₂ t₃, openDir d = .ok t₁ ∧ t₁.schema = schema ∧
    exec (truncate 0) t₁ = (.ok (), t₂) ∧ exec (insertMany [row]) t₂ = (.ok 1, t₃) ∧
    TableScan.scan t₃ = .ok [(0, row)]

theorem Holds.recovers (h : Holds t [] wb dur) (hfiles : Files t) (hdel : t.wbDeleted = [])
    (hrow : Conforms t.schema row) : Recovers t.schema t.dir row := by
  have hsegs : t.segments = [] := forall₂_nil_right_iff.mp h.segments
  obtain ⟨t₁, hopen, hr⟩ := h.onFiles.openDir hfiles
  have hbase : t₁.wbBaseRowId = 0 := by
    rw [hr.base, hsegs]
    rfl
  have hbits : t₁.wbDeleted = [] := by
    have hsegs₁ : t₁.segments = [] := forall₂_nil_right_iff.mp hr.segments
    have hbits := hr.bits
    rw [h.fileBitmaps, bitmaps, bitmaps, hsegs, hsegs₁, hdel] at hbits
    simpa using hbits
  obtain ⟨cols, htrunc, hheld⟩ := hr.exec_truncate h.onFiles 0 (by omega)
  have hrow₁ : Conforms (t₁.withColumns cols).schema row := by
    show Conforms t₁.schema row
    rw [hr.schema]
    exact hrow
  rw [Nat.zero_sub] at hheld
  obtain ⟨_, hexec, -, hscan⟩ := hheld.insert_first hbase hbits (by
    show 1 < t₁.flushThreshold
    rw [hr.files.threshold]
    decide) hrow₁
  exact ⟨t₁, _, _, hopen, hr.schema, htrunc, hexec, hscan⟩

/-! ## Usable tables -/

/-- The pages of all columns have room, the table can be created and opened again, and a row of
the largest values can be inserted and read back, also after a crash before or after its insertion
into the files. -/
def Usable (schema : Schema) : Prop :=
  (∀ c ∈ schema, 0 < c.spec.capacity) ∧ ∃ t, create schema flushThresholdDefault = .ok t ∧
      (∃ t', openDir t.dir = .ok t' ∧ t'.schema = schema) ∧
      ∀ row, Largest schema row → Recovers schema t.dir row ∧
        ∃ t', exec (insertMany [row]) t = (.ok 1, t') ∧
          TableScan.scan t' = .ok [(0, row)] ∧ Recovers schema t'.dir row

/-- A table can be used exactly when its schema is valid, the names and defaults of its columns fit
their fields in `schema.bin`, no column has the default `NULL`, and no `VARCHAR` is longer than a
page takes. -/
theorem usable_iff (schema : Schema) : Usable schema ↔ validateSchema schema = .ok () ∧
      (schema.length < 2 ^ 32 ∧ ∀ c ∈ schema, c.fits = true) ∧
      ∀ c ∈ schema, c.type = .varchar → c.maxLen.toNat ≤ if c.nullable then 8133 else 8134 := by
  constructor
  · rintro ⟨hcap, t, hcreate, ⟨_, hopen, hschema⟩, -⟩
    obtain ⟨hvalid, _, -, rfl⟩ := create_eq_ok hcreate
    have hread := Option.some.inj (openDir_opens hopen).schema
    rw [hschema] at hread
    exact ⟨hvalid, fits_of_readSchema hread, (onePage_iff hvalid).1 hcap⟩
  · rintro ⟨hvalid, ⟨hlen, hfits⟩, hpage⟩
    have hread := readSchema_of_fits hlen hfits
    have hcap := (onePage_iff hvalid).2 hpage
    obtain ⟨t, hcreate⟩ := create_of_valid hcap hvalid flushThresholdDefault
    obtain ⟨hheld, hfiles, rfl, -, hbase, hdel⟩ := create_holds_of_read hcap hread hcreate
    obtain ⟨t₀, hopen, hr⟩ := hheld.onFiles.openDir hfiles
    refine ⟨hcap, t, hcreate, ⟨t₀, hopen, hr.schema⟩, fun row hlarge => ?_⟩
    have hrow := hlarge.conforms (typeSize_of_validateSchema hvalid)
    obtain ⟨cols, hexec, hheld', hscan⟩ := hheld.insert_first hbase hdel (by
      rw [hfiles.threshold]
      decide) hrow
    refine ⟨hheld.recovers hfiles hdel hrow, _, hexec, hscan, ?_⟩
    exact hheld'.recovers (hfiles.withColumns cols) hdel hrow

/-- A `VARCHAR(9000)` is accepted by the parser and the binder. -/
theorem not_usable_varchar : ¬ ∀ sql b, createdBy sql = some b → Usable b.schema := by
  intro h
  obtain ⟨hcap, -⟩ := h (ascii "CREATE TABLE t (a VARCHAR(9000))")
    ⟨ascii "t", [⟨ascii "a", .varchar, true, 9000, none⟩], [], none⟩ (by decide +kernel)
  exact absurd (hcap _ mem_cons_self) (by decide)

end NyxDb.Table
