import NyxDb.Sql.Binder
import NyxDb.Storage.SchemaFile

/-!
# Files of metadata

The columns, the constraints and the shard map of a table are written when the table is created
and read when the database is opened.  Each file has length fields of one, two or four bytes,
while names and literals of a statement may have any length; `*_reads_back` say for which tables
the files are read back.
-/

namespace NyxDb

open Sql ByteParser BoundConstraint

/-! ## Constraints -/

/-- A constraint in the file; the kind is an enumeration of bytes that is read without a check. -/
structure ConstraintMeta where
  kind : UInt8
  name : Bytes
  colIndices : List UInt8
  deriving DecidableEq, Repr

def Sql.ConstraintKind.toByte : ConstraintKind → UInt8
  | .primaryKey => 0
  | .unique => 1

def Sql.BoundConstraint.toMeta (c : BoundConstraint) : ConstraintMeta :=
  ⟨c.kind.toByte, c.name, c.colIndices⟩

/-- The name and the columns of a constraint fit their length fields. -/
def ConstraintMeta.fits (c : ConstraintMeta) : Bool :=
  decide (c.name.length < 2 ^ 8) && decide (c.colIndices.length < 2 ^ 8)

theorem ConstraintMeta.fits_iff {c : ConstraintMeta} :
    c.fits = true ↔ c.name.length < 2 ^ 8 ∧ c.colIndices.length < 2 ^ 8 := by
  rw [fits, Bool.and_eq_true, decide_eq_true_eq, decide_eq_true_eq]

namespace ConstraintFile

/-- The bytes of `NYXK`. -/
def magic : Bytes := [0x4E, 0x59, 0x58, 0x4B]

def constraintBytes (c : ConstraintMeta) : Bytes :=
  [c.kind] ++ (leBytes 1 c.name.length ++ (c.name ++
    (leBytes 1 c.colIndices.length ++ c.colIndices)))

/-- The bytes of the file. -/
def write (constraints : List ConstraintMeta) : Bytes :=
  magic ++ leBytes 4 constraints.length ++ constraints.flatMap constraintBytes

def shortRead (part : String) : Bytes :=
  ascii "constraint read: short read on " ++ ascii part

def readConstraint : Reader Bytes ConstraintMeta := do
  let kind ← orError (shortRead "kind") byte
  let nameLen ← orError (shortRead "name_len") (nat 1)
  let name ← orError (shortRead "name") (take nameLen)
  let colCount ← orError (shortRead "col_count") (nat 1)
  let cols ← orError (shortRead "col_indices") (take colCount)
  pure ⟨kind, name, cols⟩

/-- The constraints after the header. -/
def readBody (header : Bytes) : Reader Bytes (List ConstraintMeta) :=
  if header.take 4 ≠ magic then orError (ascii "constraint read: bad magic") fail
  else Reader.times (leNat (header.drop 4)) readConstraint

def readFile : Reader Bytes (List ConstraintMeta) := do
  let header ← orError (shortRead "header") (take 8)
  readBody header

def read (bs : Bytes) : Except Bytes (List ConstraintMeta) :=
  readFile.value bs

theorem reads_constraint {c : ConstraintMeta} (h : c.fits = true) :
    Reads readConstraint.forget (constraintBytes c) c := by
  obtain ⟨hname, hcols⟩ := ConstraintMeta.fits_iff.1 h
  simp only [readConstraint, forget_bind, forget_orError, forget_pure]
  exact (reads_byte _).bind ((reads_nat hname).bind ((reads_take _).bind
    ((reads_nat hcols).bind (reads_take _).map)))

theorem returns_constraint : Returns readConstraint.forget (fun c => c.fits = true) := by
  simp only [readConstraint, forget_bind, forget_orError, forget_pure]
  refine returns_byte.bind fun kind _ => (returns_nat 1).bind fun n hn =>
    (returns_take n).bind fun name hname => (returns_nat 1).bind fun k hk =>
      (returns_take k).map fun cols hcols => ?_
  exact ConstraintMeta.fits_iff.2 ⟨hname.trans_lt hn, hcols.trans_lt hk⟩

/-- All constraints fit, and so does their number. -/
def FitsFile (constraints : List ConstraintMeta) : Prop :=
  constraints.length < 2 ^ 32 ∧ ∀ c ∈ constraints, c.fits = true

theorem reads_file {constraints : List ConstraintMeta} (h : FitsFile constraints) :
    Reads readFile.forget (write constraints) constraints := by
  have hheader := reads_take (magic ++ leBytes 4 constraints.length)
  have hmagic : (magic ++ leBytes 4 constraints.length).take 4 = magic := rfl
  have hcount : leNat ((magic ++ leBytes 4 constraints.length).drop 4) = constraints.length :=
    leNat_leBytes_of_lt h.1
  simp only [readFile, forget_bind, forget_orError]
  refine hheader.bind ?_
  rw [readBody, if_neg (not_not.mpr hmagic), hcount, forget_times]
  exact reads_times fun c hc => reads_constraint (h.2 c hc)

theorem returns_file : Returns readFile.forget FitsFile := by
  simp only [readFile, forget_bind, forget_orError]
  refine (returns_take 8).bind fun header hheader => ?_
  unfold readBody
  split
  · intro bs a rest h
    cases h
  · rw [forget_times]
    intro bs constraints rest h
    obtain ⟨hlen, hall⟩ := returns_constraint.times _ bs constraints rest h
    have hcount := leNat_lt (header.drop 4)
    rw [List.length_drop, hheader] at hcount
    exact ⟨by rw [hlen]; exact hcount, hall⟩

end ConstraintFile

/-! ## Shard maps -/

/-- The parts of a partition fit their fields; the one for `MAXVALUE` has no bound. -/
def PartitionDef.fits (p : PartitionDef) : Bool :=
  decide (p.name.length < 2 ^ 8) && decide (p.nodeAddr.length < 2 ^ 8) &&
    if p.isMaxvalue then p.upperBound.isNull else !p.upperBound.isNull && p.upperBound.fits

namespace ShardMapFile

/-- The bytes of `NYXP`. -/
def magic : Bytes := [0x4E, 0x59, 0x58, 0x50]

def putStr (s : Bytes) : Bytes :=
  leBytes 1 s.length ++ s

/-- The value after its type; `NULL` is written as the `INT32` zero. -/
def putValue (v : Value) : Bytes :=
  [(defaultTag v).toByte] ++ if v.isNull then leBytes 4 0 else valueBytes v

def putBound (p : PartitionDef) : Bytes :=
  if p.isMaxvalue then [1] else [0] ++ putValue p.upperBound

def partitionBytes (p : PartitionDef) : Bytes :=
  putStr p.name ++ (putBound p ++ putStr p.nodeAddr)

/-- The bytes of the file. -/
def write (m : ShardMap) : Bytes :=
  magic ++ (leBytes 2 1 ++ ([m.partitionColIdx] ++ (putStr m.partitionCol ++
    (leBytes 2 m.partitions.length ++ m.partitions.flatMap partitionBytes))))

def orTruncated {α : Type} (p : ByteParser α) : Reader Bytes α :=
  orError (ascii "shard_map read: truncated") p

def readValue : Reader Bytes Value := do
  let t ← orTruncated byte
  if TypeId.ofByte t = .invalid then orError (ascii "shard_map read: unknown type") fail
  else orTruncated (readPayload (TypeId.ofByte t))

/-- The flag of `MAXVALUE` and the bound, which is only there without it. -/
def readBound : Reader Bytes (Bool × Value) := do
  let flag ← orTruncated byte
  if flag != 0 then pure (true, .null)
  else do
    let v ← readValue
    pure (false, v)

def readPartition : Reader Bytes PartitionDef := do
  let name ← orTruncated (counted 1)
  let bound ← readBound
  let addr ← orTruncated (counted 1)
  pure ⟨name, bound.1, bound.2, addr⟩

/-- What follows the magic bytes; the version is not looked at. -/
def readBody : Reader Bytes ShardMap := do
  let _ ← orTruncated (take 2)
  let idx ← orTruncated byte
  let col ← orTruncated (counted 1)
  let count ← orTruncated (nat 2)
  let partitions ← Reader.times count readPartition
  pure ⟨col, idx, partitions⟩

def readFile : Reader Bytes ShardMap := do
  let head ← orError (ascii "shard_map read: bad magic") (take 4)
  if head ≠ magic then orError (ascii "shard_map read: bad magic") fail
  else readBody

def read (bs : Bytes) : Except Bytes ShardMap :=
  readFile.value bs

@[simp] theorem forget_orTruncated {α : Type} (p : ByteParser α) : (orTruncated p).forget = p :=
  forget_orError _ p

theorem forget_readValue : readValue.forget = readDefault := by
  rw [readValue, forget_bind, forget_orTruncated]
  congr 1
  funext t
  split
  · rename_i h
    rw [h]
    rfl
  · rw [forget_orTruncated]

theorem reads_bound {p : PartitionDef} (h : p.fits = true) :
    Reads readBound.forget (putBound p) (p.isMaxvalue, p.upperBound) := by
  simp only [readBound, forget_bind, forget_orTruncated]
  simp only [PartitionDef.fits, Bool.and_eq_true] at h
  have hbound := h.2
  unfold putBound
  cases hmax : p.isMaxvalue with
  | true =>
    rw [hmax] at hbound
    cases hv : p.upperBound with
    | null => exact (reads_byte 1).bind (reads_pure _)
    | _ =>
      rw [hv] at hbound
      cases hbound
  | false =>
    simp only [hmax, Bool.false_eq_true, if_false, Bool.and_eq_true, Bool.not_eq_true'] at hbound
    obtain ⟨hnull, hfits⟩ := hbound
    have hvalue : Reads readValue.forget (putValue p.upperBound) p.upperBound := by
      rw [forget_readValue, putValue, defaultTag, hnull]
      refine (reads_byte _).bind ?_
      rw [TypeId.ofByte_toByte]
      exact reads_payload hnull hfits
    refine (reads_byte 0).bind ?_
    rw [if_neg (by decide), forget_bind]
    exact hvalue.map

theorem reads_partition {p : PartitionDef} (h : p.fits = true) :
    Reads readPartition.forget (partitionBytes p) p := by
  have hbound := reads_bound h
  simp only [PartitionDef.fits, Bool.and_eq_true, decide_eq_true_eq] at h
  obtain ⟨⟨hname, haddr⟩, -⟩ := h
  simp only [readPartition, forget_bind, forget_orTruncated, forget_pure]
  exact (reads_counted hname).bind (hbound.bind (reads_counted haddr).map)

theorem returns_bound : Returns readBound.forget
    (fun b => (if b.1 then b.2.isNull else !b.2.isNull && b.2.fits) = true) := by
  simp only [readBound, forget_bind, forget_orTruncated]
  refine returns_byte.bind fun flag _ => ?_
  split
  · exact returns_pure rfl
  · rw [forget_bind, forget_readValue]
    refine (returns_byte.bind fun t _ => returns_payload _).map fun v hv => ?_
    simp [hv]

theorem returns_partition : Returns readPartition.forget (fun p => p.fits = true) := by
  simp only [readPartition, forget_bind, forget_orTruncated, forget_pure]
  refine (returns_counted 1).bind fun name hname => returns_bound.bind fun b hb =>
    (returns_counted 1).map fun addr haddr => ?_
  simp only [PartitionDef.fits, Bool.and_eq_true, decide_eq_true_eq]
  exact ⟨⟨hname, haddr⟩, hb⟩

/-- The name of the column and the partitions fit, and so does their number. -/
def FitsFile (m : ShardMap) : Prop :=
  m.partitionCol.length < 2 ^ 8 ∧ m.partitions.length < 2 ^ 16 ∧ ∀ p ∈ m.partitions, p.fits = true

theorem reads_file {m : ShardMap} (h : FitsFile m) : Reads readFile.forget (write m) m := by
  obtain ⟨hcol, hcount, hall⟩ := h
  have hbody : Reads readBody.forget ((write m).drop 4) m := by
    simp only [readBody, forget_bind, forget_orTruncated, forget_pure, forget_times]
    exact (reads_take (leBytes 2 1)).bind ((reads_byte _).bind ((reads_counted hcol).bind
      ((reads_nat hcount).bind (reads_times fun p hp => reads_partition (hall p hp)).map)))
  simp only [readFile, forget_bind, forget_orError]
  exact (reads_take magic).bind hbody

theorem returns_file : Returns readFile.forget FitsFile := by
  simp only [readFile, forget_bind, forget_orError]
  refine (returns_take 4).bind fun head _ => ?_
  split
  · intro bs m rest h
    cases h
  · simp only [readBody, forget_bind, forget_orTruncated, forget_pure, forget_times]
    refine (returns_take 2).bind fun _ _ => returns_byte.bind fun idx _ =>
      (returns_counted 1).bind fun col hcol => (returns_nat 2).bind fun n hn =>
        (returns_partition.times n).map fun partitions hps => ?_
    exact ⟨hcol, by rw [hps.1]; exact hn, hps.2⟩

end ShardMapFile

/-! ## What is read back -/

/-- A schema that is read back has fields that fit. -/
theorem fits_of_readSchema {schema : Schema} (h : readSchema (schemaBytes schema) = .ok schema) :
    schema.length < 2 ^ 32 ∧ ∀ c ∈ schema, c.fits = true := by
  rw [readSchema_eq_readColumns] at h
  obtain ⟨hlen, hall⟩ := fits_of_readColumns h
  exact ⟨by omega, hall⟩

/-- `schema.bin` is read back exactly when the names and defaults of the columns fit their fields
and no column has the default `NULL`. -/
theorem schema_file_reads_back (schema : Schema) : readSchema (schemaBytes schema) = .ok schema ↔
      schema.length < 2 ^ 32 ∧ ∀ c ∈ schema, c.fits = true := by
  constructor
  · exact fits_of_readSchema
  · rintro ⟨hlen, hall⟩
    exact readSchema_of_fits hlen hall

/-- What the text of a `CREATE TABLE` asks for. -/
def createdBy (sql : Bytes) : Option BoundCreateTable :=
  match parseSql sql with
  | .ok (.createTable stmt :: _) => (bindCreateTable stmt).toOption
  | _ => none

/-- A default `NULL` is written as an `INT32` without its value: the file ends too early. -/
theorem schema_file_loses_default_null :
    ¬ ∀ sql b, createdBy sql = some b → readSchema (schemaBytes b.schema) = .ok b.schema := by
  intro h
  have hlost := h (ascii "CREATE TABLE t (a INT DEFAULT NULL)")
  exact absurd hlost (by decide +kernel)

/-- The constraints and the shard map of a table are read back exactly when their names, lists and
bounds fit their fields. -/
theorem metadata_files_read_back (constraints : List BoundConstraint) (m : ShardMap) :
    (ConstraintFile.read (ConstraintFile.write (constraints.map toMeta)) =
        .ok (constraints.map toMeta) ↔
      constraints.length < 2 ^ 32 ∧
        ∀ c ∈ constraints, c.name.length < 2 ^ 8 ∧ c.colIndices.length < 2 ^ 8) ∧
    (ShardMapFile.read (ShardMapFile.write m) = .ok m ↔ ShardMapFile.FitsFile m) := by
  constructor
  · have hfits := value_eq_ok_iff (a := constraints.map toMeta)
      ConstraintFile.reads_file ConstraintFile.returns_file
    rw [ConstraintFile.read, hfits, ConstraintFile.FitsFile, List.length_map, List.forall_mem_map]
    simp [ConstraintMeta.fits_iff, toMeta]
  · exact value_eq_ok_iff ShardMapFile.reads_file ShardMapFile.returns_file

/-- A name of 256 bytes is read back as the empty one, and a bound `NULL` as zero. -/
theorem metadata_files_lose_names_and_bounds : (¬ ∀ sql b, createdBy sql = some b →
      ConstraintFile.read (ConstraintFile.write (b.constraints.map toMeta)) =
        .ok (b.constraints.map toMeta)) ∧
    ¬ ∀ sql b m, createdBy sql = some b → b.shardMap = some m →
      ShardMapFile.read (ShardMapFile.write m) = .ok m := by
  constructor
  · intro h
    have hlost := h (ascii "CREATE TABLE t (a INT, CONSTRAINT " ++ List.replicate 256 0x63 ++
        ascii " UNIQUE (a))")
    exact absurd hlost (by decide +kernel)
  · intro h
    have hlost := h (ascii "CREATE TABLE t (a INT) PARTITION BY RANGE (a) (" ++
        ascii "PARTITION p VALUES LESS THAN (NULL) ON 'h:1')")
      ⟨ascii "t", [⟨ascii "a", .int32, true, 255, none⟩], [],
        some ⟨ascii "a", 0, [⟨ascii "p", false, .null, ascii "h:1"⟩]⟩⟩ _ (by decide +kernel) rfl
    exact absurd hlost (by decide +kernel)

end NyxDb
