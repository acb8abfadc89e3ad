import NyxDb.Wal.Record

/-!
# The log as a codec

A sequence of calls of the writer makes a file.  `readAll` gives back the records of the calls, each
at its offset, exactly if every call fits the fields of its record: the reader returns nothing else
than records that fit (`returns_walPayload`), so one call that does not costs its own record and
every later one.  Of a file that ends early the reader returns the records that are there in full.
-/

namespace NyxDb

open ByteParser List

/-! ## Calls of the writer -/

/-- A call of one of the functions `log_*`, with the schema that the caller passes. -/
structure LogCall where
  table : Bytes
  body : WalBody
  deriving DecidableEq, Repr

/-- What a record can tell of a call: rows go without the names of their columns. -/
def WalBody.logged : WalBody → WalBody
  | .insert schema rows => .insert (logSchema schema) rows
  | .update ids schema rows => .update ids (logSchema schema) rows
  | .createTable schema => .createTable schema
  | .delete ids => .delete ids
  | .segmentFlush count => .segmentFlush count

/-- The payload of the record, if there is one: `log_insert` writes nothing for no rows. -/
def LogCall.payload (call : LogCall) : Except Error (Option Bytes) :=
  match call.body with
  | .insert schema rows =>
    if rows.isEmpty then .ok none
    else do
      let payload ← insertPayload call.table schema rows
      return some payload
  | .createTable schema => .ok (some (createTablePayload call.table schema))
  | .delete ids => .ok (some (deletePayload call.table ids))
  | .update ids schema rows => do
      let payload ← updatePayload call.table ids schema rows
      return some payload
  | .segmentFlush count => .ok (some (segmentFlushPayload call.table count))

/-- A record that was written, with the number of its bytes. -/
structure WrittenRecord where
  record : WalRecord
  size : Nat
  deriving DecidableEq, Repr

/-- The calls in turn, by a writer whose `offset_` is `pos`: the bytes they append. -/
def writeCalls : Nat → List LogCall → Except Error (Bytes × List WrittenRecord)
  | _, [] => .ok ([], [])
  | pos, call :: calls => do
      match ← call.payload with
      | none => writeCalls pos calls
      | some payload => do
          let bs := recordBytes payload
          let (rest, written) ← writeCalls (pos + bs.length) calls
          return (bs ++ rest, ⟨⟨pos, call.table, call.body.logged⟩, bs.length⟩ :: written)

/-- A new file, and the calls. -/
def writeLog (calls : List LogCall) : Except Error (Bytes × List WrittenRecord) := do
  let (bs, written) ← writeCalls walHeaderSize calls
  return (walHeader ++ bs, written)

/-! ## Calls that fit -/

/-- Every number and every length fits its field, and no column has `DEFAULT NULL`. -/
def WalBody.FitsRecord : WalBody → Prop
  | .insert schema rows => RowsFit schema rows
  | .createTable schema => Schema.fits schema = true
  | .delete ids => ids.length < 2 ^ 64 ∧ ∀ i ∈ ids, i < 2 ^ 64
  | .update ids schema rows =>
    (ids.length < 2 ^ 64 ∧ ∀ i ∈ ids, i < 2 ^ 64) ∧ RowsFit schema rows
  | .segmentFlush count => count < 2 ^ 64

instance : DecidablePred WalBody.FitsRecord := fun body => by
  cases body <;> dsimp only [WalBody.FitsRecord] <;> infer_instance

/-- A call fits if it has nothing to write or if all its parts fit. -/
def LogCall.FitsRecord (call : LogCall) : Prop :=
  (∃ schema, call.body = .insert schema []) ∨ (call.table.length < 2 ^ 16 ∧ call.body.FitsRecord)

theorem RowsFit.congr {s s' : Schema} {rows : List Row} (h : RowsFit s rows)
    (hlen : s.length = s'.length) : RowsFit s' rows :=
  { h with columns := hlen ▸ h.columns, widths := hlen ▸ h.widths }

theorem rowsFit_logSchema {schema : Schema} {rows : List Row} :
    RowsFit (logSchema schema) rows ↔ RowsFit schema rows :=
  ⟨fun h => h.congr (by simp [logSchema]), fun h => h.congr (by simp [logSchema])⟩

/-- The record of a call fits exactly if the call does. -/
theorem WalBody.fits_logged {body : WalBody} : body.logged.FitsRecord ↔ body.FitsRecord := by
  cases body with
  | insert schema rows => exact rowsFit_logSchema
  | update ids schema rows => exact and_congr_right fun _ => rowsFit_logSchema
  | _ => exact Iff.rfl

variable {call : LogCall} {bs : Bytes} {calls : List LogCall} {pos : Nat}
  {written : List WrittenRecord}

/-- Only an insertion of no rows leaves no record. -/
theorem LogCall.payload_eq_none (h : call.payload = .ok none) :
    ∃ schema, call.body = .insert schema [] := by
  obtain ⟨table, body⟩ := call
  cases body with
  | insert schema rows =>
    cases rows with
    | nil => exact ⟨schema, rfl⟩
    | cons row rows =>
      change (do
        let payload ← insertPayload table schema (row :: rows)
        return some payload) = .ok none at h
      cases hp : insertPayload table schema (row :: rows) <;> rw [hp] at h <;> cases h
  | update ids schema rows =>
    change (do
      let payload ← updatePayload table ids schema rows
      return some payload) = .ok none at h
    cases hp : updatePayload table ids schema rows <;> rw [hp] at h <;> cases h
  | _ => cases h

/-- The record of a call that fits is read back. -/
theorem LogCall.encodes {payload : Bytes} (h : call.payload = .ok (some payload))
    (hfits : call.FitsRecord) : Encodes payload call.table call.body.logged := by
  obtain ⟨_, body⟩ := call
  rcases hfits with ⟨schema, rfl⟩ | ⟨htable, hbody⟩
  · cases h
  · cases body with
    | insert schema rows =>
      unfold LogCall.payload at h
      dsimp only at h
      split at h
      · cases h
      · obtain ⟨bs, hp, h⟩ := except_bind_eq_ok.mp h
        cases h
        exact encodes_insert hp htable hbody
    | createTable schema =>
      cases h
      exact encodes_createTable htable hbody
    | delete ids =>
      cases h
      exact encodes_delete htable hbody.1 hbody.2
    | update ids schema rows =>
      obtain ⟨bs, hp, h⟩ := except_bind_eq_ok.mp h
      cases h
      exact encodes_update hp htable hbody.1.1 hbody.1.2 hbody.2
    | segmentFlush count =>
      cases h
      exact encodes_segmentFlush htable hbody

/-! ## The reader returns what fits -/

theorem returns_walRows : Returns readWalRows (fun x => RowsFit x.1 x.2) := by
  have hcolumn : Returns readWalColumn (fun _ => True) := fun _ _ _ _ => trivial
  have hvalue : ∀ c, Returns (readWalValue c) (fun v => v.fits = true) := by
    intro c
    have hbyte : Returns byte (fun _ => True) := fun _ _ _ _ => trivial
    refine hbyte.bind fun null _ => ?_
    split
    · exact returns_pure rfl
    · exact fun bs v rest h => (returns_payload _ bs v rest h).2
  refine (returns_nat 4).bind fun rowCount hcount => (returns_nat 2).bind fun colCount hcols =>
    (hcolumn.times colCount).bind fun schema hschema =>
      ((Returns.each hvalue schema).times rowCount).map fun rows hrows => ?_
  have hcount' : rowCount < 2 ^ 32 := hcount
  have hcols' : colCount < 2 ^ 16 := hcols
  exact ⟨hschema.1 ▸ hcols', hrows.1 ▸ hcount', fun row hrow => (hrows.2 row hrow).1,
    fun row hrow => (hrows.2 row hrow).2⟩

theorem returns_walIds :
    Returns readWalIds (fun ids => ids.length < 2 ^ 64 ∧ ∀ i ∈ ids, i < 2 ^ 64) := by
  refine (returns_nat 8).bind fun count hcount bs ids rest h => ?_
  obtain ⟨hlen, hids⟩ := (returns_nat 8).times count bs ids rest h
  have hcount' : count < 2 ^ 64 := hcount
  exact ⟨hlen ▸ hcount', hids⟩

theorem returns_walBody (type : UInt8) : Returns (readWalBody type) WalBody.FitsRecord := by
  unfold readWalBody
  split
  · exact returns_walRows.map fun _ h => h
  split
  · refine Returns.map (P := fun schema => Schema.fits schema = true) ?_ fun _ h => h
    refine (returns_nat 2).bind fun count hcount bs schema rest h => ?_
    obtain ⟨hlen, hcols⟩ := (returns_column _).times count bs schema rest h
    have hcount' : schema.length < 65536 := hlen ▸ hcount
    simp only [Schema.fits, Bool.and_eq_true, all_eq_true]
    exact ⟨decide_eq_true hcount', hcols⟩
  split
  · exact returns_walIds.map fun _ h => h
  split
  · exact returns_walIds.bind fun _ hids => returns_walRows.map fun _ hrows => ⟨hids, hrows⟩
  split
  · exact (returns_nat 8).map fun _ h => h
  · intro bs body rest h
    cases h

/-- **Whatever is in the file, a record that is read fits its fields.** -/
theorem returns_walPayload : Returns readWalPayload
    (fun x => x.1.length < 2 ^ 16 ∧ x.2.FitsRecord) := by
  have hbyte : Returns byte (fun _ => True) := fun _ _ _ _ => trivial
  exact hbyte.bind fun type _ => (returns_counted 2).bind fun name hname =>
    (returns_walBody type).map fun body hbody => ⟨hname, hbody⟩

theorem readWalRecord_eq_some {rest : Bytes} {x : Bytes × WalBody}
    (h : readWalRecord bs = some (x, rest)) : ∃ mid, readWalPayload bs = some (x, mid) := by
  unfold readWalRecord at h
  split at h
  · cases h
  · rename_i rec mid hpayload
    split at h
    · cases h
    · split at h
      · cases h
        exact ⟨mid, hpayload⟩
      · cases h

/-- Every record of a file fits. -/
theorem readRecords_fits (fuel pos : Nat) (bs : Bytes) :
    ∀ r ∈ readRecords fuel pos bs, r.tableName.length < 2 ^ 16 ∧ r.body.FitsRecord := by
  induction fuel generalizing pos bs with
  | zero => simp [readRecords]
  | succ fuel ih =>
    rw [readRecords]
    split
    · simp
    · rename_i name body rest h
      obtain ⟨_, hpayload⟩ := readWalRecord_eq_some h
      rw [forall_mem_cons]
      exact ⟨returns_walPayload _ _ _ hpayload, ih _ rest⟩

/-! ## A record that is cut short -/

theorem steady_walRows : Steady readWalRows := by
  have hcolumn : Steady readWalColumn := steady_byte.bind fun t => (steady_nat 2).map
  have hvalue : ∀ c, Steady (readWalValue c) := by
    intro c
    refine steady_byte.bind fun null => ?_
    split
    · exact steady_pure _
    · exact steady_payload _
  exact (steady_nat 4).bind fun rowCount => (steady_nat 2).bind fun colCount =>
    (hcolumn.times colCount).bind fun schema => ((Steady.each hvalue schema).times rowCount).map

theorem steady_walIds : Steady readWalIds :=
  (steady_nat 8).bind fun count => (steady_nat 8).times count

theorem steady_walBody (type : UInt8) : Steady (readWalBody type) := by
  unfold readWalBody
  split
  · exact steady_walRows.map
  split
  · exact Steady.map ((steady_nat 2).bind fun count => (steady_column _).times count)
  split
  · exact steady_walIds.map
  split
  · exact steady_walIds.bind fun ids => steady_walRows.map
  split
  · exact (steady_nat 8).map
  · exact steady_fail

theorem steady_walPayload : Steady readWalPayload :=
  steady_byte.bind fun type => (steady_counted 2).bind fun _ => (steady_walBody type).map

/-- What follows a record changes neither the record nor the bytes that its checksum is of. -/
theorem steady_walRecord : Steady readWalRecord := by
  intro bs x rest more h
  unfold readWalRecord at h ⊢
  split at h
  · cases h
  · rename_i rec mid hpayload
    split at h
    · cases h
    · rename_i stored rest' hstored
      have htaken : (bs ++ more).take ((bs ++ more).length - (mid ++ more).length) =
          bs.take (bs.length - mid.length) := by
        rw [length_append, length_append, Nat.add_sub_add_right,
          take_append_of_le_length (Nat.sub_le _ _)]
      rw [steady_walPayload _ _ _ more hpayload]
      simp only [steady_nat 8 _ _ _ more hstored, htaken]
      split at h
      · rename_i hsum
        cases h
        rw [if_pos hsum]
      · cases h

/-! ## Files -/

/-- A call that succeeded, and the calls after it. -/
theorem writeCalls_cons (h : writeCalls pos (call :: calls) = .ok (bs, written)) :
    (call.payload = .ok none ∧ writeCalls pos calls = .ok (bs, written)) ∨
      ∃ payload rest later, call.payload = .ok (some payload) ∧
        writeCalls (pos + (recordBytes payload).length) calls = .ok (rest, later) ∧
        bs = recordBytes payload ++ rest ∧
        written = ⟨⟨pos, call.table, call.body.logged⟩, (recordBytes payload).length⟩ :: later := by
  obtain ⟨payload, hp, h⟩ := except_bind_eq_ok.mp h
  cases payload with
  | none => exact .inl ⟨hp, h⟩
  | some payload =>
    obtain ⟨x, hrest, h⟩ := except_bind_eq_ok.mp h
    cases h
    exact .inr ⟨payload, x.1, x.2, hp, hrest, rfl, rfl⟩

/-- Records are written from the offset of the writer on, and end where the bytes of the calls end
or before. -/
theorem bounds_of_writeCalls (h : writeCalls pos calls = .ok (bs, written)) :
    ∀ w ∈ written, pos ≤ w.record.byteOffset ∧ w.record.byteOffset + w.size ≤ pos + bs.length := by
  induction calls generalizing pos bs written with
  | nil =>
    cases h
    simp
  | cons call calls ih =>
    rcases writeCalls_cons h with ⟨-, hrest⟩ | ⟨_, _, _, -, hrest, rfl, rfl⟩
    · exact ih hrest
    · rw [forall_mem_cons, length_append]
      refine ⟨by simp, fun w hw => ?_⟩
      have := ih hrest w hw
      omega

/-- A call has left its record, or had none to leave. -/
theorem mem_written_of_writeCalls (h : writeCalls pos calls = .ok (bs, written)) :
    ∀ call ∈ calls, call.payload = .ok none ∨
      ∃ w ∈ written, w.record.tableName = call.table ∧ w.record.body = call.body.logged := by
  induction calls generalizing pos bs written with
  | nil => simp
  | cons call calls ih =>
    rw [forall_mem_cons]
    rcases writeCalls_cons h with ⟨hnone, hrest⟩ | ⟨_, _, _, -, hrest, -, rfl⟩
    · exact ⟨.inl hnone, ih hrest⟩
    · refine ⟨.inr ⟨_, mem_cons_self, rfl, rfl⟩, fun c hc => ?_⟩
      rcases ih hrest c hc with hnone | ⟨w, hw, hrec⟩
      · exact .inl hnone
      · exact .inr ⟨w, mem_cons_of_mem _ hw, hrec⟩

/-- The records that end within the first `n` bytes. -/
def completeBy (n : Nat) (written : List WrittenRecord) : List WalRecord :=
  (written.filter fun w => decide (w.record.byteOffset + w.size ≤ n)).map WrittenRecord.record

theorem completeBy_of_lt {n : Nat} (h : ∀ w ∈ written, n < w.record.byteOffset) :
    completeBy n written = [] := by
  rw [completeBy, map_eq_nil_iff, filter_eq_nil_iff]
  intro w hw
  have := h w hw
  simp only [decide_eq_true_eq]
  omega

/-- **The records of calls that fit, from a part of what they wrote.** -/
theorem readRecords_take (h : writeCalls pos calls = .ok (bs, written))
    (hfits : ∀ call ∈ calls, call.FitsRecord) (n fuel : Nat) (hfuel : (bs.take n).length ≤ fuel) :
    readRecords fuel pos (bs.take n) = completeBy (pos + n) written := by
  -- By induction on the calls: a record is there in full, or the rest of the input is a part of it.
  induction calls generalizing pos bs written n fuel with
  | nil =>
    cases h
    rw [take_nil]
    exact readRecords_nil fuel pos
  | cons call calls ih =>
    have hlater : ∀ c ∈ calls, c.FitsRecord := fun c hc => hfits c (mem_cons_of_mem _ hc)
    rcases writeCalls_cons h with ⟨-, hrest⟩ | ⟨payload, rest, later, hp, hrest, rfl, rfl⟩
    · exact ih hrest hlater n fuel hfuel
    · have henc := reads_walRecord (LogCall.encodes hp (hfits call mem_cons_self))
      by_cases hn : (recordBytes payload).length ≤ n
      · have htake : (recordBytes payload ++ rest).take n =
            recordBytes payload ++ rest.take (n - (recordBytes payload).length) := by
          rw [take_append, take_of_length_le hn]
        have hpos : 0 < (recordBytes payload).length := by
          rw [recordBytes, length_append, length_leBytes]
          omega
        rw [htake, length_append] at hfuel
        obtain ⟨k, rfl⟩ : ∃ k, fuel = k + 1 := ⟨fuel - 1, by omega⟩
        have hsum : pos + (recordBytes payload).length + (n - (recordBytes payload).length) =
            pos + n := by omega
        have hread := ih hrest hlater (n - (recordBytes payload).length) k (by omega)
        rw [hsum] at hread
        rw [htake, readRecords, henc]
        simp only [length_append, Nat.add_sub_cancel, hread]
        rw [completeBy, completeBy, filter_cons_of_pos (by simpa using hn)]
        rfl
      · have htake : (recordBytes payload ++ rest).take n = (recordBytes payload).take n :=
          take_append_of_le_length (by omega)
        have hcut := henc.take_eq_none steady_walRecord (Nat.lt_of_not_le hn)
        have hnone : completeBy (pos + n) (⟨⟨pos, call.table, call.body.logged⟩,
            (recordBytes payload).length⟩ :: later) = [] := by
          have hgone := completeBy_of_lt (n := pos + n) fun w hw =>
            Nat.lt_of_lt_of_le (by omega) (bounds_of_writeCalls hrest w hw).1
          rw [completeBy] at hgone ⊢
          rw [filter_cons_of_neg (by simpa using hn), hgone]
        rw [htake, hnone]
        cases fuel with
        | zero => rfl
        | succ fuel => rw [readRecords, hcut]

theorem writeLog_eq_ok {file : Bytes} (h : writeLog calls = .ok (file, written)) :
    ∃ bs, writeCalls walHeaderSize calls = .ok (bs, written) ∧ file = walHeader ++ bs := by
  obtain ⟨x, hcalls, h⟩ := except_bind_eq_ok.mp h
  cases h
  exact ⟨x.1, hcalls, rfl⟩

/-- **A torn tail.**  However many bytes of the file are left behind the header, the reader returns
the records that are there in full, in order, and nothing else. -/
theorem readAll_take {calls : List LogCall} {file : Bytes} {written : List WrittenRecord}
    (h : writeLog calls = .ok (file, written)) (hfits : ∀ call ∈ calls, call.FitsRecord)
    {n : Nat} (hn : walHeaderSize ≤ n) : readAll (file.take n) = .ok (completeBy n written) := by
  obtain ⟨bs, hcalls, rfl⟩ := writeLog_eq_ok h
  have htake : (walHeader ++ bs).take n = walHeader ++ bs.take (n - walHeaderSize) := by
    rw [take_append, take_of_length_le (show walHeader.length ≤ n from hn)]
    rfl
  have hread := readRecords_take hcalls hfits (n - walHeaderSize)
    (walHeader ++ bs.take (n - walHeaderSize)).length (by simp)
  rw [Nat.add_sub_cancel' hn] at hread
  rw [htake, readAll_append, hread]

/-- `CREATE TABLE t (x INT)` and `INSERT INTO t VALUES (7)`. -/
def createThenInsert : List LogCall :=
  [⟨[116], .createTable [⟨[120], .int32, true, 0, none⟩]⟩,
    ⟨[116], .insert [⟨[120], .int32, true, 0, none⟩] [[.int32 7]]⟩]

theorem fits_createThenInsert : ∀ call ∈ createThenInsert, call.FitsRecord := by
  simp only [createThenInsert, forall_mem_cons, LogCall.FitsRecord]
  refine ⟨.inr ⟨by decide, rfl⟩, .inr ⟨by decide, ⟨by decide, by decide, ?_, ?_⟩⟩, by simp⟩
  · simp
  · simp [Value.fits]

/-- The last byte of the insertion is missing: the table is there, without the row. -/
theorem readAll_take_createThenInsert :
    (writeLog createThenInsert).toOption.map (fun x => x.1.length) = some 54 ∧
      ∃ file written, writeLog createThenInsert = .ok (file, written) ∧
        readAll (file.take 53) = .ok (completeBy 53 written) ∧
        completeBy 53 written = [⟨6, [116], .createTable [⟨[120], .int32, true, 0, none⟩]⟩] :=
  ⟨by decide +kernel, _, _, rfl, readAll_take rfl fits_createThenInsert (by decide),
    by decide +kernel⟩

/-! ## Round trip -/

theorem readAll_of_fits {file : Bytes} (h : writeLog calls = .ok (file, written))
    (hfits : ∀ call ∈ calls, call.FitsRecord) :
    readAll file = .ok (written.map WrittenRecord.record) := by
  obtain ⟨bs, hcalls, rfl⟩ := writeLog_eq_ok h
  have hread := readRecords_take hcalls hfits bs.length (walHeader ++ bs).length (by simp)
  have hall : completeBy (walHeaderSize + bs.length) written =
      written.map WrittenRecord.record := by
    rw [completeBy, filter_eq_self.mpr]
    intro w hw
    exact decide_eq_true (bounds_of_writeCalls hcalls w hw).2
  rw [take_length, hall] at hread
  rw [readAll_append, hread]

/-- **Round trip.**  The reader gives back the records of the calls, each with the offset at which
it was written, if and only if every call fits the fields of its record. -/
theorem readAll_writeLog_iff {calls : List LogCall} {file : Bytes} {written : List WrittenRecord}
    (h : writeLog calls = .ok (file, written)) :
    readAll file = .ok (written.map WrittenRecord.record) ↔ ∀ call ∈ calls, call.FitsRecord := by
  constructor
  · intro hread call hcall
    obtain ⟨bs, hcalls, rfl⟩ := writeLog_eq_ok h
    rcases mem_written_of_writeCalls hcalls call hcall with hnone | ⟨w, hw, htable, hbody⟩
    · exact .inl (LogCall.payload_eq_none hnone)
    · rw [readAll_append, Except.ok.injEq] at hread
      have hmem : w.record ∈ readRecords (walHeader ++ bs).length walHeaderSize bs := by
        rw [hread]
        exact mem_map_of_mem hw
      have hfits := readRecords_fits _ _ _ _ hmem
      rw [htable, hbody, WalBody.fits_logged] at hfits
      exact .inr hfits
  · exact readAll_of_fits h

theorem readAll_writeLog_createThenInsert :
    ∃ file written, writeLog createThenInsert = .ok (file, written) ∧ written.length = 2 ∧
      readAll file = .ok (written.map WrittenRecord.record) :=
  ⟨_, _, rfl, by decide +kernel, (readAll_writeLog_iff rfl).mpr fits_createThenInsert⟩

/-- `CREATE TABLE t (x INT DEFAULT NULL)` and `INSERT INTO t VALUES (7)`. -/
def createDefaultNull : List LogCall :=
  [⟨[116], .createTable [⟨[120], .int32, true, 0, some .null⟩]⟩,
    ⟨[116], .insert [⟨[120], .int32, true, 0, some .null⟩] [[.int32 7]]⟩]

/-- The default is written as an `INT32` without a value; the reader takes four bytes for it, the
checksum is wrong, and neither the table nor the row is found. -/
theorem createDefaultNull_lost :
    ∃ file written, writeLog createDefaultNull = .ok (file, written) ∧ written.length = 2 ∧
      readAll file = .ok [] ∧ readAll file ≠ .ok (written.map WrittenRecord.record) :=
  ⟨_, _, rfl, by decide +kernel, by decide +kernel, by decide +kernel⟩

end NyxDb
