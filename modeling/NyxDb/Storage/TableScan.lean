import NyxDb.Storage.Table

/-!
# Table scans

A scan goes through the segments and the write buffer.  In each it cuts the deleted rows out of
the range of local ids and reads the ranges that are left in chunks, column by column.  The row
id of a row is the base of its part plus its local id.
-/

namespace NyxDb.TableScan

open List Bitmap

def chunkSize : Nat := 1024

/-- The rows of one part of a table: a segment or the write buffer. -/
structure Part where
  baseRowId : Nat
  localRowCount : Nat
  columns : List ColumnFile
  deleted : Bytes
  deriving DecidableEq, Repr

def segmentPart (s : Segment) : Part :=
  ⟨s.info.baseRowId, s.info.rowCount, s.columns, s.deleted⟩

def bufferPart (t : Table) : Part :=
  ⟨t.wbBaseRowId, t.wbRowCount, t.wbColumns, t.wbDeleted⟩

def parts (t : Table) : List Part :=
  t.segments.map segmentPart ++ [bufferPart t]

/-- A part is a segment or the write buffer. -/
theorem part_cases {t : Table} {k : Nat} {p : Part} (hp : (parts t)[k]? = some p) :
    (∃ s, t.segments[k]? = some s ∧ p = segmentPart s) ∨
      k = t.segments.length ∧ p = bufferPart t := by
  unfold parts at hp
  rcases Nat.lt_or_ge k t.segments.length with hlt | _
  · rw [getElem?_append_left (by simpa using hlt), getElem?_map] at hp
    obtain ⟨s, hs, rfl⟩ := Option.map_eq_some_iff.mp hp
    exact .inl ⟨s, hs, rfl⟩
  · obtain rfl : k = t.segments.length := by
      have hk := lt_of_getElem? hp
      simp at hk
      omega
    rw [getElem?_append_right (by simp), length_map, Nat.sub_self] at hp
    cases hp
    exact .inr ⟨rfl, rfl⟩

theorem part_of_segment {t : Table} {k : Nat} {s : Segment} (hs : t.segments[k]? = some s) :
    (parts t)[k]? = some (segmentPart s) := by
  have hlt := lt_of_getElem? hs
  rw [parts, getElem?_append_left (by simpa using hlt), getElem?_map, hs]
  rfl

theorem part_of_buffer (t : Table) : (parts t)[t.segments.length]? = some (bufferPart t) := by
  rw [parts, getElem?_append_right (by simp), length_map, Nat.sub_self]
  rfl

/-- The first row from `r` on whose bit is not `bit`. -/
def skipWhile (bm : Bytes) (bit : Bool) : Nat → Nat → Nat → Nat
  | 0, r, _ => r
  | fuel + 1, r, stop =>
    if r < stop ∧ test bm r = bit then skipWhile bm bit fuel (r + 1) stop else r

/-- The ranges of rows of `[r, stop)` that are not deleted. -/
def liveRanges (bm : Bytes) : Nat → Nat → Nat → List (Nat × Nat)
  | 0, _, _ => []
  | fuel + 1, r, stop =>
    if r < stop then
      let s := skipWhile bm true (stop - r) r stop
      if s < stop then
        let e := skipWhile bm false (stop - s) s stop
        (s, e) :: liveRanges bm fuel e stop
      else []
    else []

/-- The ranges a scan reads. -/
def survivors (p : Part) : List (Nat × Nat) :=
  if p.localRowCount = 0 then []
  else if p.deleted.isEmpty then [(0, p.localRowCount)]
  else liveRanges p.deleted p.localRowCount 0 p.localRowCount

/-- Read `remaining` values of a column from `cursor` on, page by page. -/
def readCol (c : ColumnFile) : Nat → Nat → Nat → Except Error (List Value)
  | _, _, 0 => .ok []
  | 0, _, _ + 1 => .error .outOfFuel
  | fuel + 1, cursor, remaining + 1 =>
    if c.capacity = 0 then .error .divisionByZero
    else
      match c.readPage (cursor / c.capacity) with
      | .error e => .error e
      | .ok page =>
        let slot := cursor % c.capacity
        if page.length < slot then .error .outOfBounds
        else
          let taken := min (page.length - slot) (remaining + 1)
          match readCol c fuel (cursor + taken) (remaining + 1 - taken) with
          | .error e => .error e
          | .ok rest => .ok ((page.drop slot).take taken ++ rest)

/-- The rows of one chunk with their ids. -/
def readChunk (p : Part) (start count : Nat) : Except Error (List (Nat × Row)) := do
  let cols ← p.columns.mapM fun c => readCol c count start count
  return (range count).map fun j =>
    (p.baseRowId + start + j, cols.map fun col => col.getD j .null)

/-- The rows of one range. -/
def readRange (p : Part) : Nat → Nat → Nat → Except Error (List (Nat × Row))
  | 0, _, _ => .ok []
  | fuel + 1, start, stop =>
    if start < stop then do
      let count := min chunkSize (stop - start)
      let chunk ← readChunk p start count
      let rest ← readRange p fuel (start + count) stop
      return chunk ++ rest
    else .ok []

def readPart (p : Part) : Except Error (List (Nat × Row)) := do
  let ranges ← (survivors p).mapM fun (s, e) => readRange p (e - s) s e
  return ranges.flatten

/-- The live rows of a table with their ids. -/
def scan (t : Table) : Except Error (List (Nat × Row)) := do
  let rows ← (parts t).mapM readPart
  return rows.flatten

/-! ## The rows a scan reads -/

/-- The local ids of the live rows. -/
def liveIds (p : Part) : List Nat :=
  (range p.localRowCount).filter fun l => !test p.deleted l

/-- The local ids of a range. -/
def rangeIds (r : Nat × Nat) : List Nat :=
  range' r.1 (r.2 - r.1)

variable {a b stop : Nat} {p : Part} {rows : List (Nat × Row)}

theorem range'_split {c : Nat} (hab : a ≤ b) (hbc : b ≤ c) :
    range' a (c - a) = range' a (b - a) ++ range' b (c - b) := by
  have h := range'_append_1 (s := a) (m := b - a) (n := c - b)
  rw [show a + (b - a) = b by omega, show b - a + (c - b) = c - a by omega] at h
  exact h.symm

theorem rangeIds_of_le (h : b ≤ a) : rangeIds (a, b) = [] := by
  rw [rangeIds, Nat.sub_eq_zero_of_le h]
  rfl

theorem rangeIds_split {count : Nat} (h : a + count ≤ b) :
    rangeIds (a, b) = range' a count ++ rangeIds (a + count, b) := by
  have hsplit := range'_split (Nat.le_add_right a count) h
  rwa [Nat.add_sub_cancel_left] at hsplit

/-- A range that is not empty is read from its first chunk on. -/
theorem readRange_succ (p : Part) (fuel : Nat) (h : a < b) :
    ∃ count, 0 < count ∧ a + count ≤ b ∧ readRange p (fuel + 1) a b = (do
      let chunk ← readChunk p a count
      let rest ← readRange p fuel (a + count) b
      return chunk ++ rest) := by
  have hsize : 0 < chunkSize := by decide
  refine ⟨min chunkSize (b - a), by omega, by omega, ?_⟩
  rw [readRange, if_pos h]

theorem skipWhile_spec (bm : Bytes) (bit : Bool) : ∀ fuel r, stop - r ≤ fuel → r ≤ stop →
      r ≤ skipWhile bm bit fuel r stop ∧ skipWhile bm bit fuel r stop ≤ stop ∧
        (∀ l, r ≤ l → l < skipWhile bm bit fuel r stop → test bm l = bit) ∧
        (skipWhile bm bit fuel r stop < stop →
          test bm (skipWhile bm bit fuel r stop) ≠ bit) := by
  intro fuel
  induction fuel with
  | zero =>
    intro r hfuel hr
    show r ≤ r ∧ r ≤ stop ∧ (∀ l, r ≤ l → l < r → _) ∧ (r < stop → _)
    exact ⟨Nat.le_refl _, hr, by omega, by omega⟩
  | succ fuel ih =>
    intro r hfuel hr
    unfold skipWhile
    by_cases hc : r < stop ∧ test bm r = bit
    · rw [if_pos hc]
      obtain ⟨_, h2, h3, h4⟩ := ih (r + 1) (by omega) (by omega)
      refine ⟨by omega, h2, fun l hl hl' => ?_, h4⟩
      rcases Nat.eq_or_lt_of_le hl with rfl | hlt
      · exact hc.2
      · exact h3 l hlt hl'
    · rw [if_neg hc]
      exact ⟨Nat.le_refl _, hr, by omega, fun hlt hbit => hc ⟨hlt, hbit⟩⟩

theorem filter_live {bm : Bytes} {v : Bool} (h : ∀ l, a ≤ l → l < b → test bm l = v) :
    (range' a (b - a)).filter (fun l => !test bm l) = if v then [] else range' a (b - a) := by
  rw [filter_congr (q := fun _ => !v)]
  · cases v <;> simp
  · intro l hl
    rw [mem_range'_1] at hl
    rw [h l hl.1 (by omega)]

/-- The ranges hold the live rows, in order. -/
theorem liveRanges_ids (bm : Bytes) : ∀ fuel r, stop - r ≤ fuel → r ≤ stop →
      (liveRanges bm fuel r stop).flatMap rangeIds =
        (range' r (stop - r)).filter fun l => !test bm l := by
  intro fuel
  induction fuel with
  | zero =>
    intro r hfuel hr
    rw [show stop - r = 0 by omega]
    rfl
  | succ fuel ih =>
    intro r hfuel hr
    unfold liveRanges
    by_cases hlt : r < stop
    · rw [if_pos hlt]
      obtain ⟨hrs, hs, hdead, hslive⟩ := skipWhile_spec bm true (stop - r) r (Nat.le_refl _) hr
      generalize skipWhile bm true (stop - r) r stop = s at hrs hs hdead hslive
      rw [range'_split hrs hs, filter_append, filter_live hdead, if_pos rfl]
      by_cases hs' : s < stop
      · obtain ⟨hse, he, hlive, _⟩ := skipWhile_spec bm false (stop - s) s (Nat.le_refl _) hs
        -- the range is not empty, so the rest is shorter
        have hne : s < skipWhile bm false (stop - s) s stop := by
          have hfirst := hslive hs'
          obtain ⟨n, hn⟩ : ∃ n, stop - s = n + 1 := ⟨stop - s - 1, by omega⟩
          have hstep : s + 1 ≤ skipWhile bm false n (s + 1) stop :=
            (skipWhile_spec bm false n (s + 1) (by omega) (by omega)).1
          rw [hn]
          unfold skipWhile
          rw [if_pos ⟨hs', by simpa using hfirst⟩]
          omega
        rw [if_pos hs', flatMap_cons]
        generalize skipWhile bm false (stop - s) s stop = e at hse he hlive hne ⊢
        rw [ih e (by omega) he, range'_split hse he, filter_append, filter_live hlive]
        rfl
      · rw [if_neg hs', show stop - s = 0 by omega]
        rfl
    · rw [if_neg hlt, show stop - r = 0 by omega]
      rfl

theorem survivors_ids (p : Part) : (survivors p).flatMap rangeIds = liveIds p := by
  unfold survivors liveIds
  rw [range_eq_range']
  by_cases h0 : p.localRowCount = 0
  · rw [h0]
    rfl
  · rw [if_neg h0]
    by_cases hempty : p.deleted.isEmpty = true
    · rw [isEmpty_iff.mp hempty]
      simp [rangeIds]
    · rw [if_neg hempty]
      exact liveRanges_ids p.deleted _ 0 (by omega) (by omega)

theorem readChunk_ids {start count : Nat} (h : readChunk p start count = .ok rows) :
    rows.map Prod.fst = (range' start count).map (p.baseRowId + ·) := by
  obtain ⟨_, -, h⟩ := except_bind_eq_ok.mp h
  cases h
  refine ext_getElem (by simp) fun i _ _ => ?_
  simp [Nat.add_assoc]

theorem readRange_ids : ∀ {fuel start} {rows : List (Nat × Row)}, stop - start ≤ fuel →
      readRange p fuel start stop = .ok rows →
      rows.map Prod.fst = (rangeIds (start, stop)).map (p.baseRowId + ·) := by
  intro fuel
  induction fuel with
  | zero =>
    intro start rows hfuel h
    cases h
    rw [rangeIds_of_le (by omega)]
    rfl
  | succ fuel ih =>
    intro start rows hfuel h
    by_cases hlt : start < stop
    · obtain ⟨count, hpos, hle, hstep⟩ := readRange_succ p fuel hlt
      rw [hstep] at h
      obtain ⟨_, hchunk, h⟩ := except_bind_eq_ok.mp h
      obtain ⟨_, hrest, h⟩ := except_bind_eq_ok.mp h
      cases h
      rw [map_append, readChunk_ids hchunk, ih (by omega) hrest, rangeIds_split hle, map_append]
    · rw [readRange, if_neg hlt] at h
      cases h
      rw [rangeIds_of_le (by omega)]
      rfl

/-- A scan of a part reports the ids of its live rows. -/
theorem readPart_ids (h : readPart p = .ok rows) :
    rows.map Prod.fst = (liveIds p).map (p.baseRowId + ·) := by
  rw [readPart, except_bind_eq_ok] at h
  obtain ⟨_, hranges, h⟩ := h
  cases h
  rw [← survivors_ids, map_flatMap, flatMap_def, map_flatten,
    forall₂_map_eq (forall₂_of_mapM hranges) fun _ _ hr => readRange_ids (Nat.le_refl _) hr]

/-- Every row a scan reports is a live row of a part, under the id of that part. -/
theorem scan_ids {t : Table} (h : scan t = .ok rows) :
    rows.map Prod.fst = (parts t).flatMap fun p => (liveIds p).map (p.baseRowId + ·) := by
  rw [scan, except_bind_eq_ok] at h
  obtain ⟨_, hparts, h⟩ := h
  cases h
  rw [flatMap_def, map_flatten,
    forall₂_map_eq (forall₂_of_mapM hparts) fun _ _ hp => readPart_ids hp]

end NyxDb.TableScan
