import NyxDb.Lib.Run
import NyxDb.Storage.ColumnImage

/-!
# A column file as a list

Appending, flushing, truncating and opening a column file act on the list of its values; the
getters and the scan return the values of the list.  The pages, the page in memory and the buffer
pool do not show.
-/

namespace NyxDb
namespace ImageFile

open PageImage (Holds)

variable {s : ColumnSpec} {vals dur : List Value}

variable {r : ImageFile}

theorem Keeps.prefix (h : Keeps s r vals dur) : dur <+: vals := by
  obtain ⟨c, -, -, hstores⟩ := h
  exact hstores.prefix

theorem Keeps.capacity (h : Keeps s r vals dur) : r.capacity = s.capacity ∧ r.capacity ≠ 0 := by
  obtain ⟨c, himages, rfl, hstores⟩ := h
  have hpos := hstores.cap_pos
  rw [himages.capacity]
  exact ⟨rfl, Nat.pos_iff_ne_zero.1 hpos⟩

theorem Keeps.rowCount (h : Keeps s r vals dur) : r.rowCount = vals.length := by
  obtain ⟨c, himages, -, hstores⟩ := h
  rw [← hstores.rowCount, ImageFile.rowCount, ColumnFile.rowCount, himages.currentId,
    himages.capacity, himages.current.count]

/-! ## Reading -/

section Reading

variable {α : Type} {i : Nat} {r : ImageFile} {v : Value}

theorem maintains_withPage (id : Nat) (use : PageImage → α) :
    Maintains (fun r => Keeps s r vals dur) (withPage id use) := by
  rintro r ⟨c, himages, hspec, hstores⟩
  obtain ⟨_, hexec, himages'⟩ := exec_withPage himages (nextPageId_eq hstores) id use
  rw [hexec]
  exact ⟨c, himages', hspec, hstores⟩

theorem maintains_of_same {c : Op ImageFile α} (h : Preserves id c) :
    Maintains (fun r => Keeps s r vals dur) c :=
  h.maintains fun r r' (heq : r' = r) hkeeps => heq ▸ hkeeps

theorem maintains_get (t : TypeId) (rowId : Nat) :
    Maintains (fun r => Keeps s r vals dur) (get t rowId) := by
  apply maintains_get_bind
  intro r h
  rw [if_neg h.capacity.2]
  refine (maintains_withPage _ _).bind (fun v => ?_) r h
  exact maintains_of_same (preserves_ofExcept v)

theorem maintains_getStr (rowId : Nat) :
    Maintains (fun r => Keeps s r vals dur) (getStr rowId) := by
  apply maintains_get_bind
  intro r h
  rw [if_neg h.capacity.2]
  exact maintains_withPage _ _ r h

theorem maintains_isNull (rowId : Nat) :
    Maintains (fun r => Keeps s r vals dur) (isNull rowId) := by
  apply maintains_get_bind
  intro r h
  rw [if_neg h.capacity.2]
  split
  · exact h
  · exact maintains_withPage _ _ r h

theorem maintains_scanPages (ids : List Nat) :
    Maintains (fun r => Keeps s r vals dur) (scanPages ids) := by
  induction ids with
  | nil => exact maintains_of_same (preserves_pure [])
  | cons id ids ih =>
    refine (maintains_withPage _ _).bind fun page => ih.bind fun pages => ?_
    exact maintains_of_same (preserves_pure _)

theorem maintains_scan : Maintains (fun r => Keeps s r vals dur) scan :=
  maintains_get_bind fun r h => maintains_scanPages _ r h

section

variable (h : Keeps s r vals dur)
include h

/-- The page of a row has its value in the slot of the row. -/
theorem Keeps.withPage (hv : vals[i]? = some v) (use : PageImage → α) :
    ∃ page slots r', exec (ImageFile.withPage (i / s.capacity) use) r = (.ok (use page), r') ∧
      Holds s page slots ∧ slots[i % s.capacity]? = some v := by
  obtain ⟨c, himages, rfl, hstores⟩ := h
  have hi := lt_of_getElem? hv
  obtain ⟨slots, hread, hslot⟩ := hstores.readPage hi
  obtain ⟨page, r', hexec, hholds, -⟩ :=
    exec_withPage_ok himages (nextPageId_eq hstores) hread use
  exact ⟨page, slots, r', hexec, hholds, hslot.trans hv⟩

/-- The rows past the last one are on the current page, after its values, or on no page. -/
theorem Keeps.withPage_none (hi : vals.length ≤ i) (use : PageImage → α) :
    (∃ page slots r', exec (ImageFile.withPage (i / s.capacity) use) r =
        (.ok (use page), r') ∧ Holds s page slots ∧ slots.length ≤ i % s.capacity) ∨
      r.nextPageId ≤ i / s.capacity ∧
        ∃ e r', exec (ImageFile.withPage (i / s.capacity) use) r = (.error e, r') := by
  obtain ⟨c, himages, rfl, hstores⟩ := h
  have hnext := nextPageId_eq hstores
  have hrows := hstores.rowCount
  have hpos : 0 < c.spec.capacity := hstores.cap_pos
  have hdiv := Nat.div_add_mod' i c.spec.capacity
  rw [ColumnFile.rowCount, ColumnFile.capacity] at hrows
  obtain ⟨r', hexec, -⟩ := exec_withPage himages hnext (i / c.spec.capacity) use
  have hge : c.currentId ≤ i / c.spec.capacity := by
    rw [Nat.le_div_iff_mul_le hpos]
    omega
  rw [himages.currentId] at hexec
  by_cases heq : i / c.spec.capacity = c.currentId
  · left
    rw [if_pos heq] at hexec
    refine ⟨r.current, c.current, r', hexec, himages.current, ?_⟩
    rw [heq] at hdiv
    omega
  · right
    have hrange : r.nextPageId ≤ i / c.spec.capacity := by
      rw [himages.nextPageId]
      omega
    rw [if_neg heq, diskRead, if_pos hrange] at hexec
    exact ⟨hrange, _, r', hexec⟩

/-- What the getter of the column's type returns. -/
theorem Keeps.get (hv : vals[i]? = some v) :
    (exec (ImageFile.get s.type i) r).1 =
      if v.isNull then .error .valueIsNull else .ok v := by
  obtain ⟨page, _, _, hexec, hholds, hslot⟩ :=
    h.withPage hv fun page => page.get s.type (i % s.capacity)
  rw [ImageFile.get, exec_get_bind, if_neg h.capacity.2, h.capacity.1,
    exec_bind_ok hexec, exec_ofExcept, hholds.get hslot]

theorem Keeps.get_none (hi : vals.length ≤ i) :
    ∃ e, (exec (ImageFile.get s.type i) r).1 = .error e := by
  rw [ImageFile.get, exec_get_bind, if_neg h.capacity.2, h.capacity.1]
  rcases h.withPage_none hi fun page => page.get s.type (i % s.capacity) with
    ⟨page, slots, r', hexec, hholds, hslot⟩ | ⟨-, e, r', hexec⟩
  · have htype : ¬ page.type ≠ s.type := fun hne => hne hholds.type
    refine ⟨.slotOutOfRange, ?_⟩
    rw [exec_bind_ok hexec, exec_ofExcept, PageImage.get, if_neg htype,
      if_pos (by rw [hholds.count]; exact hslot)]
  · exact ⟨e, by rw [exec_bind_error hexec]⟩

theorem Keeps.getStr {str : Bytes} (hv : vals[i]? = some (.string str)) :
    (exec (ImageFile.getStr i) r).1 = .ok str := by
  obtain ⟨page, _, _, hexec, hholds, hslot⟩ :=
    h.withPage hv fun page => page.getStr (i % s.capacity)
  rw [ImageFile.getStr, exec_get_bind, if_neg h.capacity.2, h.capacity.1,
    exec_bind_ok (exec_result _ r), hexec, hholds.getStr hslot]
  rfl

theorem Keeps.isNull (hv : vals[i]? = some v) :
    (exec (ImageFile.isNull i) r).1 = .ok v.isNull := by
  obtain ⟨page, _, _, hexec, hholds, hslot⟩ :=
    h.withPage hv fun page => page.isNull (i % s.capacity)
  have hrange : ¬ r.nextPageId ≤ i / s.capacity := by
    obtain ⟨c, himages, rfl, hstores⟩ := h
    have hi := lt_of_getElem? hv
    obtain ⟨_, _, hl, rfl, -⟩ := hstores
    have hcur := hl.current_le
    have hpos := hl.cap_pos
    rw [List.length_append, ColumnFile.length_flatten_of_full hl.full_length] at hi
    rw [himages.nextPageId, hl.nextPageId, Nat.not_le]
    refine (Nat.div_lt_iff_lt_mul hpos).2 ?_
    rw [Nat.succ_mul]
    omega
  rw [ImageFile.isNull, exec_get_bind, if_neg h.capacity.2, h.capacity.1,
    if_neg hrange, exec_bind_ok (exec_result _ r), hexec, hholds.isNull hslot]
  rfl

theorem Keeps.isNull_none (hi : vals.length ≤ i) :
    (exec (ImageFile.isNull i) r).1 = .ok false := by
  rw [ImageFile.isNull, exec_get_bind, if_neg h.capacity.2, h.capacity.1]
  rcases h.withPage_none hi fun page => page.isNull (i % s.capacity) with
    ⟨page, slots, r', hexec, hholds, hslot⟩ | ⟨hrange, -⟩
  · split
    · rfl
    · have hnull : page.isNull (i % s.capacity) = false := by
        unfold PageImage.isNull
        split
        · rfl
        · rw [if_pos (by rw [hholds.count]; exact hslot)]
      rw [exec_bind_ok (exec_result _ r), hexec, hnull]
      rfl
  · rw [if_pos hrange]
    rfl

end

/-- The pages that are visited hold the values of the pages with these numbers. -/
theorem exec_scanPages {c : ColumnFile} (hnext : c.nextPageId = c.currentId + 1) {ids : List Nat}
    {rows : List (List Value)}
    (hread : List.Forall₂ (fun id slots => c.readPage id = .ok slots) ids rows) :
    ∀ {r}, Images r c → ∃ pages r', exec (scanPages ids) r = (.ok pages, r') ∧
        List.Forall₂ (Holds c.spec) pages rows := by
  induction hread with
  | nil =>
    intro r h
    exact ⟨[], r, rfl, .nil⟩
  | cons hid _ ih =>
    intro r h
    obtain ⟨page, _, hpage, hholds, h₁⟩ := exec_withPage_ok h hnext hid fun page => page
    obtain ⟨pages, r', hpages, hall⟩ := ih h₁
    refine ⟨page :: pages, r', ?_, .cons hholds hall⟩
    rw [scanPages, exec_bind_ok hpage, exec_bind_ok hpages]
    rfl

theorem Keeps.scan (h : Keeps s r vals dur) : ∃ pages rows, (exec ImageFile.scan r).1 = .ok pages ∧
      pages.mapM PageImage.values = .ok rows ∧ rows.flatten = vals := by
  obtain ⟨c, himages, -, hstores⟩ := h
  obtain ⟨rows, hscan, hflat⟩ := hstores.scan
  obtain ⟨pages, _, hexec, hall⟩ :=
    exec_scanPages (nextPageId_eq hstores) (forall₂_of_mapM hscan) himages
  refine ⟨pages, rows, ?_, ?_, hflat⟩
  · rw [ImageFile.scan, exec_get_bind, himages.nextPageId, hexec]
  · exact mapM_of_forall₂ (hall.imp fun page slots hholds => hholds.values)

end Reading

/-! ## Runs -/

/-- The rows that the file has, whatever is in memory. -/
def flushedRows (r : ImageFile) : Nat :=
  match openFile r.pages with
  | .ok r' => r'.rowCount
  | .error _ => 0

theorem Keeps.flushedRows (h : Keeps s r vals dur) : r.flushedRows = dur.length := by
  obtain ⟨_, hopen, hkeeps⟩ := h.openFile
  rw [ImageFile.flushedRows, hopen]
  exact hkeeps.rowCount

end ImageFile

/-- What is done to a column file.  `append` is the append function for the value, `append_null`
for NULL. -/
inductive ColumnOp where
  | append (v : Value)
  | appendBulk (values : List Value)
  | flush
  | reopen
  | truncate (n : Nat)
  | get (t : TypeId) (rowId : Nat)
  | getStr (rowId : Nat)
  | isNull (rowId : Nat)
  | scan
  deriving DecidableEq, Repr

namespace ColumnOp

/-- The file after the operation. -/
def step (r : ImageFile) : ColumnOp → ImageFile
  | append v => (exec (ImageFile.append v) r).2
  | appendBulk values => (exec (ImageFile.appendBulk values) r).2
  | flush => (exec ImageFile.flush r).2
  | reopen =>
    match ImageFile.openFile r.pages with
    | .ok r' => r'
    | .error _ => r
  | truncate n => (exec (ImageFile.truncate n) r).2
  | get t rowId => (exec (ImageFile.get t rowId) r).2
  | getStr rowId => (exec (ImageFile.getStr rowId) r).2
  | isNull rowId => (exec (ImageFile.isNull rowId) r).2
  | scan => (exec ImageFile.scan r).2

/-- A file is opened again when it has all rows, and cut to rows that it has. -/
def Allowed (r : ImageFile) : ColumnOp → Prop
  | reopen => r.flushedRows = r.rowCount
  | truncate n => n ≤ r.flushedRows
  | _ => True

instance Allowed.decidable (r : ImageFile) : DecidablePred (Allowed r) := fun op => by
  cases op <;> dsimp only [Allowed] <;> infer_instance

/-- The list after the operation.  A batch is taken up to the first value that is refused. -/
def apply (s : ColumnSpec) (vals : List Value) : ColumnOp → List Value
  | append v => if ColumnFile.accepts s v then vals ++ [v] else vals
  | appendBulk values => vals ++ values.takeWhile (ColumnFile.accepts s)
  | truncate n => vals.take n
  | _ => vals

/-- The list after a sequence of operations. -/
def applyAll (s : ColumnSpec) (ops : List ColumnOp) : List Value :=
  ops.foldl (apply s) []

theorem keeps_step {s : ColumnSpec} {vals dur : List Value} {r : ImageFile}
    (h : ImageFile.Keeps s r vals dur) (op : ColumnOp) (hop : Allowed r op) :
    ∃ dur', ImageFile.Keeps s (step r op) (apply s vals op) dur' := by
  cases op with
  | append v => exact (h.append v).2
  | appendBulk values => exact (h.appendBulk values).2
  | flush => exact ⟨vals, h.flush.2⟩
  | reopen =>
    obtain ⟨r', hopen, hkeeps⟩ := h.openFile
    -- The file has all rows, so what it has is the list.
    have hlen : dur.length = vals.length := by
      rw [← h.flushedRows, ← h.rowCount]
      exact hop
    obtain rfl : dur = vals := h.prefix.eq_of_length hlen
    refine ⟨dur, ?_⟩
    rw [step, hopen]
    exact hkeeps
  | truncate n =>
    have hn : n ≤ dur.length := by
      rw [← h.flushedRows]
      exact hop
    have htake : dur.take n = vals.take n := by
      obtain ⟨-, rfl⟩ := h.prefix
      exact (List.take_append_of_le_length hn).symm
    refine ⟨dur.take n, ?_⟩
    rw [apply, ← htake]
    exact (h.truncate hn).2
  | get t rowId => exact ⟨dur, ImageFile.maintains_get t rowId r h⟩
  | getStr rowId => exact ⟨dur, ImageFile.maintains_getStr rowId r h⟩
  | isNull rowId => exact ⟨dur, ImageFile.maintains_isNull rowId r h⟩
  | scan => exact ⟨dur, ImageFile.maintains_scan r h⟩

theorem keeps_run {s : ColumnSpec} {ops : List ColumnOp} {vals dur : List Value} {r : ImageFile}
    (h : ImageFile.Keeps s r vals dur) (hops : Run.Along step Allowed r ops) :
    ∃ dur', ImageFile.Keeps s (Run.final step r ops) (ops.foldl (apply s) vals) dur' := by
  induction ops generalizing r vals dur with
  | nil => exact ⟨dur, h⟩
  | cons op ops ih =>
    obtain ⟨_, h₁⟩ := keeps_step h op hops.1
    exact ih h₁ hops.2

end ColumnOp

/-- What the functions of a column file return is what the list says. -/
structure ImageFile.BehavesAs (s : ColumnSpec) (r : ImageFile) (vals : List Value) : Prop where
  rowCount : r.rowCount = vals.length
  isNull : ∀ (i : Nat) (v : Value), vals[i]? = some v →
    (exec (ImageFile.isNull i) r).1 = .ok v.isNull
  get : ∀ (i : Nat) (v : Value), vals[i]? = some v →
    (exec (ImageFile.get s.type i) r).1 = if v.isNull then .error .valueIsNull else .ok v
  getStr : ∀ (i : Nat) (str : Bytes), vals[i]? = some (.string str) →
    (exec (ImageFile.getStr i) r).1 = .ok str
  past : ∀ i, vals.length ≤ i → (exec (ImageFile.isNull i) r).1 = .ok false ∧
    ∃ e, (exec (ImageFile.get s.type i) r).1 = .error e
  scan : ∃ pages rows, (exec ImageFile.scan r).1 = .ok pages ∧
    pages.mapM PageImage.values = .ok rows ∧ rows.flatten = vals
  append : ∀ v, (exec (ImageFile.append v) r).1.toBool = ColumnFile.accepts s v
  appendBulk : ∀ values,
    (exec (ImageFile.appendBulk values) r).1.toBool = values.all (ColumnFile.accepts s)
  flush : (exec ImageFile.flush r).1 = .ok ()
  reopen : ∃ r', ImageFile.openFile r.pages = .ok r'
  truncate : ∀ n ≤ r.flushedRows, (exec (ImageFile.truncate n) r).1 = .ok ()

theorem ImageFile.Keeps.behavesAs {s : ColumnSpec} {r : ImageFile} {vals dur : List Value}
    (h : ImageFile.Keeps s r vals dur) : ImageFile.BehavesAs s r vals where
  rowCount := h.rowCount
  isNull _ _ hv := h.isNull hv
  get _ _ hv := h.get hv
  getStr _ _ hv := h.getStr hv
  past _ hi := ⟨h.isNull_none hi, h.get_none hi⟩
  scan := h.scan
  append v := (h.append v).1
  appendBulk values := (h.appendBulk values).1
  flush := h.flush.1
  reopen := by
    obtain ⟨r', hopen, -⟩ := h.openFile
    exact ⟨r', hopen⟩
  truncate n hn := by
    rw [h.flushedRows] at hn
    exact (h.truncate hn).1

/-- A column file behaves as the list of its values. -/
theorem column_file_as_list (s : ColumnSpec) (hcap : 0 < s.capacity) :
    ∃ r, ImageFile.create s = .ok r ∧ ∀ ops, Run.Along ColumnOp.step ColumnOp.Allowed r ops →
        ImageFile.BehavesAs s (Run.final ColumnOp.step r ops) (ColumnOp.applyAll s ops) := by
  obtain ⟨r, hcreate, hkeeps⟩ := ImageFile.keeps_create hcap
  refine ⟨r, hcreate, fun ops hops => ?_⟩
  obtain ⟨_, hfinal⟩ := ColumnOp.keeps_run hkeeps hops
  exact hfinal.behavesAs
def truncatedOps : List ColumnOp :=
  [.append (.int32 7), .append .null, .flush, .truncate 1, .reopen, .scan]

theorem column_file_as_list_truncated : ∃ r, ImageFile.create ⟨.int32, true, 0⟩ = .ok r ∧
      Run.Along ColumnOp.step ColumnOp.Allowed r truncatedOps ∧
      ImageFile.BehavesAs ⟨.int32, true, 0⟩ (Run.final ColumnOp.step r truncatedOps)
        [.int32 7] := by
  obtain ⟨r, hcreate, hlist⟩ := column_file_as_list ⟨.int32, true, 0⟩ (by decide)
  have hops : Run.Along ColumnOp.step ColumnOp.Allowed r truncatedOps := by
    cases hcreate
    decide +kernel
  exact ⟨r, hcreate, hops, hlist _ hops⟩

end NyxDb
