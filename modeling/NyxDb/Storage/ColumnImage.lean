import NyxDb.Memory.BufferPool
import NyxDb.Storage.PageImage

/-!
# Column files as bytes

A column file over page images: the current page is held in memory, older pages are read through the
buffer pool, and truncation takes its page from the file.  `Images` relates it to the column file
whose pages are lists of values.
-/

namespace NyxDb

open List ColumnFile Proc PageFile

/-- An open column file.  `nextPageId` is the number of pages the file has or has reserved. -/
structure ImageFile where
  pages : PageFile PageImage
  spec : ColumnSpec
  capacity : Nat
  current : PageImage
  currentId : Nat
  dirty : Bool
  nextPageId : Nat
  pool : BufferPool PageImage
  deriving DecidableEq, Repr

namespace ImageFile

def freshPool : BufferPool PageImage :=
  .create 64 2

def create (s : ColumnSpec) : Except Error ImageFile :=
  if s.elemSize = 0 then .error .columnInvalidType
  else
    let page := PageImage.init s
    .ok ⟨[some page], s, s.capacity, page, 0, false, 1, freshPool⟩

/-- The header of the last page says what the column is. -/
def openFile (pages : PageFile PageImage) : Except Error ImageFile :=
  if pages.length = 0 then .error .columnFileEmpty
  else
    let last := pages.length - 1
    match pages.look last with
    | none => .error (.pageUnreadable last)
    | some page =>
      if page.spec.elemSize = 0 then .error .columnFileInvalidType
      else .ok ⟨pages, page.spec, page.capacity.toNat, page, last, false, pages.length, freshPool⟩

def rowCount (r : ImageFile) : Nat :=
  r.currentId * r.capacity + r.current.valueCount.toNat

/-! ## Appending -/

def flush : Op ImageFile Unit := do
  let r ← Proc.get
  if r.dirty then
    fileOp fun r => { r with pages := r.pages.write r.currentId r.current, dirty := false }
  else pure ()

def rotatePage : Op ImageFile Unit := do
  flush
  modify fun r =>
    { r with
      current := .init r.spec
      currentId := r.nextPageId
      dirty := true
      nextPageId := r.nextPageId + 1 }

def ensureRoomForAppend : Op ImageFile Unit := do
  let r ← Proc.get
  if r.current.isFull then rotatePage else pure ()

/-- `append_i32` and so on, by the value. -/
def append (v : Value) : Op ImageFile Unit := do
  ensureRoomForAppend
  let r ← Proc.get
  let page ← ofExcept (r.current.append v)
  modify fun r => { r with current := page, dirty := true }

/-- One value of `append_bulk`; its type is looked at before the page is. -/
def appendChecked (v : Value) : Op ImageFile Unit := do
  ensureRoomForAppend
  let r ← Proc.get
  if v.isNull = false ∧ v.type ≠ r.spec.type then throw .valueTypeMismatch
  else do
    let page ← ofExcept (r.current.append v)
    modify fun r => { r with current := page, dirty := true }

def appendBulk (values : List Value) : Op ImageFile Unit :=
  forEach values appendChecked

/-! ## Reading -/

/-- `DiskManager::read_page`. -/
def diskRead (r : ImageFile) (id : Nat) : Except Error PageImage :=
  if r.nextPageId ≤ id then .error (.pageOutOfRange id)
  else
    match r.pages.look id with
    | none => .error (.pageUnreadable id)
    | some page => .ok page

/-- Use a page: the current one, or one of the pool, which is given back. -/
def withPage {α : Type} (id : Nat) (use : PageImage → α) : Op ImageFile α := do
  let r ← Proc.get
  if id = r.currentId then pure (use r.current)
  else
    zoom pool (fun b r => { r with pool := b }) (BufferPool.withPage r.diskRead id use)

/-- The getter of a type. -/
def get (t : TypeId) (rowId : Nat) : Op ImageFile Value := do
  let r ← Proc.get
  if r.capacity = 0 then throw .divisionByZero
  else do
    let v ← withPage (rowId / r.capacity) fun page => page.get t (rowId % r.capacity)
    ofExcept v

/-- A page that cannot be read gives the empty string. -/
def getStr (rowId : Nat) : Op ImageFile Bytes := do
  let r ← Proc.get
  if r.capacity = 0 then throw .divisionByZero
  else do
    let s ← result (withPage (rowId / r.capacity) fun page => page.getStr (rowId % r.capacity))
    pure (s.toOption.getD [])

def isNull (rowId : Nat) : Op ImageFile Bool := do
  let r ← Proc.get
  if r.capacity = 0 then throw .divisionByZero
  else if r.nextPageId ≤ rowId / r.capacity then pure false
  else do
    let b ← result (withPage (rowId / r.capacity) fun page => page.isNull (rowId % r.capacity))
    pure (b.toOption.getD false)

/-- The pages with these numbers, in turn. -/
def scanPages : List Nat → Op ImageFile (List PageImage)
  | [] => pure []
  | id :: ids => do
      let page ← withPage id fun page => page
      let pages ← scanPages ids
      pure (page :: pages)

def scan : Op ImageFile (List PageImage) := do
  let r ← Proc.get
  scanPages (range r.nextPageId)

/-! ## Truncation -/

def truncate (targetRows : Nat) : Op ImageFile Unit := do
  let r ← Proc.get
  if r.capacity = 0 then throw .divisionByZero
  else do
    let keep := pagesToKeep r.capacity targetRows
    let needed := UInt16.ofNat (rowsToKeep r.capacity targetRows)
    fileOp fun r => { r with pages := r.pages.resize keep, nextPageId := keep }
    match (r.pages.resize keep).look (keep - 1) with
    | none => throw (.pageUnreadable (keep - 1))
    | some page => do
        let page' := if page.valueCount ≠ needed then page.truncateTo needed else page
        if page.valueCount ≠ needed then
          fileOp fun r => { r with pages := r.pages.write (keep - 1) page', current := page' }
        else pure ()
        modify fun r =>
          { r with current := page', currentId := keep - 1, dirty := false, pool := freshPool }

/-! ## The values of the pages -/

open PageImage (Holds)

/-- The pages hold the values of the column file `c`, and the pool holds pages of the file before
the current one. -/
structure Images (r : ImageFile) (c : ColumnFile) : Prop where
  spec : r.spec = c.spec
  capacity : r.capacity = c.capacity
  sized : c.spec.elemSize ≠ 0
  current : Holds c.spec r.current c.current
  currentId : r.currentId = c.currentId
  dirty : r.dirty = c.dirty
  nextPageId : r.nextPageId = c.nextPageId
  pages : Forall₂ (Option.Rel (Holds c.spec)) r.pages c.file.pages
  idle : r.pool.Idle
  cached : ∀ id page, r.pool.Cached id page → id < r.currentId ∧ r.pages.look id = some page

theorem idle_freshPool : freshPool.Idle :=
  ⟨BufferPool.partsAgree_create _ _, by decide, fun _ _ hf =>
    nomatch eq_of_mem_replicate (mem_of_getElem? hf)⟩

theorem not_cached_freshPool {P : Nat → PageImage → Prop} (id : Nat) (page : PageImage)
    (h : freshPool.Cached id page) : P id page := by
  obtain ⟨_, _, hf, -⟩ := h
  cases eq_of_mem_replicate (mem_of_getElem? hf)

variable {s : ColumnSpec} {c : ColumnFile} {r : ImageFile} {vals dur : List Value}

theorem images_create (hsized : s.elemSize ≠ 0) :
    ∃ r c, create s = .ok r ∧ ColumnFile.create s = .ok c ∧ Images r c := by
  have hpage := PageImage.holds_init hsized
  refine ⟨_, _, if_neg hsized, if_neg hsized, ?_⟩
  exact ⟨rfl, rfl, hsized, hpage, rfl, rfl, rfl, .cons (.some hpage) .nil, idle_freshPool,
    not_cached_freshPool⟩

section

variable (h : Images r c)
include h

theorem images_flush :
    ∃ r' c', exec flush r = (.ok (), r') ∧ exec ColumnFile.flush c = (.ok (), c') ∧
      Images r' c' := by
  rw [flush, ColumnFile.flush, exec_get_bind, exec_get_bind]
  cases hdirty : c.dirty with
  | false =>
    rw [h.dirty, hdirty]
    exact ⟨r, c, rfl, rfl, h⟩
  | true =>
    rw [h.dirty, hdirty]
    refine ⟨{ r with pages := r.pages.write r.currentId r.current, dirty := false },
      { c with file.pages := c.file.pages.write c.currentId c.current, dirty := false },
      rfl, rfl, { h with dirty := rfl, pages := ?_, cached := ?_ }⟩
    · rw [h.currentId]
      exact related_write h.pages _ h.current
    · intro id page hcached
      obtain ⟨hlt, hlook⟩ := h.cached id page hcached
      refine ⟨hlt, ?_⟩
      rw [look_write_ne _ (Nat.ne_of_lt hlt), hlook]

/-- A full page is written and a new one started on both sides. -/
theorem images_ensureRoom (hnext : c.currentId ≤ c.nextPageId) :
    ∃ r' c', exec ensureRoomForAppend r = (.ok (), r') ∧
      exec ColumnFile.ensureRoomForAppend c = (.ok (), c') ∧ Images r' c' := by
  rw [ensureRoomForAppend, ColumnFile.ensureRoomForAppend, exec_get_bind,
    exec_get_bind, h.current.isFull]
  by_cases hfull : c.capacity ≤ c.current.length
  · obtain ⟨r₁, c₁, hr, hc, h₁⟩ := images_flush h
    have hsame : c₁.currentId = c.currentId ∧ c₁.nextPageId = c.nextPageId := by
      have hexec := hc
      rw [ColumnFile.flush, exec_get_bind] at hexec
      split at hexec <;> cases hexec <;> exact ⟨rfl, rfl⟩
    rw [if_pos (by simpa [ColumnFile.capacity] using hfull), if_pos hfull, rotatePage,
      ColumnFile.rotatePage,
      exec_bind_ok hr, exec_bind_ok hc]
    refine ⟨_, _, rfl, rfl, { h₁ with
      current := ?_, currentId := h₁.nextPageId, dirty := rfl
      nextPageId := congrArg (· + 1) h₁.nextPageId, cached := ?_ }⟩
    · show Holds c₁.spec (PageImage.init r₁.spec) []
      rw [h₁.spec]
      exact PageImage.holds_init h₁.sized
    · intro id page hcached
      obtain ⟨hlt, hlook⟩ := h₁.cached id page hcached
      refine ⟨?_, hlook⟩
      show id < r₁.nextPageId
      rw [h₁.currentId] at hlt
      rw [h₁.nextPageId]
      omega
  · rw [if_neg (by simpa [ColumnFile.capacity] using hfull), if_neg hfull]
    exact ⟨r, c, rfl, rfl, h⟩

/-- Opening the file finds on both sides what is on the last page. -/
theorem images_openFile {c' : ColumnFile} (hc : ColumnFile.openFile c.file = .ok c') :
    ∃ r', openFile r.pages = .ok r' ∧ Images r' c' := by
  have hsized : ¬ c.file.spec.elemSize = 0 := h.sized
  unfold ColumnFile.openFile at hc
  unfold openFile
  rw [h.pages.length_eq]
  by_cases hzero : c.file.pages.length = 0
  · rw [if_pos hzero] at hc
    cases hc
  · rw [if_neg hzero] at hc ⊢
    dsimp only at hc ⊢
    cases hvals : c.file.pages.look (c.file.pages.length - 1) with
    | none =>
      rw [hvals] at hc
      cases hc
    | some vals =>
      obtain ⟨page, hpage, hholds⟩ := related_look_some h.pages hvals
      have hspec : page.spec = c.spec := hholds.spec
      rw [hvals] at hc
      rw [hpage]
      dsimp only at hc ⊢
      rw [if_neg hsized] at hc
      rw [hspec, if_neg h.sized]
      refine ⟨_, rfl, ?_⟩
      cases hc
      exact ⟨rfl, hholds.capacity, h.sized, hholds, rfl, rfl, rfl, h.pages, idle_freshPool,
        not_cached_freshPool⟩

/-- Both sides keep the same pages and the same values of the last one. -/
theorem images_truncate {c' : ColumnFile} {n : Nat} (hcap : 0 < c.capacity)
    (hc : exec (ColumnFile.truncate n) c = (.ok (), c')) :
    ∃ r', exec (truncate n) r = (.ok (), r') ∧ Images r' c' := by
  obtain ⟨last, hkeep, -, hneed, -⟩ := pagesToKeep_spec hcap n
  have hbound : rowsToKeep c.capacity n < 2 ^ 16 :=
    Nat.lt_of_le_of_lt hneed c.spec.capacity_lt
  generalize hk : rowsToKeep c.capacity n = needed at hneed hbound
  rw [ColumnFile.truncate, exec_get_bind,
    if_neg (Nat.pos_iff_ne_zero.1 hcap), hkeep, hk] at hc
  rw [truncate, exec_get_bind, h.capacity,
    if_neg (Nat.pos_iff_ne_zero.1 hcap), hkeep, hk]
  rw [exec_bind_ok (exec_fileOp _ c), Nat.add_sub_cancel] at hc
  rw [exec_bind_ok (exec_fileOp _ r), Nat.add_sub_cancel,
    look_resize (Nat.lt_succ_self last)]
  have hresized := related_resize h.pages (last + 1)
  cases hvals : c.file.pages.look last with
  | none =>
    rw [hvals] at hc
    cases hc
  | some vals =>
    obtain ⟨page, hpage, hholds⟩ := related_look_some h.pages hvals
    have hcount : page.valueCount = UInt16.ofNat needed ↔ vals.length = needed := by
      rw [← UInt16.toNat_inj, hholds.count, UInt16.toNat_ofNat', Nat.mod_eq_of_lt hbound]
    rw [hvals] at hc
    rw [hpage]
    -- The last page is written again only if its count changes.
    by_cases hlen : vals.length = needed
    · have htake : vals.take needed = vals := take_of_length_le (by omega)
      have hsame := hcount.2 hlen
      simp only [hlen, ne_eq, not_true_eq_false, if_false, htake] at hc
      simp only [hsame, ne_eq, not_true_eq_false, if_false]
      refine ⟨_, rfl, ?_⟩
      cases hc
      exact ⟨h.spec, h.capacity, h.sized, hholds, rfl, rfl, rfl, hresized, idle_freshPool,
        not_cached_freshPool⟩
    · have hcut := hholds.truncateTo hbound
      have hother : page.valueCount ≠ UInt16.ofNat needed := fun heq => hlen (hcount.1 heq)
      simp only [ne_eq, hlen, not_false_eq_true, if_true] at hc
      simp only [ne_eq, hother, not_false_eq_true, if_true]
      refine ⟨_, rfl, ?_⟩
      cases hc
      exact ⟨h.spec, h.capacity, h.sized, hcut, rfl, rfl, rfl,
        related_write hresized last hcut, idle_freshPool,
        not_cached_freshPool⟩

variable (hnext : c.nextPageId = c.currentId + 1)
include hnext

/-- Reading a page changes the pool only. -/
theorem exec_withPage {α : Type} (id : Nat) (use : PageImage → α) : ∃ r', exec (withPage id use) r =
        ((if id = r.currentId then .ok r.current else r.diskRead id).map use, r') ∧
      Images r' c := by
  rw [withPage, exec_get_bind]
  by_cases hid : id = r.currentId
  · rw [if_pos hid, if_pos hid]
    exact ⟨r, rfl, h⟩
  have hcoherent : BufferPool.Coherent r.diskRead r.pool := by
    intro k p hp
    obtain ⟨hlt, hk⟩ := h.cached k p hp
    rw [h.currentId] at hlt
    rw [diskRead, h.nextPageId, if_neg (by omega), hk]
  obtain ⟨b, hexec, hidle, hcoherent', hfrom⟩ := BufferPool.exec_withPage h.idle hcoherent id use
  refine ⟨{ r with pool := b }, ?_, ?_⟩
  · rw [if_neg hid, if_neg hid, exec_zoom, hexec]
  · refine { h with idle := hidle, cached := ?_ }
    intro k p hp
    rcases hfrom k p hp with hold | rfl
    · exact h.cached k p hold
    · -- What is new in the pool is the page that was read, which is before the current one.
      have hk := hcoherent' k p hp
      unfold diskRead at hk
      by_cases hrange : r.nextPageId ≤ k
      · rw [if_pos hrange] at hk
        cases hk
      · rw [if_neg hrange] at hk
        cases hlook : r.pages.look k with
        | none =>
          rw [hlook] at hk
          cases hk
        | some page =>
          rw [hlook] at hk
          cases hk
          refine ⟨?_, rfl⟩
          rw [h.nextPageId] at hrange
          rw [h.currentId] at hid ⊢
          omega

/-- A page that is read holds the values that the file of values has on it. -/
theorem exec_withPage_ok {α : Type} {id : Nat}
    (hread : c.readPage id = .ok vals) (use : PageImage → α) :
    ∃ page r', exec (withPage id use) r = (.ok (use page), r') ∧ Holds c.spec page vals ∧
      Images r' c := by
  obtain ⟨r', hexec, himages⟩ := exec_withPage h hnext id use
  rw [h.currentId] at hexec
  unfold readPage at hread
  by_cases hid : id = c.currentId
  · rw [if_pos hid] at hread hexec
    cases hread
    exact ⟨r.current, r', hexec, h.current, himages⟩
  rw [if_neg hid] at hread hexec
  by_cases hrange : c.nextPageId ≤ id
  · rw [if_pos hrange] at hread
    cases hread
  rw [if_neg hrange] at hread
  cases hvals : c.file.pages.look id with
  | none =>
    rw [hvals] at hread
    cases hread
  | some vals' =>
    rw [hvals] at hread
    cases hread
    obtain ⟨page, hpage, hholds⟩ := related_look_some h.pages hvals
    refine ⟨page, r', ?_, hholds, himages⟩
    rw [hexec, diskRead, h.nextPageId, if_neg hrange, hpage]
    rfl

end

/-! ## The file as a list of values -/

/-- The column has the values `vals`, its file has `dur` of them. -/
def Keeps (s : ColumnSpec) (r : ImageFile) (vals dur : List Value) : Prop :=
  ∃ c, Images r c ∧ c.spec = s ∧ Stores c vals dur

theorem nextPageId_eq (h : Stores c vals dur) : c.nextPageId = c.currentId + 1 := by
  obtain ⟨_, _, hl, -⟩ := h
  rw [hl.currentId, hl.nextPageId]

theorem keeps_create (hcap : 0 < s.capacity) : ∃ r, create s = .ok r ∧ Keeps s r [] [] := by
  obtain ⟨c, hc, hspec, hstores⟩ := create_stores hcap
  obtain ⟨r, _, hr, hc', himages⟩ := images_create (sized_of_capacity hcap)
  cases hc.symm.trans hc'
  exact ⟨r, hr, c, himages, hspec, hstores⟩

theorem Keeps.flush (h : Keeps s r vals dur) :
    (exec ImageFile.flush r).1 = .ok () ∧ Keeps s (exec ImageFile.flush r).2 vals vals := by
  obtain ⟨c, himages, hspec, hstores⟩ := h
  obtain ⟨r', c', hr, hc, himages'⟩ := images_flush himages
  obtain ⟨_, hc'', hspec'', hstores'', -⟩ := exec_flush hstores
  cases hc.symm.trans hc''
  rw [hr]
  exact ⟨rfl, c', himages', hspec''.trans hspec, hstores''⟩

/-- There is room for a value after a full page has been written. -/
theorem Keeps.ensureRoom (h : Keeps s r vals dur) :
    ∃ r' c' dur', exec ensureRoomForAppend r = (.ok (), r') ∧ Images r' c' ∧ c'.spec = s ∧
      Stores c' vals dur' ∧ c'.current.length < s.capacity := by
  obtain ⟨c, himages, hspec, hstores⟩ := h
  obtain ⟨r', c', hr, hc, himages'⟩ :=
    images_ensureRoom himages (by rw [nextPageId_eq hstores]; omega)
  obtain ⟨c'', dur', hc'', hspec'', hstores'', -, hlt⟩ := exec_ensureRoomForAppend hstores
  cases hc.symm.trans hc''
  have hs : c'.spec = s := hspec''.trans hspec
  refine ⟨r', c', dur', hr, himages', hs, hstores'', ?_⟩
  rw [← hs]
  exact hlt

variable (h : Keeps s r vals dur)
include h

/-- What appending one value does, taken or refused. -/
theorem Keeps.append (v : Value) : (exec (ImageFile.append v) r).1.toBool = accepts s v ∧
      ∃ dur', Keeps s (exec (ImageFile.append v) r).2
        (if accepts s v then vals ++ [v] else vals) dur' := by
  obtain ⟨r₁, c₁, dur', hensure, himages, hspec, hstores, hroom⟩ := h.ensureRoom
  have hpage := (hspec ▸ himages.current).append hroom v
  rw [ImageFile.append, exec_bind_ok hensure, exec_get_bind]
  cases hv : accepts s v with
  | true =>
    rw [hv] at hpage
    obtain ⟨page, happend, hholds⟩ := hpage
    rw [happend]
    -- the value that the page has taken is a value of the column
    subst hspec
    exact ⟨rfl, dur', { c₁ with current := c₁.current ++ [v], dirty := true }, { himages with
      current := hholds, dirty := rfl }, rfl, hstores.put hroom v⟩
  | false =>
    rw [hv] at hpage
    obtain ⟨e, happend⟩ := hpage
    rw [happend]
    exact ⟨rfl, dur', c₁, himages, hspec, hstores⟩

/-- A value of `append_bulk` is taken or refused as by the function for its type. -/
theorem Keeps.appendChecked (v : Value) :
    (exec (ImageFile.appendChecked v) r).1.toBool = accepts s v ∧
      ∃ dur', Keeps s (exec (ImageFile.appendChecked v) r).2
        (if accepts s v then vals ++ [v] else vals) dur' := by
  obtain ⟨r₁, c₁, dur', hensure, himages, hspec, hstores, -⟩ := h.ensureRoom
  have hrspec : r₁.spec = s := himages.spec.trans hspec
  by_cases hmatch : v.isNull = false ∧ v.type ≠ s.type
  · have hv : accepts s v = false := by
      simp [accepts, hmatch]
    rw [ImageFile.appendChecked, exec_bind_ok hensure, exec_get_bind, hrspec, if_pos hmatch, hv]
    exact ⟨rfl, dur', c₁, himages, hspec, hstores⟩
  · have heq : exec (ImageFile.appendChecked v) r = exec (ImageFile.append v) r := by
      rw [ImageFile.appendChecked, ImageFile.append, exec_bind_ok hensure, exec_bind_ok hensure,
        exec_get_bind, exec_get_bind, hrspec, if_neg hmatch]
    rw [heq]
    exact h.append v

theorem Keeps.appendBulk (values : List Value) :
    (exec (ImageFile.appendBulk values) r).1.toBool = values.all (accepts s) ∧
      ∃ dur', Keeps s (exec (ImageFile.appendBulk values) r).2
        (vals ++ values.takeWhile (accepts s)) dur' := by
  induction values generalizing r vals dur with
  | nil => exact ⟨rfl, dur, by simpa [ImageFile.appendBulk] using h⟩
  | cons v values ih =>
    obtain ⟨hres, dur₁, hkeeps⟩ := h.appendChecked v
    rw [ImageFile.appendBulk, exec_forEach_cons, exec_bind]
    generalize exec (ImageFile.appendChecked v) r = out at hres hkeeps
    obtain ⟨res, r₁⟩ := out
    cases hv : accepts s v with
    | false =>
      rw [hv] at hres hkeeps
      cases res with
      | ok u => cases hres
      | error e => exact ⟨by simp [hv, Except.toBool], dur₁, by simpa [hv] using hkeeps⟩
    | true =>
      rw [hv] at hres hkeeps
      cases res with
      | error e => cases hres
      | ok u => simpa [hv, ImageFile.appendBulk] using ih hkeeps

theorem Keeps.openFile : ∃ r', ImageFile.openFile r.pages = .ok r' ∧ Keeps s r' dur dur := by
  obtain ⟨c, himages, hspec, hstores⟩ := h
  obtain ⟨c', hopen, hfile, hstores'⟩ := openFile_stores hstores
  obtain ⟨r', hr, himages'⟩ := images_openFile himages hopen
  have hspec' : c'.spec = s := by
    rw [ColumnFile.spec, hfile]
    exact hspec
  exact ⟨r', hr, c', himages', hspec', hstores'⟩

theorem Keeps.truncate {n : Nat} (hn : n ≤ dur.length) :
    (exec (ImageFile.truncate n) r).1 = .ok () ∧
      Keeps s (exec (ImageFile.truncate n) r).2 (dur.take n) (dur.take n) := by
  obtain ⟨c, himages, hspec, hstores⟩ := h
  obtain ⟨c', hexec, hspec', hstores'⟩ := exec_truncate hstores hn
  obtain ⟨r', hr, himages'⟩ := images_truncate himages hstores.cap_pos hexec
  rw [hr]
  exact ⟨rfl, c', himages', hspec'.trans hspec, hstores'⟩

end ImageFile
end NyxDb
