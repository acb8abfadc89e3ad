import NyxDb.Lib.Except
import NyxDb.Storage.ColumnFile

/-!
# The contents of a column file

`Stores c vals dur` says that the open column `c` has the values `vals`, of which its file holds
the prefix `dur`.  Appending keeps the file's values or catches up with the column, flushing
catches up, and opening or truncating the file goes back to what the file holds.
-/

namespace NyxDb.ColumnFile

open List PageFile

/-- The pages of a column: full ones, and what the file has of the current one. -/
structure Layout (c : ColumnFile) (full : List ColumnPage) (tail : Option ColumnPage) : Prop where
  cap_pos : 0 < c.capacity
  sized : c.spec.elemSize ≠ 0
  pages : c.file.pages = full.map some ++ (tail.map some).toList
  full_length : ∀ p ∈ full, p.length = c.capacity
  currentId : c.currentId = full.length
  nextPageId : c.nextPageId = full.length + 1
  current_le : c.current.length ≤ c.capacity
  tail_le : ∀ q, tail = some q → q <+: c.current
  first : full = [] → tail ≠ none
  clean : c.dirty = false → tail = some c.current

/-- The column has the values `vals`, its file has `dur` of them. -/
def Stores (c : ColumnFile) (vals dur : List Value) : Prop :=
  ∃ full tail, Layout c full tail ∧ vals = full.flatten ++ c.current ∧
    dur = full.flatten ++ tail.getD []

variable {full : List ColumnPage} {n i r : Nat} {c : ColumnFile} {dur vals : List Value}
  {s : ColumnSpec} {v : Value}

theorem length_flatten_of_full (h : ∀ p ∈ full, p.length = n) :
    full.flatten.length = full.length * n := by
  simp [length_flatten, map_congr_left h]

/-- Every page but the last is full, and no page holds more. -/
def Paged (n : Nat) (ps : List ColumnPage) : Prop :=
  ∃ full last, ps = full ++ [last] ∧ (∀ p ∈ full, p.length = n) ∧ last.length ≤ n

section

variable {ps : List ColumnPage} (h : Paged n ps)
include h

theorem Paged.length_le : ps.flatten.length ≤ ps.length * n := by
  obtain ⟨_, _, rfl, hfull, _⟩ := h
  rw [flatten_append, flatten_singleton, length_append, length_append,
    length_flatten_of_full hfull, length_singleton, Nat.succ_mul]
  omega

theorem Paged.page_lt (hn : 0 < n) (hr : r < ps.flatten.length) : r / n < ps.length :=
  (Nat.div_lt_iff_lt_mul hn).mpr (Nat.lt_of_lt_of_le hr h.length_le)

/-- Page `i`, with full pages before it; only the last page may have room. -/
theorem Paged.split (hi : i < ps.length) :
    ∃ init page rest, ps = init ++ page :: rest ∧ init.length = i ∧ (∀ p ∈ init, p.length = n) ∧
      (page.length = n ∨ rest = []) := by
  obtain ⟨full, last, rfl, hfull, -⟩ := h
  rw [length_append, length_singleton] at hi
  rcases Nat.lt_or_ge i full.length with hlt | _
  · refine ⟨full.take i, full[i], full.drop (i + 1) ++ [last], ?_,
      length_take_of_le (Nat.le_of_lt hlt), fun p hp => hfull p (mem_of_mem_take hp),
      Or.inl (hfull _ (getElem_mem hlt))⟩
    rw [← cons_append, getElem_cons_drop, ← append_assoc, take_append_drop]
  · exact ⟨full, last, [], rfl, by omega, hfull, Or.inr rfl⟩

/-- The values up to `i * n + k` are those of the first `i` pages and `k` of the next one. -/
theorem Paged.take {k : Nat} (hlen : i * n + k ≤ ps.flatten.length) (hk : k ≤ n)
    (hpos : 0 < k ∨ i = 0) :
    ∃ init page rest, ps = init ++ page :: rest ∧ init.length = i ∧
      (∀ p ∈ init, p.length = n) ∧ ps.flatten.take (i * n + k) = init.flatten ++ page.take k := by
  have hle := h.length_le
  have hi : i < ps.length := by
    have hne : 0 < ps.length := by
      obtain ⟨_, _, rfl, -⟩ := h
      simp
    by_contra hge
    have hmul := Nat.mul_le_mul_right n (Nat.le_of_not_lt hge)
    omega
  obtain ⟨init, page, rest, rfl, rfl, hinit, hpage⟩ := h.split hi
  refine ⟨init, page, rest, rfl, rfl, hinit, ?_⟩
  rw [flatten_append, flatten_cons, ← length_flatten_of_full hinit, take_length_add_append]
  rcases hpage with hpage | rfl
  · rw [take_append_of_le_length (by omega)]
  · rw [flatten_nil, append_nil]

end

section

variable {tail : Option ColumnPage} (hl : Layout c full tail)
include hl

/-- The pages of the file and their values. -/
theorem Layout.disk : c.file.pages = (full ++ tail.toList).map some ∧
    (full ++ tail.toList).flatten = full.flatten ++ tail.getD [] := by
  rw [hl.pages]
  cases tail <;> simp

theorem Layout.paged : Paged c.capacity (full ++ tail.toList) := by
  cases tail with
  | some q =>
    exact ⟨full, q, rfl, hl.full_length, Nat.le_trans (hl.tail_le q rfl).length_le hl.current_le⟩
  | none =>
    -- the current page was never written: the last page of the file is a full one
    have hne : full ≠ [] := fun h => hl.first h rfl
    obtain ⟨init, q, rfl⟩ := eq_nil_or_concat' full |>.resolve_left hne
    exact ⟨init, q, by simp, fun p hp => hl.full_length p (by simp [hp]),
      Nat.le_of_eq (hl.full_length q (by simp))⟩

theorem Layout.paged_current : Paged c.capacity (full ++ [c.current]) :=
  ⟨full, c.current, rfl, hl.full_length, hl.current_le⟩

end

theorem Stores.rowCount (h : Stores c vals dur) : c.rowCount = vals.length := by
  obtain ⟨_, _, hl, rfl, _⟩ := h
  rw [length_append, length_flatten_of_full hl.full_length, ColumnFile.rowCount, hl.currentId]

theorem Stores.prefix (h : Stores c vals dur) : dur <+: vals := by
  obtain ⟨_, tail, hl, rfl, rfl⟩ := h
  cases tail with
  | none => exact prefix_append_right_inj _ |>.mpr nil_prefix
  | some q => exact (prefix_append_right_inj _).mpr (hl.tail_le q rfl)

theorem Stores.cap_pos (h : Stores c vals dur) : 0 < c.capacity := by
  obtain ⟨_, _, hl, _⟩ := h
  exact hl.cap_pos

/-! ## Creating, flushing and opening -/

theorem sized_of_capacity (hcap : 0 < s.capacity) : s.elemSize ≠ 0 := by
  intro h
  simp [ColumnSpec.capacity, h] at hcap

/-- A column that has just been opened. -/
theorem stores_opened {file : ColumnDisk} {last : ColumnPage} (hcap : 0 < file.spec.capacity)
    (hpages : file.pages = full.map some ++ [some last])
    (hfull : ∀ p ∈ full, p.length = file.spec.capacity) (hlast : last.length ≤ file.spec.capacity) :
    Stores ⟨file, last, full.length, false, full.length + 1⟩ (full.flatten ++ last)
      (full.flatten ++ last) :=
  ⟨full, some last, ⟨hcap, sized_of_capacity hcap, hpages, hfull, rfl, rfl, hlast,
    by rintro q ⟨⟩; exact prefix_refl _, by simp, fun _ => rfl⟩, rfl, rfl⟩

theorem create_stores (hcap : 0 < s.capacity) :
    ∃ c, create s = .ok c ∧ c.spec = s ∧ Stores c [] [] :=
  ⟨_, if_neg (sized_of_capacity hcap), rfl,
    @stores_opened [] _ _ hcap rfl nofun (Nat.zero_le _)⟩

theorem exec_flush (h : Stores c vals dur) :
    ∃ c', exec flush c = (.ok (), c') ∧ c'.spec = c.spec ∧ Stores c' vals vals ∧
      c'.dirty = false ∧ c'.current = c.current := by
  obtain ⟨full, tail, hl, rfl, rfl⟩ := h
  cases hd : c.dirty with
  | false =>
    refine ⟨c, ?_, rfl, ⟨full, tail, hl, rfl, ?_⟩, hd, rfl⟩
    · simp [flush, exec_get_bind, hd]
    · rw [hl.clean hd]
      rfl
  | true =>
    have hwrite : c.file.pages.write c.currentId c.current = full.map some ++ [some c.current] := by
      rw [hl.pages]
      exact write_append (by simp [hl.currentId]) (tail.map some) c.current
    refine ⟨{ c with file.pages := c.file.pages.write c.currentId c.current, dirty := false },
      ?_, rfl, ⟨full, some c.current, ?_, rfl, rfl⟩, rfl, rfl⟩
    · rw [flush, exec_get_bind, hd]
      rfl
    · exact { hl with
        pages := hwrite, tail_le := by rintro q ⟨⟩; exact prefix_refl _, first := by simp
        clean := fun _ => rfl }

theorem look_layout {rest : PageFile ColumnPage} {p : ColumnPage} (h : full[i]? = some p) :
    look (full.map some ++ rest) i = some p := by
  have hi := lt_of_getElem? h
  rw [look, getElem?_append_left (by simpa using hi), getElem?_map, h]
  rfl

theorem openFile_stores (h : Stores c vals dur) :
    ∃ c', openFile c.file = .ok c' ∧ c'.file = c.file ∧ Stores c' dur dur := by
  obtain ⟨_, _, hl, rfl, rfl⟩ := h
  obtain ⟨hpages, hdur⟩ := hl.disk
  obtain ⟨init, last, hsplit, hinit, hlast⟩ := hl.paged
  rw [hsplit, map_append] at hpages
  rw [← hdur, hsplit, flatten_append, flatten_singleton]
  refine ⟨⟨c.file, last, init.length, false, init.length + 1⟩, ?_, rfl,
    stores_opened hl.cap_pos hpages hinit hlast⟩
  have hlen : c.file.pages.length = init.length + 1 := by simp [hpages]
  have hlook : c.file.pages.look init.length = some last := by simp [hpages, look]
  unfold openFile
  rw [hlen]
  simp only [Nat.add_sub_cancel, hlook, Nat.succ_ne_zero, if_false]
  exact if_neg hl.sized

/-! ## Appending -/

/-- The column takes the value. -/
def accepts (s : ColumnSpec) (v : Value) : Bool :=
  if v.isNull then decide (s.nullBitmapBytes ≠ 0)
  else decide (v.type = s.type) &&
    match v with
    | .string str => decide (str.length ≤ s.maxLen.toNat)
    | _ => true

theorem appendToPage_of_accepts {page : ColumnPage} (hroom : page.length < s.capacity)
    (hv : accepts s v = true) : appendToPage s page v = .ok (page ++ [v]) := by
  have hcap : ¬ s.capacity ≤ page.length := by omega
  unfold accepts at hv
  unfold appendToPage
  cases hnull : v.isNull with
  | true =>
    rw [hnull] at hv
    have hbytes : s.nullBitmapBytes ≠ 0 := of_decide_eq_true hv
    simp [hbytes, hcap]
  | false =>
    rw [hnull] at hv
    simp only [Bool.false_eq_true, if_false, Bool.and_eq_true, decide_eq_true_eq] at hv
    obtain ⟨ht, hstr⟩ := hv
    simp only [Bool.false_eq_true, if_false, ht, ne_eq, not_true_eq_false, hcap]
    cases v with
    | string str =>
      have hle : str.length ≤ s.maxLen.toNat := of_decide_eq_true hstr
      exact if_neg (by omega)
    | _ => rfl

theorem appendToPage_of_not_accepts (hv : accepts s v = false) (page : ColumnPage) :
    ∃ e, appendToPage s page v = .error e := by
  unfold accepts at hv
  unfold appendToPage
  cases hnull : v.isNull with
  | true =>
    rw [hnull] at hv
    have hbytes : s.nullBitmapBytes = 0 := by simpa using hv
    exact ⟨_, by simp [hbytes]; rfl⟩
  | false =>
    rw [hnull] at hv
    by_cases ht : v.type = s.type
    · by_cases hcap : s.capacity ≤ page.length
      · exact ⟨_, by simp [ht, hcap]; rfl⟩
      · simp only [ht, ne_eq, not_true_eq_false, if_false, hcap]
        simp only [Bool.false_eq_true, if_false, ht, decide_true, Bool.true_and] at hv
        cases v with
        | string str =>
          have hlt : s.maxLen.toNat < str.length := by
            have := of_decide_eq_false hv
            omega
          exact ⟨_, if_pos hlt⟩
        | _ => cases hv
    · exact ⟨_, by simp [ht]; rfl⟩

theorem exec_ensureRoomForAppend (h : Stores c vals dur) :
    ∃ c' dur', exec ensureRoomForAppend c = (.ok (), c') ∧ c'.spec = c.spec ∧
      Stores c' vals dur' ∧ dur <+: dur' ∧ c'.current.length < c'.capacity := by
  by_cases hfull : c.capacity ≤ c.current.length
  · obtain ⟨c₁, hflush, hspec, ⟨full, _, hl, hvals, -⟩, hclean, hcur⟩ := exec_flush h
    have hcap : c₁.capacity = c.capacity := congrArg ColumnSpec.capacity hspec
    have htail := hl.clean hclean
    subst htail
    have hlen : c₁.current.length = c₁.capacity := by
      have := hl.current_le
      rw [hcur] at this ⊢
      omega
    refine ⟨startPage c₁, vals, ?_, hspec, ⟨full ++ [c₁.current], none, ?_, ?_, ?_⟩, h.prefix,
      hl.cap_pos⟩
    · rw [ensureRoomForAppend, exec_get_bind, if_pos hfull, rotatePage, exec_bind_ok hflush]
      rfl
    · refine ⟨hl.cap_pos, hl.sized, ?_, ?_, ?_, ?_, Nat.zero_le _, by simp, by simp,
        by simp [startPage]⟩
      · show c₁.file.pages = _
        rw [hl.pages]
        simp
      · exact forall_mem_concat hl.full_length hlen
      · show c₁.nextPageId = _
        rw [hl.nextPageId]
        simp
      · show c₁.nextPageId + 1 = _
        rw [hl.nextPageId]
        simp
    · rw [hvals]
      simp [startPage]
    · rw [hvals]
      simp
  · refine ⟨c, dur, ?_, rfl, h, prefix_refl _, by omega⟩
    rw [ensureRoomForAppend, exec_get_bind, if_neg hfull]
    rfl

/-- The current page takes a value. -/
theorem Stores.put (h : Stores c vals dur) (hlt : c.current.length < c.capacity) (v : Value) :
    Stores { c with current := c.current ++ [v], dirty := true } (vals ++ [v]) dur := by
  obtain ⟨full, tail, hl, rfl, hd⟩ := h
  refine ⟨full, tail, { hl with current_le := ?_, tail_le := ?_, clean := nofun }, by simp, hd⟩
  · rw [length_append]
    exact hlt
  · intro q hq
    exact (hl.tail_le q hq).trans ( prefix_append _ _)

/-- What appending one value does, taken or refused. -/
theorem exec_appendValue (h : Stores c vals dur) (v : Value) :
    ∃ c' dur', c'.spec = c.spec ∧ dur <+: dur' ∧ (if accepts c.spec v = true
        then exec (appendValue v) c = (.ok (), c') ∧ Stores c' (vals ++ [v]) dur'
        else (∃ e, exec (appendValue v) c = (.error e, c')) ∧ Stores c' vals dur') := by
  obtain ⟨c₁, dur', hroom, hspec, hst, hdur, hlt⟩ := exec_ensureRoomForAppend h
  have hexec : exec (appendValue v) c = exec (do
      let page ← ofExcept (appendToPage c₁.spec c₁.current v)
      Proc.modify fun c => { c with current := page, dirty := true }) c₁ := by
    rw [appendValue, exec_bind_ok hroom, exec_get_bind]
  cases hv : accepts c.spec v with
  | true =>
    have happ := appendToPage_of_accepts hlt (hspec ▸ hv)
    refine ⟨{ c₁ with current := c₁.current ++ [v], dirty := true }, dur', hspec, hdur, ?_,
      hst.put hlt v⟩
    rw [hexec, happ]
    rfl
  | false =>
    obtain ⟨e, he⟩ := appendToPage_of_not_accepts (hspec ▸ hv) c₁.current
    refine ⟨c₁, dur', hspec, hdur, ?_⟩
    refine ⟨⟨e, ?_⟩, hst⟩
    rw [hexec, he]
    rfl

/-- A batch is appended up to the first value that is refused. -/
theorem exec_appendBulk (values : List Value) (h : Stores c vals dur) :
    ∃ c' dur', c'.spec = c.spec ∧ dur <+: dur' ∧
      Stores c' (vals ++ values.takeWhile (accepts c.spec)) dur' ∧
      (if values.all (accepts c.spec) = true then exec (appendBulk values) c = (.ok (), c')
        else ∃ e, exec (appendBulk values) c = (.error e, c')) := by
  induction values generalizing c vals dur with
  | nil => exact ⟨c, dur, rfl, prefix_refl _, by simpa using h, rfl⟩
  | cons v values ih =>
    obtain ⟨c₁, dur₁, hspec, hdur, hv⟩ := exec_appendValue h v
    cases hacc : accepts c.spec v with
    | false =>
      rw [hacc] at hv
      obtain ⟨⟨e, he⟩, hst⟩ := hv
      refine ⟨c₁, dur₁, hspec, hdur, by simpa [hacc] using hst, ?_⟩
      rw [if_neg (by simp [hacc])]
      exact ⟨e, by rw [appendBulk, exec_forEach_cons, exec_bind_error he]⟩
    | true =>
      rw [hacc] at hv
      obtain ⟨c', dur', hspec', hdur', hst, hres⟩ := ih hv.2
      have hexec : exec (appendBulk (v :: values)) c = exec (appendBulk values) c₁ := by
        rw [appendBulk, exec_forEach_cons, exec_bind_ok hv.1]
        rfl
      refine ⟨c', dur', hspec'.trans hspec, hdur.trans hdur', ?_, ?_⟩
      · rw [hspec] at hst
        simpa [hacc] using hst
      · rw [hspec] at hres
        rw [hexec]
        simpa [hacc] using hres

/-! ## Truncation -/

/-- `n` values fill the pages before the last one that is kept and some slots of that one. -/
theorem pagesToKeep_spec {cap : Nat} (hcap : 0 < cap) (n : Nat) :
    ∃ last, pagesToKeep cap n = last + 1 ∧ last * cap + rowsToKeep cap n = n ∧
      rowsToKeep cap n ≤ cap ∧ (0 < rowsToKeep cap n ∨ last = 0) := by
  have hdiv := Nat.div_add_mod n cap
  have hmod := Nat.mod_lt n hcap
  unfold pagesToKeep rowsToKeep
  by_cases hlf : n % cap = 0 ∧ 0 < n
  · obtain ⟨q, hq⟩ : ∃ q, n / cap = q + 1 := by
      refine Nat.exists_eq_succ_of_ne_zero fun h0 => ?_
      rw [h0] at hdiv
      omega
    rw [hq, hlf.1, Nat.mul_comm, Nat.succ_mul] at hdiv
    rw [if_pos hlf, if_pos hlf]
    exact ⟨q, by omega, hdiv, Nat.le_refl _, Or.inl hcap⟩
  · rw [if_neg hlf, if_neg hlf]
    rw [Nat.mul_comm] at hdiv
    refine ⟨n / cap, Nat.max_eq_right (Nat.succ_pos _), hdiv, Nat.le_of_lt hmod, ?_⟩
    rcases Nat.eq_zero_or_pos n with h0 | h0
    · rw [h0, Nat.zero_div]
      exact Or.inr rfl
    · exact Or.inl (Nat.pos_of_ne_zero fun h => hlf ⟨h, h0⟩)

/-- Truncation to at most what the file holds. -/
theorem exec_truncate (h : Stores c vals dur) (hn : n ≤ dur.length) :
    ∃ c', exec (truncate n) c = (.ok (), c') ∧ c'.spec = c.spec ∧
      Stores c' (dur.take n) (dur.take n) := by
  obtain ⟨_, _, hl, rfl, rfl⟩ := h
  obtain ⟨last, hkeep, hsum, hneed, hpos⟩ := pagesToKeep_spec hl.cap_pos n
  generalize hk : rowsToKeep c.capacity n = needed at hsum hneed hpos
  obtain ⟨hpages, hdur⟩ := hl.disk
  obtain ⟨init, page, _, hsplit, rfl, hfull, htake⟩ := hl.paged.take (i := last) (k := needed)
    (by rw [hdur, hsum]; exact hn) hneed hpos
  rw [hdur, hsum] at htake
  rw [hsplit, map_append] at hpages
  have hlook : c.file.pages.look init.length = some page := by
    rw [hpages]
    simp [look]
  have hresize : c.file.pages.resize (init.length + 1) = init.map some ++ [some page] := by
    rw [resize_of_le (by rw [hpages]; simp), hpages, take_append,
      take_of_length_le (by simp)]
    simp
  have hwrite : write (init.map some ++ [some page]) init.length (page.take needed) =
      init.map some ++ [some (page.take needed)] :=
    write_append (length_map _) (some (some page)) _
  let c' : ColumnFile := ⟨⟨c.spec, init.map some ++ [some (page.take needed)]⟩, page.take needed,
    init.length, false, init.length + 1⟩
  refine ⟨c', ?_, rfl, ?_⟩
  · rw [truncate, exec_get_bind, if_neg (Nat.pos_iff_ne_zero.mp hl.cap_pos)]
    simp only [hkeep, hk, Nat.add_sub_cancel, hlook]
    rw [exec_bind_ok (exec_fileOp _ c), hresize]
    by_cases hlen : page.length = needed
    · have hpage : page.take needed = page := take_of_length_le (by omega)
      simp only [hlen, ne_eq, not_true_eq_false, if_false, c', hpage]
      rfl
    · simp only [ne_eq, hlen, not_false_eq_true, if_true, c', ← hwrite]
      rfl
  · rw [htake]
    exact stores_opened hl.cap_pos rfl hfull (Nat.le_trans (length_take_le _ _) hneed)

/-! ## Reading -/

theorem Layout.readPage {tail : Option ColumnPage} (hl : Layout c full tail) {p : ColumnPage}
    (hp : (full ++ [c.current])[i]? = some p) : c.readPage i = .ok p := by
  unfold ColumnFile.readPage
  by_cases hi : i = c.currentId
  · rw [if_pos hi]
    rw [hi, hl.currentId, getElem?_append_right (Nat.le_refl _), Nat.sub_self] at hp
    exact congrArg Except.ok (Option.some.inj hp)
  · have hlt : i < full.length := by
      have hlt := lt_of_getElem? hp
      rw [length_append, length_singleton] at hlt
      rw [hl.currentId] at hi
      omega
    rw [getElem?_append_left hlt] at hp
    rw [if_neg hi, if_neg (by rw [hl.nextPageId]; omega), hl.pages, look_layout hp]

section

variable (h : Stores c vals dur)
include h

/-- The page of a row holds the values from that row on. -/
theorem Stores.readPage_drop (hr : r < vals.length) :
    ∃ page, c.readPage (r / c.capacity) = .ok page ∧ r % c.capacity < page.length ∧
      page.drop (r % c.capacity) <+: vals.drop r := by
  obtain ⟨full, _, hl, rfl, _⟩ := h
  have hmod := Nat.mod_lt r hl.cap_pos
  have hdiv := Nat.div_add_mod' r c.capacity
  have hvals : full.flatten ++ c.current = (full ++ [c.current]).flatten := by simp
  rw [hvals] at hr ⊢
  obtain ⟨init, page, rest, hsplit, hlen, hinit, hpage⟩ :=
    hl.paged_current.split (hl.paged_current.page_lt hl.cap_pos hr)
  have hflen := length_flatten_of_full hinit
  rw [hsplit, flatten_append, flatten_cons, length_append, length_append] at hr
  rw [hlen] at hflen
  have hslot : r % c.capacity < page.length := by
    rcases hpage with hpage | rfl
    · omega
    · rw [flatten_nil, length_nil] at hr
      omega
  refine ⟨page, hl.readPage (by rw [hsplit, ← hlen]; simp), hslot, ?_⟩
  have hdrop : (init.flatten ++ (page ++ rest.flatten)).drop r =
      (page ++ rest.flatten).drop (r % c.capacity) := by
    conv_lhs => rw [← hdiv]
    rw [← hflen, drop_length_add_append]
  rw [hsplit, flatten_append, flatten_cons, hdrop, drop_append_of_le_length (Nat.le_of_lt hslot)]
  exact prefix_append _ _

theorem Stores.readPage (hr : r < vals.length) :
    ∃ page, c.readPage (r / c.capacity) = .ok page ∧ page[r % c.capacity]? = vals[r]? := by
  obtain ⟨page, hread, _, _, hrest⟩ := h.readPage_drop hr
  refine ⟨page, hread, ?_⟩
  have hfirst := congrArg (fun l : List Value => l[0]?) hrest
  rwa [getElem?_append_left (by rw [length_drop]; omega), getElem?_drop,
    getElem?_drop, Nat.add_zero, Nat.add_zero] at hfirst

theorem Stores.get (hv : vals[r]? = some v) (hnull : v.isNull = false) :
    c.get r = .ok v := by
  have hr := lt_of_getElem? hv
  obtain ⟨page, hpage, hslot⟩ := h.readPage hr
  have hcap := h.cap_pos
  unfold ColumnFile.get
  rw [if_neg (by omega), hpage, except_ok_bind, hslot, hv]
  cases v with
  | null => cases hnull
  | _ => rfl

theorem Stores.getStr {str : Bytes} (hv : vals[r]? = some (.string str)) :
    c.getStr r = str := by
  have hr := lt_of_getElem? hv
  obtain ⟨_, hpage, hslot⟩ := h.readPage hr
  unfold ColumnFile.getStr
  simp [hpage, hslot, hv]

theorem Stores.isNull (hv : vals[r]? = some v) :
    c.isNull r = (decide (c.spec.nullBitmapBytes ≠ 0) && v.isNull) := by
  have hr := lt_of_getElem? hv
  obtain ⟨_, hpage, hslot⟩ := h.readPage hr
  have hnext : r / c.capacity < c.nextPageId := by
    obtain ⟨_, _, hl, rfl, _⟩ := h
    have hpage := hl.paged_current.page_lt hl.cap_pos (r := r) (by simpa using hr)
    rwa [length_append, length_singleton, ← hl.nextPageId] at hpage
  unfold ColumnFile.isNull
  rw [if_neg (by omega)]
  simp only [hpage, hslot, hv]
  cases v <;> rfl

theorem Stores.scan :
    ∃ pages, c.scan = .ok pages ∧ pages.flatten = vals := by
  obtain ⟨full, _, hl, rfl, _⟩ := h
  refine ⟨full ++ [c.current], ?_, by simp⟩
  have hnext : c.nextPageId = (full ++ [c.current]).length := by simp [hl.nextPageId]
  rw [ColumnFile.scan, hnext]
  exact mapM_range fun i p hp => hl.readPage hp

end

end NyxDb.ColumnFile
