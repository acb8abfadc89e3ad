import NyxDb.Catalog.Indexes
import NyxDb.Catalog.Redo

/-!
# Operations on the entries of a catalog

How an operation on one entry, or on all of them, acts on the catalog, and what writing,
reopening and rebuilding do to an entry.
-/

namespace NyxDb

open List

theorem canonicalize_idem (name : Bytes) :
    canonicalize (canonicalize name) = canonicalize name := by
  unfold canonicalize
  rw [map_map]
  refine map_congr_left fun c _ => ?_
  simp only [Function.comp_apply]
  have hlow : ∀ c : UInt8, (65 ≤ c ∧ c ≤ 90) → ¬ (65 ≤ c + 32 ∧ c + 32 ≤ 90) := by
    simp only [UInt8.le_iff_toNat_le, UInt8.toNat_add]
    have h65 : (65 : UInt8).toNat = 65 := rfl
    have h90 : (90 : UInt8).toNat = 90 := rfl
    have h32 : (32 : UInt8).toNat = 32 := rfl
    omega
  by_cases hc : 65 ≤ c ∧ c ≤ 90
  · rw [if_pos hc, if_neg (hlow c hc)]
  · rw [if_neg hc, if_neg hc]

theorem length_canonicalize (name : Bytes) : (canonicalize name).length = name.length :=
  length_map _

namespace Catalog

/-! ## Finding and replacing an entry -/

variable {cat : Catalog} {name : Bytes} {e e' : TableEntry}

theorem find_some (h : cat.find name = some e) : e ∈ cat.tables ∧ e.name = name := by
  refine ⟨mem_of_find?_eq_some h, ?_⟩
  have := find?_some h
  simpa using this

theorem find_of_mem (hnames : (cat.tables.map TableEntry.name).Nodup) (he : e ∈ cat.tables) :
    cat.find e.name = some e := by
  unfold find
  generalize cat.tables = es at *
  induction es with
  | nil => cases he
  | cons x es ih =>
    rw [map_cons, nodup_cons] at hnames
    rcases mem_cons.mp he with rfl | he
    · rw [find?_cons_of_pos (by simp)]
    · have hne : x.name ≠ e.name := by
        intro heq
        exact hnames.1 (heq ▸ mem_map_of_mem he)
      rw [find?_cons_of_neg (by simpa using hne)]
      exact ih hnames.2 he

theorem find_eq_none : cat.find name = none ↔ ∀ e ∈ cat.tables, e.name ≠ name := by
  unfold find
  simp

theorem exec_onEntry {α : Type} (hfind : cat.find name = some e) (c : Op TableEntry α) :
    exec (onEntry name c) cat = ((exec c e).1, put (exec c e).2 cat) := by
  unfold onEntry
  rw [exec_get_bind, hfind]
  exact exec_zoom _ _ _ _

/-- Replacing an entry changes nothing but that entry. -/
theorem forall₂_put {α : Type} {R S : α → TableEntry → Prop} {xs : List α}
    (h : Forall₂ R xs cat.tables) (hnames : (cat.tables.map TableEntry.name).Nodup)
    (he : e ∈ cat.tables) (hname : e'.name = e.name) (hnew : ∀ x, R x e → S x e')
    (hold : ∀ x y, y ∈ cat.tables → y.name ≠ e.name → R x y → S x y) :
    Forall₂ S xs (put e' cat).tables := by
  refine forall₂_map_right_iff.2 (forall₂_imp_mem h fun x _ y hy hxy => ?_)
  by_cases heq : y.name = e'.name
  · rw [if_pos heq]
    have hye : y = e := inj_on_of_nodup_map hnames hy he (heq.trans hname)
    exact hnew x (hye ▸ hxy)
  · rw [if_neg heq]
    exact hold x y hy (hname ▸ heq) hxy

theorem names_put (cat : Catalog) (e : TableEntry) :
    (put e cat).tables.map TableEntry.name = cat.tables.map TableEntry.name := by
  show (cat.tables.map _).map _ = _
  rw [map_map]
  refine map_congr_left fun x _ => ?_
  simp only [Function.comp_apply]
  split
  · next h => exact h.symm
  · rfl

theorem mem_put (hname : e'.name = e.name) {x : TableEntry} (hx : x ∈ (put e' cat).tables) :
    x = e' ∨ (x ∈ cat.tables ∧ x.name ≠ e.name) := by
  obtain ⟨y, hy, rfl⟩ := mem_map.mp hx
  by_cases heq : y.name = e'.name
  · exact Or.inl (if_pos heq)
  · rw [if_neg heq]
    exact Or.inr ⟨hy, hname ▸ heq⟩

theorem find_put_self (hfind : cat.find name = some e) (hname : e'.name = name) :
    (put e' cat).find name = some e' := by
  unfold find put at *
  generalize cat.tables = es at *
  induction es with
  | nil => cases hfind
  | cons x es ih =>
    rw [map_cons]
    by_cases hx : x.name = name
    · rw [if_pos (hx.trans hname.symm), find?_cons_of_pos (by simpa using hname)]
    · rw [if_neg (hname ▸ hx), find?_cons_of_neg (by simpa using hx)]
      rw [find?_cons_of_neg (by simpa using hx)] at hfind
      exact ih hfind

theorem exec_onEntries (cat : Catalog) {α : Type} {R S : α → TableEntry → Prop} {xs : List α}
    {c : Op TableEntry Unit} (h : Forall₂ R xs cat.tables)
    (hc : ∀ x y, R x y → ∃ z, exec c y = (.ok (), z) ∧ S x z) :
    ∃ zs, exec (onEntries c) cat = (.ok (), { cat with tables := zs }) ∧ Forall₂ S xs zs := by
  obtain ⟨zs, hexec, hzs⟩ := Proc.exec_each_rel h hc
  refine ⟨zs, ?_, hzs⟩
  unfold onEntries
  rw [exec_get_bind, exec_zoom, hexec]

end Catalog

namespace TableEntry

variable {e : TableEntry} {c : Op IndexFile Unit}

theorem exec_onIndexes {Q : IndexFile → IndexFile → Prop}
    (h : ∀ x ∈ e.indexes, ∃ f, exec c x.2 = (.ok (), f) ∧ Q x.2 f) :
    ∃ idx, exec (onIndexes c) e = (.ok (), { e with indexes := idx }) ∧
      Forall₂ (fun x y => y.1 = x.1 ∧ Q x.2 y.2) e.indexes idx := by
  have hall : Forall₂ (fun c f => ∃ f', exec c f = (.ok (), f') ∧ Q f f')
      (e.indexes.map fun _ => c) (e.indexes.map Prod.snd) :=
    forall₂_map_left_iff.mpr (forall₂_map_right_iff.mpr (forall₂_same.mpr h))
  obtain ⟨fs, hexec, hfs⟩ := Proc.exec_each_ok hall
  refine ⟨(e.indexes.map Prod.fst).zip fs, ?_, ?_⟩
  · unfold onIndexes
    rw [exec_get_bind, exec_zoom, hexec]
  · rw [forall₂_map_left_iff] at hfs
    generalize e.indexes = xs at hfs
    clear h hall hexec
    induction hfs with
    | nil => exact .nil
    | cons hx _ ih => exact .cons ⟨rfl, hx⟩ ih

/-- An operation that leaves each index as it is. -/
theorem exec_onIndexes_same
    (h : ∀ x ∈ e.indexes, exec c x.2 = (.ok (), x.2)) : exec (onIndexes c) e = (.ok (), e) := by
  obtain ⟨_, hexec, hidx⟩ := exec_onIndexes fun x hx => ⟨x.2, h x hx, rfl⟩
  have hsame := forall₂_map_eq hidx fun x y hxy => (Prod.ext hxy.1 hxy.2.symm : id y = id x)
  rw [map_id, map_id] at hsame
  rw [hexec, hsame]

/-- If an operation on all indexes succeeds, it does on each. -/
theorem exec_of_onIndexes (h : (exec (onIndexes c) e).1 = .ok ())
    {x : Bytes × IndexFile} (hx : x ∈ e.indexes) : (exec c x.2).1 = .ok () := by
  obtain ⟨i, hi⟩ := mem_iff_getElem?.mp hx
  refine Proc.exec_of_each_ok (i := i) h ?_ ?_
  · rw [getElem?_map, hi]
    rfl
  · rw [getElem?_map, hi]
    rfl

theorem exec_onTable {α : Type} (c : Op Table α) (e : TableEntry) :
    exec (onTable c) e = ((exec c e.table).1, { e with table := (exec c e.table).2 }) :=
  rfl

theorem readLsn_lsnBytes {cp : LsnCheckpoint} (hlsn : cp.lsn < 2 ^ 64) (hrows : cp.rows < 2 ^ 64) :
    readLsn (some (lsnBytes cp)) = cp := by
  have hlsn' : cp.lsn < 256 ^ 8 := hlsn
  have hrows' : cp.rows < 256 ^ 8 := hrows
  have hlen : (lsnBytes cp).length = 16 := by simp [lsnBytes, length_leBytes]
  have h8 : (leBytes 8 cp.lsn).length = 8 := length_leBytes _ _
  have hfirst : (lsnBytes cp).take 8 = leBytes 8 cp.lsn := by
    rw [lsnBytes, take_append_of_le_length (Nat.le_of_eq h8.symm), take_of_length_le]
    exact Nat.le_of_eq h8
  have hsecond : ((lsnBytes cp).drop 8).take 8 = leBytes 8 cp.rows := by
    rw [lsnBytes, drop_append_of_le_length (Nat.le_of_eq h8.symm),
      drop_of_length_le (Nat.le_of_eq h8), nil_append, take_of_length_le]
    exact Nat.le_of_eq (length_leBytes _ _)
  simp only [readLsn]
  rw [if_neg (by omega), hfirst, hsecond, leNat_leBytes_of_lt hlsn', leNat_leBytes_of_lt hrows']

theorem exec_writeLsn (cp : LsnCheckpoint) (e : TableEntry) :
    exec (writeLsn cp) e = (.ok (), { e with lsn := some (lsnBytes cp) }) := rfl

end TableEntry
end NyxDb
