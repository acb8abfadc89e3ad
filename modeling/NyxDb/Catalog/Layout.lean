import NyxDb.Catalog.Upkeep

/-!
# The layout of the tables

The layout of a table is its schema and the names of its indexes.  `CREATE TABLE` writes it and
`CREATE INDEX` extends it; statements on rows, checkpoints and restarts must find it again as it
was.

* `layout` reads it from a catalog, table by table.
* `layout_put` and `layout_logged` say what replacing an entry and writing the log do to it, and
  `layout_eq_of_same` is for operations on all entries at once.
* `layout_changed`, `layout_createTable` and `layout_addIndex` are the statements.
-/

namespace NyxDb.Catalog

open TableEntry List

/-- The schema of a table and the names of its indexes. -/
def layout (cat : Catalog) (name : Bytes) : Option (Schema × List Bytes) :=
  (cat.find name).map fun e => (e.table.schema, e.indexes.map Prod.fst)

variable {cat cat' : Catalog} {db : Contents} {name index : Bytes} {e e' : TableEntry}
  {schema : Schema}

theorem layout_eq_of_same (h : Forall₂ SameLayout cat.tables cat'.tables) :
    cat'.layout = cat.layout := by
  funext name
  unfold layout find
  generalize cat.tables = es at h
  generalize cat'.tables = ys at h
  induction h with
  | nil => rfl
  | @cons e y es ys hy hys ih =>
    obtain ⟨hname, hschema, hindexes⟩ := hy
    by_cases hfound : e.name = name
    · rw [find?_cons_of_pos (by simpa [hname] using hfound),
        find?_cons_of_pos (by simpa using hfound), Option.map_some, Option.map_some, hschema,
        hindexes]
    · rw [find?_cons_of_neg (by simpa [hname] using hfound),
        find?_cons_of_neg (by simpa using hfound)]
      exact ih

theorem find_put_of_ne (h : name ≠ e'.name) : (put e' cat).find name = cat.find name := by
  unfold find put
  dsimp only
  induction cat.tables with
  | nil => rfl
  | cons x es ih =>
    rw [map_cons]
    by_cases hx : x.name = e'.name
    · rw [if_pos hx, find?_cons_of_neg (by simpa using h.symm),
        find?_cons_of_neg (by simpa [hx] using h.symm), ih]
    · rw [if_neg hx, find?_cons, find?_cons, ih]

/-- Replacing an entry changes the layout of that table. -/
theorem layout_put (hfind : cat.find name = some e) (hname : e'.name = name) :
    (put e' cat).layout =
      Function.update cat.layout name (some (e'.table.schema, e'.indexes.map Prod.fst)) := by
  funext other
  unfold layout
  rw [Function.update_apply]
  split
  · next heq =>
    rw [heq, find_put_self hfind hname]
    rfl
  · next hne => rw [find_put_of_ne (hname ▸ hne)]

/-- The layout is no part of the log. -/
theorem layout_logged (cat : Catalog) (bs : Bytes) :
    (cat.logOpened.appended bs).layout = cat.layout := by
  funext name
  unfold layout
  rw [find_appended, find_logOpened]

theorem names_of_onIndexes {c : Op IndexFile Unit} (h : exec (onIndexes c) e = (.ok (), e')) :
    e'.indexes.map Prod.fst = e.indexes.map Prod.fst := by
  obtain ⟨idx, hexec, hidx⟩ := exec_onIndexes (e := e) (c := c) (Q := fun _ _ => True) fun x hx =>
    ⟨_, Prod.ext (exec_of_onIndexes (congrArg Prod.fst h) hx) rfl, trivial⟩
  obtain rfl : { e with indexes := idx } = e' := congrArg Prod.snd (hexec.symm.trans h)
  exact forall₂_map_eq hidx fun x y hxy => hxy.1

/-- **A statement on rows** leaves all layouts. -/
theorem layout_changed {t' : Table} {idx : List (Bytes × IndexFile)} {body : WalBody}
    (h : Tracks Held cat db) (hrows : RowsChanged cat name body e t' idx) (bs : Bytes) :
    (cat.changed name e t' idx bs).layout = cat.layout := by
  obtain ⟨g, -, hheld⟩ := h.find hrows.find
  have hnames := names_of_onIndexes hrows.keys
  have hold : cat.layout name = some (t'.schema, idx.map Prod.fst) := by
    unfold layout
    rw [hrows.find, Option.map_some, (hrows.held hheld).2]
    exact congrArg (fun names => some (_, names)) hnames.symm
  have hname : ({ e with table := t', indexes := idx } : TableEntry).name = name :=
    (find_some hrows.find).2
  unfold changed
  rw [layout_logged, layout_put hrows.find hname]
  exact hold ▸ Function.update_eq_self name cat.layout

/-- **A new table** has no indexes yet. -/
theorem layout_createTable (hnew : Creatable name schema)
    (hexec : exec (createTable name schema) cat = (.ok (), cat')) :
    cat'.layout = Function.update cat.layout (canonicalize name) (some (schema, [])) := by
  obtain ⟨t, t', hfind, hok, hflush, rfl⟩ := createTable_eq_ok hexec
  obtain ⟨-, -, t'', hflush', hschema, -⟩ := held_newEntry hnew hok
  obtain rfl : t' = t'' := congrArg Prod.snd (hflush.symm.trans hflush')
  rw [layout_put (find_created t hfind) rfl]
  funext other
  rw [Function.update_apply, Function.update_apply]
  split
  · exact congrArg (fun s => some (s, [])) hschema
  · next hne =>
    -- the entry at the end of the tables is not the one that is looked for
    unfold layout find created
    dsimp only
    rw [find?_append, find?_cons_of_neg (by simpa [newEntry] using Ne.symm hne), find?_nil,
      Option.or_none]

/-- **A new index** is the last one of its table. -/
theorem layout_addIndex {cols : List UInt8} {unique : Bool} (h : Tracks Held cat db)
    (hfew : cols.length < 256) (hexec :
      exec (addIndex name index cols unique) cat = (.ok (), cat')) :
    cat'.layout = Function.update cat.layout (canonicalize name)
      ((cat.layout (canonicalize name)).map fun l => (l.1, l.2 ++ [index])) := by
  rcases addIndex_cases h name index hfew with ⟨_, hfail⟩ | ⟨e, f', _, hfind, -, hrun, -⟩
  · rw [hfail] at hexec
    cases hexec
  · obtain rfl := congrArg Prod.snd (hrun.symm.trans hexec)
    have hold : cat.layout (canonicalize name) =
        some (e.table.schema, e.indexes.map Prod.fst) := by
      unfold layout
      rw [hfind]
      rfl
    have hname : ({ e with indexes := e.indexes ++ [(index, f')] } : TableEntry).name =
      canonicalize name := (find_some hfind).2
    rw [layout_put hfind hname, hold, Option.map_some, map_append]
    rfl

end NyxDb.Catalog
