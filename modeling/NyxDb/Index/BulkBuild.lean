import NyxDb.Index.RangeScan

/-!
# Bulk loading builds a B+tree

The levels under construction are lists of trees of one height, a `Forest`.  Writing the leaves
and writing the parents of a level keep it, and the last level is a single tree with the given
entries (`exec_bulkBuild`).
-/

namespace NyxDb.BTreeIndex

open BPlus IndexFile List

variable {f : IndexFile} {level : List LevelEntry} {h : Nat} {t : Tree Bytes Nat h}

/-- The pages with these ids are in use, each by one node, and the file ends at the next one. -/
structure Paged (f : IndexFile) (ids : List Nat) : Prop where
  nodup : ids.Nodup
  bound : ∀ i ∈ ids, 0 < i ∧ i < f.nextPageId
  length : f.disk.pages.length = f.nextPageId
  nonempty : 0 < f.nextPageId

theorem Paged.addPage {ids ids' : List Nat} (hp : Paged f ids) (page : IndexPage)
    (hperm : ids'.Perm (f.nextPageId :: ids)) : Paged (f.addPage page) ids' where
  nodup := by
    rw [hperm.nodup_iff, nodup_cons]
    exact ⟨fun hmem => absurd (hp.bound _ hmem).2 (Nat.lt_irrefl _), hp.nodup⟩
  bound := by
    intro i hi
    rcases mem_cons.mp (hperm.mem_iff.mp hi) with rfl | hi
    · exact ⟨hp.nonempty, Nat.lt_succ_self _⟩
    · exact (hp.bound i hi).imp_right Nat.lt_succ_of_lt
  length := length_addPage hp.length _
  nonempty := Nat.succ_pos _

/-- A tree of the level under construction. -/
structure Built (f : IndexFile) {h : Nat} (t : Tree Bytes Nat h) : Prop where
  shape : Shape f.nodeCapacity t
  seps : Seps t
  stored : Stored f.look t

theorem Built.addPage (ht : Built f t) (page : IndexPage)
    (hids : ∀ i ∈ pageIds t, i < f.nextPageId) : Built (f.addPage page) t := by
  refine ⟨ht.shape, ht.seps, ht.stored.congr fun i hi => ?_⟩
  rw [look_addPage, if_neg (Nat.ne_of_lt (hids i hi))]

/-- The pages hold the trees `ts`, all of height `h`, side by side. -/
structure Forest (f : IndexFile) {h : Nat} (ts : List (Tree Bytes Nat h)) : Prop where
  built : ∀ t ∈ ts, Built f t
  linked : LinkedTo none (ts.flatMap leaves)
  paged : Paged f (ts.flatMap pageIds)

/-- The level entries name the roots and the first keys of the trees. -/
def LevelOf {h : Nat} (level : List LevelEntry) (ts : List (Tree Bytes Nat h)) : Prop :=
  level.map (fun e => (e.1, some e.2)) = ts.map fun t => (rootId t, firstKey t)

theorem LevelOf.length_eq {ts : List (Tree Bytes Nat h)} (hl : LevelOf level ts) :
    level.length = ts.length := by
  simpa using congrArg length hl

/-- The entry of a new node. -/
theorem LevelOf.concat {ts : List (Tree Bytes Nat h)} (hl : LevelOf level ts)
    {key : Bytes} (hkey : firstKey t = some key) :
    LevelOf (level ++ [(rootId t, key)]) (ts ++ [t]) := by
  unfold LevelOf at hl ⊢
  rw [map_append, map_append, hl, map_singleton, map_singleton, hkey]

theorem leaves_flatMap_leaf (ts : List (Leaf Bytes Nat)) :
    flatMap (leaves (h := 0)) ts = ts :=
  flatMap_singleton' ts

theorem pageIds_flatMap_leaf (ts : List (Leaf Bytes Nat)) :
    flatMap (pageIds (h := 0)) ts = ts.map Leaf.id :=
  flatMap_pure_eq_map Leaf.id ts

/-- The leaves after one round: the last one is linked to the new one. -/
def appendLeaf (ts : List (Leaf Bytes Nat)) (new : Leaf Bytes Nat) : List (Leaf Bytes Nat) :=
  match ts.getLast? with
  | none => [new]
  | some last => ts.dropLast ++ [{ last with next := some new.id }, new]

theorem appendLeaf_concat (init : List (Leaf Bytes Nat)) (last new : Leaf Bytes Nat) :
    appendLeaf (init ++ [last]) new = init ++ [{ last with next := some new.id }, new] := by
  simp [appendLeaf]

variable {ts : List (Leaf Bytes Nat)} {new : Leaf Bytes Nat}

theorem appendLeaf_map {α : Type} (g : Leaf Bytes Nat → α)
    (hg : ∀ l n, g { l with next := n } = g l) :
    (appendLeaf ts new).map g = ts.map g ++ [g new] := by
  rcases eq_nil_or_concat' ts with rfl | ⟨-, -, rfl⟩
  · rfl
  · simp [appendLeaf_concat, hg]

theorem appendLeaf_linked (hl : LinkedTo none ts) (hnew : new.next = none) :
    LinkedTo none (appendLeaf ts new) := by
  rcases eq_nil_or_concat' ts with rfl | ⟨_, last, rfl⟩
  · exact hnew
  · have hlast : last.next = none := (LinkedTo.suffix (S := []) hl).2
    have hpair : LinkedTo last.next [{ last with next := some new.id }, new] :=
      ⟨rfl, by rw [hlast]; exact hnew⟩
    have hid : ({ last with next := some new.id } : Leaf Bytes Nat).id = last.id := rfl
    have hall := linkedTo_replace (S := []) hl hid hpair
    rwa [append_nil, ← appendLeaf_concat] at hall

/-- **A new leaf** is written, and the last one is linked to it. -/
theorem exec_linkPrev (new : Leaf Bytes Nat) (hf : Forest f (h := 0) ts)
    (hid : new.id = f.nextPageId)
    (hnext : new.next = none) :
    ∃ f', exec (linkPrev (ts.getLast?.map Leaf.id) new.id)
        (f.addPage (.leaf new.entries none)) = (.ok (), f') ∧
      SameIndex f f' ∧ Paged f' (flatMap (pageIds (h := 0)) (appendLeaf ts new)) ∧
      ∀ l ∈ appendLeaf ts new, f'.look l.id = some (.leaf l.entries l.next) := by
  have hpaged : Paged (f.addPage (.leaf new.entries none))
      (flatMap (pageIds (h := 0)) (appendLeaf ts new)) := by
    refine hf.paged.addPage _ ?_
    rw [pageIds_flatMap_leaf, pageIds_flatMap_leaf, appendLeaf_map Leaf.id fun _ _ => rfl, hid]
    exact perm_append_singleton _ _
  have hnew : (f.addPage (.leaf new.entries none)).look new.id =
      some (.leaf new.entries new.next) := by
    rw [look_addPage, if_pos hid, hnext]
  have hids : ∀ l ∈ ts, l.id < f.nextPageId := by
    intro l hl
    refine (hf.paged.bound l.id ?_).2
    rw [pageIds_flatMap_leaf]
    exact mem_map_of_mem hl
  have hold : ∀ l ∈ ts, (f.addPage (.leaf new.entries none)).look l.id =
      some (.leaf l.entries l.next) := by
    intro l hl
    rw [look_addPage, if_neg (Nat.ne_of_lt (hids l hl))]
    exact (hf.built l hl).stored
  have hnodup := hf.paged.nodup
  rw [pageIds_flatMap_leaf] at hnodup
  rcases eq_nil_or_concat' ts with rfl | ⟨init, last, rfl⟩
  · refine ⟨f.addPage _, rfl, sameIndex_addPage f _, hpaged, fun l hl => ?_⟩
    rw [mem_singleton.mp hl]
    exact hnew
  -- The page of the last leaf gets its right link.
  · have hlast : last ∈ init ++ [last] := by simp
    rw [getLast?_concat, Option.map_some, linkPrev, exec_bind_ok (exec_fetchPage (hold last hlast))]
    refine ⟨(f.addPage _).withPage last.id (.leaf last.entries (some new.id)), rfl,
      ⟨⟨rfl, rfl, rfl, rfl, rfl, rfl⟩, rfl, rfl, rfl⟩,
        ⟨hpaged.nodup, hpaged.bound, ?_, hpaged.nonempty⟩, ?_⟩
    · exact length_withPage_of_lt hpaged.length (Nat.lt_succ_of_lt (hids last hlast)) _
    · intro l hl
      rw [look_withPage]
      simp only [appendLeaf_concat, mem_append, mem_cons, not_mem_nil, or_false] at hl
      rcases hl with hl | rfl | rfl
      · rw [map_append, nodup_append] at hnodup
        rw [if_neg (hnodup.2.2 l.id (mem_map_of_mem hl) last.id (by simp))]
        exact hold l (mem_append_left _ hl)
      · exact if_pos rfl
      · have hlt := hids last hlast
        rw [if_neg (by omega)]
        exact hnew

/-- The state of `buildLeaves` between two leaves. -/
structure Leafing (f : IndexFile) (ts : List (Leaf Bytes Nat)) (prev : Option Nat)
    (level : List LevelEntry) : Prop where
  forest : Forest f (h := 0) ts
  prev : prev = ts.getLast?.map Leaf.id
  level : LevelOf (h := 0) level ts

theorem leafing_step {prev : Option Nat} (hl : Leafing f ts prev level) {fill : Nat}
    (hfill : 0 < fill) (hcap : fill ≤ f.nodeCapacity) (e : Bytes × Nat) (es : List (Bytes × Nat))
    (fuel : Nat) :
    ∃ f' ts', SameIndex f f' ∧ Leafing f' ts' (some f.nextPageId) (level ++ [(f.nextPageId, e.1)]) ∧
      ts'.flatMap Leaf.entries = ts.flatMap Leaf.entries ++ (e :: es).take fill ∧
      exec (buildLeaves fill (fuel + 1) (e :: es) prev level) f =
        exec (buildLeaves fill fuel ((e :: es).drop fill) (some f.nextPageId)
          (level ++ [(f.nextPageId, e.1)])) f' := by
  let new : Leaf Bytes Nat := ⟨f.nextPageId, (e :: es).take fill, none⟩
  obtain ⟨fill, rfl⟩ := Nat.exists_eq_succ_of_ne_zero (Nat.ne_of_gt hfill)
  obtain ⟨f', hlink, hsame, hpaged, hstored⟩ := exec_linkPrev new hl.forest rfl rfl
  have hentries : (appendLeaf ts new).map Leaf.entries = ts.map Leaf.entries ++ [new.entries] :=
    appendLeaf_map Leaf.entries fun _ _ => rfl
  refine ⟨f', appendLeaf ts new, hsame, ⟨⟨?_, ?_, hpaged⟩, ?_, ?_⟩, ?_, ?_⟩
  · intro l hmem
    refine ⟨?_, trivial, hstored l hmem⟩
    rw [hsame.nodeCapacity]
    show l.entries ≠ [] ∧ l.entries.length ≤ f.nodeCapacity
    have hof := mem_map_of_mem (f := Leaf.entries) hmem
    rw [hentries] at hof
    rcases mem_append.mp hof with hof | hof
    · obtain ⟨m, hm, hof⟩ := mem_map.mp hof
      rw [← hof]
      exact (hl.forest.built m hm).shape
    · rw [mem_singleton.mp hof]
      exact ⟨nofun, Nat.le_trans (length_take_le _ _) hcap⟩
  · have hlinked := hl.forest.linked
    rw [leaves_flatMap_leaf] at hlinked ⊢
    exact appendLeaf_linked hlinked rfl
  · rcases eq_nil_or_concat' ts with rfl | ⟨-, -, rfl⟩
    · rfl
    · simp [appendLeaf_concat, new]
  · have hkey : firstKey (h := 0) new = some e.1 := rfl
    have hlevel := hl.level.concat hkey
    unfold LevelOf at hlevel ⊢
    rw [appendLeaf_map (fun t => (rootId (h := 0) t, firstKey (h := 0) t)) fun _ _ => rfl]
    exact hlevel.trans map_append
  · rw [flatMap_def, hentries, flatten_append, ← flatMap_def, flatten_singleton]
  · rw [hl.prev]
    exact exec_bind_ok hlink _

/-- **The leaves** written by `buildLeaves` hold the given entries. -/
theorem exec_buildLeaves {fill : Nat} (hfill : 0 < fill) (fuel : Nat) {prev : Option Nat}
    (hl : Leafing f ts prev level) (hcap : fill ≤ f.nodeCapacity) (entries : List (Bytes × Nat))
    (hfuel : entries.length ≤ fuel) :
    ∃ f' ts' prev' level', exec (buildLeaves fill fuel entries prev level) f =
        (.ok level', f') ∧ SameIndex f f' ∧ Leafing f' ts' prev' level' ∧
      ts'.flatMap Leaf.entries = ts.flatMap Leaf.entries ++ entries := by
  induction fuel generalizing f ts prev level entries with
  | zero =>
    obtain rfl : entries = [] := length_eq_zero_iff.mp (by omega)
    exact ⟨f, ts, prev, level, rfl, SameIndex.refl f, hl, by simp⟩
  | succ fuel ih =>
    cases entries with
    | nil => exact ⟨f, ts, prev, level, rfl, SameIndex.refl f, hl, by simp⟩
    | cons e es =>
      obtain ⟨_, _, hsame₁, hl₁, hentries₁, hexec₁⟩ :=
        leafing_step hl hfill hcap e es fuel
      have hshort : ((e :: es).drop fill).length ≤ fuel := by
        rw [length_drop]
        omega
      obtain ⟨f', ts', prev', level', hexec, hsame, hl', hentries⟩ :=
        ih hl₁ (by rw [hsame₁.nodeCapacity]; exact hcap) ((e :: es).drop fill) hshort
      refine ⟨f', ts', prev', level', hexec₁.trans hexec, hsame₁.trans hsame, hl', ?_⟩
      rw [hentries, hentries₁, append_assoc, take_append_drop]

/-! ## Parents -/

/-- The state of `buildParents` between two nodes: the parents `bs` so far and the trees `ts`
that still wait for one. -/
structure Parenting (f : IndexFile) {h : Nat} (bs : List (Branch Bytes (Tree Bytes Nat h)))
    (ts : List (Tree Bytes Nat h)) : Prop where
  parents : ∀ b ∈ bs, Built f (h := h + 1) b
  waiting : ∀ t ∈ ts, Built f t
  linked : LinkedTo none (bs.flatMap (leaves (h := h + 1)) ++ ts.flatMap leaves)
  paged : Paged f (bs.flatMap (pageIds (h := h + 1)) ++ ts.flatMap pageIds)

variable {ts : List (Tree Bytes Nat h)} {bs : List (Branch Bytes (Tree Bytes Nat h))}
  {entries : List (Bytes × Nat)} {nextLevel : List LevelEntry}

theorem LevelOf.take_drop (hl : LevelOf level ts) (n : Nat) :
    LevelOf (level.take n) (ts.take n) ∧ LevelOf (level.drop n) (ts.drop n) := by
  unfold LevelOf at hl ⊢
  rw [map_take, map_take, map_drop, map_drop, hl]
  exact ⟨rfl, rfl⟩

theorem LevelOf.roots (hl : LevelOf level ts) : level.map Prod.fst = ts.map rootId := by
  have := congrArg (map Prod.fst) hl
  simpa [Function.comp_def] using this

theorem LevelOf.firstKeys (hl : LevelOf level ts) :
    level.map (fun e => some e.2) = ts.map firstKey := by
  have := congrArg (map Prod.snd) hl
  simpa [Function.comp_def] using this

theorem parenting_step (hp : Parenting f bs (t :: ts)) {first : LevelEntry} {rest : List LevelEntry}
    (hlevel : LevelOf (first :: rest) (t :: ts)) (hnext : LevelOf (h := h + 1) nextLevel bs)
    (fuel : Nat) :
    ∃ f' b, SameIndex f f' ∧ Parenting f' (bs ++ [b]) ((t :: ts).drop (f.nodeCapacity + 1)) ∧
      b.kids = (t :: ts).take (f.nodeCapacity + 1) ∧
      LevelOf (h := h + 1) (nextLevel ++ [(f.nextPageId, first.2)]) (bs ++ [b]) ∧
      exec (buildParents f.nodeCapacity (fuel + 1) (first :: rest) nextLevel) f =
        exec (buildParents f.nodeCapacity fuel ((first :: rest).drop (f.nodeCapacity + 1))
          (nextLevel ++ [(f.nextPageId, first.2)])) f' := by
  let children := (first :: rest).take (f.nodeCapacity + 1)
  let kids := (t :: ts).take (f.nodeCapacity + 1)
  let b : Branch Bytes (Tree Bytes Nat h) := ⟨f.nextPageId, children.tail.map Prod.snd, kids⟩
  let f₂ := f.addPage (.internal b.keys (kids.map rootId))
  have hchildren : LevelOf children kids := (hlevel.take_drop _).1
  have hcut : (t :: ts) = kids ++ (t :: ts).drop (f.nodeCapacity + 1) :=
    (take_append_drop _ _).symm
  have hwaiting : ∀ d ∈ t :: ts, Built f₂ d := fun d hd => (hp.waiting d hd).addPage _ fun i hi =>
    (hp.paged.bound i (mem_append_right _ (mem_flatMap.mpr ⟨d, hd, hi⟩))).2
  have hbuilt : Built f₂ (h := h + 1) b := by
    refine ⟨⟨?_, ?_, fun d hd => (hwaiting d (mem_of_mem_take hd)).shape⟩,
      ⟨?_, fun d hd => (hwaiting d (mem_of_mem_take hd)).seps⟩,
      ⟨?_, fun d hd => (hwaiting d (mem_of_mem_take hd)).stored⟩⟩
    · have hle : children.length ≤ f.nodeCapacity + 1 := length_take_le _ _
      show (children.tail.map Prod.snd).length ≤ f.nodeCapacity
      rw [length_map, length_tail]
      omega
    · have hlen := hchildren.length_eq
      have hpos : 0 < kids.length := Nat.succ_pos _
      show kids.length = (children.tail.map Prod.snd).length + 1
      rw [length_map, length_tail]
      omega
    · have hkeys := hchildren.firstKeys
      change kids.tail.map firstKey = (children.tail.map Prod.snd).map some
      rw [map_tail, ← hkeys]
      simp [map_tail, Function.comp_def]
    · rw [look_addPage, if_pos rfl]
  -- The pages of the children move below the parent, and one page is new.
  have hperm : ((bs ++ [b]).flatMap (pageIds (h := h + 1)) ++
      ((t :: ts).drop (f.nodeCapacity + 1)).flatMap pageIds).Perm
        (f.nextPageId :: (bs.flatMap (pageIds (h := h + 1)) ++ (t :: ts).flatMap pageIds)) := by
    rw [congrArg (flatMap pageIds) hcut, flatMap_append, flatMap_append, perm_iff_count]
    simp only [flatMap_singleton, pageIds_branch, count_append, count_cons, b]
    omega
  have hfirst : firstKey (h := h + 1) b = some first.2 := by
    have htk : b.kids = t :: ts.take f.nodeCapacity := by simp [b, kids]
    rw [firstKey_branch_cons htk (hp.waiting t mem_cons_self).shape]
    exact (cons.inj hlevel.firstKeys).1.symm
  refine ⟨f₂, b, sameIndex_addPage f _, ⟨?_, fun d hd => hwaiting d (mem_of_mem_drop hd), ?_,
    hp.paged.addPage _ hperm⟩, rfl, hnext.concat hfirst, ?_⟩
  · exact forall_mem_concat (fun d hd => (hp.parents d hd).addPage _ fun i hi =>
      (hp.paged.bound i (mem_append_left _ (mem_flatMap.mpr ⟨d, hd, hi⟩))).2) hbuilt
  · have hl := hp.linked
    rw [hcut] at hl
    simpa [b, leaves_branch] using hl
  · rw [buildParents, exec_bind_ok (exec_reservePageId f), hchildren.roots]
    exact exec_bind_ok (exec_writePage _ _ _) _

/-- **One level of parents**: fewer trees, one higher, over the same leaves. -/
theorem exec_buildParents (fuel : Nat) (hp : Parenting f bs ts)
    (hcap : 0 < f.nodeCapacity) (hlevel : LevelOf level ts)
    (hnext : LevelOf (h := h + 1) nextLevel bs) (hfuel : ts.length ≤ fuel) :
    ∃ f' bs' level', exec (buildParents f.nodeCapacity fuel level nextLevel) f =
        (.ok level', f') ∧ SameIndex f f' ∧ Parenting f' bs' [] ∧
      LevelOf (h := h + 1) level' bs' ∧
      bs'.flatMap Branch.kids = bs.flatMap Branch.kids ++ ts ∧
      2 * bs'.length ≤ 2 * bs.length + ts.length + ts.length % 2 := by
  have hlen := hlevel.length_eq
  induction fuel generalizing f bs ts level nextLevel with
  | zero =>
    obtain rfl : ts = [] := length_eq_zero_iff.mp (by omega)
    exact ⟨f, bs, nextLevel, rfl, SameIndex.refl f, hp, hnext, by simp, by simp⟩
  | succ fuel ih =>
    cases ts with
    | nil =>
      obtain rfl : level = [] := length_eq_zero_iff.mp (by simpa using hlen)
      exact ⟨f, bs, nextLevel, rfl, SameIndex.refl f, hp, hnext, by simp, by simp⟩
    | cons t ts =>
      cases level with
      | nil => simp at hlen
      | cons first rest =>
        obtain ⟨_, b, hsame₁, hp₁, hkids, hlevel₁, hexec₁⟩ :=
          parenting_step hp hlevel hnext fuel
        have hdrop := (hlevel.take_drop (f.nodeCapacity + 1)).2
        have hcap₁ := hsame₁.nodeCapacity
        have hshort : ((t :: ts).drop (f.nodeCapacity + 1)).length ≤ fuel := by
          rw [length_drop]
          omega
        obtain ⟨f', bs', level', hexec, hsame, hp', hlevel', hkids', hcount⟩ :=
          ih hp₁ (by omega) hdrop hlevel₁ hshort (by
            rw [length_drop, length_drop, hlen])
        rw [hcap₁] at hexec
        refine ⟨f', bs', level', hexec₁.trans hexec, hsame₁.trans hsame, hp', hlevel', ?_, ?_⟩
        · rw [hkids', flatMap_append, flatMap_singleton, hkids, append_assoc, take_append_drop]
        · simp only [length_append, length_drop, length_cons, length_nil] at hcount ⊢
          omega

theorem Parenting.forest (hp : Parenting f bs []) : Forest f (h := h + 1) bs := by
  have hl := hp.linked
  have hids := hp.paged
  rw [flatMap_nil, append_nil] at hl hids
  exact ⟨hp.parents, hl, hids⟩

/-- **The levels** end with a single tree over the given leaves. -/
theorem exec_buildLevels (fuel : Nat) (hf : Forest f ts)
    (hcap : 0 < f.nodeCapacity) (hlevel : LevelOf level ts) (hne : ts ≠ [])
    (hfuel : ts.length ≤ fuel) :
    ∃ f' h', ∃ t : Tree Bytes Nat h', ∃ e : LevelEntry,
      exec (buildLevels f.nodeCapacity fuel level) f = (.ok [e], f') ∧ SameIndex f f' ∧
      Forest f' [t] ∧ e.1 = rootId t ∧ toList t = ts.flatMap toList := by
  have hlenl := hlevel.length_eq
  have hpos := length_pos_of_ne_nil hne
  induction fuel generalizing f h ts level with
  | zero => omega
  | succ fuel ih =>
    by_cases hone : 1 < level.length
    · obtain ⟨_, bs, _, hexec₁, hsame₁, hp₁, hlevel₁, hkids, hcount⟩ :=
        exec_buildParents level.length (⟨nofun, hf.built, hf.linked, hf.paged⟩ : Parenting f [] ts)
          hcap hlevel (rfl : LevelOf (h := h + 1) [] []) (by omega)
      simp only [flatMap_nil, nil_append, length_nil] at hkids hcount
      have hbs : bs ≠ [] := by
        rintro rfl
        exact hne (by simpa using hkids.symm)
      have hcap₁ := hsame₁.nodeCapacity
      obtain ⟨f', h', t, e, hexec, hsame, hf', he, hlist⟩ :=
        ih (h := h + 1) hp₁.forest (by omega) hlevel₁ hbs (by omega) hlevel₁.length_eq
          (length_pos_of_ne_nil hbs)
      rw [hcap₁] at hexec
      refine ⟨f', h', t, e, ?_, hsame₁.trans hsame, hf', he, ?_⟩
      · unfold buildLevels
        rw [if_pos hone, exec_bind_ok hexec₁]
        exact hexec
      · have hflat : bs.flatMap (toList (h := h + 1)) =
            (bs.flatMap Branch.kids).flatMap toList := by
          rw [flatMap_assoc]
          exact congrArg bs.flatMap (funext fun b => toList_branch b)
        rw [hlist, hflat, hkids]
    · obtain ⟨t, rfl⟩ : ∃ t, ts = [t] := length_eq_one_iff.mp (by omega)
      obtain ⟨e, rfl⟩ : ∃ e, level = [e] := length_eq_one_iff.mp (by omega)
      refine ⟨f, h, t, e, ?_, SameIndex.refl f, hf, ?_, by simp⟩
      · rfl
      · have := hlevel.roots
        simpa using this

/-! ## The operation -/

/-- Bulk loading makes a tree of the given entries, in whatever order they come. -/
theorem exec_bulkBuild_tree (hf : FileOk f) (hne : entries ≠ []) :
    ∃ f' h, ∃ t : Tree Bytes Nat h, exec (bulkBuild entries) f = (.ok (), f') ∧ SameKeys f f' ∧
      FileOk f' ∧ f'.entryCount = entries.length ∧ IsTree f' t ∧
      toList t = entries ∧ Seps t := by
  have hcap := hf.capacity
  let f₀ : IndexFile := { f with dirty := true, disk.header := ⟨true, f.rootPageId, f.entryCount⟩ }
  have hfill : 0 < max 1 (f₀.nodeCapacity * 3 / 4) := by omega
  have hfillcap : max 1 (f₀.nodeCapacity * 3 / 4) ≤ f₀.nodeCapacity := by
    change max 1 (f.nodeCapacity * 3 / 4) ≤ f.nodeCapacity
    omega
  have hstart : Leafing f₀ [] none [] :=
    ⟨⟨nofun, trivial, nodup_nil, nofun, hf.length, hf.nonempty⟩, rfl, rfl⟩
  obtain ⟨f₁, ts, _, level, hleaves, hsame₁, hl, hentries⟩ :=
    exec_buildLeaves hfill entries.length hstart hfillcap entries (Nat.le_refl _)
  rw [flatMap_nil, nil_append] at hentries
  have hts : ts ≠ [] := by
    rintro rfl
    exact hne hentries.symm
  have hlevel := hl.level.length_eq
  have hcap₁ : f₁.nodeCapacity = f.nodeCapacity := hsame₁.nodeCapacity
  obtain ⟨f₂, h, t, e, hlevels, hsame₂, hforest, he, hlist⟩ :=
    exec_buildLevels level.length hl.forest (by omega) hl.level hts (by omega)
  have hsame := hsame₁.trans hsame₂
  have htoList : toList t = entries := by
    rw [hlist, ← hentries]
    exact congrArg ts.flatMap (funext fun l => toList_leaf l)
  have ht := hforest.built t mem_cons_self
  obtain ⟨page, hpage⟩ := ht.stored.root
  have hlinked := hforest.linked
  have hpaged := hforest.paged
  rw [flatMap_singleton] at hlinked hpaged
  have hroot := (hpaged.bound _ (rootId_mem_pageIds t)).2
  -- The page of the root is fetched and written back as it was.
  let f₃ := f₂.withPage (rootId t) page
  have hcap₃ : f₃.nodeCapacity = f.nodeCapacity := hsame.nodeCapacity
  refine ⟨{ f₃ with rootPageId := rootId t, entryCount := entries.length }, h, t, ?_,
    { hsame with },
    ⟨length_withPage_of_lt hpaged.length hroot page, hpaged.nonempty, ?_, ?_⟩, rfl,
    ⟨⟨ht.shape, hlinked, hpaged.nodup, hpaged.bound⟩,
      ht.stored.congr fun i _ => look_withPage_self hpage i, rfl⟩, htoList, ht.seps⟩
  · unfold bulkBuild
    have hempty : entries.isEmpty = false := by simpa using hne
    rw [hempty]
    simp only [Bool.false_eq_true, if_false]
    rw [exec_bind_ok (exec_setDirty true f), exec_get_bind, exec_bind_ok hleaves]
    change exec (buildLevels f.nodeCapacity level.length level >>= _) f₁ = _
    rw [← hcap₁, exec_bind_ok hlevels]
    simp only [headD_cons, he]
    rw [exec_bind_ok (exec_fetchPage hpage)]
    rfl
  · change 0 < f₃.nodeCapacity
    omega
  · change if f₂.dirty = true then f₂.disk.header.dirty = true else _
    rw [hsame.dirty, hsame.header]
    rfl

/-- **Bulk loading** leaves an index with exactly the given entries, in their order. -/
theorem exec_bulkBuild {es₀ : List (Bytes × Nat)} (hf : Holds f es₀)
    (hne : entries ≠ []) (hsorted : AllGood f.cols entries →
      entries.Pairwise fun a b => keyLe f.cols a.1 b.1) :
    ∃ f', exec (bulkBuild entries) f = (.ok (), f') ∧ Holds f' entries ∧ SameKeys f f' := by
  obtain ⟨f', h, t, hexec, hsame, hfile, -, ht, rfl, hseps⟩ :=
    exec_bulkBuild_tree hf.toFileOk hne
  refine ⟨f', hexec, hfile.holds ht ?_, hsame⟩
  rw [hsame.cols]
  exact fun hgood => ⟨hseps, hsorted hgood, hgood.2⟩

end NyxDb.BTreeIndex
