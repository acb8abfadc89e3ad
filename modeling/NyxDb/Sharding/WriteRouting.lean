import NyxDb.Sharding.Coordinator
import NyxDb.Sql.Bound

/-!
# Where a DELETE or an UPDATE goes

The two routines go through the maps of all tables and send the statement to every node once, until
one fails.  The nodes they visit are the first occurrences in the list of all partitions; those they
reach are the visited ones up to the first whose call fails.
-/

namespace NyxDb

open Sql Server List

namespace ShardCoordinator

/-! ## The nodes on the way -/

/-- The addresses that have not been visited, each where it is met first. -/
def fresh (visited : List Bytes) : List Bytes → List Bytes
  | [] => []
  | a :: as => if a ∈ visited then fresh visited as else a :: fresh (visited ++ [a]) as

variable {a : Bytes}

theorem mem_fresh {visited addrs : List Bytes} :
    a ∈ fresh visited addrs ↔ a ∈ addrs ∧ a ∉ visited := by
  induction addrs generalizing visited with
  | nil => simp [fresh]
  | cons b addrs ih =>
    rw [fresh]
    by_cases hb : b ∈ visited
    · rw [if_pos hb, ih, mem_cons]
      constructor
      · rintro ⟨ha, hnot⟩
        exact ⟨.inr ha, hnot⟩
      · rintro ⟨rfl | ha, hnot⟩
        · exact absurd hb hnot
        · exact ⟨ha, hnot⟩
    · rw [if_neg hb, mem_cons, ih]
      by_cases hab : a = b
      · subst hab
        simp [hb]
      · simp [hab]

/-- Those up to the first for which the test fails, with that one. -/
def reached (ok : Bytes → Bool) : List Bytes → List Bytes
  | [] => []
  | a :: as => if ok a then a :: reached ok as else [a]

variable {l : List Bytes} {ok : Bytes → Bool}

theorem reached_eq_self (h : l.all ok = true) : reached ok l = l := by
  induction l with
  | nil => rfl
  | cons a l ih =>
    rw [all_cons, Bool.and_eq_true] at h
    rw [reached, if_pos h.1, ih h.2]

theorem reached_of_not (h : ok a = false) : reached ok (a :: l) = [a] := by
  rw [reached, if_neg (by simp [h])]

theorem reached_congr {ok' : Bytes → Bool} (h : ∀ a ∈ l, ok a = ok' a) :
    reached ok l = reached ok' l := by
  induction l with
  | nil => rfl
  | cons a l ih =>
    rw [reached, reached, h a mem_cons_self, ih fun b hb => h b (mem_cons_of_mem _ hb)]

theorem mem_of_mem_reached (h : a ∈ reached ok l) : a ∈ l := by
  induction l with
  | nil => exact h
  | cons b l ih =>
    rw [reached] at h
    split at h
    · rcases mem_cons.1 h with rfl | h
      · exact mem_cons_self
      · exact mem_cons_of_mem _ (ih h)
    · rw [mem_singleton] at h
      exact h ▸ mem_cons_self

/-! ## The loops -/

variable {N : Type} (answer : Answer N) {c : Cluster N} {sql table : Bytes} {b : BoundStatement}

/-- The next call to the node succeeds. -/
def callOk (sql : Bytes) (c : Cluster N) (addr : Bytes) : Bool :=
  ((c.peers addr).execute answer addr sql).1.toBool

/-- The nodes after the statement has been sent to some of them. -/
def callAll (sql : Bytes) (addrs : List Bytes) (c : Cluster N) : Cluster N :=
  { c with
    peers := fun a =>
      if a ∈ addrs then ((c.peers a).execute answer a sql).2 else c.peers a }

theorem exec_sendIn (context : Bytes → Bytes) (addr sql : Bytes) (c : Cluster N) :
    exec (sendIn answer context addr sql) c = (((c.peers addr).execute answer addr sql).1.mapError
          (fun msg => context addr ++ ascii ": " ++ msg),
        callAll answer sql [addr] c) := by
  refine Prod.ext rfl ?_
  show Cluster.mk _ _ = Cluster.mk _ _
  congr 1
  ext1 a
  simp only [Function.update_apply, mem_singleton]
  split
  · subst_vars
    rfl
  · rfl

/-- What the loop has done when it ends, if it was to visit the addresses of `l`. -/
structure Visited (sql : Bytes) (visited l : List Bytes) (c : Cluster N)
    (res : Except Bytes (List Bytes × Nat)) (c' : Cluster N) : Prop where
  cluster : c' = callAll answer sql (reached (callOk answer sql c) l) c
  ok_iff : res.toBool = true ↔ l.all (callOk answer sql c) = true
  noted : ∀ acc, res = .ok acc → acc.1 = visited ++ l

theorem Visited.cons {visited : List Bytes} {c' : Cluster N}
    {res : Except Bytes (List Bytes × Nat)} (hok : callOk answer sql c a = true) (ha : a ∉ l)
    (h : Visited answer sql (visited ++ [a]) l (callAll answer sql [a] c) res c') :
    Visited answer sql visited (a :: l) c res c' := by
  -- The other nodes have not been touched.
  have hsame : ∀ b ∈ l, (callAll answer sql [a] c).peers b = c.peers b := by
    intro b hb
    have hne : b ≠ a := fun heq => ha (heq ▸ hb)
    simp [callAll, hne]
  have hcalls : ∀ b ∈ l, callOk answer sql (callAll answer sql [a] c) b =
      callOk answer sql c b := by
    intro b hb
    rw [callOk, callOk, hsame b hb]
  have hreached := reached_congr hcalls
  constructor
  · rw [h.cluster, hreached, reached, if_pos hok]
    show Cluster.mk _ _ = Cluster.mk _ _
    congr 1
    ext1 b
    by_cases hb : b ∈ reached (callOk answer sql c) l
    · rw [if_pos hb, if_pos (mem_cons_of_mem _ hb), hsame b (mem_of_mem_reached hb)]
    · simp [callAll, hb]
  · rw [h.ok_iff, all_cons, hok, Bool.true_and, all_eq_true, all_eq_true]
    exact forall₂_congr fun b hb => by rw [hcalls b hb]
  · intro acc hacc
    rw [h.noted acc hacc]
    simp

section

variable (verb sql : Bytes)

theorem exec_visitPartitions (ps : List PartitionDef) (acc : List Bytes × Nat) (c : Cluster N) :
    Visited answer sql acc.1 (fresh acc.1 (ps.map PartitionDef.nodeAddr)) c
      (exec (visitPartitions answer verb sql ps acc) c).1
      (exec (visitPartitions answer verb sql ps acc) c).2 := by
  induction ps generalizing acc c with
  | nil =>
    constructor
    · show c = callAll answer sql [] c
      simp [callAll]
    · simp [visitPartitions, fresh, Except.toBool]
    · intro acc' hacc
      cases hacc
      simp [fresh]
  | cons p ps ih =>
    rw [visitPartitions, map_cons, fresh, visit]
    by_cases hmem : p.nodeAddr ∈ acc.1
    · rw [if_pos hmem, if_pos hmem]
      exact ih acc c
    · rw [if_neg hmem, if_neg hmem, exec_bind, exec_bind, exec_sendIn]
      cases hcall : ((c.peers p.nodeAddr).execute answer p.nodeAddr sql).1 with
      | error msg =>
        have hok : callOk answer sql c p.nodeAddr = false := by
          rw [callOk, hcall]
          rfl
        constructor
        · rw [reached_of_not hok]
          rfl
        · simp [hok, Except.mapError, Except.toBool]
        · intro acc' hacc
          cases hacc
      | ok r =>
        have hok : callOk answer sql c p.nodeAddr = true := by
          rw [callOk, hcall]
          rfl
        have hnew : p.nodeAddr ∉ fresh (acc.1 ++ [p.nodeAddr]) (ps.map PartitionDef.nodeAddr) := by
          simp [mem_fresh]
        exact .cons answer hok hnew (ih (acc.1 ++ [p.nodeAddr], _) _)

/-! ## From tables to partitions -/

def partitionsOf (cat : FullCatalog) (table : Bytes) : List PartitionDef :=
  ((cat.shardMapOf table).map ShardMap.partitions).getD []

theorem exec_visitPartitions_append (ps qs : List PartitionDef)
    (acc : List Bytes × Nat) (c : Cluster N) :
    exec (visitPartitions answer verb sql (ps ++ qs) acc) c =
      exec (visitPartitions answer verb sql ps acc >>= visitPartitions answer verb sql qs) c := by
  induction ps generalizing acc c with
  | nil => rfl
  | cons p ps ih =>
    rw [cons_append, visitPartitions, visitPartitions, exec_bind, exec_bind, exec_bind]
    rcases exec (visit answer verb sql p.nodeAddr acc) c with ⟨res, c₁⟩
    cases res with
    | error msg => rfl
    | ok acc₁ => exact (ih acc₁ c₁).trans (exec_bind _ _ _)

/-- The loop over the tables is the loop over the partitions of all of them. -/
theorem exec_visitTables (names : List Bytes) (acc : List Bytes × Nat) (c : Cluster N) :
    exec (visitTables answer verb sql names acc) c =
      exec (visitPartitions answer verb sql (names.flatMap (partitionsOf c.catalog)) acc) c := by
  induction names generalizing acc c with
  | nil => rfl
  | cons name names ih =>
    rw [visitTables, exec_get_bind, flatMap_cons,
      exec_visitPartitions_append, partitionsOf]
    cases hmap : c.catalog.shardMapOf name with
    | none => exact ih acc c
    | some m =>
      rw [Option.map_some, Option.getD_some, exec_bind, exec_bind]
      have hcatalog := congrArg Cluster.catalog
        (exec_visitPartitions answer verb sql m.partitions acc c).cluster
      rcases hrun : exec (visitPartitions answer verb sql m.partitions acc) c with ⟨res, c₁⟩
      rw [hrun] at hcatalog
      cases res with
      | error msg => rfl
      | ok acc₁ =>
        have hkept : c₁.catalog = c.catalog := hcatalog
        rw [← hkept]
        exact ih acc₁ c₁

end

/-! ## Exactly the nodes of the table -/

/-- The table that a `DELETE` or an `UPDATE` changes. -/
def changedTable : BoundStatement → Option Bytes
  | .delete stmt => some stmt.tableName
  | .update stmt => some stmt.tableName
  | _ => none

def nodesOf (cat : FullCatalog) (table : Bytes) : List Bytes :=
  (partitionsOf cat table).map PartitionDef.nodeAddr

/-- The nodes of all tables, in the order in which they are met. -/
def allNodes (cat : FullCatalog) : List Bytes :=
  (cat.tableNames.flatMap (partitionsOf cat)).map PartitionDef.nodeAddr

/-- The statement has been sent once to every node of the table and to no other one, and if it has
failed, no node has executed it. -/
def RoutedExactly (sql table : Bytes) (c : Cluster N) : Prop :=
  (∀ a, ((exec (execute answer sql) c).2.peers a).sent =
      (c.peers a).sent ++ if a ∈ nodesOf c.catalog table then [sql] else []) ∧
    ((exec (execute answer sql) c).1.toBool = false →
      ∀ a, ((exec (execute answer sql) c).2.peers a).applied = (c.peers a).applied)

/-- The nodes of all tables are nodes of this one, and each answers at the first sending. -/
def AllAnswer (sql table : Bytes) (c : Cluster N) : Prop :=
  ∀ a ∈ allNodes c.catalog, a ∈ nodesOf c.catalog table ∧ (c.peers a).Answers answer sql

/-- The node that is met first is the only one of the table, and it fails without effect. -/
def OnlyOneFails (sql table : Bytes) (c : Cluster N) : Prop :=
  ∃ a, (allNodes c.catalog).head? = some a ∧ (∀ b, b ∈ nodesOf c.catalog table ↔ b = a) ∧
    (c.peers a).FailsUnapplied answer sql

/-- A `DELETE` or an `UPDATE` is bound only for a table that is there. -/
theorem schemaOf_changedTable {cat : CatalogView} {stmt : Sql.Statement}
    (hbind : bindStatement cat stmt = .ok b) (htable : changedTable b = some table) :
    (cat.schemaOf table).isSome = true := by
  have hkind : stmt.kind = .delete ∨ stmt.kind = .update := by
    rw [kind_of_bindStatement hbind]
    cases b with
    | delete d => exact .inl rfl
    | update u => exact .inr rfl
    | _ => cases htable
  cases stmt with
  | delete s =>
    obtain ⟨d, hd, rfl⟩ := except_map_eq_ok.1 hbind
    rw [bindDelete] at hd
    split at hd
    · cases hd
    · next schema hschema =>
      obtain ⟨w, -, hpure⟩ := except_bind_eq_ok.1 hd
      cases hpure
      cases htable
      simp [hschema]
  | update s =>
    obtain ⟨u, hu, rfl⟩ := except_map_eq_ok.1 hbind
    rw [bindUpdate] at hu
    split at hu
    · cases hu
    · next schema hschema =>
      obtain ⟨_, -, hrest⟩ := except_bind_eq_ok.1 hu
      obtain ⟨w, -, hpure⟩ := except_bind_eq_ok.1 hrest
      cases hpure
      cases htable
      simp [hschema]
  | _ => rcases hkind with hkind | hkind <;> cases hkind

/-- The table of the statement is one of those the loop goes through. -/
theorem nodesOf_subset {cat : FullCatalog} (hschema : (cat.view.schemaOf table).isSome = true)
    (ha : a ∈ nodesOf cat table) : a ∈ allNodes cat := by
  have hschema : ((cat.base.find (canonicalize table)).map fun e => e.table.schema).isSome = true :=
    hschema
  rw [Option.isSome_map] at hschema
  obtain ⟨e, hfind⟩ := Option.isSome_iff_exists.1 hschema
  have hmem : canonicalize table ∈ cat.tableNames := by
    have hname := find?_some hfind
    rw [← beq_iff_eq.1 hname]
    exact mem_map_of_mem (mem_of_find?_eq_some hfind)
  have hsame : partitionsOf cat (canonicalize table) = partitionsOf cat table := by
    unfold partitionsOf FullCatalog.shardMapOf
    rw [canonicalize_idem]
  obtain ⟨p, hp, rfl⟩ := mem_map.1 ha
  apply mem_map_of_mem
  rw [mem_flatMap]
  exact ⟨canonicalize table, hmem, hsame ▸ hp⟩

/-- What `execute` makes of a `DELETE` or an `UPDATE`. -/
theorem exec_execute_changes
    (hbind : bindSql c.catalog.view sql = .ok (some b)) (htable : changedTable b = some table) :
    ∃ verb, exec (execute answer sql) c =
      if (c.catalog.shardMapOf table).isSome then exec (routeWrite answer verb sql) c
      else (.error (ascii "coordinator: no shard map for table " ++ table), c) := by
  have hrun : exec (execute answer sql) c = exec (runStatement answer sql b) c := by
    rw [execute, exec_get_bind, hbind]
  have hwith (run : Run N ExecuteResult) : exec (withShardMap table run) c =
      if (c.catalog.shardMapOf table).isSome then exec run c
      else (.error (ascii "coordinator: no shard map for table " ++ table), c) := by
    rw [withShardMap, exec_get_bind]
    split <;> rfl
  cases b with
  | delete d =>
    cases htable
    exact ⟨ascii "DELETE", hrun.trans (hwith _)⟩
  | update u =>
    cases htable
    exact ⟨ascii "UPDATE", hrun.trans (hwith _)⟩
  | _ => cases htable

/-- What the two routines have done when they end. -/
theorem exec_routeWrite (verb sql : Bytes) (c : Cluster N) :
    ∃ acc : Except Bytes (List Bytes × Nat),
      Visited answer sql [] (fresh [] (allNodes c.catalog)) c acc
        (exec (routeWrite answer verb sql) c).2 ∧
      (exec (routeWrite answer verb sql) c).1.toBool = acc.toBool := by
  have hvisited := exec_visitPartitions answer verb sql
    (c.catalog.tableNames.flatMap (partitionsOf c.catalog)) ([], 0) c
  rw [← exec_visitTables] at hvisited
  refine ⟨(exec (visitTables answer verb sql c.catalog.tableNames ([], 0)) c).1, ?_, ?_⟩
  · rw [routeWrite, exec_get_bind, exec_bind_pure_snd]
    exact hvisited
  · rw [routeWrite, exec_get_bind, exec_bind]
    rcases exec (visitTables answer verb sql c.catalog.tableNames ([], 0)) c with ⟨res, -⟩
    cases res <;> rfl

/-- How often the statement has been sent to each node. -/
theorem sent_callAll_iff {nodes : List Bytes} : (∀ a, ((callAll answer sql l c).peers a).sent =
        (c.peers a).sent ++ if a ∈ nodes then [sql] else []) ↔
      ∀ a, (if a ∈ l then (c.peers a).sendings answer a sql else 0) =
        if a ∈ nodes then 1 else 0 := by
  refine forall_congr' fun a => ?_
  have hsent : ((callAll answer sql l c).peers a).sent = (c.peers a).sent ++
      replicate (if a ∈ l then (c.peers a).sendings answer a sql else 0) sql := by
    unfold callAll
    by_cases ha : a ∈ l
    · simp only [if_pos ha]
      rfl
    · simp [ha]
  rw [hsent, append_cancel_left_eq]
  by_cases hnode : a ∈ nodes
  · rw [if_pos hnode, if_pos hnode, ← replicate_one, replicate_inj]
    simp
  · rw [if_neg hnode, if_neg hnode, replicate_eq_nil_iff]

theorem peers_callAll_reached (ha : a ∈ l) :
    (callAll answer sql l c).peers a = ((c.peers a).execute answer a sql).2 :=
  if_pos ha

/-- The walk through a list of nodes serves the nodes of a table exactly: all answer, or the first
is the only one and fails. -/
theorem walk_exact_iff {nodes : List Bytes} (hsub : ∀ a ∈ nodes, a ∈ l) (hne : nodes ≠ []) :
    ((∀ a, (if a ∈ reached (callOk answer sql c) l then (c.peers a).sendings answer a sql else 0) =
          if a ∈ nodes then 1 else 0) ∧ (¬ l.all (callOk answer sql c) = true → ∀ a,
          ((callAll answer sql (reached (callOk answer sql c) l) c).peers a).applied =
            (c.peers a).applied)) ↔ (∀ a ∈ l, a ∈ nodes ∧ (c.peers a).Answers answer sql) ∨
        ∃ a, l.head? = some a ∧ (∀ b, b ∈ nodes ↔ b = a) ∧
          (c.peers a).FailsUnapplied answer sql := by
  constructor
  · rintro ⟨hsent, hunapplied⟩
    by_cases hall : l.all (callOk answer sql c) = true
    · -- Every call succeeded, so each was a sending to a node of the table.
      rw [reached_eq_self hall] at hsent
      refine .inl fun a ha => ?_
      have hok := all_eq_true.1 hall a ha
      have hcount := hsent a
      rw [if_pos ha] at hcount
      have hpos := Peer.sendings_of_ok answer hok
      by_cases hnode : a ∈ nodes
      · rw [if_pos hnode] at hcount
        exact ⟨hnode, (Peer.answers_of_ok answer hok hcount).1⟩
      · rw [if_neg hnode] at hcount
        exact absurd hcount hpos
    · specialize hunapplied hall
      cases l with
      | nil => exact absurd rfl hall
      | cons a l =>
        have hcount := hsent a
        cases hok : callOk answer sql c a with
        | true =>
          -- The first node has executed the statement although a later call failed.
          have hmem : a ∈ reached (callOk answer sql c) (a :: l) := by
            rw [reached, if_pos hok]
            exact mem_cons_self
          have hpos := Peer.sendings_of_ok answer hok
          have happlied := hunapplied a
          rw [peers_callAll_reached answer hmem] at happlied
          rw [if_pos hmem] at hcount
          have honce : (c.peers a).sendings answer a sql = 1 := by
            split at hcount <;> omega
          exact absurd happlied (Peer.answers_of_ok answer hok honce).2
        | false =>
          rw [reached_of_not hok] at hsent hunapplied
          have honly : ∀ b ∈ nodes, b = a := by
            intro b hb
            by_contra hba
            have hb' := hsent b
            rw [if_neg (by simpa using hba), if_pos hb] at hb'
            omega
          have hnode : a ∈ nodes := by
            obtain ⟨b, hb⟩ := exists_mem_of_ne_nil nodes hne
            exact honly b hb ▸ hb
          refine .inr ⟨a, rfl, fun b => ⟨honly b, fun hb => hb ▸ hnode⟩, ?_⟩
          have hcount := hsent a
          rw [if_pos (mem_singleton_self a), if_pos hnode] at hcount
          have happlied := hunapplied a
          rw [peers_callAll_reached answer (mem_singleton_self a)] at happlied
          exact (Peer.failsUnapplied_iff answer a sql _).2 ⟨hok, hcount, happlied⟩
  · rintro (hanswer | ⟨a, hhead, honly, hfails⟩)
    · have hall : l.all (callOk answer sql c) = true := by
        rw [all_eq_true]
        exact fun a ha => (Peer.ok_of_answers answer a (hanswer a ha).2).1
      refine ⟨fun a => ?_, fun hnot => absurd hall hnot⟩
      rw [reached_eq_self hall]
      by_cases ha : a ∈ l
      · rw [if_pos ha, if_pos (hanswer a ha).1, (Peer.ok_of_answers answer a (hanswer a ha).2).2]
      · rw [if_neg ha, if_neg fun hnode => ha (hsub a hnode)]
    · obtain ⟨hok, hcount, happlied⟩ := (Peer.failsUnapplied_iff answer a sql _).1 hfails
      cases l with
      | nil => cases hhead
      | cons a' l =>
        cases hhead
        rw [reached_of_not hok]
        refine ⟨fun b => ?_, fun _ b => ?_⟩
        · by_cases hba : b = a
          · subst hba
            rw [if_pos (mem_singleton_self b), if_pos ((honly b).2 rfl), hcount]
          · rw [if_neg (by simpa using hba), if_neg fun hb => hba ((honly b).1 hb)]
        · by_cases hba : b = a
          · subst hba
            rw [peers_callAll_reached answer (mem_singleton_self b), happlied]
          · exact congrArg Peer.applied (if_neg (by simpa using hba))

/-- **Where a `DELETE` or an `UPDATE` goes**: exactly to the nodes of its table, and to none if it
fails, if and only if the table has no shard map, or the nodes of all tables are nodes of this one
and all answer at the first sending, or the first node that is met is the only one of the table and
its call fails without effect. -/
theorem write_routing_iff {sql table : Bytes} {b : BoundStatement} {c : Cluster N}
    (hbind : bindSql c.catalog.view sql = .ok (some b)) (htable : changedTable b = some table)
    (hpartitions : ∀ m, c.catalog.shardMapOf table = some m → m.partitions ≠ []) :
    RoutedExactly answer sql table c ↔
      c.catalog.shardMapOf table = none ∨ AllAnswer answer sql table c ∨
        OnlyOneFails answer sql table c := by
  obtain ⟨verb, hexec⟩ := exec_execute_changes answer hbind htable
  unfold RoutedExactly
  rw [hexec]
  cases hmap : c.catalog.shardMapOf table with
  | none =>
    have hnodes : nodesOf c.catalog table = [] := by
      rw [nodesOf, partitionsOf, hmap]
      rfl
    rw [hnodes]
    exact iff_of_true ⟨fun a => by simp, fun _ a => rfl⟩ (.inl rfl)
  | some m =>
    rw [Option.isSome_some, if_pos rfl]
    obtain ⟨_, hvisited, hbool⟩ := exec_routeWrite answer verb sql c
    have hschema : (c.catalog.view.schemaOf table).isSome = true := by
      obtain ⟨stmts, -, hstmts⟩ := except_bind_eq_ok.1 hbind
      cases stmts with
      | nil => cases hstmts
      | cons stmt stmts =>
        obtain ⟨_, hb', hsome⟩ := except_map_eq_ok.1 hstmts
        cases hsome
        exact schemaOf_changedTable hb' htable
    have hne : nodesOf c.catalog table ≠ [] := by
      rw [nodesOf, partitionsOf, hmap]
      simpa using hpartitions m hmap
    have hsub : ∀ a ∈ nodesOf c.catalog table, a ∈ fresh [] (allNodes c.catalog) := by
      intro a ha
      simpa [mem_fresh] using nodesOf_subset hschema ha
    have hhead : (fresh [] (allNodes c.catalog)).head? = (allNodes c.catalog).head? := by
      cases allNodes c.catalog <;> simp [fresh]
    have hfailed : (exec (routeWrite answer verb sql) c).1.toBool = false ↔
        ¬ (fresh [] (allNodes c.catalog)).all (callOk answer sql c) = true := by
      rw [hbool, ← hvisited.ok_iff, Bool.not_eq_true]
    rw [hvisited.cluster, hfailed, sent_callAll_iff, walk_exact_iff answer hsub hne, hhead]
    simp [AllAnswer, OnlyOneFails, mem_fresh]

/-- A node that answers every statement, or none without error. -/
def simpleNode : Answer Bool :=
  fun _ healthy => (if healthy then .ok (affected 1) else .error (ascii "node error"), healthy)

def goodFate : Fate :=
  ⟨.ok (), ⟨true, 2⟩, .ok (), ⟨true, 2⟩⟩

/-- Tables of one column, each with its nodes, the last one for the largest values. -/
def shardedTables (tables : List (Bytes × List PartitionDef)) : FullCatalog :=
  tables.foldl (fun cat x => (exec (FullCatalog.runCreateTable
    ⟨x.1, [⟨ascii "a", .int32, true, 0, none⟩], [], some ⟨ascii "a", 0, x.2⟩⟩) cat).2) .empty

/-- Nodes `n1` and `n2`, of which the given ones are healthy. -/
def simpleCluster (tables : List (Bytes × List PartitionDef)) (healthy : List Bytes) :
    Cluster Bool where
  catalog := shardedTables tables
  peers a := ⟨decide (a ∈ healthy), true, fun _ => goodFate, [], []⟩

/-- `t` on both nodes. -/
def bothNodes : List (Bytes × List PartitionDef) :=
  [(ascii "t", [⟨ascii "p1", false, .int32 5, ascii "n1"⟩, ⟨ascii "p2", true, .null, ascii "n2"⟩])]

/-- `t` on the first node, `u` on the second. -/
def oneEach : List (Bytes × List PartitionDef) :=
  [(ascii "t", [⟨ascii "p1", true, .null, ascii "n1"⟩]),
   (ascii "u", [⟨ascii "p1", true, .null, ascii "n2"⟩])]

def deleteSql : Bytes := ascii "DELETE FROM t"

theorem write_routing_both : RoutedExactly simpleNode deleteSql (ascii "t")
      (simpleCluster bothNodes [ascii "n1", ascii "n2"]) := by
  have hbind : bindSql (simpleCluster bothNodes [ascii "n1", ascii "n2"]).catalog.view deleteSql =
      .ok (some (.delete ⟨ascii "t", [⟨ascii "a", .int32, true, 0, none⟩], none⟩)) := by
    decide +kernel
  apply (write_routing_iff simpleNode hbind rfl ?_).2
  · refine .inr (.inl fun a ha => ⟨?_, .inl rfl, ?_⟩)
    · revert a
      decide +kernel
    · have hhealthy : (simpleCluster bothNodes [ascii "n1", ascii "n2"]).peers a =
          ⟨true, true, fun _ => goodFate, [], []⟩ := by
        have hmem : a ∈ [ascii "n1", ascii "n2"] := by
          revert a
          decide +kernel
        rw [simpleCluster]
        simp [hmem]
      rw [hhealthy]
      exact ⟨affected 1, _, by decide +kernel, by decide +kernel, rfl, by decide +kernel⟩
  · intro m hm
    cases hm
    simp

/-- A `DELETE` for `t` is sent to the node of `u` also; and if the second node of `t` fails, the
first one has executed it. -/
theorem write_routing_strays : ¬ RoutedExactly simpleNode deleteSql (ascii "t")
        (simpleCluster oneEach [ascii "n1", ascii "n2"]) ∧
      ¬ RoutedExactly simpleNode deleteSql (ascii "t") (simpleCluster bothNodes [ascii "n1"]) := by
  constructor
  · rintro ⟨hsent, -⟩
    have hother := hsent (ascii "n2")
    revert hother
    decide +kernel
  · rintro ⟨-, hunapplied⟩
    have happlied := hunapplied (by decide +kernel) (ascii "n1")
    revert happlied
    decide +kernel

end ShardCoordinator
end NyxDb
