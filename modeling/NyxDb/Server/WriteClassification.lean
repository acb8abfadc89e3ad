import NyxDb.Server.Connection
import NyxDb.Server.ReplicaCoordinator
import NyxDb.Sql.Parser

/-!
# Which statements count as writes

A follower does not execute a write, and the replica coordinator sends it to the leader.  Both look
at the first letters of the text, not at what the lexer and the parser make of it.  The coordinator
takes every statement that changes something for a write.  The session of a follower does so only
when no comment stands before the statement and the statement is neither a `VACUUM` nor an `ALTER`.
-/

namespace NyxDb.Server

open Sql List ReplicaCoordinator Session

/-- The keyword a statement starts with. -/
def keyword : Sql.Statement → Bytes
  | .select _ => ascii "select"
  | .createTable _ | .createIndex _ => ascii "create"
  | .insert _ => ascii "insert"
  | .dropTable _ | .dropIndex _ => ascii "drop"
  | .delete _ => ascii "delete"
  | .update _ => ascii "update"
  | .showIndexes _ | .showConstraints _ => ascii "show"
  | .vacuum _ => ascii "vacuum"
  | .alterAddPartition _ => ascii "alter"

/-- The keywords of all statements. -/
def keywords : List Bytes :=
  [ascii "select", ascii "create", ascii "insert", ascii "drop", ascii "delete", ascii "update",
   ascii "show", ascii "vacuum", ascii "alter"]

theorem keyword_mem (stmt : Sql.Statement) : keyword stmt ∈ keywords := by
  cases stmt <;> simp [keyword, keywords]

/-- The statements that change something. -/
def changes : Sql.Statement → Bool
  | .select _ | .showIndexes _ | .showConstraints _ => false
  | _ => true

/-- A comment is the first thing after the white space. -/
def startsWithComment (sql : Bytes) : Bool :=
  let start := (sql.dropWhile isBlank).take 2
  start = ascii "--" || start = ascii "/*"

/-! ## The first word as the parser sees it -/

/-- Everything the parser gives has the property. -/
def Gives {α : Type} (P : α → Prop) (p : Parse α) : Prop :=
  ∀ tokens a rest, p tokens = .ok (a, rest) → P a

variable {α : Type} {c : UInt8} {rest sql : Bytes} {stmt : Sql.Statement}
  {stmts : List Sql.Statement}

theorem gives_map {β : Type} {P : β → Prop} {p : Parse α} {f : α → β} (h : ∀ a, P (f a)) :
    Gives P (f <$> p) := by
  intro tokens b rest hb
  obtain ⟨a, _, -, heq⟩ := bind_eq_ok (q := fun a => pure (f a)) hb
  cases heq
  exact h a

theorem gives_errAt {P : α → Prop} (message : Bytes) (token : Token) :
    Gives P (errAt message token) :=
  nofun

theorem gives_ite {P : α → Prop} {c : Prop} [Decidable c] {p q : Parse α} (hp : Gives P p)
    (hq : Gives P q) : Gives P (if c then p else q) := by
  split
  · exact hp
  · exact hq

/-- The kind of the first token says which statement it is. -/
theorem gives_parseStarting (tok second : Token) :
    Gives (fun stmt => (keyword stmt, tok.kind) ∈ keywordTable) (parseStarting tok second) := by
  have hmem {w : Bytes} {k : TokenKind} (h : tok.kind = k) (hw : (w, k) ∈ keywordTable) :
      (w, tok.kind) ∈ keywordTable := h ▸ hw
  unfold parseStarting
  split
  case h_1 h => exact gives_map fun _ => hmem (w := ascii "select") h (by decide)
  case h_2 h =>
    have hcreate := hmem (w := ascii "create") h (by decide)
    exact gives_ite (gives_map fun _ => hcreate)
      (gives_ite (gives_map fun _ => hcreate) (gives_errAt _ _))
  case h_3 h => exact gives_map fun _ => hmem (w := ascii "insert") h (by decide)
  case h_4 h =>
    have hdrop := hmem (w := ascii "drop") h (by decide)
    exact gives_ite (gives_map fun _ => hdrop)
      (gives_ite (gives_map fun _ => hdrop) (gives_errAt _ _))
  case h_5 h =>
    have hshow := hmem (w := ascii "show") h (by decide)
    exact gives_ite (gives_map fun _ => hshow) (gives_map fun _ => hshow)
  case h_6 h => exact gives_map fun _ => hmem (w := ascii "delete") h (by decide)
  case h_7 h => exact gives_map fun _ => hmem (w := ascii "update") h (by decide)
  case h_8 h => exact gives_map fun _ => hmem (w := ascii "vacuum") h (by decide)
  case h_9 h => exact gives_map fun _ => hmem (w := ascii "alter") h (by decide)
  · exact gives_errAt _ _

/-- A token with the kind of a keyword is a word with the spelling of that keyword. -/
theorem word_of_nextToken {start : Nat} {rest' : Bytes} {token : Token} {word : Bytes}
    (h : nextToken start c rest = .ok (token, rest')) (hword : (word, token.kind) ∈ keywordTable) :
    ((c :: rest).takeWhile isWord).map toLower = word := by
  -- No keyword has the kind of a literal, an identifier or a symbol.
  have hkinds : ∀ p ∈ keywordTable, p.2 ∉ [TokenKind.intLiteral, .doubleLiteral, .stringLiteral,
      .identifier] ∧ p.2 ∉ twoTable.map Prod.snd ∧ p.2 ∉ oneTable.map Prod.snd := by decide
  have hdistinct : ∀ p ∈ keywordTable, ∀ q ∈ keywordTable, p.2 = q.2 → p.1 = q.1 := by
    decide +kernel
  obtain ⟨hliteral, htwo, hone⟩ := hkinds _ hword
  simp only [mem_cons, not_or] at hliteral
  unfold nextToken at h
  split at h
  · simp only [lexIdentOrKeyword, Except.ok.injEq] at h
    split at h
    case h_1 kind hlookup =>
      cases h
      exact hdistinct _ (mem_of_lookup hlookup) _ hword rfl
    · cases h
      exact absurd rfl hliteral.2.2.2.1
  split at h
  · unfold lexNumber at h
    dsimp only at h
    split at h
    · cases h
    · cases h
      split at hliteral
      · exact absurd rfl hliteral.2.1
      · exact absurd rfl hliteral.1
  split at h
  · unfold lexString at h
    split at h
    · cases h
    · cases h
      exact absurd rfl hliteral.2.2.1
  · unfold lexSymbol symbolOf at h
    split at h
    case h_1 kind n hsymbol =>
      cases h
      split at hsymbol
      case h_1 kind' htwo' =>
        cases hsymbol
        obtain ⟨d, -, hd⟩ := Option.bind_eq_some_iff.1 htwo'
        exact absurd (mem_map_of_mem (mem_of_lookup hd)) htwo
      · obtain ⟨kind', hone', heq⟩ := Option.map_eq_some_iff.1 hsymbol
        cases heq
        exact absurd (mem_map_of_mem (mem_of_lookup hone')) hone
    · cases h

/-- What the lexer finds first is the keyword of the first statement. -/
theorem first_word (h : parseSql sql = .ok (stmt :: stmts)) : ∃ c rest, skipTrivia sql = c :: rest ∧
      ((c :: rest).takeWhile isWord).map toLower = keyword stmt := by
  obtain ⟨_, htok, h⟩ := except_bind_eq_ok.mp h
  obtain ⟨_, hone⟩ := parseOneStatement_of_parse h
  have hkind := gives_parseStarting _ _ _ _ _ hone
  rw [tokenize, tokenizeFrom, tokenizeFuel] at htok
  cases htrivia : skipTrivia sql with
  | nil =>
    rw [htrivia] at htok
    cases htok
    -- The end of the text is no keyword.
    have hend : ∀ p ∈ keywordTable, p.2 ≠ .endOfFile := by decide
    exact absurd rfl (hend _ hkind)
  | cons c rest =>
    rw [htrivia] at htok
    obtain ⟨_, hnext, htok⟩ := except_bind_eq_ok.mp htok
    obtain ⟨_, -, htok⟩ := except_bind_eq_ok.mp htok
    cases htok
    exact ⟨c, rest, rfl, word_of_nextToken hnext hkind⟩

/-! ## The first letters as the scanners see them -/

/-- Without a comment only white space is skipped. -/
theorem skipTrivia_of_no_comment (h : startsWithComment sql = false) :
    skipTrivia sql = sql.dropWhile isBlank := by
  induction sql with
  | nil => rfl
  | cons c rest ih =>
    by_cases hblank : isBlank c = true
    · rw [skipTrivia_cons, if_pos hblank, dropWhile_cons_of_pos hblank]
      apply ih
      simpa [startsWithComment, dropWhile_cons_of_pos hblank] using h
    · rw [dropWhile_cons_of_neg hblank, skipTrivia_cons, if_neg hblank]
      simp only [startsWithComment, dropWhile_cons_of_neg hblank, Bool.or_eq_false_iff,
        decide_eq_false_iff_not] at h
      rw [if_neg, if_neg]
      · rintro ⟨rfl, hnext⟩
        obtain ⟨_, rfl⟩ := head?_eq_some_iff.mp hnext
        exact h.2 rfl
      · rintro ⟨rfl, hnext⟩
        obtain ⟨_, rfl⟩ := head?_eq_some_iff.mp hnext
        exact h.1 rfl

/-- A comment starts with a dash or a slash. -/
theorem head_of_comment (h : startsWithComment sql = true) :
    ∃ c rest, sql.dropWhile isBlank = c :: rest ∧ (c = 45 ∨ c = 47) := by
  unfold startsWithComment at h
  cases hdrop : sql.dropWhile isBlank with
  | nil =>
    rw [hdrop] at h
    exact absurd h (by decide)
  | cons c rest =>
    rw [hdrop] at h
    refine ⟨c, rest, rfl, ?_⟩
    simp only [Bool.or_eq_true, decide_eq_true_eq] at h
    rcases h with h | h
    · exact .inl (cons.inj h).1
    · exact .inr (cons.inj h).1

/-- The scanners skip the same white space as the lexer when no other follows. -/
theorem dropWhile_isSpace (h : sql.dropWhile isBlank = c :: rest) (hc : isSpace c = false) :
    sql.dropWhile isSpace = c :: rest := by
  induction sql with
  | nil => cases h
  | cons d sql ih =>
    by_cases hblank : isBlank d = true
    · rw [dropWhile_cons_of_pos hblank] at h
      have hspace : isSpace d = true := by
        simp only [isBlank, Bool.or_eq_true, decide_eq_true_eq] at hblank
        rcases hblank with ((rfl | rfl) | rfl) | rfl <;> decide
      rw [dropWhile_cons_of_pos hspace]
      exact ih h
    · rw [dropWhile_cons_of_neg hblank] at h
      cases h
      rw [dropWhile_cons_of_neg (by simp [hc])]

/-- The letters of a word of letters are the word. -/
theorem takeWhile_isAlpha {text word : Bytes} (h : (text.takeWhile isWord).map toLower = word)
    (hword : ∀ c ∈ word, isAlpha c = true) :
    (text.takeWhile isAlpha).map toUpper = word.map toUpper := by
  have hletters : ∀ c ∈ text.takeWhile isWord, isAlpha c = true := by
    intro c hc
    rw [← isAlpha_toLower]
    exact hword _ (h ▸ mem_map_of_mem hc)
  have hsame : text.takeWhile isAlpha = text.takeWhile isWord := by
    have hsplit : text.takeWhile isWord ++ text.dropWhile isWord = text :=
      takeWhile_append_dropWhile
    conv_lhs => rw [← hsplit]
    refine takeWhile_append_stop hletters fun c hc => ?_
    have hnot := head_dropWhile text c hc
    simp only [isWord, isAlnum, Bool.or_eq_false_iff] at hnot
    exact hnot.1.1
  rw [hsame, ← h, map_map]
  exact map_congr_left fun c _ => (toUpper_toLower c).symm

theorem isAlpha_keyword : ∀ w ∈ keywords, w ≠ [] ∧ ∀ c ∈ w, isAlpha c = true := by
  decide +kernel

/-- What both scanners skip, and the word they find, when no comment stands first. -/
theorem scan_of_no_comment (h : parseSql sql = .ok (stmt :: stmts))
    (hcomment : startsWithComment sql = false) :
    (((sql.dropWhile isSpace).takeWhile isAlpha).map toUpper) = (keyword stmt).map toUpper := by
  obtain ⟨c, _, htrivia, hword⟩ := first_word h
  rw [skipTrivia_of_no_comment hcomment] at htrivia
  obtain ⟨hne, hletters⟩ := isAlpha_keyword _ (keyword_mem stmt)
  have hupper := takeWhile_isAlpha hword hletters
  have hc : isAlpha c = true := by
    by_contra hc
    rw [takeWhile_cons_of_neg hc] at hupper
    exact hne (map_eq_nil_iff.1 hupper.symm)
  rw [dropWhile_isSpace htrivia (isSpace_of_isAlpha hc)]
  exact hupper

/-- The replica coordinator takes a text for a write unless its letters start with an `S`. -/
theorem isWrite_of_head (h : sql.dropWhile isSpace = c :: rest) (hc : toUpper c ≠ 83) :
    isWrite sql = true := by
  unfold isWrite
  rw [h]
  dsimp only
  split
  · rfl
  · rw [decide_eq_true_iff]
    intro heq
    exact hc (cons.inj heq).1

theorem head_keyword (h : changes stmt = true) :
    ∃ c w, (keyword stmt).map toUpper = c :: w ∧ c ≠ 83 := by
  cases stmt <;> first | exact ⟨_, _, rfl, by decide⟩ | cases h

section

variable (h : parseSql sql = .ok (stmt :: stmts))
include h

/-- The replica coordinator sends every statement that changes something to the leader. -/
theorem isWrite_of_changes (hchanges : changes stmt = true) : isWrite sql = true := by
  cases hcomment : startsWithComment sql with
  | true =>
    obtain ⟨c, rest, hdrop, rfl | rfl⟩ := head_of_comment hcomment
    · exact isWrite_of_head (dropWhile_isSpace hdrop (by decide)) (by decide)
    · exact isWrite_of_head (dropWhile_isSpace hdrop (by decide)) (by decide)
  | false =>
    have hscan := scan_of_no_comment h hcomment
    obtain ⟨u, w, hupper, hu⟩ := head_keyword hchanges
    rw [hupper] at hscan
    cases hdrop : sql.dropWhile isSpace with
    | nil =>
      rw [hdrop] at hscan
      cases hscan
    | cons c rest =>
      rw [hdrop] at hscan
      refine isWrite_of_head hdrop fun hc => hu ?_
      rw [takeWhile_cons] at hscan
      split at hscan
      · exact (cons.inj hscan).1 ▸ hc
      · cases hscan

/-- A session of a follower takes the statements it looks for as writes, when no comment stands
before them. -/
theorem isWriteSql_iff : isWriteSql sql = true ↔ startsWithComment sql = false ∧ keyword stmt ∈
        [ascii "insert", ascii "update", ascii "delete", ascii "create", ascii "drop"] := by
  cases hcomment : startsWithComment sql with
  | true =>
    obtain ⟨c, _, hdrop, hc⟩ := head_of_comment hcomment
    have hspace : isSpace c = false := by rcases hc with rfl | rfl <;> decide
    have halpha : ¬ isAlpha c = true := by rcases hc with rfl | rfl <;> decide
    have hfalse : isWriteSql sql = false := by
      unfold isWriteSql
      rw [dropWhile_isSpace hdrop hspace, takeWhile_cons_of_neg halpha]
      decide
    simp [hfalse]
  | false =>
    have hwords : ∀ w ∈ keywords, (w.map toUpper = ascii "INSERT" ∨ w.map toUpper = ascii "UPDATE" ∨
          w.map toUpper = ascii "DELETE" ∨ w.map toUpper = ascii "CREATE" ∨
          w.map toUpper = ascii "DROP") ↔
        w ∈ [ascii "insert", ascii "update", ascii "delete", ascii "create", ascii "drop"] := by
      decide
    have hword := hwords _ (keyword_mem stmt)
    unfold isWriteSql
    rw [scan_of_no_comment h hcomment]
    simp only [Bool.or_eq_true, decide_eq_true_eq, or_assoc, true_and]
    exact hword

end

/-! ## Both scanners -/

/-- A statement that changes something is taken for a write on both ways exactly when no comment
stands before it and it is neither a `VACUUM` nor an `ALTER`. -/
theorem write_classified_iff {sql : Bytes} {stmt : Sql.Statement} {stmts : List Sql.Statement}
    (h : parseSql sql = .ok (stmt :: stmts)) (hchanges : changes stmt = true) :
    (isWriteSql sql = true ∧ isWrite sql = true) ↔
      startsWithComment sql = false ∧ keyword stmt ≠ ascii "vacuum" ∧
        keyword stmt ≠ ascii "alter" := by
  have hwords : keyword stmt ∈
      [ascii "insert", ascii "update", ascii "delete", ascii "create", ascii "drop"] ↔
        keyword stmt ≠ ascii "vacuum" ∧ keyword stmt ≠ ascii "alter" := by
    have hall : ∀ w ∈ keywords, w ≠ ascii "select" → w ≠ ascii "show" →
        (w ∈ [ascii "insert", ascii "update", ascii "delete", ascii "create", ascii "drop"] ↔
          w ≠ ascii "vacuum" ∧ w ≠ ascii "alter") := by decide
    refine hall _ (keyword_mem stmt) ?_ ?_ <;>
      cases stmt <;> first | (simp only [keyword]; decide) | cases hchanges
  rw [isWriteSql_iff h, isWrite_of_changes h hchanges, hwords]
  simp

/-- A text whose first statement changes something. -/
theorem exists_of_changes {more : List Bool}
    (h : (parseSql sql).toOption.map (map changes) = some (true :: more)) :
    ∃ stmt stmts, parseSql sql = .ok (stmt :: stmts) ∧ changes stmt = true := by
  cases hsql : parseSql sql with
  | error e =>
    rw [hsql] at h
    cases h
  | ok read =>
    rw [hsql] at h
    cases read with
    | nil => cases h
    | cons stmt stmts =>
      simp only [Except.toOption, Option.map_some, map_cons, Option.some.injEq,
        cons.injEq] at h
      exact ⟨stmt, stmts, rfl, h.1⟩

/-- An `INSERT` with a comment in a string. -/
theorem write_classified_insert :
    isWriteSql (ascii " insert INTO t VALUES (1, '--'), (2, NULL)") = true ∧
      isWrite (ascii " insert INTO t VALUES (1, '--'), (2, NULL)") = true := by
  obtain ⟨stmt, stmts, hparse, hchanges⟩ := exists_of_changes (by decide +kernel :
    (parseSql (ascii " insert INTO t VALUES (1, '--'), (2, NULL)")).toOption.map (map changes) =
      some [true])
  have hkeyword : (parseSql (ascii " insert INTO t VALUES (1, '--'), (2, NULL)")).toOption.map
      (map keyword) = some [ascii "insert"] := by
    decide +kernel
  rw [hparse] at hkeyword
  obtain ⟨hword, -⟩ := cons.inj (Option.some.inj hkeyword)
  refine (write_classified_iff hparse hchanges).mpr ⟨by decide +kernel, ?_⟩
  rw [hword]
  decide

/-- A follower executes a `VACUUM`, and an `INSERT` after a comment, on its own data. -/
theorem not_classified :
    ((parseSql (ascii "VACUUM t")).toOption.map (map changes) = some [true] ∧
      isWriteSql (ascii "VACUUM t") = false) ∧
    ((parseSql (ascii "-- x\nINSERT INTO t VALUES (1)")).toOption.map (map changes) =
        some [true] ∧
      isWriteSql (ascii "-- x\nINSERT INTO t VALUES (1)") = false) := by
  decide +kernel

end NyxDb.Server
