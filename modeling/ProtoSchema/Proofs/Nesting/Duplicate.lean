import ProtoSchema.Proofs.Nesting.Failure

/-! # Second package statements

A file names one package at most. Each statement is read with the place of its keyword, and the
places are kept while other statements are read, however many. A second package statement is refused
when all of it has been taken, with the places of both keywords; before that its own errors come
first. -/

namespace ProtoSchema

open Cursor

/-- That a statement is written by some lexemes. The place that a package statement keeps is that of
the first of them. -/
def Statement.WrittenAt (s : Statement) (w : List Lexeme) : Prop :=
  Grammar.statement (ProtoSchema.tokens w) s ∧
    ∀ keyword ∈ s.packageKeyword?, w.head?.map Lexeme.span = some keyword

/-- The lexemes of a file through some of its statements, exactly one of which is a package
statement; the span is that of its keyword. -/
inductive NamesPackage : List Lexeme → Span → Prop
  | intro {head version statements parts keyword}
    (begins : Grammar.syntaxDecl (tokens head) version)
    (written : List.Forall₂ Statement.WrittenAt statements parts)
    (one : statements.filterMap Statement.packageKeyword? = [keyword]) :
    NamesPackage (head ++ parts.flatten) keyword

theorem Grammar.length_keywords (statements : List Statement) :
    (statements.filterMap Statement.packageKeyword?).length = packages statements := by
  induction statements with
  | nil => rfl
  | cons s rest ih =>
    rw [Parser.packages_cons, ← ih]
    cases s <;>
      simp [List.filterMap_cons, Statement.packageKeyword?, Statement.package?, Nat.add_comm]

theorem Statement.many_of_written {statements : List Statement} {parts : List (List Lexeme)}
    (h : List.Forall₂ WrittenAt statements parts) :
    Phrase.many Grammar.statement (ProtoSchema.tokens parts.flatten) statements := by
  induction h with
  | nil => exact .nil
  | cons first _ ih =>
    rw [List.flatten_cons, tokens_append]
    exact .cons first.1 ih

namespace Parser

variable {found statements : List Statement} {parts : List (List Lexeme)} {s : Statement}
  {v : List Lexeme} {r : List (Option Item)} {c d : Cursor} {k : Nat} {first second : Span}

/-! ## Statements that are written are read -/

/-- A statement is read with its place, unless it is a second package statement. -/
theorem statement_of_written (h : s.WrittenAt v) (few : Grammar.packages (s :: found) ≤ 1)
    (hc : c.ahead = answers v ++ r) :
    ∃ d, statement found c = .ok (some s) d ∧ d.taken = v.reverse ++ c.taken ∧ d.ahead = r := by
  obtain ⟨text, place⟩ := h
  cases hs : s.package? with
  | none => exact runs_statement text hs c hc
  | some p =>
    obtain ⟨keyword, rfl⟩ : ∃ keyword, s = .package p keyword := by
      cases s <;> simp_all [Statement.package?]
    have package := package_of_statement text
    cases v with
    | nil => exact ((Phrase.advances_kind _).bind_left _ package).elim
    | cons l v =>
      obtain rfl : l.span = keyword := Option.some.inj (place keyword rfl)
      obtain ⟨d, -, taken, ahead, run⟩ := statement_of_package found package hc
      have unnamed : found.findSome? Statement.packageKeyword? = none := by
        rw [no_keyword_iff]
        rw [packages_cons, hs, Option.toList_some, List.length_singleton] at few
        omega
      rw [unnamed] at run
      exact ⟨d, run, taken, ahead⟩

/-- Behind the statements that have been read the loop goes on with what it has found. -/
theorem statements_of_written (written : List.Forall₂ Statement.WrittenAt statements parts)
    (few : Grammar.packages found + Grammar.packages statements ≤ 1)
    (hc : c.ahead = answers parts.flatten ++ r) (hk : c.size < k) :
    ∃ d m, collectWithin statement k found c =
        collectWithin statement (m + 1) (statements.reverse ++ found) d ∧
      d.taken = parts.flatten.reverse ++ c.taken ∧ d.ahead = r := by
  obtain ⟨k, rfl⟩ : ∃ m, k = m + 1 := Nat.exists_eq_succ_of_ne_zero (by omega)
  induction written generalizing found c k with
  | nil => exact ⟨c, k, rfl, rfl, hc⟩
  | @cons s v statements parts h _ ih =>
    rw [packages_cons] at few
    rw [List.flatten_cons, answers_append, List.append_assoc] at hc
    have here : Grammar.packages (s :: found) ≤ 1 := by
      rw [packages_cons]
      omega
    obtain ⟨c₁, run, taken, ahead⟩ := statement_of_written h here hc
    have nonempty : v ≠ [] := by
      rintro rfl
      exact advances_statement s h.1
    have := List.length_pos_iff.2 nonempty
    have size : c.size = v.length + c₁.size := by
      rw [size_eq_length_ahead, size_eq_length_ahead, hc, ahead, List.length_append, length_answers]
    obtain ⟨k, rfl⟩ : ∃ m, k = m + 1 := Nat.exists_eq_succ_of_ne_zero (by omega)
    have further : Grammar.packages (s :: found) + Grammar.packages statements ≤ 1 := by
      rw [packages_cons]
      omega
    obtain ⟨d, m, rest, taken', ahead'⟩ := ih further ahead k (by omega)
    refine ⟨d, m, ?_, by simp [taken', taken], ahead'⟩
    rw [List.reverse_cons, List.append_assoc, List.singleton_append, ← rest]
    exact bind_of_ok run

theorem packages_of_keywords (one : statements.filterMap Statement.packageKeyword? = [first]) :
    Grammar.packages statements = 1 := by
  rw [← Grammar.length_keywords, one, List.length_singleton]

/-- A second package statement is refused with the places of both keywords. -/
theorem file_of_second {front : List Lexeme} {keyword : Lexeme} {body : List Lexeme}
    {read : Package} (named : NamesPackage front first)
    (again : Grammar.package (tokens (keyword :: body)) read)
    (hc : c.ahead = answers (front ++ keyword :: body) ++ r) :
    ∃ d, file c = .error (.duplicatePackage first keyword.span) d ∧
      d.taken = (front ++ keyword :: body).reverse ++ c.taken ∧ d.held = none ∧ d.pending = r := by
  cases named with
  | @intro head version statements parts _ begins written one =>
    rw [answers_append, answers_append, List.append_assoc, List.append_assoc] at hc
    obtain ⟨c₁, start, taken₁, ahead₁⟩ :=
      accepts_syntaxDecl head version _ _ (Nat.lt_succ_self _) begins rfl c hc
    have few : Grammar.packages [] + Grammar.packages statements ≤ 1 := by
      rw [packages_of_keywords one]
      exact Nat.le_refl 1
    obtain ⟨c₂, m, loop, taken₂, ahead₂⟩ :=
      statements_of_written written few ahead₁ (Nat.lt_succ_self _)
    obtain ⟨d, held, taken₃, ahead₃, run⟩ :=
      statement_of_package (statements.reverse ++ []) again ahead₂
    have known : (statements.reverse ++ []).findSome? Statement.packageKeyword? = some first := by
      rw [List.append_nil, ← List.head?_filterMap, List.filterMap_reverse, one]
      rfl
    rw [known] at run
    refine ⟨d, ?_, ?_, held, ?_⟩
    · rw [file, bind_of_ok start]
      exact bind_of_error (p := collect statement) (loop.trans (bind_of_error run))
    · simp [taken₃, taken₂, taken₁]
    · simpa [Cursor.ahead, held] using ahead₃

/-! ## Where second packages are refused -/

/-- The place that a package statement keeps is that of the first lexeme it took. -/
theorem keyword_of_statement (run : statement found c = .ok (some s) d) {keyword : Span}
    (named : s.packageKeyword? = some keyword) :
    ∃ k w, k.span = keyword ∧ d.taken = (k :: w).reverse ++ c.taken := by
  rw [statement, peekKind_bind] at run
  obtain ⟨t, c₁, look, run⟩ := bind_eq_ok.1 run
  have look' := c.look_peek
  rw [look] at look'
  generalize kind : t.map Token.kind = k at run
  split at run
  case h_3 =>
    obtain ⟨u, rfl, -⟩ := Option.map_eq_some_iff.1 kind
    obtain ⟨l, held, rfl⟩ := Option.map_eq_some_iff.1 (Holds.of_look look' _ rfl)
    obtain ⟨s', c₂, only, run⟩ := bind_eq_ok.1 run
    cases run
    obtain ⟨_, _, here, only⟩ := bind_eq_ok.1 only
    cases here
    obtain ⟨read, c₃, package, only⟩ := bind_eq_ok.1 only
    obtain ⟨x, xs, taken, -⟩ := text_of_package held package
    cases earlier : found.findSome? Statement.packageKeyword? with
    | some first =>
      rw [earlier] at only
      cases only
    | none =>
      rw [earlier] at only
      cases only
      rw [taken_of_peek look] at taken
      refine ⟨l, x :: xs, ?_, taken⟩
      simpa [Statement.packageKeyword?, sighting, held] using named
  case h_7 => cases run
  case h_8 => cases run
  all_goals
    obtain ⟨_, _, -, run⟩ := bind_eq_ok.1 run
    cases run
    cases named

theorem written_of_statement (run : statement found c = .ok (some s) d) :
    ∃ v, d.taken = v.reverse ++ c.taken ∧ s.WrittenAt v := by
  obtain ⟨used, covers, -⟩ := (reads_statement (n := c.size + 1) found).run c c.ready
  rw [run] at covers
  obtain ⟨v, moves, text⟩ := covers
  have text : Grammar.statement (tokens v) s := by
    rcases text with h | h
    · obtain ⟨s', h, e⟩ := Phrase.map_iff.1 h
      cases e
      exact h
    · obtain ⟨_, -, e⟩ := Phrase.map_iff.1 h
      cases e
  refine ⟨v, moves.taken, text, fun keyword named => ?_⟩
  obtain ⟨l, w, rfl, taken⟩ := keyword_of_statement run named
  rw [Node.eq_of_taken moves taken]
  rfl

/-- Where the loop stops at a second package statement, it has read one before among others. -/
theorem written_of_refused (few : Grammar.packages found ≤ 1)
    (run : collectWithin statement k found c = .error (.duplicatePackage first second) d) :
    ∃ statements parts keyword body read, List.Forall₂ Statement.WrittenAt statements parts ∧
      (statements.reverse ++ found).filterMap Statement.packageKeyword? = [first] ∧
      Grammar.package (tokens (keyword :: body)) read ∧ keyword.span = second ∧ d.held = none ∧
      d.taken = (parts.flatten ++ keyword :: body).reverse ++ c.taken := by
  induction k generalizing found c with
  | zero => cases run
  | succ k ih =>
    obtain run | ⟨o, c₁, step, run⟩ := bind_eq_error.1 run
    · obtain ⟨named, c₁, keyword, read, look, held, place, package⟩ := refused_of_statement run
      obtain ⟨x, xs, taken, text⟩ := text_of_package held package
      obtain ⟨used, moves, -⟩ := Moves.of_look look
      refine ⟨[], [], keyword, x :: xs, read, .nil, ?_, text, place, held_of_package package, ?_⟩
      · rw [← List.head?_filterMap] at named
        rw [← Grammar.length_keywords] at few
        obtain ⟨rest, whole⟩ := List.head?_eq_some_iff.1 named
        rw [whole, List.length_cons] at few
        obtain rfl : rest = [] := List.length_eq_zero_iff.1 (by omega)
        simpa using whole
      · simpa [moves.taken] using taken
    · cases o with
      | none => cases run
      | some s =>
        obtain ⟨v, taken, written⟩ := written_of_statement step
        obtain ⟨statements, parts, keyword, body, read, rest, one, text, place, held, taken'⟩ :=
          ih (packages_statement few step) run
        exact ⟨s :: statements, v :: parts, keyword, body, read, .cons written rest,
          by simpa using one, text, place, held, by simp [taken', taken]⟩

theorem second_of_file (run : file c = .error (.duplicatePackage first second) d) :
    d.held = none ∧ ∃ front keyword body read, NamesPackage front first ∧
      Grammar.package (tokens (keyword :: body)) read ∧ keyword.span = second ∧
      d.taken = (front ++ keyword :: body).reverse ++ c.taken := by
  obtain run | ⟨version, c₁, start, run⟩ := bind_eq_error.1 run
  · exact absurd rfl (composed_syntaxDecl.error_ne_duplicate run first second)
  obtain ⟨head, used, moves, begins⟩ := @Node.phrase_of_run .syntaxDecl _ _ _ start
  obtain run | ⟨_, _, -, run⟩ := bind_eq_error.1 run
  · have none : Grammar.packages [] ≤ 1 := Nat.zero_le 1
    obtain ⟨statements, parts, keyword, body, read, written, one, again, place, held, taken⟩ :=
      written_of_refused (k := c₁.size + 1) none run
    rw [List.append_nil, List.filterMap_reverse, List.reverse_eq_iff, List.reverse_singleton] at one
    refine ⟨held, _, keyword, body, read, .intro begins written one, again, place, ?_⟩
    simp [taken, moves.taken]
  · cases run

/-! ## Second packages that cannot be read -/

/-- A second package statement that cannot be read fails as it does by itself. -/
theorem file_of_malformed {front : List Lexeme} {l : Lexeme} {rest : List (Option Item)}
    {e : ParseError} (named : NamesPackage front first)
    (keyword : l.token.kind = .keyword .packageKw)
    (run : Node.package.parser (.ofAnswers (some (.token l) :: rest)) = .error e d) :
    ∃ blocks, file (.ofAnswers (answers front ++ some (.token l) :: rest)) =
      .error e (d.behind ⟨[], none, 0, (answers front).reverse, front.reverse, blocks⟩) := by
  cases named with
  | @intro head version statements parts _ begins written one =>
    obtain ⟨c, comes, passes⟩ := Scope.comes_file (w := head ++ parts.flatten) (l := l) (r := rest)
      (c := .ofAnswers (answers (head ++ parts.flatten) ++ some (.token l) :: rest))
      (n := .package) begins
      (Statement.many_of_written written) (packages_of_keywords one).le (tokens_append ..) rfl
      (by rw [keyword]; rfl)
    have here := comes.eq_behind
    have held := Node.package.looksFirst.of_hold (c := .ofAnswers (some (.token l) :: rest)) rfl rfl
    have inner := (Node.composed (n := .package) nofun).behind
      ⟨[], none, 0, (answers (head ++ parts.flatten)).reverse,
        (head ++ parts.flatten).reverse, c.closed⟩
      ((ofAnswers (some (.token l) :: rest)).hold l rest)
    rw [← here, held, run] at inner
    exact ⟨c.closed, passes e _ inner⟩

end Parser

/-- A file is refused for its packages exactly when it comes to the end of a second package
statement, and the two places are those of the two keywords. No other node is refused for that. A
second package statement that cannot be read fails with its own error. -/
theorem second_package_refused :
    (∀ (c : Cursor) front first keyword body read r, NamesPackage front first →
      Grammar.package (tokens (keyword :: body)) read →
      c.ahead = answers (front ++ keyword :: body) ++ r →
      ∃ d, Node.file.parser c = .error (.duplicatePackage first keyword.span) d ∧
        d.taken = (front ++ keyword :: body).reverse ++ c.taken ∧ d.held = none ∧ d.pending = r) ∧
    (∀ (n : Node) c first second d, n.parser c = .error (.duplicatePackage first second) d →
      n = .file ∧ d.held = none ∧ ∃ front keyword body read, NamesPackage front first ∧
        Grammar.package (tokens (keyword :: body)) read ∧ keyword.span = second ∧
        d.taken = (front ++ keyword :: body).reverse ++ c.taken) ∧
    ∀ front first l rest e d, NamesPackage front first → l.token.kind = .keyword .packageKw →
      Node.package.parser (.ofAnswers (some (.token l) :: rest)) = .error e d →
      ∃ d', Node.file.parser (.ofAnswers (answers front ++ some (.token l) :: rest)) = .error e d' ∧
        d'.taken = d.taken ++ front.reverse ∧ d'.held = d.held ∧ d'.pending = d.pending := by
  refine ⟨fun _ _ _ _ _ _ _ named again hc => Parser.file_of_second named again hc,
    fun n c first second d run => ?_, fun front first l rest e d named keyword run => ?_⟩
  · have file : n = .file := by
      by_contra other
      exact (Node.composed other).error_ne_duplicate run first second rfl
    subst file
    exact ⟨rfl, Parser.second_of_file run⟩
  · obtain ⟨blocks, whole⟩ := Parser.file_of_malformed named keyword run
    exact ⟨_, whole, rfl, rfl, rfl⟩

/-- A second package statement in front of a failure, and one that has a number for its name. -/
theorem second_package_refused_failure :
    let semicolon (place : Span) : Lexeme := ⟨⟨.semicolon, ";"⟩, place⟩
    let package (place : Span) : Lexeme := ⟨⟨.keyword .packageKw, "package"⟩, place⟩
    let name (text : String) (place : Span) : Lexeme := ⟨⟨.identifier, text⟩, place⟩
    let number : Lexeme := ⟨⟨.decimalLiteral, "1"⟩, ⟨39, 40⟩⟩
    let front : List Lexeme :=
      [⟨⟨.keyword .syntaxKw, "syntax"⟩, ⟨0, 6⟩⟩, ⟨⟨.equals, "="⟩, ⟨7, 8⟩⟩,
       ⟨⟨.stringLiteral, "\"proto3\""⟩, ⟨9, 17⟩⟩, semicolon ⟨17, 18⟩, semicolon ⟨18, 19⟩,
       package ⟨20, 27⟩, name "a" ⟨28, 29⟩, semicolon ⟨29, 30⟩]
    let second : List Lexeme := [package ⟨31, 38⟩, name "b" ⟨39, 40⟩, semicolon ⟨40, 41⟩]
    let twice : Cursor := .ofAnswers (answers (front ++ second) ++ [some (.failure ⟨41, 42⟩)])
    let malformed : Cursor := .ofAnswers (answers front ++ answers [package ⟨31, 38⟩, number])
    NamesPackage front ⟨20, 27⟩ ∧
      (∃ d, Node.file.parser twice = .error (.duplicatePackage ⟨20, 27⟩ ⟨31, 38⟩) d ∧
        d.taken = (front ++ second).reverse ∧ d.pending = [some (.failure ⟨41, 42⟩)] ∧
        ∃ front' keyword body read, NamesPackage front' ⟨20, 27⟩ ∧
          Grammar.package (tokens (keyword :: body)) read ∧ keyword.span = ⟨31, 38⟩ ∧
          d.taken = (front' ++ keyword :: body).reverse) ∧
      ∃ d, Node.file.parser malformed =
        .error (.expectedIdentifier ⟨some number.token, ⟨39, 40⟩⟩) d ∧
        d.taken = package ⟨31, 38⟩ :: front.reverse ∧ d.held = some number := by
  intro semicolon package name number front second twice malformed
  have begins : Grammar.syntaxDecl (tokens (front.take 4)) ⟨⟨.stringLiteral, "\"proto3\""⟩⟩ :=
    Grammar.text_syntaxDecl rfl rfl rfl
  have empty : Statement.empty.WrittenAt [semicolon ⟨18, 19⟩] :=
    ⟨Grammar.empty_le_statement _ _ (Grammar.text_empty rfl _), nofun⟩
  have statement : Grammar.package (tokens (front.drop 5)) ⟨⟨[⟨.identifier, "a"⟩]⟩⟩ :=
    Grammar.text_package rfl (Grammar.text_name rfl) rfl
  have first : (Statement.package ⟨⟨[⟨.identifier, "a"⟩]⟩⟩ ⟨20, 27⟩).WrittenAt (front.drop 5) :=
    ⟨Grammar.package_le_statement _ _ ⟨_, _, statement, rfl⟩, by
      rintro _ ⟨⟩
      rfl⟩
  have named : NamesPackage front ⟨20, 27⟩ := .intro begins (.cons empty (.cons first .nil)) rfl
  have again : Grammar.package (tokens second) ⟨⟨[⟨.identifier, "b"⟩]⟩⟩ :=
    Grammar.text_package rfl (Grammar.text_name rfl) rfl
  obtain ⟨d, run, taken, -, pending⟩ :=
    second_package_refused.1 twice front ⟨20, 27⟩ (package ⟨31, 38⟩)
      (second.drop 1) _ [some (.failure ⟨41, 42⟩)] named again rfl
  obtain ⟨-, -, front', keyword, body, read, named', text, place, taken'⟩ :=
    second_package_refused.2.1 .file _ _ _ _ run
  have alone : Node.package.parser (.ofAnswers (answers [package ⟨31, 38⟩, number])) =
      .error (.expectedIdentifier ⟨some number.token, ⟨39, 40⟩⟩)
        ⟨[], some number, 40, (answers [package ⟨31, 38⟩, number]).reverse,
          [package ⟨31, 38⟩], []⟩ := rfl
  obtain ⟨d', run', rest, held, -⟩ := second_package_refused.2.2 front ⟨20, 27⟩ (package ⟨31, 38⟩)
    (answers [number]) _ _ named rfl alone
  exact ⟨named,
    ⟨d, run, taken.trans (List.append_nil _), pending, front', keyword, body, read, named', text,
      place, taken'.trans (List.append_nil _)⟩,
    d', run', rest, held⟩

end ProtoSchema
