import ProtoSchema.Proofs.Acceptance.Block
import ProtoSchema.Proofs.Reading.File

/-! # Accepting files

Statements are read up to the end of the input. A second package statement is read like the first
and then refused. -/

namespace ProtoSchema

namespace Statement

/-- A statement without the place of a package. -/
def unplaced : Statement → Statement
  | .package p _ => .package p (.at 0)
  | s => s

theorem package?_unplaced (s : Statement) : s.unplaced.package? = s.package? := by cases s <;> rfl

end Statement

theorem File.ofStatements_unplaced (version : SyntaxDecl) (statements : List Statement) :
    File.ofStatements version (statements.map Statement.unplaced) =
      File.ofStatements version statements := by
  have same {α : Type} {f : Statement → Option α} (h : ∀ s, f s.unplaced = f s) :
      (statements.map Statement.unplaced).filterMap f = statements.filterMap f := by
    rw [List.filterMap_map]
    exact congrArg (List.filterMap · statements) (funext h)
  have package : (statements.map Statement.unplaced).findSome? Statement.package? =
      statements.findSome? Statement.package? := by
    rw [List.findSome?_map]
    exact congrArg (List.findSome? · statements) (funext Statement.package?_unplaced)
  rw [File.ofStatements, package, same fun s => by cases s <;> rfl,
    same fun s => by cases s <;> rfl, same fun s => by cases s <;> rfl,
    same fun s => by cases s <;> rfl]
  rfl

namespace Parser
open Cursor Phrase

variable {n : Nat}

theorem accepts_versionLiteral : Accepts n Eq versionLiteral Grammar.version :=
  .peek_one fun t ht => by rw [ht]; exact if_pos rfl

theorem accepts_syntaxDecl : Accepts n Eq syntaxDecl Grammar.syntaxDecl :=
  (Accepts.expect _).bind fun _ => (Accepts.expect _).bind fun _ =>
    accepts_versionLiteral.bind fun _ => .look_take (fun t ht => by rw [ht]) fun _ _ => .pure _

theorem accepts_importModifier :
    Accepts n (Before (· = .stringLiteral)) importModifier
      (optional (kind (.keyword .publicKw) ⊔ kind (.keyword .weakKw))) := by
  refine .sup ?_ ?_
  · rw [kind, kind, one_sup_one]
    refine (Accepts.look_take (fun t ht => ?_) fun t _ => .pure (some t)).before
    rcases ht with ht | ht <;> rw [ht]
  · refine (Accepts.look_stop fun t ht => ?_).follow fun _ _ => past_of_before
    rcases t with _ | u
    · rfl
    · rw [Option.map_some, ht u rfl]

theorem accepts_importStatement : Accepts n Eq importStatement Grammar.importStatement :=
  (Accepts.expect _).bind fun _ => accepts_importModifier.bind_before
    (fun _ => (Accepts.look_one fun t ht => by rw [ht]).bind fun _ => (Accepts.expect _).map)
    (fun _ => (advances_kind _).bind_left) fun _ => leads_kind_bind rfl

theorem accepts_package : Accepts n Eq package Grammar.package :=
  (Accepts.expect _).bind fun _ =>
    (accepts_fullIdent.follow fun _ _ => past_of_before).bind_before
      (fun _ => (Accepts.expect _).map) (fun _ => (advances_kind _).bind_left)
      fun _ => leads_kind_bind (by simp)

/-- A package statement ends by taking its semicolon. -/
theorem held_of_package {c d : Cursor} {p : Package} (run : package c = .ok p d) :
    d.held = none := by
  obtain ⟨_, _, -, run⟩ := bind_eq_ok.1 run
  obtain ⟨_, _, -, run⟩ := bind_eq_ok.1 run
  obtain ⟨_, _, semicolon, run⟩ := bind_eq_ok.1 run
  cases run
  exact held_of_expect semicolon

/-! ## Statements -/

/-- How a parser starts that looks at lexemes ahead. -/
theorem look_ahead {c : Cursor} {l : Lexeme} {w : List Lexeme} {r : List (Option Item)}
    (hc : c.ahead = answers (l :: w) ++ r) :
    ∃ c', (∀ {α : Type} (f : Option TokenKind → Parser α),
        (peekKind >>= f) c = f (some l.token.kind) c') ∧
      c'.held = some l ∧ c'.taken = c.taken ∧ c'.ahead = answers (l :: w) ++ r := by
  obtain ⟨c', run, held, taken, left⟩ := peek_ahead (c := c) (by rw [hc]; rfl)
  have ahead : c'.ahead = answers (l :: w) ++ r := by rw [left, hc]; rfl
  refine ⟨c', fun f => ?_, ?_, taken, ahead⟩
  · rw [peekKind_bind, Parser.bind_of_ok run]
    rfl
  · obtain ⟨l', hl, -⟩ := Option.map_eq_some_iff.1 held
    obtain ⟨rfl, -⟩ : l' = l ∧ _ := by simpa [Cursor.ahead, hl] using ahead
    exact hl

/-- A package statement is answered if none stands in front of it, and refused otherwise. -/
theorem statement_of_package (earlier : List Statement) {l : Lexeme} {w : List Lexeme} {p : Package}
    {r : List (Option Item)} {c : Cursor} (h : Grammar.package (tokens (l :: w)) p)
    (hc : c.ahead = answers (l :: w) ++ r) :
    ∃ c', c'.held = none ∧ c'.taken = (l :: w).reverse ++ c.taken ∧ c'.ahead = r ∧
      statement earlier c =
        match earlier.findSome? Statement.packageKeyword? with
        | some first => .error (.duplicatePackage first l.span) c'
        | none => .ok (some (.package p l.span)) c' := by
  have keyword : l.token.kind = .keyword .packageKw :=
    (advances_kind _).leads_bind (leads_kind _) _ _ _ h
  obtain ⟨c₁, look, held₁, taken₁, ahead₁⟩ := look_ahead hc
  obtain ⟨c', run, taken', left⟩ :=
    accepts_package (l :: w) p r r (Nat.lt_succ_self _) h rfl c₁ ahead₁
  have place : c₁.sighting.span = l.span := by rw [sighting, held₁]
  refine ⟨c', held_of_package run, by rw [taken', taken₁], left, ?_⟩
  rw [statement, look, keyword]
  dsimp only
  have here : (get : Parser Cursor) c₁ = .ok c₁ c₁ := rfl
  cases first : earlier.findSome? Statement.packageKeyword? with
  | some first' =>
    apply Parser.bind_of_error
    rw [onlyPackage, Parser.bind_of_ok here, Parser.bind_of_ok run, first, place]
    rfl
  | none =>
    refine Parser.bind_of_ok (a := Statement.package p l.span) (d := c') ?_
    rw [onlyPackage, Parser.bind_of_ok here, Parser.bind_of_ok run, first, place]
    rfl

/-- Any other statement is answered, whatever stands in front of it. -/
theorem runs_statement {earlier : List Statement} {w : List Lexeme} {s : Statement}
    {r : List (Option Item)} (h : Grammar.statement (tokens w) s) (hs : s.package? = none) :
    Runs (statement earlier) w (some s) r r := by
  have size := Nat.lt_succ_self (w.length + r.length)
  rcases h with ((((h | h) | h) | h) | h) | h
  · obtain ⟨t, ht, he, rfl⟩ := Grammar.empty_iff.1 h
    exact accepts_empty (some .empty) rfl w _ r r size (Grammar.empty_iff.2 ⟨t, ht, he, rfl⟩) rfl
  · obtain ⟨i, hi, rfl⟩ := map_iff.1 h
    exact Accepts.look_map (g := fun i => some (.imported i)) (advances_kind _).bind_left
      ((advances_kind _).leads_bind (leads_kind _)) (fun k hk => by rw [hk]) accepts_importStatement
      w _ r r size (map_iff.2 ⟨i, hi, rfl⟩) rfl
  · obtain ⟨p, place, -, rfl⟩ := h
    cases hs
  · obtain ⟨o, ho, rfl⟩ := map_iff.1 h
    exact Accepts.look_map (g := fun o => some (.option o)) advances_optionStatement
      leads_optionStatement (fun k hk => by rw [hk]) accepts_optionStatement
      w _ r r size (map_iff.2 ⟨o, ho, rfl⟩) rfl
  · obtain ⟨m, hm, rfl⟩ := map_iff.1 h
    exact Accepts.look_map (g := fun m => some (.message m)) advances_message leads_message
      (fun k hk => by rw [hk]) accepts_message w _ r r size (map_iff.2 ⟨m, hm, rfl⟩) rfl
  · obtain ⟨e, he, rfl⟩ := map_iff.1 h
    exact Accepts.look_map (g := fun e => some (.enum e)) advances_enum leads_enum
      (fun k hk => by rw [hk]) accepts_enum w _ r r size (map_iff.2 ⟨e, he, rfl⟩) rfl

theorem package_of_statement {ts : List Token} {p : Package} {place : Span}
    (h : Grammar.statement ts (.package p place)) : Grammar.package ts p := by
  rcases h with ((((h | h) | h) | h) | h) | h
  case inl.inl.inl.inr =>
    obtain ⟨q, _, hq, e⟩ := h
    cases e
    exact hq
  case inl.inl.inl.inl.inl =>
    obtain ⟨_, -, -, e⟩ := Grammar.empty_iff.1 h
    cases e
  all_goals obtain ⟨_, -, e⟩ := map_iff.1 h; cases e

/-- A further statement is answered, unless it is a second package statement. -/
theorem statement_run {earlier : List Statement} {w : List Lexeme} {s : Statement}
    {r : List (Option Item)} {c : Cursor} (h : Grammar.statement (tokens w) s)
    (hc : c.ahead = answers w ++ r) (he : Grammar.packages earlier ≤ 1) :
    (Grammar.packages (s :: earlier) ≤ 1 ∧ ∃ s' c', statement earlier c = .ok (some s') c' ∧
        s'.unplaced = s.unplaced ∧ c'.taken = w.reverse ++ c.taken ∧ c'.ahead = r) ∨
      (1 < Grammar.packages (s :: earlier) ∧
        ∃ first second c', statement earlier c = .error (.duplicatePackage first second) c') := by
  rw [packages_cons]
  cases hs : s.package? with
  | none =>
    obtain ⟨c', run, taken, left⟩ := runs_statement h hs c hc
    exact .inl ⟨by simpa using he, s, c', run, rfl, taken, left⟩
  | some p =>
    obtain ⟨place, rfl⟩ : ∃ place, s = .package p place := by
      cases s <;> simp_all [Statement.package?]
    have package := package_of_statement h
    cases w with
    | nil => exact ((advances_kind _).bind_left _ package).elim
    | cons l w => ?_
    obtain ⟨c', -, taken, left, run⟩ := statement_of_package earlier package hc
    cases first : earlier.findSome? Statement.packageKeyword? with
    | none =>
      have := no_keyword_iff.1 first
      rw [first] at run
      exact .inl ⟨by simp [this], _, c', run, rfl, taken, left⟩
    | some first' =>
      have : Grammar.packages earlier ≠ 0 := fun h => by simp [no_keyword_iff.2 h] at first
      rw [first] at run
      refine .inr ⟨?_, first', l.span, c', run⟩
      simp only [Option.toList, List.length_singleton]
      omega

/-- The place of a package statement is not counted. -/
theorem packages_unplaced {s s' : Statement} (same : s'.unplaced = s.unplaced)
    (found : List Statement) :
    Grammar.packages (s' :: found) = Grammar.packages (s :: found) := by
  rw [packages_cons, packages_cons, ← s'.package?_unplaced, same, s.package?_unplaced]

/-- Statements are read up to the end of the input, unless a second one names a package. -/
theorem statements_run {ts : List Token} {as : List Statement} (h : many Grammar.statement ts as)
    {w : List Lexeme} {r : List (Option Item)} {c : Cursor} {k : Nat} {found : List Statement}
    (hw : tokens w = ts) (hr : seen r = some none) (hc : c.ahead = answers w ++ r) (hk : c.size < k)
    (hf : Grammar.packages found ≤ 1) :
    (Grammar.packages found + Grammar.packages as ≤ 1 ∧ ∃ as' c',
        collectWithin statement k found c = .ok as' c' ∧
        as'.map Statement.unplaced = (found.reverse ++ as).map Statement.unplaced ∧
        c'.taken = w.reverse ++ c.taken) ∨
      (1 < Grammar.packages found + Grammar.packages as ∧ ∃ first second c',
        collectWithin statement k found c = .error (.duplicatePackage first second) c') := by
  obtain ⟨k, rfl⟩ : ∃ m, k = m + 1 := Nat.exists_eq_succ_of_ne_zero (by omega)
  induction h generalizing w c k found with
  | nil =>
    obtain rfl := List.map_eq_nil_iff.1 hw
    obtain ⟨c', run, -, taken, -⟩ := peek_ahead (c := c) (t := none) (by rw [hc]; exact hr)
    refine .inl ⟨by simpa [Grammar.packages] using hf, found.reverse, c', ?_, by simp, taken⟩
    refine (Parser.bind_of_ok (a := none) (d := c') ?_).trans rfl
    rw [statement, peekKind_bind, Parser.bind_of_ok run]
    rfl
  | @cons us vs s as hs has ih =>
    obtain ⟨x, y, rfl, rfl, rfl⟩ := tokens_eq_append hw
    have nonempty : x ≠ [] := by
      rintro rfl
      exact advances_statement s hs
    have := List.length_pos_iff.2 nonempty
    have size : c.size = x.length + (y.length + r.length) := by
      simp [size_eq_length_ahead, hc]
    have total : Grammar.packages found + Grammar.packages (s :: as) =
        Grammar.packages (s :: found) + Grammar.packages as := by
      rw [packages_cons, packages_cons]
      omega
    rw [total]
    rw [answers_append, List.append_assoc] at hc
    rcases statement_run hs hc hf with ⟨hle, s', c₁, run, same, taken, left⟩ |
        ⟨hlt, first, second, c₁, run⟩
    · have packages := packages_unplaced same found
      have smaller : c₁.size = y.length + r.length := by
        simp [size_eq_length_ahead, left]
      obtain ⟨k, rfl⟩ : ∃ m, k = m + 1 := Nat.exists_eq_succ_of_ne_zero (by omega)
      have few : Grammar.packages (s' :: found) ≤ 1 := packages.trans_le hle
      have rest := ih rfl left few k (by omega)
      rw [packages] at rest
      rcases rest with ⟨hle', as', c', run', same', taken'⟩ | ⟨hlt, first, second, c', run'⟩
      · refine .inl ⟨hle', as', c', (Parser.bind_of_ok run).trans run', ?_, by simp [taken', taken]⟩
        simp [same', same]
      · exact .inr ⟨hlt, first, second, c', (Parser.bind_of_ok run).trans run'⟩
    · refine .inr ⟨by omega, first, second, c₁, ?_⟩
      exact Parser.bind_of_error run

/-- A file is read to its end, unless a second statement names a package. -/
theorem file_run {admitted : List Statement → Prop} {w : List Lexeme} {f : File}
    {r : List (Option Item)} {c : Cursor} (h : Grammar.fileWhere admitted (tokens w) f)
    (hr : seen r = some none) (hc : c.ahead = answers w ++ r) :
    ∃ statements, admitted statements ∧
      ((Grammar.packages statements ≤ 1 ∧
          ∃ c', file c = .ok f c' ∧ c'.taken = w.reverse ++ c.taken) ∨
        (1 < Grammar.packages statements ∧
          ∃ first second c', file c = .error (.duplicatePackage first second) c')) := by
  obtain ⟨us, vs, version, as, hv, has, ha, rfl, he⟩ := Grammar.fileWhere_iff.1 h
  obtain ⟨v, u, rfl, rfl, rfl⟩ := tokens_eq_append he
  rw [answers_append, List.append_assoc] at hc
  obtain ⟨c₁, run, taken, left⟩ :=
    accepts_syntaxDecl v version _ _ (Nat.lt_succ_self _) hv rfl c hc
  refine ⟨as, ha, ?_⟩
  have none : Grammar.packages [] = 0 := rfl
  have few : Grammar.packages [] ≤ 1 := Nat.zero_le 1
  have rest := statements_run has rfl hr left (Nat.lt_succ_self _) few
  rw [none, Nat.zero_add] at rest
  rcases rest with ⟨hle, as', c', run', same, taken'⟩ | ⟨hlt, first, second, c', run'⟩
  · refine .inl ⟨hle, c', ?_, by simp [taken', taken]⟩
    rw [file, Parser.bind_of_ok run, Parser.bind_of_ok (p := collect statement) run']
    rw [← File.ofStatements_unplaced version as, ← File.ofStatements_unplaced version as', same]
    rfl
  · refine .inr ⟨hlt, first, second, c', ?_⟩
    rw [file, Parser.bind_of_ok run, Parser.bind_of_error (p := collect statement) run']

end Parser

end ProtoSchema
