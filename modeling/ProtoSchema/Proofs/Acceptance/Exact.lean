import ProtoSchema.Proofs.Acceptance.File

/-! # The parsers accept exactly their grammar

A node is read from some tokens, with a tree, if and only if the tokens are a text of its production
that stands for this tree, provided that what follows does not go on. Only files and dotted names
can go on: a file must be followed by the end of the input, and a dotted name must not be followed
by a point. Since a run has one outcome, a text stands for one tree. -/

namespace ProtoSchema

/-- What may follow a dotted name. It is looked at, so it must not be a failure. -/
def EndsName (r : List (Option Item)) : Prop :=
  ∃ t, seen r = some t ∧ ∀ u, t = some u → u.kind ≠ .dot

/-- Whether a constant is a dotted name, which might go on. -/
def Constant.isName : Constant → Prop
  | .reference ⟨s :: _⟩ => s.kind = .identifier
  | _ => False

/-- Whether a tree that has been read ends in front of some answers. -/
def Node.Stops : (n : Node) → n.Tree → List (Option Item) → Prop
  | .file, _, r => seen r = some none
  | .fullIdent, _, r => EndsName r
  | .constant, c, r => Constant.isName c → EndsName r
  | _, _, _ => True

/-- Behind the lexemes that were taken, what has been passed were ends of the input. -/
theorem passed_eq {w : List Lexeme} {xs as bs : List (Option Item)}
    (h : xs.filter Option.isSome = answers w) (he : answers w ++ as = xs ++ bs) :
    ∃ j, as = List.replicate j none ++ bs := by
  induction w generalizing xs with
  | nil =>
    refine ⟨xs.length, ?_⟩
    have ends : xs = List.replicate xs.length none :=
      List.eq_replicate_iff.2 ⟨rfl, fun x hx => by simpa using List.filter_eq_nil_iff.1 h x hx⟩
    rw [← ends]
    exact he
  | cons l w ih =>
    cases xs with
    | nil => simp at h
    | cons x xs =>
      obtain ⟨rfl, rest⟩ : some (.token l) = x ∧ answers w ++ as = xs ++ bs := by simpa using he
      exact ih (by simpa using h) rest

namespace Cursor.Moves

variable {c c' : Cursor} {w : List Lexeme} {used r : List (Option Item)}

/-- What is ahead of a cursor that has taken what was ahead of it. -/
theorem left (h : c.Moves w used c') (hc : c.ahead = answers w ++ r) :
    ∃ j k, r ++ List.replicate k none = List.replicate j none ++ c'.ahead := by
  obtain ⟨k, xs, filter, eq⟩ := h.ahead
  rw [hc, List.append_assoc] at eq
  obtain ⟨j, eq⟩ := passed_eq filter eq
  exact ⟨j, k, eq⟩

theorem seen_left (h : c.Moves w used c') (hc : c.ahead = answers w ++ r) :
    seen r = some none ∨ seen r = seen c'.ahead := by
  obtain ⟨j, k, eq⟩ := h.left hc
  cases r with
  | nil => exact .inl rfl
  | cons a r =>
    cases j with
    | zero =>
      right
      rw [List.replicate_zero, List.nil_append] at eq
      rw [← eq]
      rcases a with _ | ⟨_ | _⟩ <;> rfl
    | succ j =>
      rw [List.replicate_succ, List.cons_append, List.cons_append, List.cons.injEq] at eq
      obtain ⟨rfl, -⟩ := eq
      exact .inl rfl

/-- Nothing behind what was taken has been touched, unless it is the report of an end. -/
theorem ahead_eq (h : c.Moves w used c') (hc : c.ahead = answers w ++ r)
    (hr : r.head? ≠ some none) : c'.ahead = r := by
  obtain ⟨j, k, eq⟩ := h.left hc
  have size := h.size
  rw [size_eq_length_ahead, size_eq_length_ahead, hc, List.length_append, length_answers] at size
  have lengths := congrArg List.length eq
  simp only [List.length_append, List.length_replicate] at lengths
  cases j with
  | zero =>
    obtain rfl : k = 0 := by omega
    simpa using eq.symm
  | succ j =>
    cases r with
    | nil =>
      apply List.length_eq_zero_iff.1
      simp only [List.length_nil] at size
      omega
    | cons a r =>
      rw [List.replicate_succ, List.cons_append, List.cons_append, List.cons.injEq] at eq
      obtain ⟨rfl, -⟩ := eq
      exact absurd rfl hr

end Cursor.Moves

namespace Parser
open Cursor Phrase

/-- The last round of a loop that has ended. -/
theorem last_step {α β : Type} {n : Nat} {P : Phrase α} {Q : Phrase β}
    {step : List α → Parser (Option α)} (hstep : ∀ found, Reads n none (step found) (orStop P Q))
    {k : Nat} {found as : List α} {c c' : Cursor} (hc : c.size < n)
    (run : collectWithin step k found c = .ok as c') :
    ∃ w used c₁ found', c.Moves w used c₁ ∧ step found' c₁ = .ok none c' := by
  induction k generalizing found c with
  | zero => cases run
  | succ k ih =>
    obtain ⟨o, c₂, first, rest⟩ := bind_eq_ok.1 run
    cases o with
    | none =>
      cases rest
      exact ⟨[], [], c, found, .refl c, first⟩
    | some a =>
      obtain ⟨used, covers, -⟩ := (hstep found).run c ⟨hc, nofun⟩
      rw [first] at covers
      obtain ⟨v, moves, -⟩ := covers
      have := moves.size
      obtain ⟨w, used', c₁, found', moves', last⟩ := ih (by omega) rest
      exact ⟨v ++ w, _, c₁, found', moves.trans moves', last⟩

/-- A step that finds nothing has only looked. -/
theorem seen_of_segment {c c' : Cursor} (h : segment c = .ok none c') :
    c'.taken = c.taken ∧ EndsName c.ahead := by
  rw [segment, Accepts.takeIf_bind_eq, peekKind_bind] at h
  obtain ⟨t, c₁, run, h⟩ := bind_eq_ok.1 h
  by_cases ht : t.map Token.kind = some .dot
  · rw [if_pos ht] at h
    obtain ⟨_, _, -, h⟩ := bind_eq_ok.1 h
    obtain ⟨_, _, -, h⟩ := bind_eq_ok.1 h
    cases h
  · rw [if_neg ht] at h
    cases h
    refine ⟨taken_of_peek run, t, seen_of_peek run, fun u hu => ?_⟩
    rintro hk
    exact ht (by rw [hu, Option.map_some, hk])

theorem seen_of_statement {earlier : List Statement} {c c' : Cursor}
    (h : statement earlier c = .ok none c') : c'.taken = c.taken ∧ seen c.ahead = some none := by
  obtain ⟨k, c₁, look, h⟩ := bind_eq_ok.1 h
  obtain ⟨t, c₂, run, hk⟩ := bind_eq_ok.1 look
  obtain ⟨kind, rfl⟩ := EStateM.Result.ok.inj hk
  split at h
  case h_7 => cases h
  case h_8 =>
    cases h
    have ht : t = none := Option.map_eq_none_iff.1 kind
    exact ⟨taken_of_peek run, ht ▸ seen_of_peek run⟩
  all_goals
    obtain ⟨_, _, -, h⟩ := bind_eq_ok.1 h
    cases h

theorem endsName_of_seen {r r' : List (Option Item)} (h : seen r = some none ∨ seen r = seen r')
    (hr : EndsName r') : EndsName r := by
  rcases h with h | h
  · exact ⟨none, h, nofun⟩
  · obtain ⟨t, ht, hk⟩ := hr
    exact ⟨t, h.trans ht, hk⟩

/-- A dotted name that has been read ends where it should. -/
theorem endsName_of_run {c c' : Cursor} {f : FullIdent} {w : List Lexeme} {r : List (Option Item)}
    (run : fullIdent c = .ok f c') (hc : c.ahead = answers w ++ r)
    (hw : c'.taken = w.reverse ++ c.taken) : EndsName r := by
  obtain ⟨first, c₁, hfirst, run⟩ := bind_eq_ok.1 run
  obtain ⟨rest, c₂, hrest, run⟩ := bind_eq_ok.1 run
  cases run
  obtain ⟨used, covers, -⟩ := reads_identifier.run c ⟨Nat.lt_succ_self _, nofun⟩
  rw [hfirst] at covers
  obtain ⟨v, moves, -⟩ := covers
  obtain ⟨u, used', c₃, found, moves', last⟩ :=
    last_step (fun _ => reads_segment) (Nat.lt_succ_self _) hrest
  obtain ⟨taken, ends⟩ := seen_of_segment last
  have all := moves.trans moves'
  rw [taken, all.taken, List.append_left_inj, List.reverse_inj] at hw
  subst hw
  exact endsName_of_seen (all.seen_left hc) ends

/-- A file that has been read is followed by the end of the input. -/
theorem ended_of_run {c c' : Cursor} {f : File} {w : List Lexeme} {r : List (Option Item)}
    (run : file c = .ok f c') (hc : c.ahead = answers w ++ r)
    (hw : c'.taken = w.reverse ++ c.taken) : seen r = some none := by
  obtain ⟨version, c₁, hversion, run⟩ := bind_eq_ok.1 run
  obtain ⟨statements, c₂, hstatements, run⟩ := bind_eq_ok.1 run
  cases run
  obtain ⟨used, covers, -⟩ := reads_syntaxDecl.run c ⟨Nat.lt_succ_self _, nofun⟩
  rw [hversion] at covers
  obtain ⟨v, moves, -⟩ := covers
  obtain ⟨u, used', c₃, found, moves', last⟩ :=
    last_step reads_statement (Nat.lt_succ_self _) hstatements
  obtain ⟨taken, ends⟩ := seen_of_statement last
  have all := moves.trans moves'
  rw [taken, all.taken, List.append_left_inj, List.reverse_inj] at hw
  subst hw
  exact (all.seen_left hc).elim id fun h => h.trans ends

end Parser

namespace Node
open Cursor Phrase

theorem reads_node (nd : Node) (n : Nat) : Reads n none nd.parser nd.openPhrase := by
  cases nd with
  | file => exact Parser.reads_file
  | syntaxDecl => exact Parser.reads_syntaxDecl
  | imported => exact Parser.reads_importStatement
  | package => exact Parser.reads_package
  | option => exact Parser.reads_optionStatement
  | fullIdent => exact Parser.reads_fullIdent
  | constant => exact Parser.reads_constant
  | signedNumber => exact Parser.reads_signedNumber
  | field => exact Parser.reads_field
  | enumField => exact Parser.reads_enumField
  | enum => exact Parser.reads_enum
  | oneof => exact Parser.reads_oneof
  | message => exact Parser.reads_message

/-- What a tree was read from is a text that stands for it. -/
theorem phrase_of_run {nd : Node} {c c' : Cursor} {t : nd.Tree} (run : nd.parser c = .ok t c') :
    ∃ w used, c.Moves w used c' ∧ nd.phrase (tokens w) t := by
  by_cases file : nd = .file
  · subst file
    exact Parser.file_of_run run
  · obtain ⟨used, covers, -⟩ := (nd.reads_node _).run c ⟨Nat.lt_succ_self _, nofun⟩
    rw [run] at covers
    obtain ⟨w, moves, h⟩ := covers
    have same : nd.openPhrase = nd.phrase := by cases nd <;> first | rfl | exact absurd rfl file
    exact ⟨w, used, moves, same ▸ h⟩

theorem runs_of_phrase {nd : Node} {c : Cursor} {w : List Lexeme} {r : List (Option Item)}
    {t : nd.Tree} (hc : c.ahead = answers w ++ r) (h : nd.phrase (tokens w) t) (hr : nd.Stops t r) :
    ∃ c', nd.parser c = .ok t c' ∧ c'.taken = w.reverse ++ c.taken := by
  have runs {α : Type} {S : Follow} {p : Parser α} {P : Phrase α} {a : α} {r'}
      (hp : Accepts (w.length + r.length + 1) S p P) (h : P (tokens w) a) (hS : S r r') :
      ∃ c', p c = .ok a c' ∧ c'.taken = w.reverse ++ c.taken := by
    obtain ⟨c', run, taken, -⟩ := hp w a r r' (Nat.lt_succ_self _) h hS c hc
    exact ⟨c', run, taken⟩
  cases nd with
  | file =>
    obtain ⟨statements, le, ⟨-, run⟩ | ⟨gt, -⟩⟩ := Parser.file_run h hr hc
    · exact run
    · exact absurd le (Nat.not_le.2 gt)
  | syntaxDecl => exact runs Parser.accepts_syntaxDecl h rfl
  | imported => exact runs Parser.accepts_importStatement h rfl
  | package => exact runs Parser.accepts_package h rfl
  | option => exact runs Parser.accepts_optionStatement h rfl
  | fullIdent => exact runs Parser.accepts_fullIdent h ⟨rfl, hr⟩
  | constant =>
    rcases h with ((h | h) | h) | h
    · exact runs Parser.accepts_string h rfl
    · exact runs Parser.accepts_number h rfl
    · exact runs Parser.accepts_truth h rfl
    · refine runs Parser.accepts_reference h ⟨rfl, hr ?_⟩
      obtain ⟨f, name, rfl⟩ := map_iff.1 h
      obtain ⟨first, _, rest, hk, -, rfl, -⟩ := Grammar.fullIdent_iff.1 name
      exact hk
  | signedNumber => exact runs Parser.accepts_signedNumber h rfl
  | field => exact runs Parser.accepts_field h rfl
  | enumField => exact runs Parser.accepts_enumField h rfl
  | enum => exact runs Parser.accepts_enum h rfl
  | oneof => exact runs Parser.accepts_oneof h rfl
  | message => exact runs Parser.accepts_message h rfl

theorem eq_of_taken {c c' : Cursor} {v w : List Lexeme} {used : List (Option Item)}
    (h : c.Moves v used c') (hw : c'.taken = w.reverse ++ c.taken) : v = w := by
  rwa [h.taken, List.append_left_inj, List.reverse_inj] at hw

/-- A constant that is a dotted name ends like one. -/
theorem endsName_of_constant {c c' : Cursor} {t : Constant} {w : List Lexeme}
    {r : List (Option Item)} (hc : c.ahead = answers w ++ r) (run : Parser.constant c = .ok t c')
    (hw : c'.taken = w.reverse ++ c.taken) (ht : t.isName) : EndsName r := by
  obtain ⟨v, used, moves, h⟩ := @phrase_of_run .constant _ _ _ run
  obtain rfl := eq_of_taken moves hw
  rcases h with ((h | h) | h) | h
  · obtain ⟨s, -, rfl⟩ := map_iff.1 h
    exact ht.elim
  · obtain ⟨n, -, rfl⟩ := map_iff.1 h
    exact ht.elim
  · obtain ⟨f, truth, rfl⟩ := map_iff.1 h
    obtain ⟨word, hword, rfl⟩ := bind_pure_iff.1 truth
    change word.kind = .identifier at ht
    rcases hword with ⟨-, hk⟩ | ⟨-, hk⟩ <;> simp [hk] at ht
  · cases v with
    | nil => exact (Parser.advances_fullIdent.bind_left _ h).elim
    | cons l v =>
      have kind : l.token.kind = .identifier :=
        Parser.advances_fullIdent.leads_bind Parser.leads_fullIdent _ _ _ h
      obtain ⟨c₁, look, -, taken, ahead⟩ := Parser.look_ahead hc
      rw [Parser.constant, look, kind] at run
      obtain ⟨f, c₂, run, result⟩ := Parser.bind_eq_ok.1 run
      cases result
      exact Parser.endsName_of_run run ahead (by rw [hw, taken])

theorem stops_of_run {nd : Node} {c c' : Cursor} {w : List Lexeme} {r : List (Option Item)}
    {t : nd.Tree} (hc : c.ahead = answers w ++ r) (run : nd.parser c = .ok t c')
    (hw : c'.taken = w.reverse ++ c.taken) : nd.Stops t r := by
  cases nd with
  | file => exact Parser.ended_of_run run hc hw
  | fullIdent => exact Parser.endsName_of_run run hc hw
  | constant => exact endsName_of_constant hc run hw
  | _ => trivial

/-- Nothing is looked at behind a text at the end of the input. -/
theorem stops_nil (nd : Node) (t : nd.Tree) : nd.Stops t [] := by
  have ends : EndsName [] := ⟨none, rfl, nofun⟩
  cases nd with
  | file => rfl
  | fullIdent => exact ends
  | constant => exact fun _ => ends
  | _ => trivial

/-- A text stands for one tree: the one that is read from it. -/
theorem phrase_unique {nd : Node} {ts : List Token} {t t' : nd.Tree} (h : nd.phrase ts t)
    (h' : nd.phrase ts t') : t = t' := by
  let w : List Lexeme := ts.map fun u => ⟨u, .at 0⟩
  have hw : tokens w = ts := by simp [w, tokens, Function.comp_def]
  have hc : (Cursor.ofAnswers (answers w)).ahead = answers w ++ [] := by simp
  obtain ⟨c, run, -⟩ := runs_of_phrase hc (hw.symm ▸ h) (nd.stops_nil t)
  obtain ⟨c', run', -⟩ := runs_of_phrase hc (hw.symm ▸ h') (nd.stops_nil t')
  rw [run] at run'
  exact (EStateM.Result.ok.inj run').1

/-- Every parser accepts exactly the texts of its production and builds the tree they stand for:
what it takes is such a text; it takes those that are ahead of it and end there, without touching
what follows; and no text stands for two trees. -/
theorem parser_exact (nd : Node) :
    (∀ c t c', nd.parser c = .ok t c' →
      ∃ w, c'.taken = w.reverse ++ c.taken ∧ nd.phrase (tokens w) t) ∧
    (∀ (c : Cursor) w r t, c.ahead = answers w ++ r →
      ((∃ c', nd.parser c = .ok t c' ∧ c'.taken = w.reverse ++ c.taken ∧
          (r.head? ≠ some none → c'.ahead = r)) ↔
        nd.phrase (tokens w) t ∧ nd.Stops t r)) ∧
    (∀ ts t t', nd.phrase ts t → nd.phrase ts t' → t = t') := by
  refine ⟨fun c t c' run => ?_, fun c w r t hc => ⟨?_, ?_⟩, fun ts t t' => phrase_unique⟩
  · obtain ⟨w, used, moves, h⟩ := phrase_of_run run
    exact ⟨w, moves.taken, h⟩
  · rintro ⟨c', run, hw, -⟩
    obtain ⟨v, used, moves, h⟩ := phrase_of_run run
    obtain rfl := eq_of_taken moves hw
    exact ⟨h, stops_of_run hc run hw⟩
  · rintro ⟨h, hr⟩
    obtain ⟨c', run, hw⟩ := runs_of_phrase hc h hr
    obtain ⟨v, used, moves, -⟩ := phrase_of_run run
    obtain rfl := eq_of_taken moves hw
    exact ⟨c', run, hw, moves.ahead_eq hc⟩

/-- A package statement is read in front of a failure, which stays where it is. -/
theorem parser_exact_package :
    let keyword : Lexeme := ⟨⟨.keyword .packageKw, "package"⟩, ⟨0, 7⟩⟩
    let name : Lexeme := ⟨⟨.identifier, "a"⟩, ⟨8, 9⟩⟩
    let semicolon : Lexeme := ⟨⟨.semicolon, ";"⟩, ⟨9, 10⟩⟩
    ∃ c', Node.package.parser (.ofAnswers (answers [keyword, name, semicolon] ++
          [some (.failure ⟨10, 11⟩)])) = .ok ⟨⟨[name.token]⟩⟩ c' ∧
        c'.taken = [semicolon, name, keyword] ∧ c'.ahead = [some (.failure ⟨10, 11⟩)] := by
  intro keyword name semicolon
  have package : Grammar.package (tokens [keyword, name, semicolon]) ⟨⟨[name.token]⟩⟩ :=
    Grammar.text_package rfl (Grammar.text_name rfl) rfl
  obtain ⟨c', run, taken, left⟩ :=
    ((parser_exact .package).2.1 (.ofAnswers _) [keyword, name, semicolon]
      [some (.failure ⟨10, 11⟩)] _ rfl).2 ⟨package, trivial⟩
  exact ⟨c', run, taken, left (by simp)⟩

end Node

end ProtoSchema
