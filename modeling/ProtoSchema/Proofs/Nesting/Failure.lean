import ProtoSchema.Proofs.Lookahead.Unread
import ProtoSchema.Proofs.Nesting.Scope

/-! # Failures within scopes

A node that cannot be read within others fails as it does by itself: with the same error, which
points at the same place, and at the same place of the source. What the scopes around it have taken
and closed before only stands in front of what it has taken and closed. -/

namespace ProtoSchema

open Cursor

namespace Parser

variable {c d : Cursor} {t : Token} {k : TokenKind} {n : Node}

theorem passes_statement {found : List Statement} (look : peek c = .ok (some t) d)
    (child : Scope.file.child t.kind = some n) : Passes (statement found) c n.parser d := by
  rw [statement, peekKind_bind]
  refine .behind look ?_
  rw [Option.map_some]
  generalize t.kind = k at child
  cases k with
  | keyword word =>
    -- a package statement is read before it is held against an earlier one
    have package : Passes (onlyPackage found) d package d :=
      .behind (p := get) rfl (Passes.refl _ d).first
    cases word <;> cases child
    case packageKw.refl => exact package.first
    all_goals exact (Passes.refl _ d).first
  | _ => cases child

/-- What has been found and what is still to come of a file name one package at most. -/
def Few (found rest : List Statement) (c : Cursor) : Prop :=
  Known found c ∧ Grammar.packages found + Grammar.packages rest ≤ 1

theorem few_statement {found rest : List Statement} {s : Statement} {w : List Lexeme}
    {r : List (Option Item)} (h : Grammar.statement (tokens w) s) (few : Few found (s :: rest) c)
    (hc : c.ahead = answers w ++ r) :
    ∃ s' d, statement found c = .ok (some s') d ∧ c.Path d ∧ d.taken = w.reverse ++ c.taken ∧
      d.ahead = r ∧ Few (s' :: found) rest d := by
  obtain ⟨known, one⟩ := few
  have total : Grammar.packages found + Grammar.packages (s :: rest) =
      Grammar.packages (s :: found) + Grammar.packages rest := by
    rw [packages_cons, packages_cons]
    omega
  have few : Grammar.packages found ≤ 1 := by omega
  rcases statement_run h hc few with ⟨-, s', d, run, same, taken, ahead⟩ | ⟨many, -⟩
  · obtain ⟨path, known'⟩ := (traces_statement known).ok _ _ run
    exact ⟨s', d, run, path, taken, ahead, known' s' rfl, by rwa [packages_unplaced same, ← total]⟩
  · omega

theorem passes_messageMember (child : Scope.message.child k = some n) :
    Passes (messageMember message (some k)) d n.parser d := by
  cases k with
  | keyword word => cases word <;> cases child <;> exact (Passes.refl _ d).first
  | mark m => cases m <;> cases child <;> exact (Passes.refl _ d).first
  | _ =>
    cases child
    exact (Passes.refl _ d).first

theorem passes_enumMember (child : Scope.enum.child k = some n) :
    Passes (enumMember (some k)) d n.parser d := by
  cases k with
  | keyword word => cases word <;> cases child <;> exact (Passes.refl _ d).first
  | mark m => cases m <;> cases child <;> exact (Passes.refl _ d).first
  | _ =>
    cases child
    exact (Passes.refl _ d).first

theorem field_of_child (child : Scope.oneof.child k = some n) :
    n = .field ∧ k ≠ .keyword .repeatedKw := by
  cases k with
  | keyword word => cases word <;> cases child <;> exact ⟨rfl, by decide⟩
  | mark m => cases m <;> cases child <;> exact ⟨rfl, by decide⟩
  | _ =>
    cases child
    exact ⟨rfl, nofun⟩

/-- A field of a oneof is a field that is not repeated. -/
theorem passes_oneofField {l : Lexeme} (held : d.held = some l)
    (child : Scope.oneof.child l.token.kind = some n) : Passes oneofField d n.parser d := by
  obtain ⟨rfl, single⟩ := field_of_child child
  have look := peek_of_held held
  have other : some l.token.kind ≠ some (.keyword .repeatedKw) :=
    fun same => single (Option.some.inj same)
  have rest : field d = fieldRest false d := by
    rw [field, takeIf_eq, bind_assoc, Parser.bind_of_ok look, Option.map_some, if_neg other,
      pure_bind]
    rfl
  have rest' : oneofField d = fieldRest false d := by
    rw [oneofField, peekKind_bind, Parser.bind_of_ok look, Option.map_some]
    generalize some l.token.kind = found at other
    split
    · exact absurd rfl other
    · rfl
  intro e d' run
  exact rest'.trans (rest.symm.trans run)

end Parser

namespace Scope

variable {s outer : Scope} {n : Node} {ts : List Token} {w : List Lexeme} {l : Lexeme}
  {r : List (Option Item)} {c : Cursor}

theorem ne_rightBrace {k : TokenKind} (block : s ≠ .file) (child : s.child k = some n) :
    k ≠ .rightBrace := by
  rintro rfl
  cases s with
  | file => exact block rfl
  | _ => cases child

theorem comes_file {us vs : List Token} {version : SyntaxDecl} {statements : List Statement}
    (head : Grammar.syntaxDecl us version) (members : Phrase.many Grammar.statement vs statements)
    (one : Grammar.packages statements ≤ 1) (hw : tokens w = us ++ vs)
    (hc : c.ahead = answers w ++ some (.token l) :: r) (child : file.child l.token.kind = some n) :
    ∃ d, c.Comes w l r d ∧ Passes Parser.file c n.parser d := by
  obtain ⟨u, v, rfl, rfl, rfl⟩ := tokens_eq_append hw
  rw [answers_append, List.append_assoc] at hc
  obtain ⟨c₁, run, taken, ahead⟩ :=
    Parser.accepts_syntaxDecl u version _ _ (Nat.lt_succ_self _) head rfl c hc
  have path := ((Parser.composed_syntaxDecl.traces c.ready).ok version c₁ run).1
  obtain ⟨found, c₂, path', taken', ahead', passes⟩ :=
    Parser.passes_collectWithin (I := Parser.Few) Parser.advances_statement
      Parser.few_statement members rfl ahead (Nat.lt_succ_self _)
      ⟨List.forall_mem_nil _, by simpa [Grammar.packages] using one⟩
  obtain ⟨d, comes, look⟩ := comes_of_ahead ahead'
  refine ⟨d, ?_, ?_⟩
  · have whole := (comes.behind path' taken').behind path taken
    rwa [List.append_nil] at whole
  · have loop : Passes (Parser.collect Parser.statement) c₁ n.parser d :=
      passes.trans (Parser.passes_statement look child)
    exact .behind run loop.first

/-- Where a scope has come to a token with which a member starts, an error of this member is its
own. -/
theorem Begins.comes (h : Begins s ts) (hw : tokens w = ts)
    (hc : c.ahead = answers w ++ some (.token l) :: r) (child : s.child l.token.kind = some n) :
    ∃ d, c.Comes w l r d ∧ Passes s.node.parser c n.parser d := by
  cases h with
  | file head members one => exact comes_file head members one hw hc child
  | message head members =>
    obtain ⟨d, comes, passes⟩ := Parser.passes_block
      (f := fun name body => do
        Cursor.close (.message name); return (⟨name, .ofMembers body⟩ : Message))
      (Parser.advances_messageMember Parser.advances_message)
      (Parser.leads_messageMember Parser.advances_message Parser.leads_message)
      (Parser.composed_messageMember Parser.composed_message)
      (fun n => Parser.accepts_messageMember Parser.advances_message Parser.leads_message
        Parser.accepts_message) head members hw hc (ne_rightBrace (s := .message) nofun child)
    refine ⟨d, comes, ?_⟩
    change Passes Parser.message c n.parser d
    rw [Parser.message_eq]
    exact passes.trans (Parser.passes_messageMember child)
  | enum head members =>
    obtain ⟨d, comes, passes⟩ := Parser.passes_block
      (f := fun name body => do Cursor.close (.enum name); return (⟨name, .ofMembers body⟩ : Enum))
      Parser.advances_enumMember Parser.leads_enumMember Parser.composed_enumMember
      (fun n => Parser.accepts_enumMember) head members hw hc
      (ne_rightBrace (s := .enum) nofun child)
    exact ⟨d, comes, passes.trans (Parser.passes_enumMember child)⟩
  | oneof head members =>
    obtain ⟨d, comes, passes⟩ := Parser.passes_block (m := fun _ => Parser.oneofField)
      (f := fun name fields => do
        Cursor.close (.oneof name fields.length); return (⟨name, fields⟩ : Oneof))
      (Parser.advances_fieldRest _) Parser.leads_oneofMember
      (fun _ => Parser.composed_oneofField.looked)
      (fun n => Parser.accepts_oneofMember) head members hw hc
      (ne_rightBrace (s := .oneof) nofun child)
    exact ⟨d, comes, passes.trans (Parser.passes_oneofField comes.held child)⟩

/-- The same at any depth. -/
theorem Opens.comes (h : Opens outer s ts) (hw : tokens w = ts)
    (hc : c.ahead = answers w ++ some (.token l) :: r) (child : s.child l.token.kind = some n) :
    ∃ d, c.Comes w l r d ∧ Passes outer.node.parser c n.parser d := by
  induction h generalizing w l r n with
  | here begins => exact begins.comes hw hc child
  | @within middle inner us t vs opens begins within ih =>
    obtain ⟨u, v, rfl, rfl, hv⟩ := tokens_eq_append hw
    obtain ⟨l', v, rfl, rfl, rfl⟩ := List.map_eq_cons_iff.1 hv
    rw [answers_append, List.append_assoc] at hc
    obtain ⟨c₁, comes, passes⟩ := ih rfl hc within
    obtain ⟨d, comes', passes'⟩ := begins.comes (w := l' :: v) rfl comes.ahead child
    exact ⟨d, comes'.behind comes.path comes.taken, passes.trans passes'⟩

end Scope

/-! ## By itself and within others -/

/-- The blocks of the first tokens are the first ones. -/
theorem Logged.front {ts us : List Token} {es fs : List Block} (h : Logged (ts ++ us) (es ++ fs))
    (h' : Logged us fs) : Logged ts es := by
  rw [Logged, closings_append] at h
  have whole := h.length_eq
  have rest := h'.length_eq
  simp only [List.length_append, List.length_map] at whole
  have same : (closings ts).length = es.length := by omega
  have taken := List.forall₂_take es.length h
  rwa [List.take_left, ← same, List.take_left] at taken

/-- What a cursor has gone through that has come to a token from the start of some answers. -/
theorem Cursor.Comes.eq_behind {w : List Lexeme} {l : Lexeme} {r : List (Option Item)} {d : Cursor}
    (h : (ofAnswers (answers w ++ some (.token l) :: r)).Comes w l r d) :
    d = ((ofAnswers (some (.token l) :: r)).hold l r).behind
      ⟨[], none, 0, (answers w).reverse, w.reverse, d.closed⟩ := by
  have answered : d.answered = some (.token l) :: (answers w).reverse := by
    obtain ⟨v, used, moves⟩ := h.path.moves
    obtain rfl : v = w := by simpa using moves.taken.symm.trans h.taken
    obtain ⟨as, passed, filter⟩ := moves.passed
    obtain ⟨k, supply⟩ := moves.supply
    rw [h.held] at passed
    obtain rfl : used = as ++ [some (.token l)] := by simpa [ofAnswers] using passed
    have supply : answers v ++ (some (.token l) :: r ++ List.replicate k none) =
        as ++ some (.token l) :: r := by
      simpa [ofAnswers, h.pending] using supply
    -- no end was reported in front of the token
    obtain ⟨j, further⟩ := passed_eq filter supply
    cases j with
    | zero =>
      rw [List.replicate_zero, List.nil_append] at further
      rw [further] at supply
      rw [moves.answered, ← List.append_cancel_right supply]
      simp [ofAnswers]
    | succ j => cases (List.cons.inj further).1
  have stop := h.path.tidy rfl
  rw [Tidy, answered] at stop
  have taken := h.taken
  have held := h.held
  have pending := h.pending
  clear h
  obtain ⟨pending', held', stop', answered', taken', closed⟩ := d
  dsimp only at stop answered taken held pending
  subst stop answered taken held pending
  simp [Cursor.behind, hold, ofAnswers, lastStop, Item.span]

/-- Within other scopes, at any depth, a node fails as it does by itself: the outermost parser ends
with its error and leaves its cursor, behind the answers and lexemes in front of it and the blocks
that were closed among these. -/
theorem Scope.fails_as_child {outer s : Scope} {p : List Lexeme} {l : Lexeme}
    {rest : List (Option Item)} {n : Node} {e : ParseError} {d : Cursor}
    (opens : Opens outer s (tokens p)) (child : s.child l.token.kind = some n)
    (run : n.parser (.ofAnswers (some (.token l) :: rest)) = .error e d) :
    ∃ blocks, Logged (tokens p) blocks ∧
      outer.node.parser (.ofAnswers (answers p ++ some (.token l) :: rest)) =
        .error e { d with
          answered := d.answered ++ (answers p).reverse, taken := d.taken ++ p.reverse,
          closed := d.closed ++ blocks.reverse } := by
  obtain ⟨c, comes, passes⟩ := opens.comes (w := p) (r := rest)
    (c := .ofAnswers (answers p ++ some (.token l) :: rest)) rfl rfl child
  have here := comes.eq_behind
  have held := n.looksFirst.of_hold (c := .ofAnswers (some (.token l) :: rest)) rfl rfl
  have inner := (Node.composed (child_ne_file child)).behind
    ⟨[], none, 0, (answers p).reverse, p.reverse, c.closed⟩
    ((ofAnswers (some (.token l) :: rest)).hold l rest)
  rw [← here, held, run] at inner
  have whole := passes _ _ inner
  refine ⟨c.closed.reverse, ?_, by rw [List.reverse_reverse]; exact whole⟩
  obtain ⟨w, es, goes, logged⟩ := outer.node.reports.error _ _ _ (holds_none _) whole
  obtain ⟨u, fs, goes', logged'⟩ := n.reports.error _ _ _ (holds_none _) run
  have tokens_eq : w = p ++ u := by
    have taken := goes.taken
    rw [Cursor.behind, goes'.taken] at taken
    simpa [ofAnswers] using (congrArg List.reverse taken).symm
  have blocks_eq : es = c.closed.reverse ++ fs := by
    have closed := goes.closed
    rw [Cursor.behind, goes'.closed] at closed
    simpa [ofAnswers] using (congrArg List.reverse closed).symm
  rw [tokens_eq, blocks_eq, tokens_append] at logged
  exact logged.front logged'

/-- A number is missing in an enum within two messages. -/
theorem Scope.fails_as_child_number :
    let p : List Lexeme :=
      [⟨⟨.keyword .messageKw, "message"⟩, ⟨0, 7⟩⟩, ⟨⟨.identifier, "Outer"⟩, ⟨8, 13⟩⟩,
       ⟨⟨.leftBrace, "\x7b"⟩, ⟨14, 15⟩⟩, ⟨⟨.keyword .messageKw, "message"⟩, ⟨16, 23⟩⟩,
       ⟨⟨.identifier, "Inner"⟩, ⟨24, 29⟩⟩, ⟨⟨.leftBrace, "\x7b"⟩, ⟨30, 31⟩⟩,
       ⟨⟨.keyword .enumKw, "enum"⟩, ⟨32, 36⟩⟩, ⟨⟨.identifier, "E"⟩, ⟨37, 38⟩⟩,
       ⟨⟨.leftBrace, "\x7b"⟩, ⟨39, 40⟩⟩]
    let name : Lexeme := ⟨⟨.identifier, "A"⟩, ⟨41, 42⟩⟩
    let sign : Lexeme := ⟨⟨.equals, "="⟩, ⟨43, 44⟩⟩
    let value : Lexeme := ⟨⟨.identifier, "x"⟩, ⟨45, 46⟩⟩
    let rest : List (Option Item) := answers [sign, value]
    let e : ParseError := .unexpectedToken .decimalLiteral ⟨some value.token, ⟨45, 46⟩⟩
    let d : Cursor := ⟨[], some value, 46, (some (.token name) :: rest).reverse, [sign, name], []⟩
    Opens .message .enum (tokens p) ∧
      Node.enumField.parser (.ofAnswers (some (.token name) :: rest)) = .error e d ∧
      ∃ blocks, Logged (tokens p) blocks ∧
        Node.message.parser (.ofAnswers (answers p ++ some (.token name) :: rest)) =
          .error e { d with
            answered := d.answered ++ (answers p).reverse, taken := d.taken ++ p.reverse,
            closed := d.closed ++ blocks.reverse } := by
  intro p name sign value rest e d
  have outer : Begins .message (tokens (p.take 3)) :=
    .message (Grammar.text_blockHead rfl rfl rfl) .nil
  have inner : Begins .message (tokens ((p.drop 3).take 3)) :=
    .message (Grammar.text_blockHead rfl rfl rfl) .nil
  have enum : Begins .enum (tokens (p.drop 6)) := .enum (Grammar.text_blockHead rfl rfl rfl) .nil
  have opens : Opens .message .enum (tokens p) :=
    ((Opens.here outer).within inner rfl).within enum rfl
  have run : Node.enumField.parser (.ofAnswers (some (.token name) :: rest)) = .error e d := rfl
  have child : Scope.enum.child name.token.kind = some .enumField := rfl
  have fails := fails_as_child opens child run
  exact ⟨opens, run, fails⟩

end ProtoSchema
