import ProtoSchema.Proofs.Acceptance.Exact
import ProtoSchema.Proofs.Program.Path

/-! # Where nodes end

A token that is held is the last answer that was given. A parser that ends by taking a token
therefore leaves its cursor with nothing held and behind the last answer. All nodes end in this way
but for files, dotted names and constants. -/

namespace ProtoSchema

variable {α β : Type}

namespace Cursor

/-- That a token which is held was given last. -/
def Fresh (c : Cursor) : Prop := ∀ l, c.held = some l → c.answered.head? = some (some (.token l))

theorem Fresh.of_held {c : Cursor} (h : c.held = none) : c.Fresh := fun l hl => by
  cases h.symm.trans hl

theorem Step.fresh {c c' : Cursor} (h : Step c c') (fresh : c.Fresh) : c'.Fresh := by
  cases h with
  | look h =>
    cases h with
    | held => exact fresh
    | token =>
      rintro _ ⟨⟩
      rfl
    | ended held => exact .of_held held
    | exhausted held => exact .of_held held
  | release => nofun
  | close => exact fresh

theorem Path.fresh {c c' : Cursor} (h : Path c c') (fresh : c.Fresh) : c'.Fresh := by
  induction h with
  | refl => exact fresh
  | tail _ step ih => exact step.fresh ih

theorem fresh_ofAnswers (as : List (Option Item)) : (ofAnswers as).Fresh := nofun

/-- That a cursor holds nothing, and the lexeme that was given last was also taken last. -/
structure Released (c : Cursor) (l : Lexeme) : Prop where
  held : c.held = none
  answered : c.answered.head? = some (some (.token l))
  taken : c.taken.head? = some l

end Cursor

open Cursor

/-- That a parser ends by taking a token of one of some kinds. -/
def Lands (K : List TokenKind) (seen : Option (Option Token)) (p : Parser α) : Prop :=
  ∀ c a d, c.Fresh → c.Holds seen → p c = .ok a d → ∃ l, d.Released l ∧ l.token.kind ∈ K

namespace Lands

variable {K : List TokenKind} {seen : Option (Option Token)} {p : Parser α} {f : α → Parser β}

theorem fail (e : Sighting → ParseError) : Lands K seen (fail e : Parser α) := by
  rintro c a d - - ⟨⟩

theorem take {t : Option Token} {k : TokenKind} (h : t.map Token.kind = some k) (mem : k ∈ K) :
    Lands K (some t) take := by
  intro c a d fresh holds run
  obtain ⟨u, rfl, rfl⟩ := Option.map_eq_some_iff.1 h
  obtain ⟨l, held, rfl⟩ := Option.map_eq_some_iff.1 (holds _ rfl)
  rw [take_eq_release held] at run
  cases run
  exact ⟨l, ⟨rfl, fresh l held, rfl⟩, mem⟩

theorem bind (hp : Composed none p) (hf : ∀ a, Lands K none (f a)) : Lands K none (p >>= f) := by
  intro c b d fresh _ run
  obtain ⟨a, c', first, rest⟩ := Parser.bind_eq_ok.1 run
  obtain ⟨path, -⟩ := (hp.traces c.ready).ok a c' first
  exact hf a c' b d (path.fresh fresh) c'.holds_none rest

theorem map {g : α → β} (h : Lands K seen p) : Lands K seen (p >>= fun a => Pure.pure (g a)) := by
  intro c b d fresh holds run
  obtain ⟨a, c', first, rest⟩ := Parser.bind_eq_ok.1 run
  cases rest
  exact h c a _ fresh holds first

theorem peek {f : Option Token → Parser α} (h : ∀ t, Lands K (some t) (f t)) :
    Lands K none (peek >>= f) := by
  intro c a d fresh _ run
  obtain ⟨t, c', first, rest⟩ := Parser.bind_eq_ok.1 run
  have look := c.look_peek
  rw [first] at look
  exact h t c' a d ((Step.look look).fresh fresh) (.of_look look) rest

theorem look {f : Option TokenKind → Parser α} (h : ∀ t, Lands K (some t) (f (t.map Token.kind))) :
    Lands K none (peekKind >>= f) := by
  rw [peekKind_bind]
  exact peek h

theorem expect {k : TokenKind} (mem : k ∈ K) : Lands K none (expect k) := by
  apply look
  intro t
  split
  · next h => exact take h mem
  · exact fail _

theorem close {b : α → Block} {g : α → β} (h : Lands K none p) :
    Lands K none (do let a ← p; close (b a); return g a) := by
  intro c x d fresh _ run
  obtain ⟨a, c', first, rest⟩ := Parser.bind_eq_ok.1 run
  cases rest
  obtain ⟨l, ⟨held, answered, taken⟩, mem⟩ := h c a c' fresh c.holds_none first
  exact ⟨l, ⟨held, answered, taken⟩, mem⟩

/-- A collection ends as the step that gives nothing more. -/
theorem collect {step : List α → Parser (Option α)}
    (h : ∀ found c o d, c.Fresh → step found c = .ok o d →
      d.Fresh ∧ (o = none → ∃ l, d.Released l ∧ l.token.kind ∈ K)) :
    Lands K none (Parser.collect step) := by
  have within (k : Nat) (found : List α) : Lands K none (Parser.collectWithin step k found) := by
    induction k generalizing found with
    | zero => rintro c a d - - ⟨⟩
    | succ k ih =>
      intro c as d fresh _ run
      obtain ⟨o, c', first, rest⟩ := Parser.bind_eq_ok.1 run
      obtain ⟨fresh', released⟩ := h found c o c' fresh first
      cases o with
      | none =>
        cases rest
        exact released rfl
      | some a => exact ih _ c' as d fresh' c'.holds_none rest
  exact fun c => within (c.size + 1) [] c

/-- Members end with their closing brace. -/
theorem members {member : Option TokenKind → Parser α}
    (h : ∀ t : Option Token, Composed (some t) (member (t.map Token.kind))) :
    Lands [.rightBrace] none (Parser.members member) := by
  refine .collect fun _ c o d fresh run => ?_
  rw [peekKind_bind] at run
  obtain ⟨t, c', first, rest⟩ := Parser.bind_eq_ok.1 run
  have look := c.look_peek
  rw [first] at look
  have fresh' := (Step.look look).fresh fresh
  generalize kind : t.map Token.kind = k at rest
  split at rest
  · obtain ⟨l, released, mem⟩ := (take kind (List.mem_singleton_self _)).map c' o d fresh'
      (.of_look look) rest
    exact ⟨.of_held released.held, fun _ => ⟨l, released, mem⟩⟩
  · subst kind
    obtain ⟨path, -⟩ := ((h t).map.traces (Reads.ready_of_look look c.ready)).ok o d rest
    obtain ⟨a, _, -, rest⟩ := Parser.bind_eq_ok.1 rest
    cases rest
    exact ⟨path.fresh fresh', nofun⟩

/-- A parser that nests in itself ends as the outermost one does. -/
theorem nested {body : Parser α → Parser α}
    (composed : ∀ inner, Composed none inner → Composed none (body inner))
    (h : ∀ inner, Composed none inner → Lands K none (body inner)) :
    Lands K none (Parser.nested body) := by
  have inner (k : Nat) : Composed none (Parser.nestedWithin body k) := by
    induction k with
    | zero => exact .fault .noProgress
    | succ k ih => exact composed _ ih
  have within (k : Nat) : Lands K none (Parser.nestedWithin body k) := by
    cases k with
    | zero => rintro c a d - - ⟨⟩
    | succ k => exact h _ (inner k)
  exact fun c => within (c.size + 1) c

end Lands

namespace Parser

theorem lands_signedNumber : Lands [.decimalLiteral, .floatLiteral] none signedNumber := by
  refine .bind composed_sign fun sign => .look fun t => ?_
  split
  · next h => exact (Lands.take h (by decide)).map
  · next h => exact (Lands.take h (by decide)).map
  · exact .fail _

theorem lands_semicolon : Lands [.semicolon] none (expect .semicolon) :=
  .expect (List.mem_singleton_self _)

theorem lands_optionStatement : Lands [.semicolon] none optionStatement :=
  .bind (.expect _) fun _ => .bind composed_optionSetting fun _ => lands_semicolon.map

theorem lands_fieldRest (repeated : Bool) : Lands [.semicolon] none (fieldRest repeated) :=
  .bind composed_fieldType fun _ => .bind composed_identifier fun _ => .bind (.expect _) fun _ =>
    .bind (.expect _) fun _ => .bind composed_optionList fun _ => lands_semicolon.map

theorem lands_field : Lands [.semicolon] none field :=
  .bind (.takeIf _) fun label => lands_fieldRest label.isSome

theorem lands_enumField : Lands [.semicolon] none enumField :=
  .bind composed_identifier fun _ => .bind (.expect _) fun _ => .bind composed_sign fun _ =>
    .bind (.expect _) fun _ => .bind composed_optionList fun _ => lands_semicolon.map

theorem lands_enum : Lands [.rightBrace] none enum :=
  .bind (composed_blockHead _) fun name =>
    .close (b := fun _ => .enum name) (.members composed_enumMember)

theorem lands_oneof : Lands [.rightBrace] none oneof :=
  .bind (composed_blockHead _) fun name =>
    .close (b := fun fields => .oneof name fields.length)
      (.members fun _ => composed_oneofField.looked)

theorem lands_message : Lands [.rightBrace] none message := by
  refine .nested (fun inner h => ?_) fun inner h => ?_
  · exact (composed_blockHead _).bind fun _ =>
      (composed_members (composed_messageMember h)).bind fun _ => (Composed.close _).map
  · exact .bind (composed_blockHead _) fun name =>
      .close (b := fun _ => .message name) (.members (composed_messageMember h))

theorem lands_syntaxDecl : Lands [.semicolon] none syntaxDecl := by
  refine .bind (.expect _) fun _ => .bind (.expect _) fun _ =>
    .bind composed_versionLiteral fun _ => .look fun t => ?_
  split
  · next h => exact (Lands.take h (List.mem_singleton_self _)).map
  · exact .fail _

theorem lands_importStatement : Lands [.semicolon] none importStatement :=
  .bind (.expect _) fun _ => .bind composed_importModifier fun _ =>
    .bind composed_importPath fun _ => lands_semicolon.map

theorem lands_package : Lands [.semicolon] none package :=
  .bind (.expect _) fun _ => .bind composed_fullIdent fun _ => lands_semicolon.map

/-- What is held behind a dotted name is no point. -/
theorem held_of_fullIdent {c d : Cursor} {f : FullIdent} (run : fullIdent c = .ok f d) :
    ∀ l, d.held = some l → l.token.kind ≠ .dot := by
  obtain ⟨first, c₁, -, run⟩ := bind_eq_ok.1 run
  obtain ⟨rest, c₂, hrest, run⟩ := bind_eq_ok.1 run
  cases run
  obtain ⟨-, -, c₃, -, -, last⟩ := last_step (fun _ => reads_segment) (Nat.lt_succ_self _) hrest
  rw [segment, Accepts.takeIf_bind_eq, peekKind_bind] at last
  obtain ⟨t, c₄, seen, last⟩ := bind_eq_ok.1 last
  have look := c₃.look_peek
  rw [seen] at look
  intro l held dot
  by_cases ht : t.map Token.kind = some .dot
  · rw [if_pos ht] at last
    obtain ⟨_, _, -, last⟩ := bind_eq_ok.1 last
    obtain ⟨_, _, -, last⟩ := bind_eq_ok.1 last
    cases last
  · rw [if_neg ht] at last
    cases last
    refine ht ?_
    rw [← Holds.of_look look t rfl, held, Option.map_some, Option.map_some, dot]

end Parser

/-- The kinds of tokens with which a node ends. The last token does not tell that a file, a dotted
name or a constant is at its end. -/
def Node.lastKinds : Node → List TokenKind
  | .file | .fullIdent | .constant => []
  | .signedNumber => [.decimalLiteral, .floatLiteral]
  | .enum | .oneof | .message => [.rightBrace]
  | _ => [.semicolon]

theorem Node.lands {n : Node} (h : n.lastKinds ≠ []) : Lands n.lastKinds none n.parser := by
  cases n with
  | file => exact absurd rfl h
  | syntaxDecl => exact Parser.lands_syntaxDecl
  | imported => exact Parser.lands_importStatement
  | package => exact Parser.lands_package
  | option => exact Parser.lands_optionStatement
  | fullIdent => exact absurd rfl h
  | constant => exact absurd rfl h
  | signedNumber => exact Parser.lands_signedNumber
  | field => exact Parser.lands_field
  | enumField => exact Parser.lands_enumField
  | enum => exact Parser.lands_enum
  | oneof => exact Parser.lands_oneof
  | message => exact Parser.lands_message

end ProtoSchema
