import ProtoSchema.Node
import ProtoSchema.Proofs.Reading.Block

/-! # What parsers are made of

The parsers of all nodes but files are put together from a few operations: they look at the next
token, take the token they have seen, complain about what they have seen, and record that a block is
closed. What is true of every parser that is made in this way is proved by induction on how it is
made. -/

namespace ProtoSchema

/-- The errors about what stands at a cursor's place. -/
inductive Complaint where
  | unexpectedToken (expected : TokenKind)
  | unknownSyntax
  | invalidSyntaxKind (kind : TokenKind)
  | missingSyntaxSemicolon
  | invalidImport
  | expectedIdentifier
  | invalidConstant
  | expectedNumber
  | invalidFieldType
  | oneofFieldWithLabel
  | invalidStatement

namespace Complaint

def error : Complaint → Sighting → ParseError
  | .unexpectedToken expected, seen => .unexpectedToken expected seen
  | .unknownSyntax, seen => .unknownSyntax seen
  | .invalidSyntaxKind kind, seen => .invalidSyntaxKind kind seen.span
  | .missingSyntaxSemicolon, seen => .missingSyntaxSemicolon seen.span
  | .invalidImport, seen => .invalidImport seen
  | .expectedIdentifier, seen => .expectedIdentifier seen
  | .invalidConstant, seen => .invalidConstant seen
  | .expectedNumber, seen => .expectedNumber seen
  | .invalidFieldType, seen => .invalidFieldType seen
  | .oneofFieldWithLabel, seen => .oneofFieldWithLabel seen.span
  | .invalidStatement, seen => .invalidStatement seen

/-- What must have been found for a complaint that tells it by more than its text. -/
def Fits (q : Complaint) (found : Option Token) : Prop :=
  match q with
  | .invalidSyntaxKind kind => found.map Token.kind = some kind
  | .oneofFieldWithLabel => found.map Token.kind = some (.keyword .repeatedKw)
  | .invalidStatement => found.isSome
  | _ => True

theorem span_error (q : Complaint) (seen : Sighting) : (q.error seen).span = seen.span := by
  cases q <;> rfl

end Complaint

open Cursor

/-- Parsers made of single operations. If the next token has been looked at, it is also told which
one was seen, or that the input was at its end. -/
inductive Composed : {α : Type} → Option (Option Token) → Parser α → Prop
  | pure {α seen} (a : α) : Composed seen (pure a)
  | bind {α β seen} {p : Parser α} {f : α → Parser β} (hp : Composed seen p)
    (hf : ∀ a, Composed none (f a)) : Composed seen (p >>= f)
  | peek {α} {f : Option Token → Parser α} (h : ∀ t, Composed (some t) (f t)) :
    Composed none (peek >>= f)
  | take {t} : Composed (some (some t)) take
  | fail {α t} (q : Complaint) (fits : q.Fits t) : Composed (some t) (fail q.error : Parser α)
  | close {seen} (block : Block) : Composed seen (close block)
  | fault {α seen} (broken : Fault) : Composed seen (throw (.fault broken) : Parser α)
  | sized {α seen} {f : Nat → Parser α} (h : ∀ n, Composed seen (f n)) :
    Composed seen (get >>= fun c => f c.size)
  | looked {α seen} {p : Parser α} (h : Composed none p) : Composed seen p

namespace Composed

variable {α β : Type} {seen : Option (Option Token)} {p : Parser α}

theorem map {g : α → β} (h : Composed seen p) : Composed seen (p >>= fun a => Pure.pure (g a)) :=
  h.bind fun _ => .pure _

theorem look {f : Option TokenKind → Parser α} (h : ∀ t, Composed (some t) (f (t.map Token.kind))) :
    Composed none (peekKind >>= f) := by
  rw [peekKind_bind]
  exact peek h

theorem take_kind {t : Option Token} {k : TokenKind} (h : t.map Token.kind = some k) :
    Composed (some t) Cursor.take := by
  obtain ⟨t, rfl, -⟩ := Option.map_eq_some_iff.1 h
  exact take

theorem expect (k : TokenKind) : Composed none (expect k) := by
  apply look
  intro t
  split
  · next h => exact take_kind h
  · exact fail (.unexpectedToken k) trivial

theorem takeIf (k : TokenKind) : Composed none (takeIf k) := by
  apply look
  intro t
  split
  · next h => exact (take_kind h).map
  · exact pure none

theorem collect {step : List α → Parser (Option α)} (h : ∀ found, Composed none (step found)) :
    Composed none (Parser.collect step) := by
  have within (k : Nat) (found : List α) : Composed none (Parser.collectWithin step k found) := by
    induction k generalizing found with
    | zero => exact fault .noProgress
    | succ k ih =>
      refine (h found).bind fun o => ?_
      cases o with
      | none => exact pure _
      | some a => exact ih _
  exact sized fun n => within (n + 1) []

theorem nested {body : Parser α → Parser α}
    (h : ∀ inner, Composed none inner → Composed none (body inner)) :
    Composed none (Parser.nested body) := by
  have within (k : Nat) : Composed none (Parser.nestedWithin body k) := by
    induction k with
    | zero => exact fault .noProgress
    | succ k ih => exact h _ ih
  exact sized fun n => within (n + 1)

end Composed

/-! ## The productions -/

namespace Parser

variable {α : Type} {seen : Option (Option Token)}

theorem composed_identifier : Composed none identifier := by
  apply Composed.look
  intro t
  split
  · next h => exact .take_kind h
  · exact .fail .expectedIdentifier trivial

theorem composed_nameOf (segments : List Token) : Composed seen (nameOf segments) := by
  cases segments with
  | nil => exact .fault .emptyName
  | cons t ts => exact .pure _

theorem composed_fullIdent : Composed none fullIdent := by
  refine .bind composed_identifier fun first => .bind (.collect fun _ => ?_) fun rest =>
    composed_nameOf _
  refine (Composed.takeIf .dot).bind fun o => ?_
  cases o with
  | none => exact .pure none
  | some t => exact .map composed_identifier

theorem composed_sign : Composed none sign := by
  apply Composed.look
  intro t
  split
  · next h => exact (Composed.take_kind h).map
  · next h => exact (Composed.take_kind h).map
  · exact .pure none

theorem composed_signedNumber : Composed none signedNumber := by
  refine .bind composed_sign fun sign => .look fun t => ?_
  split
  · next h => exact (Composed.take_kind h).map
  · next h => exact (Composed.take_kind h).map
  · exact .fail .expectedNumber trivial

theorem composed_constant : Composed none constant := by
  apply Composed.look
  intro t
  have number : Composed (some t) (signedNumber >>= fun v => pure (Constant.number v)) :=
    .looked (.map composed_signedNumber)
  split
  · next h => exact (Composed.take_kind h).map
  · exact number
  · exact number
  · exact number
  · exact number
  · next h => exact (Composed.take_kind h).bind fun _ => (composed_nameOf _).map
  · next h => exact (Composed.take_kind h).bind fun _ => (composed_nameOf _).map
  · exact .looked (.map composed_fullIdent)
  · exact .fail .invalidConstant trivial

theorem composed_optionName : Composed none optionName := by
  apply Composed.look
  intro t
  split
  · next h =>
    refine (Composed.take_kind h).bind fun _ => .bind composed_fullIdent fun _ =>
      (Composed.expect _).bind fun _ => (Composed.takeIf _).bind fun o => ?_
    cases o with
    | none => exact .pure _
    | some t => exact .map composed_fullIdent
  · exact .looked (.map composed_fullIdent)

theorem composed_optionSetting : Composed none optionSetting :=
  .bind composed_optionName fun _ => (Composed.expect _).bind fun _ => .map composed_constant

theorem composed_optionStatement : Composed none optionStatement :=
  (Composed.expect _).bind fun _ => .bind composed_optionSetting fun _ => (Composed.expect _).map

theorem composed_optionList : Composed none optionList := by
  refine (Composed.takeIf _).bind fun o => ?_
  cases o with
  | none => exact .pure _
  | some t =>
    refine .bind composed_optionSetting fun first => .map (.collect fun _ => .look fun t => ?_)
    split
    · next h => exact (Composed.take_kind h).bind fun _ => .map composed_optionSetting
    · exact (Composed.expect _).map.looked

theorem composed_fieldType : Composed none fieldType := by
  apply Composed.look
  intro t
  split
  · next h => exact (Composed.take_kind h).map
  · exact .looked (.map composed_fullIdent)
  · next h => exact (Composed.take_kind h).bind fun _ => .map composed_fullIdent
  · exact .fail .invalidFieldType trivial

theorem composed_fieldRest (repeated : Bool) : Composed none (fieldRest repeated) :=
  .bind composed_fieldType fun _ => .bind composed_identifier fun _ =>
    (Composed.expect _).bind fun _ => (Composed.expect _).bind fun _ =>
    .bind composed_optionList fun _ => (Composed.expect _).map

theorem composed_field : Composed none field :=
  (Composed.takeIf _).bind fun label => composed_fieldRest label.isSome

theorem composed_oneofField : Composed none oneofField := by
  apply Composed.look
  intro t
  split
  · next h => exact .fail .oneofFieldWithLabel h
  · exact (composed_fieldRest false).looked

theorem composed_enumField : Composed none enumField :=
  .bind composed_identifier fun _ => (Composed.expect _).bind fun _ => .bind composed_sign fun _ =>
    (Composed.expect _).bind fun _ => .bind composed_optionList fun _ => (Composed.expect _).map

theorem composed_blockHead (word : Keyword) : Composed none (blockHead word) :=
  (Composed.expect _).bind fun _ => .bind composed_identifier fun _ => (Composed.expect _).map

/-- One member, or the closing brace. -/
theorem composed_member {member : Option TokenKind → Parser α}
    (h : ∀ t : Option Token, Composed (some t) (member (t.map Token.kind))) :
    Composed none (furtherMember member) := by
  apply Composed.look
  intro t
  split
  · next brace => exact (Composed.take_kind brace).map
  · exact (h t).map

theorem composed_members {member : Option TokenKind → Parser α}
    (h : ∀ t : Option Token, Composed (some t) (member (t.map Token.kind))) :
    Composed none (members member) := .collect fun _ => composed_member h

theorem composed_enumMember (t : Option Token) :
    Composed (some t) (enumMember (t.map Token.kind)) := by
  unfold enumMember
  split
  · exact .looked (.map composed_optionStatement)
  · next h => exact (Composed.take_kind h).map
  · exact .looked (.map composed_enumField)

theorem composed_enum : Composed none enum :=
  (composed_blockHead _).bind fun _ => (composed_members composed_enumMember).bind fun _ =>
    (Composed.close _).map

theorem composed_oneof : Composed none oneof :=
  (composed_blockHead _).bind fun _ =>
    (composed_members fun _ => composed_oneofField.looked).bind fun _ => (Composed.close _).map

theorem composed_messageMember {inner : Parser Message} (h : Composed none inner)
    (t : Option Token) : Composed (some t) (messageMember inner (t.map Token.kind)) := by
  unfold messageMember
  split
  · exact h.map.looked
  · exact .looked (.map composed_enum)
  · exact .looked (.map composed_oneof)
  · exact .looked (.map composed_optionStatement)
  · next h => exact (Composed.take_kind h).map
  · exact .looked (.map composed_field)

theorem composed_message : Composed none message :=
  .nested fun _ h => (composed_blockHead _).bind fun _ =>
    (composed_members (composed_messageMember h)).bind fun _ => (Composed.close _).map

theorem composed_versionLiteral : Composed none versionLiteral := by
  apply Composed.peek
  intro t
  split
  · split
    · exact .take
    · exact .fail .unknownSyntax trivial
  · exact .fail .unknownSyntax trivial
  · next kind text _ => exact .fail (.invalidSyntaxKind kind) rfl

theorem composed_syntaxDecl : Composed none syntaxDecl := by
  refine (Composed.expect _).bind fun _ => (Composed.expect _).bind fun _ =>
    .bind composed_versionLiteral fun _ => .look fun t => ?_
  split
  · next h => exact (Composed.take_kind h).map
  · exact .fail .missingSyntaxSemicolon trivial

theorem composed_importModifier : Composed none importModifier := by
  apply Composed.look
  intro t
  split
  · next h => exact (Composed.take_kind h).map
  · next h => exact (Composed.take_kind h).map
  · exact .pure none

theorem composed_importPath : Composed none importPath := by
  apply Composed.look
  intro t
  split
  · next h => exact .take_kind h
  · exact .fail .invalidImport trivial

theorem composed_importStatement : Composed none importStatement :=
  (Composed.expect _).bind fun _ => .bind composed_importModifier fun _ =>
    .bind composed_importPath fun _ => (Composed.expect _).map

theorem composed_package : Composed none package :=
  (Composed.expect _).bind fun _ => .bind composed_fullIdent fun _ => (Composed.expect _).map

end Parser

/-- Every node but a file is read by a parser that is made of single operations. -/
theorem Node.composed {n : Node} (h : n ≠ .file) : Composed none n.parser := by
  cases n with
  | file => exact absurd rfl h
  | syntaxDecl => exact Parser.composed_syntaxDecl
  | imported => exact Parser.composed_importStatement
  | package => exact Parser.composed_package
  | option => exact Parser.composed_optionStatement
  | fullIdent => exact Parser.composed_fullIdent
  | constant => exact Parser.composed_constant
  | signedNumber => exact Parser.composed_signedNumber
  | field => exact Parser.composed_field
  | enumField => exact Parser.composed_enumField
  | enum => exact Parser.composed_enum
  | oneof => exact Parser.composed_oneof
  | message => exact Parser.composed_message

end ProtoSchema
