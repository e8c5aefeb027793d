import ProtoSchema.Proofs.Acceptance.Production
import ProtoSchema.Proofs.Reading.Block

/-! # Accepting blocks

Members are told apart by their first tokens, none of which is a closing brace. Every block ends
with such a brace, so anything may follow it. -/

namespace ProtoSchema.Parser
open Cursor Phrase

variable {n : Nat} {α : Type}

/-- A member is told from the closing brace by its first token. -/
theorem accepts_member {member : Option TokenKind → Parser α} {P : Phrase α} (hA : P.Advances)
    (hK : P.Leads (· ≠ .rightBrace)) (h : Accepts n Eq (peekKind >>= member) P) :
    Accepts n Eq (furtherMember member) (some <$> P) := by
  have found := h.map (g := some)
  rw [bind_assoc] at found
  refine .look_congr hA.bind_left (hA.leads_bind hK) (fun k hk => ?_) found
  split
  · next h => exact absurd (Option.some.inj h) hk
  · rfl

theorem accepts_members {member : Option TokenKind → Parser α} {P : Phrase α} (hA : P.Advances)
    (hK : P.Leads (· ≠ .rightBrace)) (h : Accepts n Eq (peekKind >>= member) P) :
    Accepts n Eq (members member) (Grammar.members P) := by
  refine Accepts.anti (Accepts.collect (T := Eq) (R := kind .rightBrace) hA
    (fun _ => accepts_member hA hK h) (fun _ => ?_) suits_eq) ?_
  · exact .look_take (fun t ht => by rw [ht]) fun _ _ => .pure none
  · simp [Grammar.members, upTo]

theorem accepts_close {P : Phrase α} {f : Unit → Parser α} (block : Block)
    (h : Accepts n Eq (f ()) P) : Accepts n Eq (close block >>= f) P :=
  fun w a r r' hn hP hr c hc => h w a r r' hn hP hr { c with closed := block :: c.closed } hc

theorem accepts_blockHead (word : Keyword) :
    Accepts n Eq (blockHead word) (Grammar.blockHead word) :=
  (Accepts.expect _).bind fun _ => accepts_identifier.bind fun _ => (Accepts.expect _).map

theorem leads_blockHead (word : Keyword) : (Grammar.blockHead word).Leads (· = .keyword word) :=
  leads_kind_bind rfl

theorem accepts_empty {f : Option TokenKind → Parser α} (a : α)
    (hf : f (some .semicolon) = take >>= fun _ => pure a) :
    Accepts n Eq (peekKind >>= f) (Grammar.empty a) :=
  .look_take (fun t ht => by rw [ht, hf]) fun _ _ => .pure a

theorem advances_optionStatement : Grammar.optionStatement.Advances := (advances_kind _).bind_left

theorem leads_optionStatement : Grammar.optionStatement.Leads (· = .keyword .optionKw) :=
  leads_kind_bind rfl

theorem leads_enumField : Grammar.enumField.Leads (· = .identifier) :=
  leads_kind_bind rfl

theorem advances_enumField : Grammar.enumField.Advances := (advances_kind _).bind_left

theorem accepts_enumMember : Accepts n Eq (peekKind >>= enumMember) Grammar.enumMember := by
  refine .sup (.sup (accepts_empty _ rfl) ?_) ?_
  · exact .look_map advances_optionStatement leads_optionStatement (fun k hk => by rw [hk]; rfl)
      accepts_optionStatement
  · exact .look_map advances_enumField leads_enumField
      (fun k hk => by rw [hk]; rfl) accepts_enumField

theorem leads_enumMember : Grammar.enumMember.Leads (· ≠ .rightBrace) := by
  refine .sup (.sup ?_ ?_) ?_
  · exact leads_kind_bind (by simp)
  · exact advances_optionStatement.leads_bind (leads_optionStatement.mono fun _ h => by simp [h])
  · exact advances_enumField.leads_bind (leads_enumField.mono fun _ h => by simp [h])

theorem accepts_enum : Accepts n Eq enum Grammar.enum :=
  (accepts_blockHead _).bind fun name =>
    (accepts_members advances_enumMember leads_enumMember accepts_enumMember).bind fun _ =>
      accepts_close (.enum name) (.pure _)

theorem advances_enum : Grammar.enum.Advances := (advances_blockHead _).bind_left

theorem leads_enum : Grammar.enum.Leads (· = .keyword .enumKw) :=
  (advances_blockHead _).leads_bind (leads_blockHead _)

theorem TypeStart.ne_rightBrace {k : TokenKind} (h : TypeStart k) : k ≠ .rightBrace := by
  rintro rfl
  rcases h with h | h | h <;> cases h

theorem accepts_oneofMember :
    Accepts n Eq (peekKind >>= fun _ => oneofField) (Grammar.fieldRest false) :=
  .look (advances_fieldRest _) (leads_fieldRest _) (fun _ _ => rfl) accepts_oneofField

theorem leads_oneofMember : (Grammar.fieldRest false).Leads (· ≠ .rightBrace) :=
  (leads_fieldRest _).mono fun _ h => h.ne_rightBrace

theorem accepts_oneof : Accepts n Eq oneof Grammar.oneof :=
  (accepts_blockHead _).bind fun name =>
    have members := accepts_members (advances_fieldRest _) leads_oneofMember accepts_oneofMember
    members.bind fun fields => accepts_close (.oneof name fields.length) (.pure _)

theorem advances_oneof : Grammar.oneof.Advances := (advances_blockHead _).bind_left

theorem leads_oneof : Grammar.oneof.Leads (· = .keyword .oneofKw) :=
  (advances_blockHead _).leads_bind (leads_blockHead _)

theorem advances_field : Grammar.field.Advances := .bind_right fun _ => advances_fieldRest _

theorem leads_field : Grammar.field.Leads fun k => TypeStart k ∨ k = .keyword .repeatedKw := by
  refine .bind (.sup ?_ (leads_pure _)) fun _ => (leads_fieldRest _).mono fun _ => .inl
  exact (advances_kind _).leads_bind ((leads_kind _).mono fun _ => .inr)

theorem messageMember_of_field {inner : Parser Message} {k : TokenKind}
    (h : TypeStart k ∨ k = .keyword .repeatedKw) :
    messageMember inner (some k) = field >>= fun f => pure (.field f) := by
  rcases h with (h | rfl | rfl) | rfl
  · cases k <;> cases h
    rfl
  · rfl
  · rfl
  · rfl

theorem accepts_messageMember {inner : Parser Message} {P : Phrase Message} (hA : P.Advances)
    (hK : P.Leads (· = .keyword .messageKw)) (h : Accepts n Eq inner P) :
    Accepts n Eq (peekKind >>= messageMember inner) (Grammar.messageMember P) := by
  refine .sup (.sup (.sup (.sup (.sup (accepts_empty _ rfl) ?_) ?_) ?_) ?_) ?_
  · exact .look_map hA hK (fun k hk => by rw [hk]; rfl) h
  · exact .look_map advances_enum leads_enum (fun k hk => by rw [hk]; rfl) accepts_enum
  · exact .look_map advances_oneof leads_oneof (fun k hk => by rw [hk]; rfl) accepts_oneof
  · exact .look_map advances_optionStatement leads_optionStatement (fun k hk => by rw [hk]; rfl)
      accepts_optionStatement
  · exact .look_map advances_field leads_field (fun k hk => messageMember_of_field hk) accepts_field

theorem leads_messageMember {P : Phrase Message} (hA : P.Advances)
    (hK : P.Leads (· = .keyword .messageKw)) :
    (Grammar.messageMember P).Leads (· ≠ .rightBrace) := by
  refine .sup (.sup (.sup (.sup (.sup ?_ ?_) ?_) ?_) ?_) ?_
  · exact leads_kind_bind (by simp)
  · exact hA.leads_bind (hK.mono fun _ h => by simp [h])
  · exact advances_enum.leads_bind (leads_enum.mono fun _ h => by simp [h])
  · exact advances_oneof.leads_bind (leads_oneof.mono fun _ h => by simp [h])
  · exact advances_optionStatement.leads_bind (leads_optionStatement.mono fun _ h => by simp [h])
  · refine advances_field.leads_bind (leads_field.mono fun _ h => ?_)
    rcases h with h | rfl
    · exact h.ne_rightBrace
    · simp

theorem leads_message : Grammar.message.Leads (· = .keyword .messageKw) := by
  rw [← Grammar.messageOf_message]
  exact (advances_blockHead _).leads_bind (leads_blockHead _)

theorem accepts_message : Accepts n Eq message Grammar.message := by
  refine .nested fun n inner hinner => ?_
  rw [← Grammar.messageOf_message]
  apply (accepts_blockHead .messageKw).bind_of_advances (advances_blockHead _)
  intro name
  exact (accepts_members (advances_messageMember advances_message)
    (leads_messageMember advances_message leads_message)
    (accepts_messageMember advances_message leads_message hinner)).bind fun _ =>
      accepts_close (.message name) (.pure _)

end ProtoSchema.Parser
