import ProtoSchema.Proofs.Reading.Production

/-! # Reading blocks

A body reads members up to its closing brace, whichever token starts the member. A message reads
the least phrase of its production, because its head is taken before any message within. -/

namespace ProtoSchema.Parser
open Cursor Phrase

variable {n : Nat} {α : Type}

theorem reads_close {P : Phrase α} {f : Unit → Parser α} (block : Block)
    (h : Reads n none (f ()) P) : Reads n none (close block >>= f) P where
  viable := h.viable
  run c hc := by
    have moves : c.Moves [] [] { c with closed := block :: c.closed } :=
      ⟨rfl, rfl, Nat.le_refl _, ⟨0, by simp⟩, [], by simp, rfl⟩
    exact .behind rfl moves (fun _ less => ⟨rfl, less⟩) (h.run _ ⟨hc.1, nofun⟩) fun _ _ ha => ha

theorem reads_blockHead (word : Keyword) :
    Reads n none (blockHead word) (Grammar.blockHead word) :=
  (Reads.expect _).bind fun _ => reads_identifier.bind fun _ => (Reads.expect _).map

theorem advances_blockHead (word : Keyword) : (Grammar.blockHead word).Advances :=
  (advances_kind _).bind_left

/-- A further member of a body, or none if the body ends, whose brace is taken. -/
def furtherMember (member : Option TokenKind → Parser α) : Parser (Option α) := do
  match ← peekKind with
  | some .rightBrace =>
    let _ ← take
    return none
  | kind => return some (← member kind)

theorem reads_furtherMember {member : Option TokenKind → Parser α} {P : Phrase α}
    (h : ∀ t : Option Token, t.map Token.kind ≠ some .rightBrace →
      Reads n (some t) (member (t.map Token.kind)) P) :
    Reads n none (furtherMember member) (orStop P (kind .rightBrace)) := by
  apply Reads.look
  intro t
  split
  · next ht => exact (Reads.take_kind ht).map.mono le_sup_right
  · next ht => exact (h t ht).map.mono le_sup_left

theorem reads_members {member : Option TokenKind → Parser α} {P : Phrase α} (hP : P.Advances)
    (h : ∀ t : Option Token, t.map Token.kind ≠ some .rightBrace →
      Reads n (some t) (member (t.map Token.kind)) P) :
    Reads n none (members member) (Grammar.members P) :=
  Reads.mono (Reads.collect hP (viable_kind .rightBrace) fun _ => reads_furtherMember h)
    (by simp [upTo, Grammar.members])

theorem reads_empty {t : Option Token} (a : α) (ht : t.map Token.kind = some .semicolon) :
    Reads n (some t) (take >>= fun _ => pure a) (Grammar.empty a) :=
  (Reads.take_kind ht).map

theorem advances_enumMember : Grammar.enumMember.Advances :=
  .sup (.sup (advances_kind _).bind_left (advances_map _ (advances_kind _).bind_left))
    (advances_map _ (advances_kind _).bind_left)

theorem reads_enumMember (t : Option Token) :
    Reads n (some t) (enumMember (t.map Token.kind)) Grammar.enumMember := by
  unfold enumMember
  split
  · exact reads_optionStatement.map.looked.mono Grammar.option_le_enumMember
  · next h => exact (reads_empty _ h).mono Grammar.empty_le_enumMember
  · exact reads_enumField.map.looked.mono Grammar.field_le_enumMember

theorem reads_enum : Reads n none enum Grammar.enum :=
  (reads_blockHead _).bind fun name =>
    (reads_members advances_enumMember fun t _ => reads_enumMember t).bind fun _ =>
      reads_close (.enum name) (.pure _)

theorem advances_fieldRest (repeated : Bool) : (Grammar.fieldRest repeated).Advances := by
  refine .bind_left (.sup (.sup (advances_map _ (advances_one _)) (advances_map _ ?_)) ?_)
  · exact (advances_kind _).bind_left
  · exact (advances_kind _).bind_left

theorem reads_oneof : Reads n none oneof Grammar.oneof :=
  (reads_blockHead _).bind fun name =>
    (reads_members (advances_fieldRest _) fun _ _ => reads_oneofField.looked).bind fun fields =>
      reads_close (.oneof name fields.length) (.pure _)

theorem advances_messageMember {P : Phrase Message} (hP : P.Advances) :
    (Grammar.messageMember P).Advances := by
  refine .sup (.sup (.sup (.sup (.sup ?_ ?_) ?_) ?_) ?_) ?_
  · exact (advances_kind _).bind_left
  · exact advances_map _ hP
  · exact advances_map _ (advances_blockHead _).bind_left
  · exact advances_map _ (advances_blockHead _).bind_left
  · exact advances_map _ (advances_kind _).bind_left
  · exact advances_map _ (.bind_right fun _ => advances_fieldRest _)

theorem advances_message : Grammar.message.Advances := by
  rw [← Grammar.messageOf_message]
  exact (advances_blockHead _).bind_left

theorem reads_messageMember {inner : Parser Message} {P : Phrase Message}
    (hinner : Reads n none inner P) (t : Option Token) :
    Reads n (some t) (messageMember inner (t.map Token.kind)) (Grammar.messageMember P) := by
  unfold messageMember
  split
  · exact hinner.map.looked.mono Grammar.message_le_messageMember
  · exact reads_enum.map.looked.mono Grammar.enum_le_messageMember
  · exact reads_oneof.map.looked.mono Grammar.oneof_le_messageMember
  · exact reads_optionStatement.map.looked.mono Grammar.option_le_messageMember
  · next h => exact (reads_empty _ h).mono Grammar.empty_le_messageMember
  · exact reads_field.map.looked.mono Grammar.field_le_messageMember

theorem viable_members (P : Phrase α) : (Grammar.members P).Viable [] :=
  viable_bind_append (P := many P) .nil (viable_last .rightBrace fun _ => [])

theorem viable_message : Grammar.message.Viable [] := by
  rw [← Grammar.messageOf_message]
  exact (reads_blockHead (n := 0) .messageKw).viable.bind fun _ =>
    (viable_members _).bind fun _ => viable_pure _

/-- The messages within a message are parsed where its loop has seen their keyword. -/
theorem furtherMember_congr {inner inner' : Parser Message} {c : Cursor}
    (same : ∀ d, peekKind c = .ok (some (.keyword .messageKw)) d → inner d = inner' d) :
    furtherMember (messageMember inner) c = furtherMember (messageMember inner') c := by
  unfold furtherMember
  cases look : peekKind c with
  | error e d => rw [bind_of_error look, bind_of_error look]
  | ok t d =>
    rw [bind_of_ok look, bind_of_ok look]
    split
    · rfl
    · unfold messageMember
      split
      · simp only [bind, EStateM.bind, same d look]
      all_goals rfl

theorem nests_message {inner inner' : Parser Message} {P : Phrase Message} (hP : P.Advances)
    (hinner : Reads n none inner P) (same : AgreeBelow n inner inner') :
    AgreeBelow n (members (messageMember inner)) (members (messageMember inner')) := by
  have step := reads_furtherMember fun t (_ : t.map Token.kind ≠ some .rightBrace) =>
    reads_messageMember hinner t
  refine .collect (fun _ c hc => ?_) fun _ _ _ _ hc run =>
    Reads.size_of_step (advances_messageMember hP) step hc run
  exact furtherMember_congr fun d look => same d (Nat.lt_of_le_of_lt (size_le_of_peekKind look) hc)

/-- A message in which a given parser reads the messages within. -/
def messageOf (inner : Parser Message) : Parser Message := do
  let name ← blockHead .messageKw
  let body ← members (messageMember inner)
  close (.message name)
  return ⟨name, .ofMembers body⟩

theorem deepens_messageOf : Deepens messageOf Grammar.message where
  viable := viable_message
  reads n inner hinner := by
    rw [← Grammar.messageOf_message]
    apply (reads_blockHead .messageKw).bind_of_advances (advances_blockHead _)
    intro name
    exact (reads_members (advances_messageMember advances_message) fun t _ =>
      reads_messageMember hinner t).bind fun _ => reads_close (.message name) (.pure _)
  agrees n inner inner' hinner same := by
    refine .bind_right (m := n) (fun name => (nests_message advances_message hinner same).bind_left)
      fun c name c' hc run => ?_
    have := Reads.size_of_run (advances_blockHead _) (reads_blockHead .messageKw) hc run
    omega

theorem reads_message : Reads n none message Grammar.message := deepens_messageOf.nested

theorem message_eq : message = messageOf message := deepens_messageOf.nested_eq

end ProtoSchema.Parser
