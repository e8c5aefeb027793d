import ProtoSchema.Proofs.Phrase.Grammar
import ProtoSchema.Proofs.Reading.Repetition

/-! # The productions that do not nest

Each parser of a name, a constant, an option, a field or a statement reads its production. -/

namespace ProtoSchema.Parser
open Cursor Phrase

variable {n : Nat} {α : Type}

theorem reads_identifier : Reads n none identifier Grammar.identifier := by
  apply Reads.look
  intro t
  split
  · next h => exact .take_kind h
  · exact .fail (viable_kind _) (fun s t ht => ⟨[], t, rfl, ht⟩) fun c h => ⟨rfl, rfl, h⟩

/-- A further segment of a dotted name, or none if no point follows. -/
def segment : Parser (Option Token) := do
  match ← takeIf .dot with
  | some _ => return some (← identifier)
  | none => return none

theorem reads_segment :
    Reads n none segment (orStop (kind .dot >>= fun _ => Grammar.identifier) (pure ())) := by
  refine Reads.mono (Reads.takeIf_bind (fun _ => reads_identifier.map) (.pure none)) ?_
  exact sup_le_sup (map_bind ..).ge (map_pure (fun _ => none) ()).ge

theorem reads_fullIdent : Reads n none fullIdent Grammar.fullIdent :=
  reads_identifier.bind fun _ => (Reads.mono (Reads.collect (advances_kind .dot).bind_left
    (viable_pure ()) fun _ => reads_segment) upTo_pure.le).bind fun _ => .pure _

theorem reads_sign : Reads n none sign (optional Grammar.sign) := by
  apply Reads.look
  intro t
  split
  · next h => exact (Reads.take_kind h).map.mono (le_sup_of_le_left (map_mono le_sup_left))
  · next h => exact (Reads.take_kind h).map.mono (le_sup_of_le_left (map_mono le_sup_right))
  · exact (Reads.pure none).mono le_sup_right

theorem reads_signedNumber : Reads n none signedNumber Grammar.signedNumber := by
  refine reads_sign.bind fun sign => .look fun t => ?_
  split
  · next h => exact (Reads.take_kind h).map.mono (bind_mono le_sup_left fun _ => le_rfl)
  · next h => exact (Reads.take_kind h).map.mono (bind_mono le_sup_right fun _ => le_rfl)
  · have start (t : Token) (h : t.kind = .decimalLiteral ∨ t.kind = .floatLiteral) :
        ((kind .decimalLiteral ⊔ kind .floatLiteral) >>= fun number =>
          (pure ⟨sign, number⟩ : Phrase SignedNumber)).Viable [t] :=
      viable_of_text (text_bind_pure (h.imp text_kind text_kind))
    exact .fail (start ⟨.decimalLiteral, ""⟩ (.inl rfl)).front (fun s t ht => start t ht)
      fun c h => ⟨rfl, rfl, h⟩

theorem viable_fullIdent (t : Token) (h : t.kind = .identifier) : Grammar.fullIdent.Viable [t] :=
  viable_of_text (Grammar.text_name h)

theorem viable_signedNumber (t : Token)
    (h : t.kind ∈ [.plus, .minus, .decimalLiteral, .floatLiteral]) :
    Grammar.signedNumber.Viable [t] := by
  have signed (hs : Grammar.sign [t] t) : Grammar.signedNumber.Viable [t] :=
    ⟨[⟨.decimalLiteral, ""⟩], _, text_bind (text_some hs) (text_bind_pure (.inl (text_kind rfl)))⟩
  have bare (hn : (kind .decimalLiteral ⊔ kind .floatLiteral) [t] t) :
      Grammar.signedNumber.Viable [t] :=
    viable_of_text (text_bind text_none (text_bind_pure hn))
  simp only [List.mem_cons, List.not_mem_nil, or_false] at h
  rcases h with h | h | h | h
  · exact signed (.inl (text_kind h))
  · exact signed (.inr (text_kind h))
  · exact bare (.inl (text_kind h))
  · exact bare (.inr (text_kind h))

theorem viable_constant (t : Token)
    (h : t.kind ∈ [.stringLiteral, .plus, .minus, .decimalLiteral, .floatLiteral,
      .keyword .trueKw, .keyword .falseKw, .identifier]) : Grammar.constant.Viable [t] := by
  have number (hn : t.kind ∈ [.plus, .minus, .decimalLiteral, .floatLiteral]) :
      Grammar.constant.Viable [t] :=
    (viable_map _ (viable_signedNumber t hn)).mono Grammar.number_le_constant
  have truth (hw : (kind (.keyword .trueKw) ⊔ kind (.keyword .falseKw)) [t] t) :
      Grammar.constant.Viable [t] :=
    (viable_map _ (viable_map _ (viable_of_text hw))).mono Grammar.truth_le_constant
  simp only [List.mem_cons, List.not_mem_nil, or_false] at h
  rcases h with h | h | h | h | h | h | h | h
  · exact (viable_map _ (viable_of_text (text_kind h))).mono Grammar.string_le_constant
  · exact number (by simp [h])
  · exact number (by simp [h])
  · exact number (by simp [h])
  · exact number (by simp [h])
  · exact truth (.inl (text_kind h))
  · exact truth (.inr (text_kind h))
  · exact (viable_map _ (viable_fullIdent t h)).mono Grammar.name_le_constant

/-- A word that stands for a name, and what is made of it. -/
theorem truth_le {word : Keyword} (h : word = .trueKw ∨ word = .falseKw) :
    (kind (.keyword word) >>= fun t => pure (.reference ⟨[t]⟩)) ≤ Grammar.constant := by
  refine le_trans ?_ Grammar.truth_le_constant
  simp only [Grammar.truth, map_bind, map_pure]
  refine bind_mono ?_ fun _ => le_rfl
  rcases h with rfl | rfl
  · exact le_sup_left
  · exact le_sup_right

theorem reads_constant : Reads n none constant Grammar.constant := by
  apply Reads.look
  intro t
  have number : Reads n (some t) (signedNumber >>= fun v => pure (.number v)) Grammar.constant :=
    reads_signedNumber.map.looked.mono Grammar.number_le_constant
  split
  · next h => exact (Reads.take_kind h).map.mono Grammar.string_le_constant
  · exact number
  · exact number
  · exact number
  · exact number
  · next h => exact ((Reads.take_kind h).bind fun t => .pure _).mono (truth_le (.inl rfl))
  · next h => exact ((Reads.take_kind h).bind fun t => .pure _).mono (truth_le (.inr rfl))
  · next h => exact reads_fullIdent.map.looked.mono Grammar.name_le_constant
  · exact .fail (viable_constant ⟨.identifier, ""⟩ (by simp)).front
      (fun s t ht => viable_constant t ht) fun c h => ⟨rfl, rfl, h⟩

theorem reads_optionName : Reads n none optionName Grammar.optionName := by
  apply Reads.look
  intro t
  split
  · next h =>
    refine Reads.mono ((Reads.take_kind h).bind fun _ => reads_fullIdent.bind fun extension =>
      (Reads.expect .rightParen).bind fun _ =>
        Reads.takeIf_bind (fun _ => reads_fullIdent.map) (.pure _)) (le_sup_of_le_left ?_)
    refine bind_mono le_rfl fun _ => bind_mono le_rfl fun extension => bind_mono le_rfl fun _ => ?_
    rw [optional_bind, bind_assoc]
    exact sup_le_sup (bind_mono le_rfl fun _ => le_rfl) le_rfl
  · exact reads_fullIdent.map.looked.mono le_sup_right

theorem reads_optionSetting : Reads n none optionSetting Grammar.optionSetting :=
  reads_optionName.bind fun _ => (Reads.expect .equals).bind fun _ => reads_constant.map

theorem reads_optionStatement : Reads n none optionStatement Grammar.optionStatement :=
  (Reads.expect _).bind fun _ => reads_optionSetting.bind fun _ =>
    (Reads.expect _).bind fun _ => .pure _

/-- A further option of a list in brackets, or none if the list ends, whose bracket is taken. -/
def furtherOption : Parser (Option OptionSetting) := do
  match ← peekKind with
  | some .comma =>
    let _ ← take
    return some (← optionSetting)
  | _ =>
    let _ ← expect .rightBracket
    return none

theorem reads_furtherOption : Reads n none furtherOption
    (orStop (kind .comma >>= fun _ => Grammar.optionSetting) (kind .rightBracket)) := by
  apply Reads.look
  intro t
  split
  · next h =>
    refine ((Reads.take_kind h).bind fun _ => reads_optionSetting.map).mono (le_sup_of_le_left ?_)
    rw [map_bind]
  · exact (Reads.expect _).map.looked.mono le_sup_right

theorem reads_optionList : Reads n none optionList Grammar.optionList := by
  let others : Phrase (List OptionSetting) :=
    upTo (kind .comma >>= fun _ => Grammar.optionSetting) (kind .rightBracket) []
  refine Reads.mono (Reads.takeIf_bind
    (P := Grammar.optionSetting >>= fun first => others >>= fun rest => pure (first :: rest))
    (fun _ => ?_) (.pure [])) ?_
  · have further := Reads.collect (n := n) (advances_kind _).bind_left (viable_kind _)
      fun _ => reads_furtherOption
    exact reads_optionSetting.bind fun first => further.bind fun rest => .pure _
  · rw [sup_comm]
    refine sup_le_sup le_rfl (bind_mono le_rfl fun _ => bind_mono le_rfl fun first => ?_)
    simp [others, upTo]

theorem viable_fieldType (t : Token)
    (h : t.kind.isScalar ∨ t.kind = .identifier ∨ t.kind = .dot) :
    Grammar.fieldType.Viable [t] := by
  rcases h with h | h | h
  · exact (viable_map _ (viable_of_text ⟨rfl, h⟩)).mono Grammar.scalar_le_fieldType
  · exact (viable_map _ (viable_fullIdent t h)).mono Grammar.named_le_fieldType
  · have rest := (viable_fullIdent ⟨.identifier, ""⟩ rfl).front (u := [])
    exact (viable_cons h (rest.bind fun _ => viable_pure _)).mono Grammar.absolute_le_fieldType

theorem reads_fieldType : Reads n none fieldType Grammar.fieldType := by
  apply Reads.look
  intro t
  split
  · next s h =>
    have scalar : kind (.scalar s) ≤ one (·.kind.isScalar) :=
      fun ts t ⟨hts, ht⟩ => ⟨hts, by simp [ht, TokenKind.isScalar]⟩
    exact (Reads.take_kind h).map.mono ((map_mono scalar).trans Grammar.scalar_le_fieldType)
  · exact reads_fullIdent.map.looked.mono Grammar.named_le_fieldType
  · next h =>
    exact ((Reads.take_kind h).bind fun _ => reads_fullIdent.map).mono Grammar.absolute_le_fieldType
  · exact .fail (viable_fieldType ⟨.dot, ""⟩ (by simp)).front
      (fun s t ht => viable_fieldType t ht) fun c h => ⟨rfl, rfl, h⟩

theorem reads_fieldRest (repeated : Bool) :
    Reads n none (fieldRest repeated) (Grammar.fieldRest repeated) :=
  reads_fieldType.bind fun _ => reads_identifier.bind fun _ => (Reads.expect _).bind fun _ =>
    (Reads.expect _).bind fun _ => reads_optionList.bind fun _ => (Reads.expect _).map

theorem reads_field : Reads n none field Grammar.field :=
  (Reads.takeIf _).bind fun label => reads_fieldRest label.isSome

theorem reads_oneofField : Reads n none oneofField (Grammar.fieldRest false) := by
  apply Reads.look
  intro t
  split
  · exact .fail (reads_fieldRest (n := n) false).viable (fun s t ht => ht.elim) fun c h =>
      ⟨rfl, rfl, h⟩
  · exact (reads_fieldRest false).looked

theorem reads_enumField : Reads n none enumField Grammar.enumField :=
  reads_identifier.bind fun _ => (Reads.expect _).bind fun _ => reads_sign.bind fun _ =>
    (Reads.expect _).bind fun _ => reads_optionList.bind fun _ => (Reads.expect _).map

end ProtoSchema.Parser
