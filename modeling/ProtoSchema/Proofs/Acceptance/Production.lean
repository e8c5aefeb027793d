import ProtoSchema.Proofs.Acceptance.Rules
import ProtoSchema.Proofs.Reading.Production

/-! # Accepting the productions that do not nest

A dotted name is read as far as it goes, so it must not be followed by a point. What ends with such
a name inherits this; statements and fields end with a semicolon and may be followed by anything. -/

namespace ProtoSchema.Parser
open Cursor Phrase

variable {n : Nat}

theorem accepts_identifier : Accepts n Eq identifier Grammar.identifier :=
  .look_one fun _ ht => by rw [ht]

/-! ## Names and constants -/

theorem accepts_fullIdent : Accepts n (Past (· ≠ .dot)) fullIdent Grammar.fullIdent := by
  apply accepts_identifier.bind
  intro first
  have segment : (kind .dot >>= fun _ => Grammar.identifier).Advances := (advances_kind _).bind_left
  refine ((Accepts.collect segment (fun _ => ?_) (fun _ => ?_) suits_eq).anti upTo_pure.ge).map
  · rw [Accepts.takeIf_bind_eq, map_bind]
    exact .look_take (fun _ ht => if_pos (congrArg some ht)) fun _ _ => accepts_identifier.map
  · rw [Accepts.takeIf_bind_eq, map_pure]
    exact .look_stop fun _ ht => if_neg (Accepts.map_kind_ne ht)

theorem advances_fullIdent : Grammar.fullIdent.Advances := (advances_kind _).bind_left

theorem leads_fullIdent : Grammar.fullIdent.Leads (· = .identifier) :=
  leads_kind_bind rfl

theorem accepts_sign :
    Accepts n (Before fun k => k ≠ .plus ∧ k ≠ .minus) sign (optional Grammar.sign) := by
  refine .sup ?_ ?_
  · rw [Grammar.sign, kind, kind, one_sup_one]
    refine (Accepts.look_take (fun t ht => ?_) fun t _ => .pure (some t)).before
    rcases ht with ht | ht <;> rw [ht]
  · refine (Accepts.look_stop fun t ht => ?_).follow fun _ _ => past_of_before
    split
    · next h => exact absurd h (Accepts.map_kind_ne fun u hu => (ht u hu).1)
    · next h => exact absurd h (Accepts.map_kind_ne fun u hu => (ht u hu).2)
    · rfl

def NumberStart (k : TokenKind) : Prop := k = .decimalLiteral ∨ k = .floatLiteral

theorem accepts_signedNumber : Accepts n Eq signedNumber Grammar.signedNumber := by
  have number : kind .decimalLiteral ⊔ kind .floatLiteral = one (NumberStart ·.kind) := one_sup_one
  rw [Grammar.signedNumber, number]
  refine accepts_sign.bind_before (fun sign => ?_) (fun _ => (advances_one _).bind_left)
    fun _ => (advances_one _).leads_bind (leads_one ?_)
  · refine .look_take (fun t ht => ?_) fun t _ => .pure _
    rcases ht with ht | ht <;> rw [ht]
  · rintro t (ht | ht) <;> simp [ht]

theorem advances_signedNumber : Grammar.signedNumber.Advances :=
  .bind_right fun _ => Advances.bind_left (.sup (advances_kind _) (advances_kind _))

theorem leads_signedNumber :
    Grammar.signedNumber.Leads fun k => k = .plus ∨ k = .minus ∨ NumberStart k := by
  have number : (kind .decimalLiteral ⊔ kind .floatLiteral).Leads NumberStart :=
    .sup ((leads_kind _).mono fun _ => .inl) ((leads_kind _).mono fun _ => .inr)
  refine .bind (.sup (.bind ?_ fun _ => leads_pure _) (leads_pure _)) fun _ =>
    .bind (number.mono fun _ h => .inr (.inr h)) fun _ => leads_pure _
  exact .sup ((leads_kind _).mono fun _ => .inl) ((leads_kind _).mono fun _ h => .inr (.inl h))

theorem accepts_string : Accepts n Eq constant (Constant.string <$> kind .stringLiteral) :=
  .look_take (fun t ht => by rw [ht]) fun _ _ => .pure _

theorem accepts_number : Accepts n Eq constant (Constant.number <$> Grammar.signedNumber) := by
  refine .look_map advances_signedNumber leads_signedNumber (fun k hk => ?_) accepts_signedNumber
  rcases hk with rfl | rfl | rfl | rfl <;> rfl

theorem accepts_truth : Accepts n Eq constant (Constant.reference <$> Grammar.truth) := by
  simp only [Grammar.truth, kind, one_sup_one, map_bind, map_pure]
  refine .look_take (g := fun t => pure (.reference ⟨[t]⟩)) (fun t ht => ?_) fun t _ => .pure _
  rcases ht with ht | ht <;> rw [ht] <;> rfl

theorem accepts_reference :
    Accepts n (Past (· ≠ .dot)) constant (Constant.reference <$> Grammar.fullIdent) :=
  .look_map advances_fullIdent leads_fullIdent (fun k hk => by rw [hk]) accepts_fullIdent

theorem accepts_constant : Accepts n (Before (· ≠ .dot)) constant Grammar.constant :=
  .sup (.sup (.sup accepts_string.before accepts_number.before) accepts_truth.before)
    (accepts_reference.follow fun _ _ => past_of_before)

/-! ## Options -/

theorem accepts_extensionName : Accepts n (Past (· ≠ .dot)) optionName Grammar.extensionName := by
  refine .look_take (fun t ht => by rw [ht]) fun _ _ => ?_
  refine (accepts_fullIdent.follow fun _ _ => past_of_before).bind_before (fun extension => ?_)
    (fun _ => (advances_kind _).bind_left)
    fun _ => leads_kind_bind (by simp)
  apply (Accepts.expect _).bind
  intro _
  rw [Accepts.takeIf_bind_eq, optional_bind, bind_assoc]
  refine .sup ?_ ?_
  · exact .look_take (fun _ ht => if_pos (congrArg some ht)) fun _ _ => accepts_fullIdent.map
  · exact .look_stop fun _ ht => if_neg (Accepts.map_kind_ne ht)

theorem accepts_optionName : Accepts n (Past (· ≠ .dot)) optionName Grammar.optionName := by
  refine .sup accepts_extensionName ?_
  exact .look_map advances_fullIdent leads_fullIdent (fun k hk => by rw [hk]) accepts_fullIdent

theorem accepts_optionSetting : Accepts n (Before (· ≠ .dot)) optionSetting Grammar.optionSetting :=
  (accepts_optionName.follow fun _ _ => past_of_before).bind_before
    (fun _ => (Accepts.expect _).bind fun _ => accepts_constant.map)
    (fun _ => (advances_kind _).bind_left)
    fun _ => leads_kind_bind (by simp)

theorem accepts_optionStatement : Accepts n Eq optionStatement Grammar.optionStatement :=
  (Accepts.expect _).bind fun _ => accepts_optionSetting.bind_before
    (fun _ => (Accepts.expect _).map) (fun _ => (advances_kind _).bind_left)
    fun _ => leads_kind_bind (by simp)

theorem accepts_optionList :
    Accepts n (Before (· ≠ .leftBracket)) optionList Grammar.optionList := by
  have comma {F : Token → Phrase OptionSetting} : (kind .comma >>= F).Leads (· ≠ .dot) :=
    leads_kind_bind (by simp)
  have bracket {α : Type} {F : Token → Phrase α} : (kind .rightBracket >>= F).Leads (· ≠ .dot) :=
    leads_kind_bind (by simp)
  rw [optionList, Accepts.takeIf_bind_eq]
  refine .sup ?_ ?_
  · exact (Accepts.look_stop fun _ ht => if_neg (Accepts.map_kind_ne ht)).follow
      fun _ _ => past_of_before
  refine (Accepts.look_take (fun _ ht => if_pos (congrArg some ht)) fun _ _ => ?_).before
  refine accepts_optionSetting.bind_before (fun first => ?_)
    (fun _ => .bind_right fun _ => (advances_kind _).bind_left)
    fun _ => .bind comma.many fun _ => bracket
  refine Accepts.anti (Accepts.collect (P := kind .comma >>= fun _ => Grammar.optionSetting)
    (T := Before (· ≠ .dot)) (R := kind .rightBracket) (advances_kind _).bind_left
    (fun _ => ?_) (fun _ => ?_) (suits_before (.bind_right fun _ => advances_kind _) ?_)).map ?_
  · rw [map_bind]
    exact .look_take (fun t ht => by rw [ht]) fun _ _ => accepts_optionSetting.map
  · refine .look (advances_kind _).bind_left ((advances_kind _).leads_bind (leads_kind _))
      (fun k hk => ?_) (Accepts.expect .rightBracket).map
    rw [hk]
  · rw [← bind_pure (kind .rightBracket)]
    exact .bind comma.many fun _ => bracket
  · simp [upTo]

/-! ## Fields -/

def TypeStart (k : TokenKind) : Prop := k.isScalar ∨ k = .identifier ∨ k = .dot

theorem accepts_fieldType : Accepts n (Before (· ≠ .dot)) fieldType Grammar.fieldType := by
  refine .sup (.sup ?_ ?_) ?_
  · refine (Accepts.look_take (fun t ht => ?_) fun t _ => .pure _).before
    cases hk : t.kind <;> simp_all [TokenKind.isScalar]
  · exact (Accepts.look_map advances_fullIdent leads_fullIdent (fun k hk => by rw [hk])
      accepts_fullIdent).follow fun _ _ => past_of_before
  · exact (Accepts.look_take (fun t ht => by rw [ht]) fun _ _ => accepts_fullIdent.map).follow
      fun _ _ => past_of_before

theorem leads_fieldType : Grammar.fieldType.Leads TypeStart := by
  refine .sup (.sup ?_ ?_) ?_
  · exact (advances_one _).leads_bind (leads_one fun _ h => .inl h)
  · exact advances_fullIdent.leads_bind (leads_fullIdent.mono fun _ h => .inr (.inl h))
  · exact (advances_kind _).leads_bind ((leads_kind _).mono fun _ h => .inr (.inr h))

theorem advances_fieldType : Grammar.fieldType.Advances :=
  .sup (.sup (advances_one _).bind_left advances_fullIdent.bind_left) (advances_kind _).bind_left

/-- What stands at the end of a field, in a message or an enum. -/
theorem accepts_fieldEnd {α : Type} {f : List OptionSetting → α} : Accepts n Eq
    (optionList >>= fun options => expect .semicolon >>= fun _ => pure (f options))
    (Grammar.optionList >>= fun options => kind .semicolon >>= fun _ => pure (f options)) :=
  accepts_optionList.bind_before (fun _ => (Accepts.expect _).map)
    (fun _ => (advances_kind _).bind_left)
    fun _ => leads_kind_bind (by simp)

theorem accepts_fieldRest (repeated : Bool) :
    Accepts n Eq (fieldRest repeated) (Grammar.fieldRest repeated) :=
  accepts_fieldType.bind_before
    (fun _ => accepts_identifier.bind fun _ => (Accepts.expect _).bind fun _ =>
      (Accepts.expect _).bind fun _ => accepts_fieldEnd)
    (fun _ => (advances_kind _).bind_left)
    fun _ => leads_kind_bind (by simp)

theorem leads_fieldRest (repeated : Bool) : (Grammar.fieldRest repeated).Leads TypeStart :=
  advances_fieldType.leads_bind leads_fieldType

theorem TypeStart.ne_keyword {k : TokenKind} (h : TypeStart k) (word : Keyword) :
    k ≠ .keyword word := by
  rintro rfl
  rcases h with h | h | h <;> cases h

theorem accepts_field : Accepts n Eq field Grammar.field :=
  (Accepts.takeIf _).bind_before (fun label => accepts_fieldRest label.isSome)
    (fun _ => advances_fieldType.bind_left)
    fun _ => (leads_fieldRest _).mono fun _ h => h.ne_keyword _

theorem accepts_oneofField : Accepts n Eq oneofField (Grammar.fieldRest false) := by
  refine .look advances_fieldType.bind_left (leads_fieldRest _) (fun k hk => ?_)
    (accepts_fieldRest _)
  split
  · next h => exact absurd (Option.some.inj h) (hk.ne_keyword _)
  · rfl

theorem accepts_enumField : Accepts n Eq enumField Grammar.enumField :=
  accepts_identifier.bind fun _ => (Accepts.expect _).bind fun _ => accepts_sign.bind_before
    (fun _ => (Accepts.expect _).bind fun _ => accepts_fieldEnd)
    (fun _ => (advances_kind _).bind_left)
    fun _ => leads_kind_bind (by simp)

end ProtoSchema.Parser
