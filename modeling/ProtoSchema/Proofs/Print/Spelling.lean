import ProtoSchema.Proofs.Print.Tokens
import ProtoSchema.Proofs.Scan.LongestMatch

/-! # Trees without a choice of words

Where nothing can be mixed and nothing left out, a tree has no other text than its written form: the
tokens that it does not keep are fixed by their kinds, and whether they are there is seen from the
tree. This is shown part by part: what has been written of a tree and what its rest spells make up
the whole. -/

namespace ProtoSchema

theorem Token.Scans.eq_ofKind {t : Token} {k : TokenKind} (h : t.Scans) (kind : t.kind = k)
    (fixed : k.text?.isSome) : t = .ofKind k := by
  subst kind
  obtain ⟨s, hs⟩ := Option.isSome_iff_exists.1 fixed
  exact Token.eq_ofKind hs (h.text_eq hs)

namespace Phrase

theorem many_scanned {α : Type} {P : Phrase α} {ts : List Token} {as : List α}
    (h : (many P).scanned ts as) : many P.scanned ts as := by
  obtain ⟨h, scans⟩ := h
  induction h with
  | nil => exact .nil
  | cons ha _ ih =>
    obtain ⟨front, back⟩ := List.forall_mem_append.1 scans
    exact .cons ⟨ha, front⟩ (ih back)

variable {α β : Type} {P Q : Phrase α} {F : α → Phrase β} {g : α → List Token} {w : β → List Token}
  {pre : List Token}

/-- That a tree has one text, if all tokens can be read from their own texts. -/
def Spells (P : Phrase α) (g : α → List Token) : Prop := ∀ ts a, P.scanned ts a → ts = g a

/-- That the texts of a phrase complete the written forms of its trees, of which the first part is
given. -/
def Completes (pre : List Token) (F : Phrase β) (w : β → List Token) : Prop :=
  ∀ ts b, F.scanned ts b → pre ++ ts = w b

theorem Completes.spells (h : Completes [] P g) : P.Spells g := fun ts a => h ts a

theorem Completes.pure {b : β} (h : pre = w b) : Completes pre (pure b) w := by
  rintro ts _ ⟨⟨rfl, rfl⟩, -⟩
  rw [List.append_nil, h]

namespace Spells

theorem bind (h : P.Spells g) (rest : ∀ a, Completes (pre ++ g a) (F a) w) :
    Completes pre (P >>= F) w := by
  rintro _ b ⟨⟨us, vs, a, ha, hb, rfl⟩, scans⟩
  obtain ⟨front, back⟩ := List.forall_mem_append.1 scans
  rw [h us a ⟨ha, front⟩, ← List.append_assoc]
  exact rest a vs b ⟨hb, back⟩

theorem last (h : P.Spells g) {v : α → List Token} (whole : ∀ a, pre ++ g a = v a) :
    Completes pre P v := by
  intro ts a ha
  rw [h ts a ha, whole]

theorem one (p : Token → Prop) : (Phrase.one p).Spells fun t => [t] := by
  rintro ts t ⟨⟨rfl, -⟩, -⟩
  rfl

theorem fixed {k : TokenKind} (h : k.text?.isSome) : (kind k).Spells fun _ => [.ofKind k] := by
  rintro ts t ⟨⟨rfl, hk⟩, scans⟩
  rw [(scans t (List.mem_singleton_self t)).eq_ofKind hk h]

theorem sup (hP : P.Spells g) (hQ : Q.Spells g) : (P ⊔ Q).Spells g := by
  rintro ts a ⟨h | h, scans⟩
  · exact hP ts a ⟨h, scans⟩
  · exact hQ ts a ⟨h, scans⟩

theorem map {f : α → β} (h : P.Spells fun a => w (f a)) : (f <$> P).Spells w := by
  rintro ts _ ⟨hb, scans⟩
  obtain ⟨a, ha, rfl⟩ := map_iff.1 hb
  exact h ts a ⟨ha, scans⟩

theorem optional (h : P.Spells g) : (Phrase.optional P).Spells fun o => o.toList.flatMap g := by
  rintro ts o ⟨ho, scans⟩
  rcases optional_iff.1 ho with ⟨a, ha, rfl⟩ | ⟨rfl, rfl⟩
  · exact (h ts a ⟨ha, scans⟩).trans (List.flatMap_singleton g a).symm
  · rfl

theorem many (h : P.Spells g) : (many P).Spells fun as => as.flatMap g := by
  intro ts as has
  replace has := many_scanned has
  induction has with
  | nil => rfl
  | @cons us vs a as ha _ ih =>
    rw [h us a ha, ih]
    exact List.flatMap_cons.symm

theorem either (k l : TokenKind) : (kind k ⊔ kind l).Spells fun t => [t] := (one _).sup (one _)

end Spells

end Phrase

/-! ## Members and statements -/

def EnumMember.tokens : EnumMember → List Token
  | .empty => [.ofKind .semicolon]
  | .option o => o.statement
  | .field f => f.tokens

def MessageMember.tokens : MessageMember → List Token
  | .empty => [.ofKind .semicolon]
  | .field f => f.tokens
  | .enum e => e.tokens
  | .message m => m.tokens
  | .oneof o => o.tokens
  | .option o => o.statement

def Statement.tokens : Statement → List Token
  | .empty => [.ofKind .semicolon]
  | .imported i => i.tokens
  | .package p _ => p.tokens
  | .option o => o.statement
  | .message m => m.tokens
  | .enum e => e.tokens

/-! ## Productions that leave no choice -/

namespace Grammar
open Phrase

theorem spells_fullIdent : fullIdent.Spells FullIdent.tokens := by
  have segment : Spells (kind .dot >>= fun _ => identifier) fun t => [.ofKind .dot, t] :=
    Completes.spells (Spells.bind (.fixed rfl) fun _ => (Spells.one _).last fun _ => rfl)
  refine Completes.spells (Spells.bind (.one _) fun first => segment.many.bind fun rest => .pure ?_)
  rw [FullIdent.tokens, List.map_cons, separated_cons, List.flatMap_map]
  rfl

theorem spells_sign : (optional sign).Spells Option.toList := by
  have tokens : (optional sign).Spells fun o => o.toList.flatMap fun t => [t] :=
    (Spells.either _ _).optional
  simpa only [List.flatMap_singleton'] using tokens

theorem spells_signedNumber : signedNumber.Spells SignedNumber.tokens :=
  Completes.spells (spells_sign.bind fun _ => (Spells.either _ _).bind fun _ => .pure rfl)

theorem spells_constant : constant.Spells Constant.tokens := by
  refine .sup (.sup (.sup ?_ ?_) ?_) ?_
  · exact .map (.one _)
  · exact .map spells_signedNumber
  · exact .map (Completes.spells ((Spells.either _ _).bind fun _ => .pure rfl))
  · exact .map spells_fullIdent

theorem spells_optionName : optionName.Spells OptionName.tokens := by
  refine .sup ?_ (.map spells_fullIdent)
  have rest : Spells (kind .dot >>= fun _ => fullIdent) fun f => .ofKind .dot :: f.tokens :=
    Completes.spells (Spells.bind (.fixed rfl) fun _ => spells_fullIdent.last fun _ => rfl)
  refine Completes.spells (Spells.bind (.fixed rfl) fun _ => spells_fullIdent.bind fun extension =>
    Spells.bind (.fixed rfl) fun _ => rest.optional.bind fun o => .pure ?_)
  simp [OptionName.tokens]

theorem spells_optionSetting : optionSetting.Spells OptionSetting.tokens :=
  Completes.spells (spells_optionName.bind fun _ => Spells.bind (.fixed rfl) fun _ =>
    spells_constant.bind fun _ => .pure (by simp [OptionSetting.tokens]))

theorem spells_optionStatement : optionStatement.Spells OptionSetting.statement :=
  Completes.spells (Spells.bind (.fixed rfl) fun _ => spells_optionSetting.bind fun _ =>
    Spells.bind (.fixed rfl) fun _ => .pure (by simp [OptionSetting.statement]))

theorem spells_optionList : optionList.Spells OptionSetting.bracketed := by
  refine .sup (Completes.spells (.pure rfl)) ?_
  have further :
      Spells (kind .comma >>= fun _ => optionSetting) fun o => .ofKind .comma :: o.tokens :=
    Completes.spells (Spells.bind (.fixed rfl) fun _ => spells_optionSetting.last fun _ => rfl)
  refine Completes.spells (Spells.bind (.fixed rfl) fun _ => spells_optionSetting.bind fun o =>
    further.many.bind fun os => Spells.bind (.fixed rfl) fun _ => .pure ?_)
  simp [OptionSetting.bracketed_cons]

theorem spells_fieldType : fieldType.Spells FieldType.tokens := by
  refine .sup (.sup (.map (.one _)) (.map spells_fullIdent)) ?_
  exact Completes.spells
    (Spells.bind (.fixed rfl) fun _ => spells_fullIdent.bind fun _ => .pure rfl)

/-- The rest of a field behind its label. -/
theorem completes_fieldRest {pre : List Token} {repeated : Bool}
    (h : ∀ f : Field, f.repeated = repeated → pre = f.label.toList) :
    Completes pre (fieldRest repeated) Field.tokens := by
  refine spells_fieldType.bind fun type => Spells.bind (.one _) fun name =>
    Spells.bind (.fixed rfl) fun _ => Spells.bind (.one _) fun number =>
    spells_optionList.bind fun options => Spells.bind (.fixed rfl) fun _ => .pure ?_
  rw [Field.tokens, Field.rest, ← h ⟨repeated, type, name, number, options⟩ rfl]
  simp

theorem spells_fieldRest : (fieldRest false).Spells Field.tokens :=
  Completes.spells (completes_fieldRest fun f hf => by rw [Field.label, hf]; rfl)

theorem spells_field : field.Spells Field.tokens := by
  refine Completes.spells
    ((Spells.fixed rfl).optional.bind fun label => completes_fieldRest fun f hf => ?_)
  rw [Field.label, hf]
  cases label <;> rfl

theorem spells_enumField : enumField.Spells EnumField.tokens :=
  Completes.spells (Spells.bind (.one _) fun _ => Spells.bind (.fixed rfl) fun _ =>
    spells_sign.bind fun _ => Spells.bind (.one _) fun _ =>
    spells_optionList.bind fun _ => Spells.bind (.fixed rfl) fun _ =>
    .pure (by simp [EnumField.tokens, SignedNumber.tokens]))

theorem spells_blockHead (word : Keyword) : (blockHead word).Spells fun name =>
    [.ofKind (.keyword word), name, .ofKind .leftBrace] :=
  Completes.spells (Spells.bind (.fixed rfl) fun _ => Spells.bind (.one _) fun _ =>
    Spells.bind (.fixed rfl) fun _ => .pure rfl)

/-- A block is written with the members that it has. -/
theorem block_of_scanned {α β : Type} {word : Keyword} {member : Phrase α} {f : Token → List α → β}
    {ts : List Token} {b : β}
    (h : (blockHead word >>= fun name =>
      members member >>= fun body => pure (f name body)).scanned ts b) :
    ∃ name us as, name.kind = .identifier ∧ (many member).scanned us as ∧ ts = block word name us ∧
      b = f name as := by
  obtain ⟨text, scans⟩ := h
  obtain ⟨hs, us, brace, name, as, head, body, closing, rfl, rfl⟩ := block_iff.1 text
  simp only [List.forall_mem_append, List.forall_mem_singleton] at scans
  obtain ⟨front, within, last⟩ := scans
  have brace := last.eq_ofKind closing rfl
  refine ⟨name, us, as, (yields_blockHead word hs name head front).1, ⟨body, within⟩, ?_, rfl⟩
  rw [spells_blockHead word hs name ⟨head, front⟩, brace]
  simp [block]

theorem spells_oneof : oneof.Spells Oneof.tokens := by
  intro ts o h
  obtain ⟨name, us, fields, -, body, rfl, rfl⟩ := block_of_scanned h
  exact congrArg (block .oneofKw name) (spells_fieldRest.many us fields body)

/-- An empty member is one semicolon. -/
theorem spells_empty {α : Type} {w : α → List Token} {a : α} (h : w a = [.ofKind .semicolon]) :
    (empty a).Spells w :=
  Completes.spells (Spells.bind (.fixed rfl) fun _ => .pure h.symm)

theorem spells_enumMember : enumMember.Spells EnumMember.tokens :=
  .sup (.sup (spells_empty rfl) (.map spells_optionStatement)) (.map spells_enumField)

theorem spells_syntaxDecl : syntaxDecl.Spells SyntaxDecl.tokens :=
  Completes.spells (Spells.bind (.fixed rfl) fun _ => Spells.bind (.fixed rfl) fun _ =>
    Spells.bind (.one _) fun _ => Spells.bind (.fixed rfl) fun _ => .pure rfl)

theorem spells_importStatement : importStatement.Spells Import.tokens := by
  have modifier := (Spells.either (.keyword .publicKw) (.keyword .weakKw)).optional
  exact Completes.spells (Spells.bind (.fixed rfl) fun _ => modifier.bind fun _ =>
    Spells.bind (.one _) fun _ => Spells.bind (.fixed rfl) fun _ => .pure (by simp [Import.tokens]))

theorem spells_package : package.Spells Package.tokens :=
  Completes.spells (Spells.bind (.fixed rfl) fun _ => spells_fullIdent.bind fun _ =>
    Spells.bind (.fixed rfl) fun _ => .pure (by simp [Package.tokens]))

theorem spells_packageStatement : packageStatement.Spells Statement.tokens := by
  rintro ts _ ⟨⟨p, place, hp, rfl⟩, scans⟩
  exact spells_package ts p ⟨hp, scans⟩

end Grammar

end ProtoSchema
