import ProtoSchema.Proofs.Phrase.Grammar
import ProtoSchema.Proofs.Scan.Layout

/-! # Well-formed trees

A tree is well formed if every token in it is of the kind that its place asks for, can be read from
its own text, and no list is empty that may not be. Nothing is said about how the tree was made. -/

namespace ProtoSchema

/-- A token of a kind, as it can be read from its own text. -/
def Token.Is (k : TokenKind) (t : Token) : Prop := t.kind = k ∧ t.Scans

structure FullIdent.WellFormed (f : FullIdent) : Prop where
  nonempty : f.segments ≠ []
  names : ∀ t ∈ f.segments, t.Is .identifier

/-- The word `true` or `false` in the place of a name. -/
def FullIdent.IsTruth (f : FullIdent) : Prop :=
  ∃ t : Token, f.segments = [t] ∧ (t.Is (.keyword .trueKw) ∨ t.Is (.keyword .falseKw))

structure SignedNumber.WellFormed (n : SignedNumber) : Prop where
  sign : ∀ t ∈ n.sign, t.Is .plus ∨ t.Is .minus
  number : n.number.Is .decimalLiteral ∨ n.number.Is .floatLiteral

def Constant.WellFormed : Constant → Prop
  | .string literal => literal.Is .stringLiteral
  | .reference name => name.WellFormed ∨ name.IsTruth
  | .number value => value.WellFormed

def OptionName.WellFormed : OptionName → Prop
  | .plain name => name.WellFormed
  | .extended extension rest => extension.WellFormed ∧ ∀ name ∈ rest, name.WellFormed

structure OptionSetting.WellFormed (o : OptionSetting) : Prop where
  name : o.name.WellFormed
  value : o.value.WellFormed

def FieldType.WellFormed : FieldType → Prop
  | .scalar keyword => keyword.kind.isScalar ∧ keyword.Scans
  | .named name => name.WellFormed
  | .absolute name => name.WellFormed

structure Field.WellFormed (f : Field) : Prop where
  type : f.type.WellFormed
  name : f.name.Is .identifier
  number : f.number.Is .decimalLiteral
  options : ∀ o ∈ f.options, o.WellFormed

structure EnumField.WellFormed (f : EnumField) : Prop where
  name : f.name.Is .identifier
  sign : ∀ t ∈ f.number.sign, t.Is .plus ∨ t.Is .minus
  number : f.number.number.Is .decimalLiteral
  options : ∀ o ∈ f.options, o.WellFormed

structure Enum.WellFormed (e : Enum) : Prop where
  name : e.name.Is .identifier
  options : ∀ o ∈ e.body.options, o.WellFormed
  fields : ∀ f ∈ e.body.fields, f.WellFormed

structure Oneof.WellFormed (o : Oneof) : Prop where
  name : o.name.Is .identifier
  fields : ∀ f ∈ o.fields, f.WellFormed ∧ f.repeated = false

inductive Message.WellFormed : Message → Prop
  | intro {m} (name : m.name.Is .identifier) (fields : ∀ f ∈ m.body.fields, f.WellFormed)
    (enums : ∀ e ∈ m.body.enums, e.WellFormed) (messages : ∀ n ∈ m.body.messages, WellFormed n)
    (oneofs : ∀ o ∈ m.body.oneofs, o.WellFormed) (options : ∀ o ∈ m.body.options, o.WellFormed) :
    WellFormed m

def SyntaxDecl.WellFormed (s : SyntaxDecl) : Prop := s.value = ⟨.stringLiteral, "\"proto3\""⟩

structure Import.WellFormed (i : Import) : Prop where
  path : i.path.Is .stringLiteral
  modifier : ∀ t ∈ i.modifier, t.Is (.keyword .publicKw) ∨ t.Is (.keyword .weakKw)

structure File.WellFormed (f : File) : Prop where
  syntaxDecl : f.syntaxDecl.WellFormed
  package : ∀ p ∈ f.package, p.name.WellFormed
  imports : ∀ i ∈ f.imports, i.WellFormed
  options : ∀ o ∈ f.options, o.WellFormed
  messages : ∀ m ∈ f.messages, m.WellFormed
  enums : ∀ e ∈ f.enums, e.WellFormed

/-! ## Members and statements -/

def EnumMember.WellFormed : EnumMember → Prop
  | .empty => True
  | .option o => o.WellFormed
  | .field f => f.WellFormed

def MessageMember.WellFormed : MessageMember → Prop
  | .empty => True
  | .field f => f.WellFormed
  | .enum e => e.WellFormed
  | .message m => m.WellFormed
  | .oneof o => o.WellFormed
  | .option o => o.WellFormed

def Statement.WellFormed : Statement → Prop
  | .empty => True
  | .imported i => i.WellFormed
  | .package p _ => p.name.WellFormed
  | .option o => o.WellFormed
  | .message m => m.WellFormed
  | .enum e => e.WellFormed

theorem Enum.wellFormed_ofMembers {name : Token} {members : List EnumMember}
    (hn : name.Is .identifier) (hm : ∀ m ∈ members, m.WellFormed) :
    Enum.WellFormed ⟨name, .ofMembers members⟩ where
  name := hn
  options := List.forall_mem_filterMap.2 fun m mem _ h => by cases m <;> cases h; exact hm _ mem
  fields := List.forall_mem_filterMap.2 fun m mem _ h => by cases m <;> cases h; exact hm _ mem

theorem Message.wellFormed_ofMembers {name : Token} {members : List MessageMember}
    (hn : name.Is .identifier) (hm : ∀ m ∈ members, m.WellFormed) :
    Message.WellFormed ⟨name, .ofMembers members⟩ :=
  .intro hn (List.forall_mem_filterMap.2 fun m mem _ h => by cases m <;> cases h; exact hm _ mem)
    (List.forall_mem_filterMap.2 fun m mem _ h => by cases m <;> cases h; exact hm _ mem)
    (List.forall_mem_filterMap.2 fun m mem _ h => by cases m <;> cases h; exact hm _ mem)
    (List.forall_mem_filterMap.2 fun m mem _ h => by cases m <;> cases h; exact hm _ mem)
    (List.forall_mem_filterMap.2 fun m mem _ h => by cases m <;> cases h; exact hm _ mem)

theorem File.wellFormed_ofStatements {syntaxDecl : SyntaxDecl} {statements : List Statement}
    (hd : syntaxDecl.WellFormed) (hs : ∀ s ∈ statements, s.WellFormed) :
    (File.ofStatements syntaxDecl statements).WellFormed where
  syntaxDecl := hd
  package p h := by
    obtain ⟨s, mem, e⟩ := List.exists_of_findSome?_eq_some h
    have := hs s mem
    cases s <;> cases e
    exact this
  imports := List.forall_mem_filterMap.2 fun s mem _ h => by cases s <;> cases h; exact hs _ mem
  options := List.forall_mem_filterMap.2 fun s mem _ h => by cases s <;> cases h; exact hs _ mem
  messages := List.forall_mem_filterMap.2 fun s mem _ h => by cases s <;> cases h; exact hs _ mem
  enums := List.forall_mem_filterMap.2 fun s mem _ h => by cases s <;> cases h; exact hs _ mem

/-! ## What phrases yield -/

namespace Phrase

variable {α β : Type} {P Q : Phrase α} {F : α → Phrase β} {V W : α → Prop} {X : β → Prop}

/-- That the trees of a phrase have a property, where every token can be read from its own text. -/
def Yields (P : Phrase α) (W : α → Prop) : Prop :=
  ∀ ts a, P ts a → (∀ t ∈ ts, t.Scans) → W a

theorem yields_one (p : Token → Prop) : (one p).Yields fun t => p t ∧ t.Scans := by
  rintro ts t ⟨rfl, h⟩ hs
  exact ⟨h, hs t List.mem_cons_self⟩

theorem yields_kind (k : TokenKind) : (kind k).Yields (Token.Is k) := yields_one _

theorem yields_pure {a : α} (h : W a) : (pure a : Phrase α).Yields W := by
  rintro ts b ⟨-, rfl⟩ -
  exact h

namespace Yields

theorem mono (h : P.Yields V) (hVW : ∀ a, V a → W a) : P.Yields W :=
  fun ts a ha hs => hVW a (h ts a ha hs)

theorem bind (h : P.Yields V) (hF : ∀ a, V a → (F a).Yields X) : (P >>= F).Yields X := by
  rintro ts b ⟨us, vs, a, ha, hb, rfl⟩ hs
  have first := h us a ha fun t ht => hs t (List.mem_append_left vs ht)
  exact hF a first vs b hb fun t ht => hs t (List.mem_append_right us ht)

theorem map {f : α → β} (h : P.Yields V) (hV : ∀ a, V a → X (f a)) : (f <$> P).Yields X := by
  intro ts b hb hs
  obtain ⟨a, ha, rfl⟩ := map_iff.1 hb
  exact hV a (h ts a ha hs)

theorem sup (hP : P.Yields W) (hQ : Q.Yields W) : (P ⊔ Q).Yields W := by
  rintro ts a (h | h)
  · exact hP ts a h
  · exact hQ ts a h

theorem many (h : P.Yields W) : (many P).Yields fun as => ∀ a ∈ as, W a := by
  intro ts as has hs
  induction has with
  | nil => simp
  | @cons us vs a as ha _ ih =>
    have first := h us a ha fun t ht => hs t (List.mem_append_left vs ht)
    exact List.forall_mem_cons.2 ⟨first, ih fun t ht => hs t (List.mem_append_right us ht)⟩

theorem optional (h : P.Yields W) : (optional P).Yields fun o => ∀ a ∈ o, W a :=
  (h.map fun a ha b hb => by cases hb; exact ha).sup (yields_pure nofun)

theorem either (k l : TokenKind) : (kind k ⊔ kind l).Yields fun t => t.Is k ∨ t.Is l :=
  ((yields_kind k).mono fun _ => .inl).sup ((yields_kind l).mono fun _ => .inr)

/-- What behind a token of a kind has a property has it with this token. -/
theorem behind {k : TokenKind} {F : Token → Phrase β} (h : ∀ t, (F t).Yields X) :
    (kind k >>= F).Yields X := (yields_kind k).bind fun t _ => h t

end Yields

end Phrase

/-! ## Every production yields well-formed trees -/

namespace Grammar
open Phrase Phrase.Yields

theorem yields_fullIdent : fullIdent.Yields FullIdent.WellFormed :=
  (yields_kind _).bind fun _ hf => (many (behind fun _ => yields_kind _)).bind fun _ hr =>
    yields_pure ⟨List.cons_ne_nil _ _, List.forall_mem_cons.2 ⟨hf, hr⟩⟩

theorem yields_signedNumber : signedNumber.Yields SignedNumber.WellFormed :=
  (optional (either _ _)).bind fun _ hs => (either _ _).bind fun _ hn => yields_pure ⟨hs, hn⟩

theorem yields_truth : truth.Yields FullIdent.IsTruth :=
  (either _ _).bind fun t ht => yields_pure ⟨t, rfl, ht⟩

theorem yields_constant : constant.Yields Constant.WellFormed :=
  sup (sup (sup ((yields_kind _).map fun _ h => h) (.map yields_signedNumber fun _ h => h))
    (.map yields_truth fun _ h => .inr h)) (.map yields_fullIdent fun _ h => .inl h)

theorem yields_optionName : optionName.Yields OptionName.WellFormed := by
  refine sup (behind fun _ => .bind yields_fullIdent fun _ he => behind fun _ => ?_)
    (.map yields_fullIdent fun _ h => h)
  exact (optional (behind fun _ => yields_fullIdent)).bind fun _ hr => yields_pure ⟨he, hr⟩

theorem yields_optionSetting : optionSetting.Yields OptionSetting.WellFormed :=
  .bind yields_optionName fun _ hn => behind fun _ => .bind yields_constant fun _ hv =>
    yields_pure ⟨hn, hv⟩

theorem yields_optionStatement : optionStatement.Yields OptionSetting.WellFormed :=
  behind fun _ => .bind yields_optionSetting fun _ h => behind fun _ => yields_pure h

theorem yields_bracketedOptions : bracketedOptions.Yields fun os => ∀ o ∈ os, o.WellFormed :=
  behind fun _ => .bind yields_optionSetting fun _ hf =>
    (many (behind fun _ => yields_optionSetting)).bind fun _ hr => behind fun _ =>
      yields_pure (List.forall_mem_cons.2 ⟨hf, hr⟩)

theorem yields_optionList : optionList.Yields fun os => ∀ o ∈ os, o.WellFormed :=
  sup (yields_pure (List.forall_mem_nil _)) yields_bracketedOptions

theorem yields_fieldType : fieldType.Yields FieldType.WellFormed :=
  sup (sup ((yields_one _).map fun _ h => h) (.map yields_fullIdent fun _ h => h))
    (behind fun _ => .bind yields_fullIdent fun _ h => yields_pure h)

theorem yields_fieldRest (repeated : Bool) :
    (fieldRest repeated).Yields fun f => f.WellFormed ∧ f.repeated = repeated :=
  .bind yields_fieldType fun _ ht => (yields_kind _).bind fun _ hn => behind fun _ =>
    (yields_kind _).bind fun _ hd => .bind yields_optionList fun _ ho => behind fun _ =>
      yields_pure ⟨⟨ht, hn, hd, ho⟩, rfl⟩

theorem yields_field : field.Yields Field.WellFormed :=
  (optional (yields_kind _)).bind fun _ _ => (yields_fieldRest _).mono fun _ h => h.1

theorem yields_enumField : enumField.Yields EnumField.WellFormed :=
  (yields_kind _).bind fun _ hn => behind fun _ => (optional (either _ _)).bind fun _ hs =>
    (yields_kind _).bind fun _ hd => .bind yields_optionList fun _ ho => behind fun _ =>
      yields_pure ⟨hn, hs, hd, ho⟩

theorem yields_blockHead (keyword : Keyword) : (blockHead keyword).Yields (Token.Is .identifier) :=
  behind fun _ => (yields_kind _).bind fun _ hn => behind fun _ => yields_pure hn

theorem yields_members {α : Type} {member : Phrase α} {W : α → Prop} (h : member.Yields W) :
    (members member).Yields fun as => ∀ a ∈ as, W a :=
  (many h).bind fun _ hm => behind fun _ => yields_pure hm

theorem yields_enum : enum.Yields Enum.WellFormed := by
  have member : enumMember.Yields EnumMember.WellFormed :=
    sup (sup (behind fun _ => yields_pure trivial) (.map yields_optionStatement fun _ h => h))
      (.map yields_enumField fun _ h => h)
  exact (yields_blockHead _).bind fun _ hn => (yields_members member).bind fun _ hm =>
    yields_pure (Enum.wellFormed_ofMembers hn hm)

theorem yields_oneof : oneof.Yields Oneof.WellFormed :=
  (yields_blockHead _).bind fun _ hn => (yields_members (yields_fieldRest false)).bind fun _ hf =>
    yields_pure ⟨hn, hf⟩

/-- The messages of a message are well formed, so it is as well. -/
theorem yields_messageOf {inner : Phrase Message} (h : inner.Yields Message.WellFormed) :
    (messageOf inner).Yields Message.WellFormed := by
  have member : (messageMember inner).Yields MessageMember.WellFormed :=
    sup (sup (sup (sup (sup (behind fun _ => yields_pure trivial) (h.map fun _ h => h))
      (.map yields_enum fun _ h => h)) (.map yields_oneof fun _ h => h))
      (.map yields_optionStatement fun _ h => h)) (.map yields_field fun _ h => h)
  exact (yields_blockHead _).bind fun _ hn => (yields_members member).bind fun _ hm =>
    yields_pure (Message.wellFormed_ofMembers hn hm)

theorem yields_message : message.Yields Message.WellFormed := by
  let wellFormed : Phrase Message := fun ts m => (∀ t ∈ ts, t.Scans) → m.WellFormed
  have closed : messageOf wellFormed ≤ wellFormed := yields_messageOf fun _ _ h => h
  exact OrderHom.lfp_le ⟨messageOf, messageOf_mono⟩ closed

theorem yields_package : package.Yields fun p => p.name.WellFormed :=
  behind fun _ => .bind yields_fullIdent fun _ h => behind fun _ => yields_pure h

theorem yields_importStatement : importStatement.Yields Import.WellFormed :=
  behind fun _ => (optional (either _ _)).bind fun _ hm => (yields_kind _).bind fun _ hp =>
    behind fun _ => yields_pure ⟨hp, hm⟩

theorem yields_statement : statement.Yields Statement.WellFormed := by
  refine sup (sup (sup (sup (sup ?_ ?_) ?_) ?_) ?_) ?_
  · exact behind fun _ => yields_pure trivial
  · exact .map yields_importStatement fun _ h => h
  · rintro ts _ ⟨p, place, hp, rfl⟩ hs
    exact yields_package ts p hp hs
  · exact .map yields_optionStatement fun _ h => h
  · exact .map yields_message fun _ h => h
  · exact .map yields_enum fun _ h => h

theorem yields_syntaxDecl : syntaxDecl.Yields SyntaxDecl.WellFormed :=
  behind fun _ => behind fun _ => (yields_one _).bind fun _ hv => behind fun _ => yields_pure hv.1

theorem yields_file : file.Yields File.WellFormed := by
  refine .bind yields_syntaxDecl fun _ hv => (many yields_statement).bind fun _ hs ts f h _ => ?_
  obtain ⟨-, -, rfl⟩ := guard_bind_iff.1 h
  exact File.wellFormed_ofStatements hv hs

end Grammar

end ProtoSchema
