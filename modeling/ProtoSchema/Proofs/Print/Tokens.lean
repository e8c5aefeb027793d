import ProtoSchema.Proofs.Print.WellFormed

/-! # Trees as tokens

Every tree has one written form: the members of a body and the statements of a file stand sort by
sort, options of a field are in one pair of brackets, and there are no empty members or statements.
Where the tree is well formed, its written form is a text of its production. -/

namespace ProtoSchema

/-! ## Written forms -/

/-- Parts with a mark between each two of them. -/
def separated (m : Mark) (parts : List (List Token)) : List Token :=
  [Token.ofKind (.mark m)].intercalate parts

/-- Members in braces behind a keyword and a name. -/
def block (keyword : Keyword) (name : Token) (members : List Token) : List Token :=
  .ofKind (.keyword keyword) :: name :: .ofKind .leftBrace :: (members ++ [.ofKind .rightBrace])

def FullIdent.tokens (f : FullIdent) : List Token := separated .dot (f.segments.map fun t => [t])

def SignedNumber.tokens (n : SignedNumber) : List Token := n.sign.toList ++ [n.number]

def Constant.tokens : Constant → List Token
  | .string literal => [literal]
  | .reference name => name.tokens
  | .number value => value.tokens

def OptionName.tokens : OptionName → List Token
  | .plain name => name.tokens
  | .extended extension rest => .ofKind .leftParen :: (extension.tokens ++
    .ofKind .rightParen :: rest.toList.flatMap fun name => .ofKind .dot :: name.tokens)

namespace OptionSetting

def tokens (o : OptionSetting) : List Token := o.name.tokens ++ .ofKind .equals :: o.value.tokens

def statement (o : OptionSetting) : List Token :=
  .ofKind (.keyword .optionKw) :: (o.tokens ++ [.ofKind .semicolon])

/-- Options in brackets, or nothing where there are none. -/
def bracketed : List OptionSetting → List Token
  | [] => []
  | os => .ofKind .leftBracket :: (separated .comma (os.map tokens) ++ [.ofKind .rightBracket])

end OptionSetting

def FieldType.tokens : FieldType → List Token
  | .scalar keyword => [keyword]
  | .named name => name.tokens
  | .absolute name => .ofKind .dot :: name.tokens

namespace Field

def label (f : Field) : Option Token :=
  if f.repeated then some (.ofKind (.keyword .repeatedKw)) else none

def rest (f : Field) : List Token :=
  f.type.tokens ++ f.name :: .ofKind .equals :: f.number ::
    (OptionSetting.bracketed f.options ++ [.ofKind .semicolon])

def tokens (f : Field) : List Token := f.label.toList ++ f.rest

end Field

def EnumField.tokens (f : EnumField) : List Token :=
  f.name :: .ofKind .equals :: (f.number.tokens ++
    (OptionSetting.bracketed f.options ++ [.ofKind .semicolon]))

def Enum.tokens (e : Enum) : List Token :=
  block .enumKw e.name
    (e.body.options.flatMap OptionSetting.statement ++ e.body.fields.flatMap EnumField.tokens)

def Oneof.tokens (o : Oneof) : List Token := block .oneofKw o.name (o.fields.flatMap Field.tokens)

mutual

def Message.tokens : Message → List Token
  | ⟨name, body⟩ => block .messageKw name body.tokens

def MessageBody.tokens : MessageBody → List Token
  | ⟨fields, enums, messages, oneofs, options⟩ =>
    fields.flatMap Field.tokens ++ (enums.flatMap Enum.tokens ++ (Message.tokensList messages ++
      (oneofs.flatMap Oneof.tokens ++ options.flatMap OptionSetting.statement)))

def Message.tokensList : List Message → List Token
  | [] => []
  | m :: rest => m.tokens ++ Message.tokensList rest

end

theorem Message.tokensList_eq_flatMap (ms : List Message) : tokensList ms = ms.flatMap tokens := by
  induction ms with
  | nil => simp [tokensList]
  | cons m rest ih => simp [tokensList, ih]

def SyntaxDecl.tokens (s : SyntaxDecl) : List Token :=
  [.ofKind (.keyword .syntaxKw), .ofKind .equals, s.value, .ofKind .semicolon]

def Import.tokens (i : Import) : List Token :=
  .ofKind (.keyword .importKw) :: (i.modifier.toList ++ [i.path, .ofKind .semicolon])

def Package.tokens (p : Package) : List Token :=
  .ofKind (.keyword .packageKw) :: (p.name.tokens ++ [.ofKind .semicolon])

namespace File

def tokens (f : File) : List Token :=
  f.syntaxDecl.tokens ++ (f.package.toList.flatMap Package.tokens ++
    (f.imports.flatMap Import.tokens ++ (f.options.flatMap OptionSetting.statement ++
      (f.messages.flatMap Message.tokens ++ f.enums.flatMap Enum.tokens))))

/-- A file as text, with a blank between each two tokens. -/
def print (f : File) : String := spaced f.tokens

end File

/-! ## Texts whose tokens can be read -/

instance (t : Token) : Decidable t.Scans := inferInstanceAs (Decidable (_ = _))

/-- A token whose kind fixes its text is read from it. -/
theorem Token.is_ofKind {k : TokenKind} (h : k.text?.isSome) : (ofKind k).Is k := by
  refine ⟨rfl, ?_⟩
  cases k with
  | keyword w => cases w <;> decide
  | scalar s => cases s <;> decide
  | mark m => cases m <;> decide
  | _ => cases h

namespace Phrase

variable {α β γ : Type} {P Q : Phrase α} {F : α → Phrase β} {us vs : List Token} {a : α} {b : β}

/-- The texts of a phrase whose tokens can all be read from their own texts. -/
def scanned (P : Phrase α) : Phrase α := fun ts a => P ts a ∧ ∀ t ∈ ts, t.Scans

theorem scanned_bind (h : P.scanned us a) (h' : (F a).scanned vs b) :
    (P >>= F).scanned (us ++ vs) b :=
  ⟨text_bind h.1 h'.1, List.forall_mem_append.2 ⟨h.2, h'.2⟩⟩

theorem scanned_pure (a : α) : (pure a : Phrase α).scanned [] a :=
  ⟨text_pure a, List.forall_mem_nil _⟩

theorem scanned_map {f : α → β} (h : P.scanned us a) : (f <$> P).scanned us (f a) :=
  ⟨text_map h.1, h.2⟩

theorem scanned_bind_pure {f : α → β} (h : P.scanned us a) :
    (P >>= fun a => pure (f a)).scanned us (f a) := scanned_map h

theorem scanned_mono (hle : P ≤ Q) (h : P.scanned us a) : Q.scanned us a := ⟨hle _ _ h.1, h.2⟩

theorem scanned_one {p : Token → Prop} {t : Token} (h : p t) (hs : t.Scans) :
    (one p).scanned [t] t :=
  ⟨⟨rfl, h⟩, List.forall_mem_singleton.2 hs⟩

theorem scanned_kind {k : TokenKind} {t : Token} (h : t.Is k) : (kind k).scanned [t] t :=
  scanned_one h.1 h.2

theorem scanned_either {k l : TokenKind} {t : Token} (h : t.Is k ∨ t.Is l) :
    (kind k ⊔ kind l).scanned [t] t := by
  rcases h with h | h
  · exact scanned_mono le_sup_left (scanned_kind h)
  · exact scanned_mono le_sup_right (scanned_kind h)

/-- A phrase behind a token of a given kind. -/
theorem scanned_cons {k : TokenKind} {t : Token} {F : Token → Phrase β} (h : t.Is k)
    (h' : (F t).scanned vs b) : (kind k >>= F).scanned (t :: vs) b :=
  scanned_bind (scanned_kind h) h'

theorem scanned_ofKind {k : TokenKind} {F : Token → Phrase β} (h : k.text?.isSome)
    (h' : (F (.ofKind k)).scanned vs b) : (kind k >>= F).scanned (.ofKind k :: vs) b :=
  scanned_cons (Token.is_ofKind h) h'

theorem scanned_some (h : P.scanned us a) : (optional P).scanned us (some a) := ⟨text_some h.1, h.2⟩

theorem scanned_none : (optional P).scanned [] none := ⟨text_none, List.forall_mem_nil _⟩

theorem scanned_optional {o : Option α} {g : α → List Token} (h : ∀ a ∈ o, P.scanned (g a) a) :
    (optional P).scanned (o.toList.flatMap g) o := by
  cases o with
  | none => exact scanned_none
  | some a =>
    rw [Option.toList_some, List.flatMap_singleton]
    exact scanned_some (h a rfl)

theorem scanned_optional_token {P : Phrase Token} {o : Option Token}
    (h : ∀ t ∈ o, P.scanned [t] t) : (optional P).scanned o.toList o := by
  have whole := scanned_optional h
  rwa [List.flatMap_singleton'] at whole

theorem scanned_many {as : List γ} {f : γ → α} {g : γ → List Token}
    (h : ∀ c ∈ as, P.scanned (g c) (f c)) : (many P).scanned (as.flatMap g) (as.map f) := by
  induction as with
  | nil => exact ⟨.nil, List.forall_mem_nil _⟩
  | cons c as ih =>
    obtain ⟨first, behind⟩ := List.forall_mem_cons.1 h
    exact ⟨.cons first.1 (ih behind).1, List.forall_mem_append.2 ⟨first.2, (ih behind).2⟩⟩

theorem scanned_many_self {as : List α} {g : α → List Token} (h : ∀ a ∈ as, P.scanned (g a) a) :
    (many P).scanned (as.flatMap g) as := by
  have mapped := scanned_many (f := id) h
  rwa [List.map_id] at mapped

theorem scanned_many_append {as bs : List α} (h : (many P).scanned us as)
    (h' : (many P).scanned vs bs) : (many P).scanned (us ++ vs) (as ++ bs) :=
  ⟨many_append h.1 h'.1, List.forall_mem_append.2 ⟨h.2, h'.2⟩⟩

end Phrase

/-- Behind the first part, each one has the separator in front. -/
theorem intercalate_cons {α : Type} (separator p : List α) (ps : List (List α)) :
    separator.intercalate (p :: ps) = p ++ ps.flatMap (separator ++ ·) := by
  induction ps generalizing p with
  | nil => simp
  | cons q ps ih =>
    rw [List.intercalate_cons_cons, ih]
    simp

theorem separated_cons (m : Mark) (p : List Token) (ps : List (List Token)) :
    separated m (p :: ps) = p ++ ps.flatMap fun q => .ofKind (.mark m) :: q :=
  intercalate_cons _ p ps

/-! ## Written forms are texts -/

open Phrase

theorem FullIdent.scanned {f : FullIdent} (h : f.WellFormed) :
    Grammar.fullIdent.scanned f.tokens f := by
  obtain ⟨segments⟩ := f
  obtain ⟨nonempty, names⟩ := h
  cases segments with
  | nil => exact absurd rfl nonempty
  | cons t ts =>
    obtain ⟨first, others⟩ := List.forall_mem_cons.1 names
    rw [tokens, List.map_cons, separated_cons, List.flatMap_map]
    exact scanned_cons first (scanned_bind_pure (scanned_many_self fun u hu =>
      scanned_ofKind rfl (scanned_kind (others u hu))))

theorem scanned_sign {o : Option Token} (h : ∀ t ∈ o, t.Is .plus ∨ t.Is .minus) :
    (Phrase.optional Grammar.sign).scanned o.toList o :=
  scanned_optional_token fun t ht => scanned_either (h t ht)

theorem SignedNumber.scanned {n : SignedNumber} (h : n.WellFormed) :
    Grammar.signedNumber.scanned n.tokens n :=
  scanned_bind (scanned_sign h.sign) (scanned_bind_pure (scanned_either h.number))

theorem FullIdent.scanned_truth {f : FullIdent} (h : f.IsTruth) :
    Grammar.truth.scanned f.tokens f := by
  obtain ⟨segments⟩ := f
  obtain ⟨t, rfl, word⟩ := h
  have one := scanned_either word
  exact scanned_bind_pure one

theorem Constant.scanned {c : Constant} (h : c.WellFormed) :
    Grammar.constant.scanned c.tokens c := by
  cases c with
  | string literal => exact scanned_mono Grammar.string_le_constant (scanned_map (scanned_kind h))
  | number value =>
    exact scanned_mono Grammar.number_le_constant (scanned_map (SignedNumber.scanned h))
  | reference name =>
    rcases h with name | truth
    · exact scanned_mono Grammar.name_le_constant (scanned_map (FullIdent.scanned name))
    · exact scanned_mono Grammar.truth_le_constant (scanned_map (FullIdent.scanned_truth truth))

theorem OptionName.scanned {n : OptionName} (h : n.WellFormed) :
    Grammar.optionName.scanned n.tokens n := by
  cases n with
  | plain name => exact scanned_mono le_sup_right (scanned_map (FullIdent.scanned h))
  | extended extension rest =>
    obtain ⟨inner, behind⟩ := h
    refine scanned_mono le_sup_left (scanned_ofKind rfl (scanned_bind (FullIdent.scanned inner)
      (scanned_ofKind rfl (scanned_bind_pure (scanned_optional fun name hn => ?_)))))
    exact scanned_ofKind rfl (FullIdent.scanned (behind name hn))

namespace OptionSetting

theorem scanned {o : OptionSetting} (h : o.WellFormed) : Grammar.optionSetting.scanned o.tokens o :=
  scanned_bind (OptionName.scanned h.name)
    (scanned_ofKind rfl (scanned_bind_pure (Constant.scanned h.value)))

theorem scanned_statement {o : OptionSetting} (h : o.WellFormed) :
    Grammar.optionStatement.scanned o.statement o :=
  scanned_ofKind rfl (scanned_bind (scanned h) (scanned_ofKind rfl (scanned_pure o)))

theorem bracketed_cons (o : OptionSetting) (os : List OptionSetting) : bracketed (o :: os) =
    .ofKind .leftBracket :: (o.tokens ++ ((os.flatMap fun p => .ofKind .comma :: p.tokens) ++
      [.ofKind .rightBracket])) := by
  simp [bracketed, separated_cons, List.flatMap_map]

theorem scanned_bracketed {os : List OptionSetting} (h : ∀ o ∈ os, o.WellFormed) :
    Grammar.optionList.scanned (bracketed os) os := by
  cases os with
  | nil => exact scanned_mono le_sup_left (scanned_pure [])
  | cons o os =>
    obtain ⟨first, others⟩ := List.forall_mem_cons.1 h
    rw [bracketed_cons]
    refine scanned_mono le_sup_right <| scanned_ofKind rfl <| scanned_bind (scanned first) <|
      scanned_bind ?_ (scanned_ofKind rfl (scanned_pure _))
    exact scanned_many_self fun p hp => scanned_ofKind rfl (scanned (others p hp))

end OptionSetting

theorem FieldType.scanned {t : FieldType} (h : t.WellFormed) :
    Grammar.fieldType.scanned t.tokens t := by
  cases t with
  | scalar keyword =>
    exact scanned_mono Grammar.scalar_le_fieldType (scanned_map (scanned_one h.1 h.2))
  | named name => exact scanned_mono Grammar.named_le_fieldType (scanned_map (FullIdent.scanned h))
  | absolute name =>
    exact scanned_mono Grammar.absolute_le_fieldType
      (scanned_ofKind rfl (scanned_bind_pure (FullIdent.scanned h)))

namespace Field

theorem scanned_rest {f : Field} (h : f.WellFormed) :
    (Grammar.fieldRest f.repeated).scanned f.rest f :=
  scanned_bind (FieldType.scanned h.type) <| scanned_cons h.name <| scanned_ofKind rfl <|
    scanned_cons h.number <| scanned_bind (OptionSetting.scanned_bracketed h.options) <|
    scanned_ofKind rfl (scanned_pure f)

theorem scanned {f : Field} (h : f.WellFormed) : Grammar.field.scanned f.tokens f := by
  have label : (Phrase.optional (kind (.keyword .repeatedKw))).scanned f.label.toList f.label := by
    unfold Field.label
    split
    · exact scanned_some (scanned_kind (Token.is_ofKind rfl))
    · exact scanned_none
  have isSome : f.label.isSome = f.repeated := by
    unfold Field.label
    cases f.repeated <;> rfl
  apply scanned_bind label
  rw [isSome]
  exact scanned_rest h

end Field

theorem EnumField.scanned {f : EnumField} (h : f.WellFormed) :
    Grammar.enumField.scanned f.tokens f := by
  rw [tokens, SignedNumber.tokens, List.append_assoc, List.singleton_append]
  refine scanned_cons h.name (scanned_ofKind rfl (scanned_bind (scanned_sign h.sign) ?_))
  exact scanned_cons h.number (scanned_bind (OptionSetting.scanned_bracketed h.options)
    (scanned_ofKind rfl (scanned_pure f)))

/-! ## Bodies and files -/

/-- The members of a body as they are written. -/
def EnumBody.members (b : EnumBody) : List EnumMember :=
  b.options.map .option ++ b.fields.map .field

def MessageBody.members (b : MessageBody) : List MessageMember :=
  b.fields.map .field ++ (b.enums.map .enum ++ (b.messages.map .message ++
    (b.oneofs.map .oneof ++ b.options.map .option)))

/-- The statements of a file as they are written. No place is known for the package. -/
def File.statements (f : File) : List Statement :=
  (f.package.toList.map fun p => .package p (.at 0)) ++ (f.imports.map .imported ++
    (f.options.map .option ++ (f.messages.map .message ++ f.enums.map .enum)))

theorem EnumBody.ofMembers_members (b : EnumBody) : ofMembers b.members = b := by
  simp [ofMembers, members, List.filterMap_map, Function.comp_def, EnumMember.option?,
    EnumMember.field?]

theorem MessageBody.ofMembers_members (b : MessageBody) : ofMembers b.members = b := by
  obtain ⟨fields, enums, messages, oneofs, options⟩ := b
  simp [ofMembers, members, List.filterMap_map, Function.comp_def, MessageMember.field?,
    MessageMember.enum?, MessageMember.message?, MessageMember.oneof?, MessageMember.option?]

namespace File

theorem filterMap_package (f : File) :
    f.statements.filterMap Statement.package? = f.package.toList := by
  simp [statements, List.filterMap_map, Function.comp_def, Statement.package?]

theorem ofStatements_statements (f : File) : ofStatements f.syntaxDecl f.statements = f := by
  have package : f.statements.findSome? Statement.package? = f.package := by
    rw [← List.head?_filterMap, filterMap_package]
    cases f.package <;> rfl
  unfold ofStatements
  rw [package]
  simp [statements, List.filterMap_map, Function.comp_def, Statement.import?, Statement.option?,
    Statement.message?, Statement.enum?]

end File

theorem scanned_block {α β : Type} (keyword : Keyword) {name : Token} {member : Phrase α}
    {ts : List Token} {as : List α} {f : Token → List α → β} (hn : name.Is .identifier)
    (h : (many member).scanned ts as) :
    (Grammar.blockHead keyword >>= fun name => Grammar.members member >>= fun body =>
      pure (f name body)).scanned (block keyword name ts) (f name as) := by
  have head : (Grammar.blockHead keyword).scanned
      [.ofKind (.keyword keyword), name, .ofKind .leftBrace] name :=
    scanned_ofKind rfl (scanned_cons hn (scanned_ofKind rfl (scanned_pure name)))
  have body : (Grammar.members member).scanned (ts ++ [.ofKind .rightBrace]) as :=
    scanned_bind h (scanned_ofKind rfl (scanned_pure as))
  exact scanned_bind head (scanned_bind_pure body)

theorem Enum.scanned {e : Enum} (h : e.WellFormed) : Grammar.enum.scanned e.tokens e := by
  have members :
      (many Grammar.enumMember).scanned (e.body.options.flatMap OptionSetting.statement ++
        e.body.fields.flatMap EnumField.tokens) e.body.members := by
    refine scanned_many_append (scanned_many fun o ho => ?_) (scanned_many fun f hf => ?_)
    · exact scanned_mono Grammar.option_le_enumMember
        (scanned_map (OptionSetting.scanned_statement (h.options o ho)))
    · exact scanned_mono Grammar.field_le_enumMember
        (scanned_map (EnumField.scanned (h.fields f hf)))
  have whole := scanned_block .enumKw
    (f := fun name body => (⟨name, .ofMembers body⟩ : Enum)) h.name members
  rwa [EnumBody.ofMembers_members] at whole

theorem Oneof.scanned {o : Oneof} (h : o.WellFormed) : Grammar.oneof.scanned o.tokens o := by
  obtain ⟨name, fields⟩ := o
  have members : (many (Grammar.fieldRest false)).scanned (fields.flatMap Field.tokens) fields := by
    refine scanned_many_self fun f hf => ?_
    obtain ⟨wellFormed, single⟩ := h.fields f hf
    have rest := Field.scanned_rest wellFormed
    have unlabelled : f.tokens = f.rest := by simp [Field.tokens, Field.label, single]
    rwa [single, ← unlabelled] at rest
  exact scanned_block .oneofKw (f := fun name body => (⟨name, body⟩ : Oneof)) h.name members

theorem Message.scanned {m : Message} (h : m.WellFormed) : Grammar.message.scanned m.tokens m := by
  induction h with
  | @intro m name fields enums _ oneofs options ih =>
    obtain ⟨ident, body⟩ := m
    have members :
        (many (Grammar.messageMember Grammar.message)).scanned body.tokens body.members := by
      obtain ⟨fs, es, ms, os, opts⟩ := body
      rw [MessageBody.tokens, Message.tokensList_eq_flatMap]
      refine scanned_many_append (scanned_many fun f hf => ?_) <|
        scanned_many_append (scanned_many fun e he => ?_) <|
        scanned_many_append (scanned_many fun n hn => ?_) <|
        scanned_many_append (scanned_many fun o ho => ?_) (scanned_many fun o ho => ?_)
      · exact scanned_mono Grammar.field_le_messageMember
          (scanned_map (Field.scanned (fields f hf)))
      · exact scanned_mono Grammar.enum_le_messageMember (scanned_map (Enum.scanned (enums e he)))
      · exact scanned_mono Grammar.message_le_messageMember (scanned_map (ih n hn))
      · exact scanned_mono Grammar.oneof_le_messageMember
          (scanned_map (Oneof.scanned (oneofs o ho)))
      · exact scanned_mono Grammar.option_le_messageMember
          (scanned_map (OptionSetting.scanned_statement (options o ho)))
    have whole := scanned_block .messageKw
      (f := fun name body => (⟨name, .ofMembers body⟩ : Message)) name members
    rw [MessageBody.ofMembers_members] at whole
    rw [← Grammar.messageOf_message, Message.tokens]
    exact whole

theorem SyntaxDecl.scanned {s : SyntaxDecl} (h : s.WellFormed) :
    Grammar.syntaxDecl.scanned s.tokens s := by
  obtain ⟨value⟩ := s
  obtain rfl := h
  have version : Grammar.version.scanned [⟨.stringLiteral, "\"proto3\""⟩] _ :=
    scanned_one rfl (by decide)
  exact scanned_ofKind rfl (scanned_ofKind rfl (scanned_bind version
    (scanned_ofKind rfl (scanned_pure _))))

theorem Import.scanned {i : Import} (h : i.WellFormed) :
    Grammar.importStatement.scanned i.tokens i :=
  scanned_ofKind rfl <|
    scanned_bind (scanned_optional_token fun t ht => scanned_either (h.modifier t ht)) <|
      scanned_cons h.path (scanned_ofKind rfl (scanned_pure i))

theorem Package.scanned {p : Package} (h : p.name.WellFormed) :
    Grammar.package.scanned p.tokens p :=
  scanned_ofKind rfl (scanned_bind (FullIdent.scanned h) (scanned_ofKind rfl (scanned_pure p)))

theorem File.scanned {f : File} (h : f.WellFormed) : Grammar.file.scanned f.tokens f := by
  have statements : (many Grammar.statement).scanned (f.package.toList.flatMap Package.tokens ++
      (f.imports.flatMap Import.tokens ++ (f.options.flatMap OptionSetting.statement ++
        (f.messages.flatMap Message.tokens ++ f.enums.flatMap Enum.tokens)))) f.statements := by
    refine scanned_many_append (scanned_many fun p hp => ?_) <|
      scanned_many_append (scanned_many fun i hi => ?_) <|
      scanned_many_append (scanned_many fun o ho => ?_) <|
      scanned_many_append (scanned_many fun m hm => ?_) (scanned_many fun e he => ?_)
    · obtain ⟨text, reads⟩ := Package.scanned (h.package p (Option.mem_toList.1 hp))
      exact scanned_mono Grammar.package_le_statement ⟨⟨p, _, text, rfl⟩, reads⟩
    · exact scanned_mono Grammar.import_le_statement (scanned_map (Import.scanned (h.imports i hi)))
    · exact scanned_mono Grammar.option_le_statement
        (scanned_map (OptionSetting.scanned_statement (h.options o ho)))
    · exact scanned_mono Grammar.message_le_statement
        (scanned_map (Message.scanned (h.messages m hm)))
    · exact scanned_mono Grammar.enum_le_statement (scanned_map (Enum.scanned (h.enums e he)))
  have single : Grammar.packages f.statements ≤ 1 := by
    rw [Grammar.packages, File.filterMap_package]
    cases f.package <;> simp
  have admitted : (Phrase.guard (Grammar.packages f.statements ≤ 1) >>= fun _ =>
      pure (File.ofStatements f.syntaxDecl f.statements)).scanned [] f := by
    rw [File.ofStatements_statements]
    exact scanned_bind_pure (f := fun _ => f) (a := ()) ⟨⟨rfl, single⟩, List.forall_mem_nil _⟩
  have body := scanned_bind (F := fun body => Phrase.guard (Grammar.packages body ≤ 1) >>= fun _ =>
    pure (File.ofStatements f.syntaxDecl body)) statements admitted
  rw [List.append_nil] at body
  exact scanned_bind (SyntaxDecl.scanned h.syntaxDecl) body

end ProtoSchema
