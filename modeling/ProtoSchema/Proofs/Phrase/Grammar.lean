import ProtoSchema.Node
import ProtoSchema.Proofs.Phrase.Basic

/-! # The grammar of schema files

The productions of the language, each a phrase whose values are the trees it stands for. Members of
a body and statements of a file are kept in the order in which they are written, empty ones among
them, until the tree is made of them. A message may hold messages: it is the least phrase that its
own production allows. -/

namespace ProtoSchema.Grammar
open Phrase

variable {α : Type}

def identifier : Phrase Token := kind .identifier

/-- Identifiers with points between them. -/
def fullIdent : Phrase FullIdent := do
  let first ← identifier
  let rest ← many do
    let _ ← kind .dot
    identifier
  return ⟨first :: rest⟩

def sign : Phrase Token := kind .plus ⊔ kind .minus

def signedNumber : Phrase SignedNumber := do
  let sign ← optional sign
  let number ← kind .decimalLiteral ⊔ kind .floatLiteral
  return ⟨sign, number⟩

/-- The words `true` and `false`, which stand for names of one segment. -/
def truth : Phrase FullIdent := do
  let word ← kind (.keyword .trueKw) ⊔ kind (.keyword .falseKw)
  return ⟨[word]⟩

def constant : Phrase Constant :=
  Constant.string <$> kind .stringLiteral ⊔ Constant.number <$> signedNumber ⊔
    Constant.reference <$> truth ⊔ Constant.reference <$> fullIdent

def extensionName : Phrase OptionName := do
  let _ ← kind .leftParen
  let extension ← fullIdent
  let _ ← kind .rightParen
  let rest ← optional do
    let _ ← kind .dot
    fullIdent
  return .extended extension rest

def optionName : Phrase OptionName := extensionName ⊔ OptionName.plain <$> fullIdent

def optionSetting : Phrase OptionSetting := do
  let name ← optionName
  let _ ← kind .equals
  let value ← constant
  return ⟨name, value⟩

def optionStatement : Phrase OptionSetting := do
  let _ ← kind (.keyword .optionKw)
  let setting ← optionSetting
  let _ ← kind .semicolon
  return setting

/-- A list of options in brackets, which is not empty. -/
def bracketedOptions : Phrase (List OptionSetting) := do
  let _ ← kind .leftBracket
  let first ← optionSetting
  let rest ← many do
    let _ ← kind .comma
    optionSetting
  let _ ← kind .rightBracket
  return first :: rest

def optionList : Phrase (List OptionSetting) := pure [] ⊔ bracketedOptions

def absoluteType : Phrase FieldType := do
  let _ ← kind .dot
  let name ← fullIdent
  return .absolute name

def fieldType : Phrase FieldType :=
  FieldType.scalar <$> one (·.kind.isScalar) ⊔ FieldType.named <$> fullIdent ⊔ absoluteType

/-- A field from its type on. -/
def fieldRest (repeated : Bool) : Phrase Field := do
  let type ← fieldType
  let name ← identifier
  let _ ← kind .equals
  let number ← kind .decimalLiteral
  let options ← optionList
  let _ ← kind .semicolon
  return ⟨repeated, type, name, number, options⟩

def field : Phrase Field := do
  let label ← optional (kind (.keyword .repeatedKw))
  fieldRest label.isSome

def enumField : Phrase EnumField := do
  let name ← identifier
  let _ ← kind .equals
  let sign ← optional sign
  let number ← kind .decimalLiteral
  let options ← optionList
  let _ ← kind .semicolon
  return ⟨name, ⟨sign, number⟩, options⟩

/-- A semicolon that stands for an empty member or statement. -/
def empty (a : α) : Phrase α := do
  let _ ← kind .semicolon
  return a

def blockHead (keyword : Keyword) : Phrase Token := do
  let _ ← kind (.keyword keyword)
  let name ← identifier
  let _ ← kind .leftBrace
  return name

/-- Members up to a closing brace. -/
def members (member : Phrase α) : Phrase (List α) := do
  let members ← many member
  let _ ← kind .rightBrace
  return members

def enumMember : Phrase EnumMember :=
  empty .empty ⊔ EnumMember.option <$> optionStatement ⊔ EnumMember.field <$> enumField

def enum : Phrase Enum := do
  let name ← blockHead .enumKw
  let body ← members enumMember
  return ⟨name, .ofMembers body⟩

def oneof : Phrase Oneof := do
  let name ← blockHead .oneofKw
  let fields ← members (fieldRest false)
  return ⟨name, fields⟩

def messageMember (message : Phrase Message) : Phrase MessageMember :=
  empty .empty ⊔ MessageMember.message <$> message ⊔ MessageMember.enum <$> enum ⊔
    MessageMember.oneof <$> oneof ⊔ MessageMember.option <$> optionStatement ⊔
    MessageMember.field <$> field

/-- A message in which a given phrase stands for the messages within. -/
def messageOf (inner : Phrase Message) : Phrase Message := do
  let name ← blockHead .messageKw
  let body ← members (messageMember inner)
  return ⟨name, .ofMembers body⟩

theorem messageMember_mono : Monotone messageMember := by
  intro P Q h
  have inner : MessageMember.message <$> P ≤ MessageMember.message <$> Q := map_mono h
  unfold messageMember
  gcongr

theorem messageOf_mono : Monotone messageOf := by
  intro P Q h
  refine bind_mono le_rfl fun name => bind_mono ?_ fun body => le_rfl
  exact bind_mono (many_mono (messageMember_mono h)) fun _ => le_rfl

def message : Phrase Message := OrderHom.lfp ⟨messageOf, messageOf_mono⟩

theorem messageOf_message : messageOf message = message :=
  OrderHom.map_lfp ⟨messageOf, messageOf_mono⟩

/-- The version literal, with its double quotes. -/
def version : Phrase Token := one fun t => t = ⟨.stringLiteral, "\"proto3\""⟩

def syntaxDecl : Phrase SyntaxDecl := do
  let _ ← kind (.keyword .syntaxKw)
  let _ ← kind .equals
  let value ← version
  let _ ← kind .semicolon
  return ⟨value⟩

def importStatement : Phrase Import := do
  let _ ← kind (.keyword .importKw)
  let modifier ← optional (kind (.keyword .publicKw) ⊔ kind (.keyword .weakKw))
  let path ← kind .stringLiteral
  let _ ← kind .semicolon
  return ⟨path, modifier⟩

def package : Phrase Package := do
  let _ ← kind (.keyword .packageKw)
  let name ← fullIdent
  let _ ← kind .semicolon
  return ⟨name⟩

/-- A package statement may stand at any place: tokens do not tell. -/
def packageStatement : Phrase Statement :=
  fun ts s => ∃ p place, package ts p ∧ s = .package p place

def statement : Phrase Statement :=
  empty .empty ⊔ Statement.imported <$> importStatement ⊔ packageStatement ⊔
    Statement.option <$> optionStatement ⊔ Statement.message <$> message ⊔
    Statement.enum <$> enum

/-- Files whose statements meet a condition. -/
def fileWhere (admitted : List Statement → Prop) : Phrase File := do
  let version ← syntaxDecl
  let statements ← many statement
  guard (admitted statements)
  return .ofStatements version statements

/-- How often a package is named. -/
def packages (statements : List Statement) : Nat := (statements.filterMap Statement.package?).length

def file : Phrase File := fileWhere fun statements => packages statements ≤ 1

/-- Files with any number of package statements, of which the first counts. -/
def openFile : Phrase File := fileWhere fun _ => True

/-! ## Alternatives of productions -/

theorem string_le_constant : Constant.string <$> kind .stringLiteral ≤ constant :=
  le_sup_of_le_left (le_sup_of_le_left le_sup_left)

theorem number_le_constant : Constant.number <$> signedNumber ≤ constant :=
  le_sup_of_le_left (le_sup_of_le_left le_sup_right)

theorem truth_le_constant : Constant.reference <$> truth ≤ constant :=
  le_sup_of_le_left le_sup_right

theorem name_le_constant : Constant.reference <$> fullIdent ≤ constant := le_sup_right

theorem scalar_le_fieldType : FieldType.scalar <$> one (·.kind.isScalar) ≤ fieldType :=
  le_sup_of_le_left le_sup_left

theorem named_le_fieldType : FieldType.named <$> fullIdent ≤ fieldType :=
  le_sup_of_le_left le_sup_right

theorem absolute_le_fieldType : absoluteType ≤ fieldType := le_sup_right

theorem empty_le_enumMember : empty .empty ≤ enumMember := le_sup_of_le_left le_sup_left

theorem option_le_enumMember : EnumMember.option <$> optionStatement ≤ enumMember :=
  le_sup_of_le_left le_sup_right

theorem field_le_enumMember : EnumMember.field <$> enumField ≤ enumMember := le_sup_right

section

variable {P : Phrase Message}

theorem field_le_messageMember : MessageMember.field <$> field ≤ messageMember P := le_sup_right

theorem option_le_messageMember : MessageMember.option <$> optionStatement ≤ messageMember P :=
  le_sup_of_le_left le_sup_right

theorem oneof_le_messageMember : MessageMember.oneof <$> oneof ≤ messageMember P :=
  le_sup_of_le_left (le_sup_of_le_left le_sup_right)

theorem enum_le_messageMember : MessageMember.enum <$> enum ≤ messageMember P :=
  le_sup_of_le_left (le_sup_of_le_left (le_sup_of_le_left le_sup_right))

theorem message_le_messageMember : MessageMember.message <$> P ≤ messageMember P :=
  le_sup_of_le_left (le_sup_of_le_left (le_sup_of_le_left (le_sup_of_le_left le_sup_right)))

theorem empty_le_messageMember : empty .empty ≤ messageMember P :=
  le_sup_of_le_left (le_sup_of_le_left (le_sup_of_le_left (le_sup_of_le_left le_sup_left)))

end

theorem enum_le_statement : Statement.enum <$> enum ≤ statement := le_sup_right

theorem message_le_statement : Statement.message <$> message ≤ statement :=
  le_sup_of_le_left le_sup_right

theorem option_le_statement : Statement.option <$> optionStatement ≤ statement :=
  le_sup_of_le_left (le_sup_of_le_left le_sup_right)

theorem package_le_statement : packageStatement ≤ statement :=
  le_sup_of_le_left (le_sup_of_le_left (le_sup_of_le_left le_sup_right))

theorem import_le_statement : Statement.imported <$> importStatement ≤ statement :=
  le_sup_of_le_left (le_sup_of_le_left (le_sup_of_le_left (le_sup_of_le_left le_sup_right)))

theorem empty_le_statement : empty .empty ≤ statement :=
  le_sup_of_le_left (le_sup_of_le_left (le_sup_of_le_left (le_sup_of_le_left le_sup_left)))

/-! ## Texts of productions -/

section

variable {α β : Type} {P : Phrase α} {ts us : List Token} {k : Keyword}
  {word name equals brace semicolon : Token}

theorem fullIdent_iff {f : FullIdent} : fullIdent ts f ↔
    ∃ first us rest, first.kind = .identifier ∧ many (kind .dot >>= fun _ => identifier) us rest ∧
      f = ⟨first :: rest⟩ ∧ ts = first :: us := by
  constructor
  · rintro ⟨_, us, first, ⟨rfl, hk⟩, others, rfl⟩
    obtain ⟨rest, hr, rfl⟩ := bind_pure_iff.1 others
    exact ⟨first, us, rest, hk, hr, rfl, rfl⟩
  · rintro ⟨first, us, rest, hk, hr, rfl, rfl⟩
    exact text_cons hk (text_bind_pure hr)

/-- A name of one segment. -/
theorem text_name (h : name.kind = .identifier) : fullIdent [name] ⟨[name]⟩ :=
  fullIdent_iff.2 ⟨name, [], [], h, .nil, rfl, rfl⟩

theorem empty_iff {a b : α} : empty a ts b ↔ ∃ t, t.kind = .semicolon ∧ ts = [t] ∧ b = a := by
  constructor
  · intro h
    obtain ⟨t, ⟨rfl, hk⟩, rfl⟩ := bind_pure_iff.1 h
    exact ⟨t, hk, rfl, rfl⟩
  · rintro ⟨t, hk, rfl, rfl⟩
    exact text_cons hk (text_pure b)

theorem text_empty (h : semicolon.kind = .semicolon) (a : α) : empty a [semicolon] a :=
  empty_iff.2 ⟨semicolon, h, rfl, rfl⟩

theorem text_blockHead (hk : word.kind = .keyword k) (hn : name.kind = .identifier)
    (hb : brace.kind = .leftBrace) : blockHead k [word, name, brace] name :=
  text_cons hk (text_cons hn (text_cons hb (text_pure name)))

theorem members_iff {as : List α} :
    members P ts as ↔ ∃ us brace, many P us as ∧ brace.kind = .rightBrace ∧ ts = us ++ [brace] := by
  constructor
  · rintro ⟨us, _, as, h, closing, rfl⟩
    obtain ⟨_, ⟨rfl, hb⟩, rfl⟩ := bind_pure_iff.1 closing
    exact ⟨us, _, h, hb, rfl⟩
  · rintro ⟨us, brace, h, hb, rfl⟩
    exact text_bind h (text_cons hb (text_pure as))

/-- A block is its head, its members and a closing brace. -/
theorem block_iff {f : Token → List α → β} {b : β} :
    (blockHead k >>= fun name => members P >>= fun as => pure (f name as)) ts b ↔
      ∃ hs us brace name as, blockHead k hs name ∧ many P us as ∧ brace.kind = .rightBrace ∧
        b = f name as ∧ ts = hs ++ (us ++ [brace]) := by
  constructor
  · rintro ⟨hs, _, name, head, body, rfl⟩
    obtain ⟨as, rest, rfl⟩ := bind_pure_iff.1 body
    obtain ⟨us, brace, h, hb, rfl⟩ := members_iff.1 rest
    exact ⟨hs, us, brace, name, as, head, h, hb, rfl, rfl⟩
  · rintro ⟨hs, us, brace, name, as, head, h, hb, rfl, rfl⟩
    exact text_bind head (text_bind_pure (members_iff.2 ⟨us, brace, h, hb, rfl⟩))

theorem text_package {p : FullIdent} (hk : word.kind = .keyword .packageKw) (h : fullIdent us p)
    (hs : semicolon.kind = .semicolon) : package (word :: (us ++ [semicolon])) ⟨p⟩ :=
  text_cons hk (text_bind h (text_cons hs (text_pure _)))

theorem text_version : version [⟨.stringLiteral, "\"proto3\""⟩] ⟨.stringLiteral, "\"proto3\""⟩ :=
  ⟨rfl, rfl⟩

theorem text_syntaxDecl (hk : word.kind = .keyword .syntaxKw) (he : equals.kind = .equals)
    (hs : semicolon.kind = .semicolon) :
    syntaxDecl [word, equals, ⟨.stringLiteral, "\"proto3\""⟩, semicolon]
      ⟨⟨.stringLiteral, "\"proto3\""⟩⟩ :=
  text_cons hk (text_cons he (text_bind text_version (text_cons hs (text_pure _))))

theorem fileWhere_iff {admitted : List Statement → Prop} {f : File} :
    fileWhere admitted ts f ↔ ∃ ds us version statements, syntaxDecl ds version ∧
      many statement us statements ∧ admitted statements ∧ f = .ofStatements version statements ∧
        ts = ds ++ us := by
  constructor
  · rintro ⟨ds, _, version, hd, ⟨us, _, statements, hs, rest, rfl⟩, rfl⟩
    obtain ⟨ha, rfl, rfl⟩ := guard_bind_iff.1 rest
    exact ⟨ds, us, version, statements, hd, hs, ha, rfl, by rw [List.append_nil]⟩
  · rintro ⟨ds, us, version, statements, hd, hs, ha, rfl, rfl⟩
    refine text_bind hd ?_
    rw [← List.append_nil us]
    exact text_bind hs (guard_bind_iff.2 ⟨ha, text_pure _⟩)

end

end ProtoSchema.Grammar

namespace ProtoSchema.Node

/-- The production of a node. -/
def phrase : (n : Node) → Phrase n.Tree
  | .file => Grammar.file
  | .syntaxDecl => Grammar.syntaxDecl
  | .imported => Grammar.importStatement
  | .package => Grammar.package
  | .option => Grammar.optionStatement
  | .fullIdent => Grammar.fullIdent
  | .constant => Grammar.constant
  | .signedNumber => Grammar.signedNumber
  | .field => Grammar.field
  | .enumField => Grammar.enumField
  | .enum => Grammar.enum
  | .oneof => Grammar.oneof
  | .message => Grammar.message

/-- The production of a node where packages of a file are not counted. -/
def openPhrase : (n : Node) → Phrase n.Tree
  | .file => Grammar.openFile
  | n => n.phrase

end ProtoSchema.Node
