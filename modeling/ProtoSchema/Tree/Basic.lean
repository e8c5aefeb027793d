import ProtoSchema.Token.Basic

/-! # Syntax trees

The tree of a schema file keeps the tokens it was read from, so that names and literals are
available exactly as written. Where they stood in the source is no part of it. A body keeps the
order among its members of one sort; empty statements, and how members of different sorts are mixed,
leave no trace. -/

namespace ProtoSchema

/-- A dotted name. Names read from a source have at least one segment. -/
structure FullIdent where
  segments : List Token
deriving DecidableEq, Repr

/-- A decimal or float literal, perhaps behind a sign. -/
structure SignedNumber where
  sign : Option Token
  number : Token
deriving DecidableEq, Repr

/-- The value of an option. The words `true` and `false` count as references. -/
inductive Constant where
  | string (literal : Token)
  | reference (name : FullIdent)
  | number (value : SignedNumber)
deriving DecidableEq, Repr

/-- The name of an option: a plain one, or that of an extension in parentheses, which may go on
behind them. -/
inductive OptionName where
  | plain (name : FullIdent)
  | extended (extension : FullIdent) (rest : Option FullIdent)
deriving DecidableEq, Repr

/-- An option with its value, from a statement or from a bracketed list. -/
structure OptionSetting where
  name : OptionName
  value : Constant
deriving DecidableEq, Repr

/-- The type of a field. An absolute name was written with a point in front, which is not kept. -/
inductive FieldType where
  | scalar (keyword : Token)
  | named (name : FullIdent)
  | absolute (name : FullIdent)
deriving DecidableEq, Repr

structure Field where
  repeated : Bool
  type : FieldType
  name : Token
  number : Token
  options : List OptionSetting
deriving DecidableEq, Repr

structure EnumField where
  name : Token
  number : SignedNumber
  options : List OptionSetting
deriving DecidableEq, Repr

structure EnumBody where
  options : List OptionSetting
  fields : List EnumField
deriving DecidableEq, Repr

structure Enum where
  name : Token
  body : EnumBody
deriving DecidableEq, Repr

structure Oneof where
  name : Token
  fields : List Field
deriving DecidableEq, Repr

mutual

structure Message where
  name : Token
  body : MessageBody

/-- What a message declares, sort by sort. -/
structure MessageBody where
  fields : List Field
  enums : List Enum
  messages : List Message
  oneofs : List Oneof
  options : List OptionSetting

end

/-- The statement that names the language version. -/
structure SyntaxDecl where
  value : Token
deriving DecidableEq, Repr

/-- The import of another file, marked public or weak or not at all. -/
structure Import where
  path : Token
  modifier : Option Token
deriving DecidableEq, Repr

structure Package where
  name : FullIdent
deriving DecidableEq, Repr

structure File where
  syntaxDecl : SyntaxDecl
  package : Option Package
  imports : List Import
  options : List OptionSetting
  messages : List Message
  enums : List Enum

/-- The segments of a name, joined by points. -/
def FullIdent.text (f : FullIdent) : String := String.intercalate "." (f.segments.map Token.text)

/-- The version that a syntax statement names: its text without the double quotes at both ends. -/
def SyntaxDecl.version (s : SyntaxDecl) : String :=
  let inner := s.value.text.toList.dropWhile (· == '"')
  String.ofList (inner.reverse.dropWhile (· == '"')).reverse

/-- Whether a body declares nothing. -/
def MessageBody.isEmpty (b : MessageBody) : Bool :=
  b.fields.isEmpty && b.enums.isEmpty && b.messages.isEmpty && b.oneofs.isEmpty && b.options.isEmpty

end ProtoSchema
