/-! # Token kinds

The vocabulary of the proto3 schema language. A token is a name, a literal, a reserved word, the
keyword of a scalar type or a punctuation mark. Every reserved word has a kind of its own, so that
none of them is ever taken for a name. -/

namespace ProtoSchema

/-- The reserved words other than the scalar types. -/
inductive Keyword where
  | syntaxKw
  | importKw
  | publicKw
  | weakKw
  | packageKw
  | optionKw
  | messageKw
  | enumKw
  | oneofKw
  | repeatedKw
  | trueKw
  | falseKw
deriving DecidableEq, Repr

/-- The built-in types of a field. -/
inductive ScalarType where
  | double
  | float
  | int32
  | int64
  | uint32
  | uint64
  | sint32
  | sint64
  | fixed32
  | fixed64
  | sfixed32
  | sfixed64
  | bool
  | string
  | bytes
deriving DecidableEq, Repr

/-- The punctuation marks. -/
inductive Mark where
  | equals
  | semicolon
  | dot
  | comma
  | leftBracket
  | rightBracket
  | leftBrace
  | rightBrace
  | leftParen
  | rightParen
  | plus
  | minus
deriving DecidableEq, Repr

/-- The class of a token. No text has the kind `blockComment`: closed comments are skipped and an
open one is a failure. -/
inductive TokenKind where
  | identifier
  | stringLiteral
  | decimalLiteral
  | floatLiteral
  | keyword (word : Keyword)
  | scalar (type : ScalarType)
  | mark (mark : Mark)
  | blockComment
deriving DecidableEq, Repr

namespace Keyword

def all : List Keyword :=
  [.syntaxKw, .importKw, .publicKw, .weakKw, .packageKw, .optionKw, .messageKw, .enumKw, .oneofKw,
    .repeatedKw, .trueKw, .falseKw]

/-- The word as it stands in a source. -/
def text : Keyword → String
  | .syntaxKw => "syntax"
  | .importKw => "import"
  | .publicKw => "public"
  | .weakKw => "weak"
  | .packageKw => "package"
  | .optionKw => "option"
  | .messageKw => "message"
  | .enumKw => "enum"
  | .oneofKw => "oneof"
  | .repeatedKw => "repeated"
  | .trueKw => "true"
  | .falseKw => "false"

def name : Keyword → String
  | .syntaxKw => "Syntax"
  | .importKw => "Import"
  | .publicKw => "Public"
  | .weakKw => "Weak"
  | .packageKw => "Package"
  | .optionKw => "Option"
  | .messageKw => "Message"
  | .enumKw => "Enum"
  | .oneofKw => "Oneof"
  | .repeatedKw => "Repeated"
  | .trueKw => "True"
  | .falseKw => "False"

theorem mem_all (k : Keyword) : k ∈ all := by cases k <;> decide

end Keyword

namespace ScalarType

def all : List ScalarType :=
  [.double, .float, .int32, .int64, .uint32, .uint64, .sint32, .sint64, .fixed32, .fixed64,
    .sfixed32, .sfixed64, .bool, .string, .bytes]

/-- The word as it stands in a source. -/
def text : ScalarType → String
  | .double => "double"
  | .float => "float"
  | .int32 => "int32"
  | .int64 => "int64"
  | .uint32 => "uint32"
  | .uint64 => "uint64"
  | .sint32 => "sint32"
  | .sint64 => "sint64"
  | .fixed32 => "fixed32"
  | .fixed64 => "fixed64"
  | .sfixed32 => "sfixed32"
  | .sfixed64 => "sfixed64"
  | .bool => "bool"
  | .string => "string"
  | .bytes => "bytes"

def name : ScalarType → String
  | .double => "Double"
  | .float => "Float"
  | .int32 => "Int32"
  | .int64 => "Int64"
  | .uint32 => "Uint32"
  | .uint64 => "Uint64"
  | .sint32 => "Sint32"
  | .sint64 => "Sint64"
  | .fixed32 => "Fixed32"
  | .fixed64 => "Fixed64"
  | .sfixed32 => "Sfixed32"
  | .sfixed64 => "Sfixed64"
  | .bool => "Bool"
  | .string => "String"
  | .bytes => "Bytes"

theorem mem_all (t : ScalarType) : t ∈ all := by cases t <;> decide

end ScalarType

namespace Mark

def all : List Mark :=
  [.equals, .semicolon, .dot, .comma, .leftBracket, .rightBracket, .leftBrace, .rightBrace,
    .leftParen, .rightParen, .plus, .minus]

/-- The character of a mark. -/
def char : Mark → Char
  | .equals => '='
  | .semicolon => ';'
  | .dot => '.'
  | .comma => ','
  | .leftBracket => '['
  | .rightBracket => ']'
  | .leftBrace => '{'
  | .rightBrace => '}'
  | .leftParen => '('
  | .rightParen => ')'
  | .plus => '+'
  | .minus => '-'

def text (m : Mark) : String := String.ofList [m.char]

def name : Mark → String
  | .equals => "Equals"
  | .semicolon => "Semicolon"
  | .dot => "Dot"
  | .comma => "Comma"
  | .leftBracket => "LeftBracket"
  | .rightBracket => "RightBracket"
  | .leftBrace => "LeftBrace"
  | .rightBrace => "RightBrace"
  | .leftParen => "LeftParen"
  | .rightParen => "RightParen"
  | .plus => "Plus"
  | .minus => "Minus"

/-- The mark that a character is. -/
def ofChar? (c : Char) : Option Mark := all.find? (·.char == c)

theorem mem_all (m : Mark) : m ∈ all := by cases m <;> decide

end Mark

namespace TokenKind

def all : List TokenKind :=
  [.identifier, .stringLiteral, .decimalLiteral, .floatLiteral] ++ Keyword.all.map .keyword ++
    ScalarType.all.map .scalar ++ Mark.all.map .mark ++ [.blockComment]

theorem mem_all (k : TokenKind) : k ∈ all := by
  cases k with
  | keyword w => simp [all, Keyword.mem_all]
  | scalar t => simp [all, ScalarType.mem_all]
  | mark m => simp [all, Mark.mem_all]
  | _ => simp [all]

/-- The text that every token of this kind has, if the kind fixes it. -/
def text? : TokenKind → Option String
  | .keyword w => some w.text
  | .scalar t => some t.text
  | .mark m => some m.text
  | _ => none

/-- The name under which a kind is written in data and named in errors. -/
def name : TokenKind → String
  | .identifier => "Identifier"
  | .stringLiteral => "StringLiteral"
  | .decimalLiteral => "DecimalLiteral"
  | .floatLiteral => "FloatLiteral"
  | .keyword w => w.name
  | .scalar t => t.name
  | .mark m => m.name
  | .blockComment => "BlockComment"

/-- The kind of a given name. -/
def ofName? (s : String) : Option TokenKind := all.find? (·.name == s)

/-- What a reader calls a token of this kind: its fixed text, or the class of a name or literal. -/
def description : TokenKind → String
  | .identifier => "identifier"
  | .stringLiteral => "string literal"
  | .decimalLiteral => "decimal literal"
  | .floatLiteral => "float literal"
  | .keyword w => w.text
  | .scalar t => t.text
  | .mark m => m.text
  | .blockComment => "comment"

def isScalar : TokenKind → Bool
  | .scalar _ => true
  | _ => false

/-- The kind of a whole word: a reserved word, a scalar type, or else a name. -/
def ofWord (s : String) : TokenKind :=
  match Keyword.all.find? (·.text == s), ScalarType.all.find? (·.text == s) with
  | some w, _ => .keyword w
  | none, some t => .scalar t
  | none, none => .identifier

-- The grammar is written with the marks, so these have short names among the kinds.

@[match_pattern] abbrev equals : TokenKind := .mark .equals
@[match_pattern] abbrev semicolon : TokenKind := .mark .semicolon
@[match_pattern] abbrev dot : TokenKind := .mark .dot
@[match_pattern] abbrev comma : TokenKind := .mark .comma
@[match_pattern] abbrev leftBracket : TokenKind := .mark .leftBracket
@[match_pattern] abbrev rightBracket : TokenKind := .mark .rightBracket
@[match_pattern] abbrev leftBrace : TokenKind := .mark .leftBrace
@[match_pattern] abbrev rightBrace : TokenKind := .mark .rightBrace
@[match_pattern] abbrev leftParen : TokenKind := .mark .leftParen
@[match_pattern] abbrev rightParen : TokenKind := .mark .rightParen
@[match_pattern] abbrev plus : TokenKind := .mark .plus
@[match_pattern] abbrev minus : TokenKind := .mark .minus

end TokenKind

end ProtoSchema
