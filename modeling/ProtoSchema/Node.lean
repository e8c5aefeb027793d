import ProtoSchema.Parser.File

/-! # Nodes

The nodes of the grammar are the sorts of trees that can be read by themselves, from a source or
wherever a cursor stands. Reading a node takes the tokens that belong to it; what follows them is
not looked at, unless the node could go on there. -/

namespace ProtoSchema

inductive Node where
  | file
  | syntaxDecl
  | imported
  | package
  | option
  | fullIdent
  | constant
  | signedNumber
  | field
  | enumField
  | enum
  | oneof
  | message
deriving DecidableEq, Repr

namespace Node

/-- The trees of a node. -/
abbrev Tree : Node → Type
  | .file => File
  | .syntaxDecl => SyntaxDecl
  | .imported => Import
  | .package => Package
  | .option => OptionSetting
  | .fullIdent => FullIdent
  | .constant => Constant
  | .signedNumber => SignedNumber
  | .field => Field
  | .enumField => EnumField
  | .enum => Enum
  | .oneof => Oneof
  | .message => Message

instance : (n : Node) → DecidableEq n.Tree
  | .file => inferInstanceAs (DecidableEq File)
  | .syntaxDecl => inferInstanceAs (DecidableEq SyntaxDecl)
  | .imported => inferInstanceAs (DecidableEq Import)
  | .package => inferInstanceAs (DecidableEq Package)
  | .option => inferInstanceAs (DecidableEq OptionSetting)
  | .fullIdent => inferInstanceAs (DecidableEq FullIdent)
  | .constant => inferInstanceAs (DecidableEq Constant)
  | .signedNumber => inferInstanceAs (DecidableEq SignedNumber)
  | .field => inferInstanceAs (DecidableEq Field)
  | .enumField => inferInstanceAs (DecidableEq EnumField)
  | .enum => inferInstanceAs (DecidableEq Enum)
  | .oneof => inferInstanceAs (DecidableEq Oneof)
  | .message => inferInstanceAs (DecidableEq Message)

/-- Reads a node where the cursor stands. -/
def parser : (n : Node) → Parser n.Tree
  | .file => Parser.file
  | .syntaxDecl => Parser.syntaxDecl
  | .imported => Parser.importStatement
  | .package => Parser.package
  | .option => Parser.optionStatement
  | .fullIdent => Parser.fullIdent
  | .constant => Parser.constant
  | .signedNumber => Parser.signedNumber
  | .field => Parser.field
  | .enumField => Parser.enumField
  | .enum => Parser.enum
  | .oneof => Parser.oneof
  | .message => Parser.message

end Node

/-- The tree or the error with which a run of a parser ended. -/
def outcome : EStateM.Result ParseError Cursor α → Except ParseError α
  | .ok a _ => .ok a
  | .error e _ => .error e

/-- Reads a node from the start of a source. -/
def parse (n : Node) (source : String) : Except ParseError n.Tree :=
  outcome (n.parser.run (.ofSource source))

/-- Reads a whole schema file. -/
def parseFile (source : String) : Except ParseError File := parse .file source

end ProtoSchema
