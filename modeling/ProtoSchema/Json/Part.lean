import ProtoSchema.Json.Encode
import ProtoSchema.Json.Decode
import ProtoSchema.Node

/-! # The sorts of trees that have a JSON form

Besides the nodes of the grammar, their parts can be written and read: tokens, kinds, option names,
field types and bodies. -/

namespace ProtoSchema

inductive Part where
  | node (node : Node)
  | token
  | tokenKind
  | optionName
  | fieldType
  | enumBody
  | messageBody
deriving DecidableEq, Repr

namespace Node

def encode : (n : Node) → n.Tree → Json
  | .file => File.toJson
  | .syntaxDecl => SyntaxDecl.toJson
  | .imported => Import.toJson
  | .package => Package.toJson
  | .option => OptionSetting.toJson
  | .fullIdent => FullIdent.toJson
  | .constant => Constant.toJson
  | .signedNumber => SignedNumber.toJson
  | .field => Field.toJson
  | .enumField => EnumField.toJson
  | .enum => Enum.toJson
  | .oneof => Oneof.toJson
  | .message => Message.toJson

def decode : (n : Node) → Json → Option n.Tree
  | .file => File.ofJson?
  | .syntaxDecl => SyntaxDecl.ofJson?
  | .imported => Import.ofJson?
  | .package => Package.ofJson?
  | .option => OptionSetting.ofJson?
  | .fullIdent => FullIdent.ofJson?
  | .constant => Constant.ofJson?
  | .signedNumber => SignedNumber.ofJson?
  | .field => Field.ofJson?
  | .enumField => EnumField.ofJson?
  | .enum => Enum.ofJson?
  | .oneof => Oneof.ofJson?
  | .message => Message.ofJson?

end Node

namespace Part

/-- The values of a part. -/
abbrev Tree : Part → Type
  | .node n => n.Tree
  | .token => Token
  | .tokenKind => TokenKind
  | .optionName => OptionName
  | .fieldType => FieldType
  | .enumBody => EnumBody
  | .messageBody => MessageBody

def encode : (p : Part) → p.Tree → Json
  | .node n => n.encode
  | .token => Token.toJson
  | .tokenKind => TokenKind.toJson
  | .optionName => OptionName.toJson
  | .fieldType => FieldType.toJson
  | .enumBody => EnumBody.toJson
  | .messageBody => MessageBody.toJson

def decode : (p : Part) → Json → Option p.Tree
  | .node n => n.decode
  | .token => Token.ofJson?
  | .tokenKind => TokenKind.ofJson?
  | .optionName => OptionName.ofJson?
  | .fieldType => FieldType.ofJson?
  | .enumBody => EnumBody.ofJson?
  | .messageBody => MessageBody.ofJson?

end Part

end ProtoSchema
