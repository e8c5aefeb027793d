import ProtoSchema.Json.Basic
import ProtoSchema.Tree.Basic

/-! # Trees from JSON

Trees are read from JSON as they are written, with some freedom: the members of a record stand in
any order and among others, an optional field may be left out, a record may be the array of its
fields, and the name of a kind may be the key of a `null`. What belongs to an extended option name
is never an array. Whether a tree is one that could be read from a source is not asked. -/

namespace ProtoSchema
open Json

def TokenKind.ofJson? : Json → Option TokenKind
  | .string name => ofName? name
  | .object [(name, .null)] => ofName? name
  | _ => none

def Token.ofJson? (j : Json) : Option Token := do
  match ← j.record [.required "kind", .required "text"] with
  | [kind, text] => return ⟨← TokenKind.ofJson? kind, ← text.string?⟩
  | _ => none

def FullIdent.ofJson? (j : Json) : Option FullIdent := do
  match ← j.record [.required "identifiers"] with
  | [segments] => return ⟨← segments.list? Token.ofJson?⟩
  | _ => none

def SignedNumber.ofJson? (j : Json) : Option SignedNumber := do
  match ← j.record [.optional "sign", .required "number"] with
  | [sign, number] => return ⟨← sign.nullable? Token.ofJson?, ← Token.ofJson? number⟩
  | _ => none

def Constant.ofJson? (j : Json) : Option Constant := do
  match ← j.variant with
  | ("String", content) => return .string (← Token.ofJson? content)
  | ("Identifier", content) => return .reference (← FullIdent.ofJson? content)
  | ("Number", content) => return .number (← SignedNumber.ofJson? content)
  | _ => none

def OptionName.ofJson? (j : Json) : Option OptionName := do
  match ← j.variant with
  | ("Name", content) => return .plain (← FullIdent.ofJson? content)
  | ("Prefix", content) =>
    match ← content.openRecord [.required "prefix", .optional "suffix"] with
    | [extension, rest] =>
      return .extended (← FullIdent.ofJson? extension) (← rest.nullable? FullIdent.ofJson?)
    | _ => none
  | _ => none

def OptionSetting.ofJson? (j : Json) : Option OptionSetting := do
  match ← j.record [.required "name", .required "value"] with
  | [name, value] => return ⟨← OptionName.ofJson? name, ← Constant.ofJson? value⟩
  | _ => none

def FieldType.ofJson? (j : Json) : Option FieldType := do
  match ← j.variant with
  | ("Scalar", content) => return .scalar (← Token.ofJson? content)
  | ("Named", content) => return .named (← FullIdent.ofJson? content)
  | ("Absolute", content) => return .absolute (← FullIdent.ofJson? content)
  | _ => none

def Field.ofJson? (j : Json) : Option Field := do
  match ← j.record [.required "repeated", .required "ty", .required "name", .required "number",
    .required "options"] with
  | [repeated, type, name, number, options] =>
    return ⟨← repeated.bool?, ← FieldType.ofJson? type, ← Token.ofJson? name,
      ← Token.ofJson? number, ← options.list? OptionSetting.ofJson?⟩
  | _ => none

def EnumField.ofJson? (j : Json) : Option EnumField := do
  match ← j.record [.required "name", .required "number", .required "options"] with
  | [name, number, options] =>
    return ⟨← Token.ofJson? name, ← SignedNumber.ofJson? number,
      ← options.list? OptionSetting.ofJson?⟩
  | _ => none

def EnumBody.ofJson? (j : Json) : Option EnumBody := do
  match ← j.record [.required "options", .required "fields"] with
  | [options, fields] =>
    return ⟨← options.list? OptionSetting.ofJson?, ← fields.list? EnumField.ofJson?⟩
  | _ => none

def Enum.ofJson? (j : Json) : Option Enum := do
  match ← j.record [.required "name", .required "def"] with
  | [name, body] => return ⟨← Token.ofJson? name, ← EnumBody.ofJson? body⟩
  | _ => none

def Oneof.ofJson? (j : Json) : Option Oneof := do
  match ← j.record [.required "name", .required "fields"] with
  | [name, fields] => return ⟨← Token.ofJson? name, ← fields.list? Field.ofJson?⟩
  | _ => none

/-- Reads a message body, given how the messages in it are read. -/
def MessageBody.ofJsonWith? (message : Json → Option Message) (j : Json) : Option MessageBody := do
  match ← j.record [.required "fields", .required "enums", .required "messages",
    .required "one_ofs", .required "options"] with
  | [fields, enums, messages, oneofs, options] =>
    return ⟨← fields.list? Field.ofJson?, ← enums.list? Enum.ofJson?, ← messages.list? message,
      ← oneofs.list? Oneof.ofJson?, ← options.list? OptionSetting.ofJson?⟩
  | _ => none

/-- Reads a message from a value that is at most so deep. -/
def Message.ofJsonWithin? : Nat → Json → Option Message
  | 0, _ => none
  | depth + 1, j => do
    match ← j.record [.required "name", .required "def"] with
    | [name, body] =>
      return ⟨← Token.ofJson? name, ← MessageBody.ofJsonWith? (ofJsonWithin? depth) body⟩
    | _ => none

def Message.ofJson? (j : Json) : Option Message := Message.ofJsonWithin? j.depth j

def MessageBody.ofJson? (j : Json) : Option MessageBody := MessageBody.ofJsonWith? Message.ofJson? j

def SyntaxDecl.ofJson? (j : Json) : Option SyntaxDecl := do
  match ← j.record [.required "value"] with
  | [value] => return ⟨← Token.ofJson? value⟩
  | _ => none

def Import.ofJson? (j : Json) : Option Import := do
  match ← j.record [.required "path", .optional "modifier"] with
  | [path, modifier] => return ⟨← Token.ofJson? path, ← modifier.nullable? Token.ofJson?⟩
  | _ => none

def Package.ofJson? (j : Json) : Option Package := do
  match ← j.record [.required "name"] with
  | [name] => return ⟨← FullIdent.ofJson? name⟩
  | _ => none

def File.ofJson? (j : Json) : Option File := do
  match ← j.record [.required "syntax", .optional "package", .required "imports",
    .required "options", .required "messages", .required "enums"] with
  | [version, package, imports, options, messages, enums] =>
    return ⟨← SyntaxDecl.ofJson? version, ← package.nullable? Package.ofJson?,
      ← imports.list? Import.ofJson?, ← options.list? OptionSetting.ofJson?,
      ← messages.list? Message.ofJson?, ← enums.list? Enum.ofJson?⟩
  | _ => none

end ProtoSchema
