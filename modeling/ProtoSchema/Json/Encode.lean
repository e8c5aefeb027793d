import ProtoSchema.Json.Basic
import ProtoSchema.Tree.Basic

/-! # Trees as JSON

Every tree has one written form: records are objects with all their fields, variants have one
member, kinds are written by their names, and what is missing is `null`. -/

namespace ProtoSchema
open Json

def TokenKind.toJson (k : TokenKind) : Json := .string k.name

def Token.toJson (t : Token) : Json :=
  .object [("kind", t.kind.toJson), ("text", .string t.text)]

def FullIdent.toJson (f : FullIdent) : Json :=
  .object [("identifiers", ofList Token.toJson f.segments)]

def SignedNumber.toJson (n : SignedNumber) : Json :=
  .object [("sign", ofOption Token.toJson n.sign), ("number", n.number.toJson)]

def Constant.toJson : Constant → Json
  | .string t => .object [("String", t.toJson)]
  | .reference f => .object [("Identifier", f.toJson)]
  | .number n => .object [("Number", n.toJson)]

def OptionName.toJson : OptionName → Json
  | .plain f => .object [("Name", f.toJson)]
  | .extended f rest =>
    .object [("Prefix", .object [("prefix", f.toJson), ("suffix", ofOption FullIdent.toJson rest)])]

def OptionSetting.toJson (o : OptionSetting) : Json :=
  .object [("name", o.name.toJson), ("value", o.value.toJson)]

def FieldType.toJson : FieldType → Json
  | .scalar t => .object [("Scalar", t.toJson)]
  | .named f => .object [("Named", f.toJson)]
  | .absolute f => .object [("Absolute", f.toJson)]

def Field.toJson (f : Field) : Json :=
  .object [("repeated", .bool f.repeated), ("ty", f.type.toJson), ("name", f.name.toJson),
    ("number", f.number.toJson), ("options", ofList OptionSetting.toJson f.options)]

def EnumField.toJson (f : EnumField) : Json :=
  .object [("name", f.name.toJson), ("number", f.number.toJson),
    ("options", ofList OptionSetting.toJson f.options)]

def EnumBody.toJson (b : EnumBody) : Json :=
  .object [("options", ofList OptionSetting.toJson b.options),
    ("fields", ofList EnumField.toJson b.fields)]

def Enum.toJson (e : Enum) : Json := .object [("name", e.name.toJson), ("def", e.body.toJson)]

def Oneof.toJson (o : Oneof) : Json :=
  .object [("name", o.name.toJson), ("fields", ofList Field.toJson o.fields)]

mutual

def Message.toJson : Message → Json
  | ⟨name, body⟩ => .object [("name", name.toJson), ("def", body.toJson)]

def MessageBody.toJson : MessageBody → Json
  | ⟨fields, enums, messages, oneofs, options⟩ =>
    .object [("fields", ofList Field.toJson fields), ("enums", ofList Enum.toJson enums),
      ("messages", .array (Message.toJsonList messages)), ("one_ofs", ofList Oneof.toJson oneofs),
      ("options", ofList OptionSetting.toJson options)]

def Message.toJsonList : List Message → List Json
  | [] => []
  | m :: rest => m.toJson :: Message.toJsonList rest

end

theorem Message.toJsonList_eq_map (ms : List Message) : toJsonList ms = ms.map toJson := by
  induction ms with
  | nil => simp [toJsonList]
  | cons m rest ih => simp [toJsonList, ih]

def SyntaxDecl.toJson (s : SyntaxDecl) : Json := .object [("value", s.value.toJson)]

def Import.toJson (i : Import) : Json :=
  .object [("path", i.path.toJson), ("modifier", ofOption Token.toJson i.modifier)]

def Package.toJson (p : Package) : Json := .object [("name", p.name.toJson)]

def File.toJson (f : File) : Json :=
  .object [("syntax", f.syntaxDecl.toJson), ("package", ofOption Package.toJson f.package),
    ("imports", ofList Import.toJson f.imports), ("options", ofList OptionSetting.toJson f.options),
    ("messages", ofList Message.toJson f.messages), ("enums", ofList Enum.toJson f.enums)]

end ProtoSchema
