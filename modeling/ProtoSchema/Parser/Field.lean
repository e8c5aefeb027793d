import ProtoSchema.Parser.Option

/-! # Fields

A field has a type, a name, a number and perhaps options. In a message it may be repeated; in a
oneof it may not, and the number of an enum field may have a sign. -/

namespace ProtoSchema.Parser
open Cursor

def fieldType : Parser FieldType := do
  match ← peekKind with
  | some (.scalar _) => return .scalar (← take)
  | some .identifier => return .named (← fullIdent)
  | some .dot =>
    let _ ← take
    return .absolute (← fullIdent)
  | _ => fail .invalidFieldType

/-- A field from its type on. -/
def fieldRest (repeated : Bool) : Parser Field := do
  let type ← fieldType
  let name ← identifier
  let _ ← expect .equals
  let number ← expect .decimalLiteral
  let options ← optionList
  let _ ← expect .semicolon
  return ⟨repeated, type, name, number, options⟩

def field : Parser Field := do
  let label ← takeIf (.keyword .repeatedKw)
  fieldRest label.isSome

def oneofField : Parser Field := do
  match ← peekKind with
  | some (.keyword .repeatedKw) => fail fun seen => .oneofFieldWithLabel seen.span
  | _ => fieldRest false

def enumField : Parser EnumField := do
  let name ← identifier
  let _ ← expect .equals
  let sign ← sign
  let number ← expect .decimalLiteral
  let options ← optionList
  let _ ← expect .semicolon
  return ⟨name, ⟨sign, number⟩, options⟩

end ProtoSchema.Parser
