import ProtoSchema.Parser.Field
import ProtoSchema.Tree.Member

/-! # Blocks

A message, an enum and a oneof have a name and a body in braces. The members of a body are read in
the order in which they stand, empty statements included, and then sorted into the tree. A message
may hold messages. -/

namespace ProtoSchema.Parser
open Cursor

/-- The head of a block up to its opening brace; answers the name. -/
def blockHead (keyword : Keyword) : Parser Token := do
  let _ ← expect (.keyword keyword)
  let name ← identifier
  let _ ← expect .leftBrace
  return name

/-- Members up to the closing brace, which is taken. What a member is depends on the token it starts
with. -/
def members (member : Option TokenKind → Parser α) : Parser (List α) :=
  collect fun _ => do
    match ← peekKind with
    | some .rightBrace =>
      let _ ← take
      return none
    | kind => return some (← member kind)

def enumMember : Option TokenKind → Parser EnumMember
  | some (.keyword .optionKw) => return .option (← optionStatement)
  | some .semicolon => do
    let _ ← take
    return .empty
  | _ => return .field (← enumField)

def enum : Parser Enum := do
  let name ← blockHead .enumKw
  let body ← members enumMember
  close (.enum name)
  return ⟨name, .ofMembers body⟩

def oneof : Parser Oneof := do
  let name ← blockHead .oneofKw
  let fields ← members fun _ => oneofField
  close (.oneof name fields.length)
  return ⟨name, fields⟩

def messageMember (message : Parser Message) : Option TokenKind → Parser MessageMember
  | some (.keyword .messageKw) => return .message (← message)
  | some (.keyword .enumKw) => return .enum (← enum)
  | some (.keyword .oneofKw) => return .oneof (← oneof)
  | some (.keyword .optionKw) => return .option (← optionStatement)
  | some .semicolon => do
    let _ ← take
    return .empty
  | _ => return .field (← field)

def message : Parser Message :=
  nested fun inner => do
    let name ← blockHead .messageKw
    let body ← members (messageMember inner)
    close (.message name)
    return ⟨name, .ofMembers body⟩

end ProtoSchema.Parser
