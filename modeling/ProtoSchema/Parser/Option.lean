import ProtoSchema.Parser.Constant

/-! # Options

An option sets a name to a constant. It is a statement of its own or stands in a bracketed list,
which is never empty but may be left out. -/

namespace ProtoSchema.Parser
open Cursor

def optionName : Parser OptionName := do
  match ← peekKind with
  | some .leftParen =>
    let _ ← take
    let extension ← fullIdent
    let _ ← expect .rightParen
    match ← takeIf .dot with
    | some _ => return .extended extension (some (← fullIdent))
    | none => return .extended extension none
  | _ => return .plain (← fullIdent)

def optionSetting : Parser OptionSetting := do
  let name ← optionName
  let _ ← expect .equals
  return ⟨name, ← constant⟩

def optionStatement : Parser OptionSetting := do
  let _ ← expect (.keyword .optionKw)
  let setting ← optionSetting
  let _ ← expect .semicolon
  return setting

/-- A list of options in brackets, or nothing. -/
def optionList : Parser (List OptionSetting) := do
  match ← takeIf .leftBracket with
  | none => return []
  | some _ =>
    let first ← optionSetting
    let rest ← collect fun _ => do
      match ← peekKind with
      | some .comma =>
        let _ ← take
        return some (← optionSetting)
      | _ =>
        let _ ← expect .rightBracket
        return none
    return first :: rest

end ProtoSchema.Parser
