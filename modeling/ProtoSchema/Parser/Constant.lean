import ProtoSchema.Parser.Name

/-! # Constants

The value of an option is a string, a number or a reference; `true` and `false` stand for references
of one segment. -/

namespace ProtoSchema.Parser
open Cursor

/-- A plus or minus, if there is one. -/
def sign : Parser (Option Token) := do
  match ← peekKind with
  | some .plus | some .minus => return some (← take)
  | _ => return none

def signedNumber : Parser SignedNumber := do
  let sign ← sign
  match ← peekKind with
  | some .decimalLiteral | some .floatLiteral => return ⟨sign, ← take⟩
  | _ => fail .expectedNumber

def constant : Parser Constant := do
  match ← peekKind with
  | some .stringLiteral => return .string (← take)
  | some .plus | some .minus | some .decimalLiteral | some .floatLiteral =>
    return .number (← signedNumber)
  | some (.keyword .trueKw) | some (.keyword .falseKw) => return .reference (← nameOf [← take])
  | some .identifier => return .reference (← fullIdent)
  | _ => fail .invalidConstant

end ProtoSchema.Parser
