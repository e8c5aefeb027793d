import ProtoSchema.Parser.Repetition
import ProtoSchema.Tree.Basic

/-! # Names

A name is an identifier; a full one is a list of identifiers with points between them. -/

namespace ProtoSchema.Parser
open Cursor

def identifier : Parser Token := do
  match ← peekKind with
  | some .identifier => take
  | _ => fail .expectedIdentifier

/-- The full name of some segments, of which there is at least one. -/
def nameOf : List Token → Parser FullIdent
  | [] => throw (.fault .emptyName)
  | segments => return ⟨segments⟩

def fullIdent : Parser FullIdent := do
  let first ← identifier
  let rest ← collect fun _ => do
    match ← takeIf .dot with
    | some _ => return some (← identifier)
    | none => return none
  nameOf (first :: rest)

end ProtoSchema.Parser
