import ProtoSchema.Cursor.Basic

/-! # Repetition and nesting

Parsers repeat steps and call themselves only after they have moved the cursor. The number of
answers that a cursor has not used yet therefore bounds both, and a parser that would go beyond this
bound without having moved would be at fault. -/

namespace ProtoSchema.Parser
open Cursor

/-- Repeats a step at most a number of times. The step sees what has been found so far, the latest
in front, and ends the repetition by finding nothing. -/
def collectWithin (step : List α → Parser (Option α)) : Nat → List α → Parser (List α)
  | 0, _ => throw (.fault .noProgress)
  | n + 1, found => do
    match ← step found with
    | some a => collectWithin step n (a :: found)
    | none => return found.reverse

/-- Repeats a step that moves the cursor until it finds nothing. -/
def collect (step : List α → Parser (Option α)) : Parser (List α) := do
  collectWithin step ((← get).size + 1) []

/-- Nests a parser in itself at most to a given depth. -/
def nestedWithin (body : Parser α → Parser α) : Nat → Parser α
  | 0 => throw (.fault .noProgress)
  | n + 1 => body (nestedWithin body n)

/-- A parser that nests in itself after it has moved the cursor. -/
def nested (body : Parser α → Parser α) : Parser α := do
  nestedWithin body ((← get).size + 1)

end ProtoSchema.Parser
