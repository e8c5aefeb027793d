import ProtoSchema.Segment.Basic

/-! # String literals

A string literal runs from a single or double quote to the next quote of the same sort. A backslash
and the character behind it are a pair, so an escaped quote does not end the literal. Neither a
line's end nor a backslash before one, nor a backslash at the end of the source, can stand in a
literal: there it breaks off, and what was read is a failure. -/

namespace ProtoSchema.Quoted

def isQuote (c : Char) : Bool := c == '"' || c == '\''

/-- How far the text behind an opening quote reaches: through the closing quote, or, if the literal
does not close, up to where it breaks off. -/
structure Reach where
  closes : Bool
  length : Nat
deriving DecidableEq, Repr

def Reach.shift (k : Nat) (r : Reach) : Reach := ⟨r.closes, r.length + k⟩

/-- Follows the text behind an opening quote. -/
def reach (quote : Char) : List Char → Reach
  | [] => ⟨false, 0⟩
  | '\n' :: _ => ⟨false, 0⟩
  | '\\' :: [] => ⟨false, 0⟩
  | '\\' :: c :: cs => if c = '\n' then ⟨false, 0⟩ else (reach quote cs).shift 2
  | c :: cs => if c = quote then ⟨true, 1⟩ else (reach quote cs).shift 1

def scan : Scanner := fun c cs =>
  if isQuote c then
    let r := reach c cs
    some (if r.closes then .token .stringLiteral else .failure, r.length)
  else none

theorem length_reach_le (quote : Char) (cs : List Char) : (reach quote cs).length ≤ cs.length := by
  fun_induction reach quote cs <;> simp only [Reach.shift, List.length_cons] at * <;> omega

theorem scan_bounded : Scanner.Bounded scan := by
  intro c cs k n h
  unfold scan at h
  split at h
  · cases h
    exact length_reach_le _ _
  · cases h

end ProtoSchema.Quoted
