import ProtoSchema.Segment.Basic

/-! # Numbers

A float has digits with a point among, before or behind them, or an exponent, or both; the longest
text counts, and an exponent without digits is no part of it. Digits alone are a decimal, which may
start with any number of zeros. -/

namespace ProtoSchema.Number

/-- The length of the digits at the front. -/
def digits (cs : List Char) : Nat := runLength Char.isDigit cs

/-- The length of the sign at the front, which is 0 or 1. -/
def sign : List Char → Nat
  | c :: _ => if c = '+' ∨ c = '-' then 1 else 0
  | [] => 0

/-- The length of the exponent at the front, 0 if there is none. -/
def exponent : List Char → Nat
  | c :: cs =>
    let n := digits (cs.drop (sign cs))
    if (c = 'e' ∨ c = 'E') ∧ n ≠ 0 then 1 + sign cs + n else 0
  | [] => 0

/-- The length of the longest float at the front. -/
def float? (cs : List Char) : Option Nat :=
  let whole := digits cs
  match cs.drop whole with
  | '.' :: rest =>
    let fraction := digits rest
    if whole = 0 ∧ fraction = 0 then none
    else some (whole + 1 + fraction + exponent (rest.drop fraction))
  | rest =>
    if whole = 0 ∨ exponent rest = 0 then none
    else some (whole + exponent rest)

def scan : Scanner := fun c cs =>
  match float? (c :: cs) with
  | some n => some (.token .floatLiteral, n - 1)
  | none => if c.isDigit then some (.token .decimalLiteral, digits cs) else none

theorem digits_le (cs : List Char) : digits cs ≤ cs.length := runLength_le _ _

theorem sign_le (cs : List Char) : sign cs ≤ cs.length := by
  cases cs with
  | nil => exact Nat.le_refl _
  | cons c cs =>
    simp only [sign, List.length_cons]
    split <;> omega

theorem exponent_le (cs : List Char) : exponent cs ≤ cs.length := by
  cases cs with
  | nil => exact Nat.le_refl _
  | cons c cs =>
    have hs := sign_le cs
    have hd := digits_le (cs.drop (sign cs))
    simp only [List.length_drop] at hd
    simp only [exponent, List.length_cons]
    split <;> omega

theorem float?_le {cs : List Char} {n : Nat} (h : float? cs = some n) : n ≤ cs.length := by
  have hw := digits_le cs
  have hr : (cs.drop (digits cs)).length = cs.length - digits cs := List.length_drop
  unfold float? at h
  simp only at h
  split at h
  · next rest heq =>
    have hf := digits_le rest
    have he := exponent_le (rest.drop (digits rest))
    simp only [heq, List.length_cons] at hr
    simp only [List.length_drop] at he
    split at h
    · cases h
    · cases h
      omega
  · have he := exponent_le (cs.drop (digits cs))
    split at h
    · cases h
    · cases h
      omega

theorem scan_bounded : Scanner.Bounded scan := by
  intro c cs k n h
  unfold scan at h
  split at h
  · next m hm =>
    have := float?_le hm
    cases h
    simp only [List.length_cons] at this
    omega
  · split at h
    · cases h
      exact digits_le _
    · cases h

end ProtoSchema.Number
