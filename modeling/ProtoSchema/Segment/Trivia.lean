import ProtoSchema.Segment.Basic

/-! # Skipped text

Blanks and comments stand between tokens. A line comment runs up to the line's end; a block comment
runs through the first closing mark behind its opening one, and does not nest. -/

namespace ProtoSchema.Trivia

/-- The six blank characters. -/
def isBlank (c : Char) : Bool :=
  c == ' ' || c == '\t' || c == '\n' || c == '\x0b' || c == '\x0c' || c == '\r'

/-- How many characters there are through the first closing mark of a block comment. -/
def closing? : List Char → Option Nat
  | '*' :: '/' :: _ => some 2
  | _ :: cs => (closing? cs).map (· + 1)
  | [] => none

/-- Reads a run of blanks or a comment. A block comment that is never closed is a failure which
takes all that is left. -/
def scan : Scanner := fun c cs =>
  if isBlank c then some (.trivia, runLength isBlank cs)
  else
    match c, cs with
    | '/', '/' :: line => some (.trivia, runLength (· != '\n') line + 1)
    | '/', '*' :: comment =>
      match closing? comment with
      | some n => some (.trivia, n + 1)
      | none => some (.failure, comment.length + 1)
    | _, _ => none

theorem closing?_le {cs : List Char} {n : Nat} (h : closing? cs = some n) : n ≤ cs.length := by
  fun_induction closing? cs generalizing n with
  | case1 => simp only [Option.some.injEq] at h; simp only [List.length_cons]; omega
  | case2 c cs _ ih =>
    obtain ⟨m, hm, rfl⟩ := Option.map_eq_some_iff.1 h
    simpa using ih hm
  | case3 => simp at h

theorem scan_bounded : Scanner.Bounded scan := by
  intro c cs k n h
  unfold scan at h
  split at h
  · cases h
    exact runLength_le _ _
  · split at h
    · cases h
      exact Nat.succ_le_succ (runLength_le _ _)
    · split at h
      · next hc =>
        cases h
        exact Nat.succ_le_succ (closing?_le hc)
      · cases h
        exact Nat.le_refl _
    · cases h

end ProtoSchema.Trivia
