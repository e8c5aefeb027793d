import ProtoSchema.Segment.Trivia
import ProtoSchema.Segment.Word
import ProtoSchema.Segment.Number
import ProtoSchema.Segment.Quoted

/-! # Cutting a source into segments

The scanners are asked in turn. Only a point can start two things, a float and a mark, and numbers
are asked first. A character at which no scanner has a say is a failure of its own. The segments put
together again are the source. -/

namespace ProtoSchema.Segment

/-- A mark is a token by itself. -/
def scanMark : Scanner := fun c _ => (Mark.ofChar? c).map fun m => (.token (.mark m), 0)

def scan? : Scanner := fun c cs =>
  Trivia.scan c cs <|> Word.scan c cs <|> Number.scan c cs <|> Quoted.scan c cs <|> scanMark c cs

/-- What starts at a character, and how many characters behind that one belong to it. -/
def scan (c : Char) (cs : List Char) : SegmentKind × Nat := (scan? c cs).getD (.failure, 0)

/-- The segment that starts at a character. -/
def first (c : Char) (cs : List Char) : Segment := ⟨(scan c cs).1, c :: cs.take (scan c cs).2⟩

/-- Cuts what is left behind a number of characters, which belong to a segment already. -/
def cutBehind : Nat → List Char → List Segment
  | _, [] => []
  | 0, c :: cs => first c cs :: cutBehind (scan c cs).2 cs
  | n + 1, _ :: cs => cutBehind n cs

/-- Cuts a text into its segments. -/
def cut (cs : List Char) : List Segment := cutBehind 0 cs

theorem cutBehind_eq (n : Nat) (cs : List Char) : cutBehind n cs = cut (cs.drop n) := by
  induction cs generalizing n with
  | nil => cases n <;> rfl
  | cons c cs ih => cases n with
    | zero => rfl
    | succ n => simp [cutBehind, ih]

@[simp] theorem cut_nil : cut [] = [] := rfl

theorem cut_cons (c : Char) (cs : List Char) :
    cut (c :: cs) = first c cs :: cut (cs.drop (scan c cs).2) := by
  rw [← cutBehind_eq]
  rfl

/-- Cutting loses nothing. -/
theorem flatten_cut (cs : List Char) : ((cut cs).map chars).flatten = cs := by
  induction h : cs.length using Nat.strongRecOn generalizing cs with
  | _ n ih => cases cs with
    | nil => rfl
    | cons c cs =>
      have shorter : (cs.drop (scan c cs).2).length < n := by
        simp only [List.length_cons] at h
        simp only [List.length_drop]
        omega
      simp [cut_cons, first, ih _ shorter _ rfl, List.take_append_drop]

theorem scan_le (c : Char) (cs : List Char) : (scan c cs).2 ≤ cs.length := by
  unfold scan
  cases h : scan? c cs with
  | none => exact Nat.zero_le _
  | some p =>
    simp only [scan?, Option.orElse_eq_orElse, Option.orElse_eq_or, Option.or_eq_some_iff] at h
    rcases h with h | ⟨-, h | ⟨-, h | ⟨-, h | ⟨-, h⟩⟩⟩⟩
    · exact Trivia.scan_bounded _ _ _ _ h
    · exact Word.scan_bounded _ _ _ _ h
    · exact Number.scan_bounded _ _ _ _ h
    · exact Quoted.scan_bounded _ _ _ _ h
    · simp only [scanMark, Option.map_eq_some_iff] at h
      obtain ⟨m, -, rfl⟩ := h
      exact Nat.zero_le _

end ProtoSchema.Segment
