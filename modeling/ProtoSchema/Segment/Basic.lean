import ProtoSchema.Token.Basic

/-! # Segments

A source text is cut into segments, one behind the other, without a rest. A segment is skipped text,
the text of a token, or text in which no token can be read. A scanner looks at a first character and
those behind it, and says how many of the latter belong to the segment; so no segment is empty. -/

namespace ProtoSchema

inductive SegmentKind where
  | trivia
  | token (kind : TokenKind)
  | failure
deriving DecidableEq, Repr

structure Segment where
  kind : SegmentKind
  chars : List Char
deriving DecidableEq, Repr

/-- A scanner answers what starts at a character and how many characters behind that one belong to
it, or nothing where it has no say. -/
abbrev Scanner := Char → List Char → Option (SegmentKind × Nat)

namespace Segment

def text (s : Segment) : String := String.ofList s.chars

def width (s : Segment) : Nat := byteLength s.chars

end Segment

/-- The number of characters at the front of a list that belong to a class. -/
def runLength (p : Char → Bool) (cs : List Char) : Nat := (cs.takeWhile p).length

theorem runLength_le (p : Char → Bool) (cs : List Char) : runLength p cs ≤ cs.length :=
  (List.takeWhile_sublist p).length_le

theorem take_runLength (p : Char → Bool) (cs : List Char) :
    cs.take (runLength p cs) = cs.takeWhile p :=
  (List.prefix_iff_eq_take.1 (List.takeWhile_prefix p)).symm

theorem drop_runLength (p : Char → Bool) (cs : List Char) :
    cs.drop (runLength p cs) = cs.dropWhile p := by
  have cut : (cs.takeWhile p ++ cs.dropWhile p).drop (runLength p cs) = cs.dropWhile p :=
    List.drop_left
  rwa [List.takeWhile_append_dropWhile] at cut

/-- That a scanner never claims more characters than there are. -/
def Scanner.Bounded (s : Scanner) : Prop := ∀ c cs k n, s c cs = some (k, n) → n ≤ cs.length

end ProtoSchema
