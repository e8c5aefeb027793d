import ProtoSchema.Segment.Cut

/-! # The items of a source

The items of a source are its segments without the skipped ones, each at its place. A lexer hands
them out one by one and remembers where it stands. -/

namespace ProtoSchema

namespace Segment

/-- The item that a segment makes at a position, if it is not skipped. -/
def item? (position : Nat) (s : Segment) : Option Item :=
  let span : Span := ⟨position, position + s.width⟩
  match s.kind with
  | .trivia => none
  | .token kind => some (.token ⟨⟨kind, s.text⟩, span⟩)
  | .failure => some (.failure span)

/-- The items of segments that follow each other from a position on. -/
def items : Nat → List Segment → List Item
  | _, [] => []
  | position, s :: rest => (s.item? position).toList ++ items (position + s.width) rest

end Segment

/-- The items of a source. -/
def lex (source : String) : List Item := Segment.items 0 (Segment.cut source.toList)

/-- A walk over the items of a source. Its span is that of the last item handed out, and lies at the
end of the source once the end has been reported. -/
structure Lexer where
  pending : List Item
  span : Span
  size : Nat
deriving DecidableEq, Repr

namespace Lexer

def ofSource (source : String) : Lexer := ⟨lex source, .at 0, source.utf8ByteSize⟩

/-- Hands out the next item, or reports the end. -/
def next (l : Lexer) : Option Item × Lexer :=
  match l.pending with
  | [] => (none, ⟨[], .at l.size, l.size⟩)
  | i :: rest => (some i, ⟨rest, i.span, l.size⟩)

/-- Hands out items up to a given number of them, or to the end. -/
def take : Nat → Lexer → List Item × Lexer
  | 0, l => ([], l)
  | n + 1, l =>
    match l.next with
    | (none, l) => ([], l)
    | (some i, l) => let (is, l) := take n l; (i :: is, l)

/-- Hands out all items and reports the end. -/
def drain (l : Lexer) : List Item × Lexer := l.take (l.pending.length + 1)

/-- Where a lexer stands, as shown to a reader. -/
def description (l : Lexer) : String :=
  "Lexer \x7b span: " ++ toString l.span.start ++ ".." ++ toString l.span.stop ++ ", .. \x7d"

end Lexer

end ProtoSchema
