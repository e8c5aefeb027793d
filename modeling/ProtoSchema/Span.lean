/-! # Spans

Positions in a source text are counted in bytes of its UTF-8 form. A span is the half-open range
from its first byte to the byte behind its last one. -/

namespace ProtoSchema

/-- A half-open range of byte offsets. -/
structure Span where
  start : Nat
  stop : Nat
deriving DecidableEq, Repr

/-- The empty span at a position. -/
def Span.at (position : Nat) : Span := ⟨position, position⟩

/-- The number of bytes a list of characters takes in UTF-8. -/
def byteLength (cs : List Char) : Nat := cs.foldr (fun c n => c.utf8Size + n) 0

@[simp] theorem byteLength_nil : byteLength [] = 0 := rfl

@[simp] theorem byteLength_cons (c : Char) (cs : List Char) :
    byteLength (c :: cs) = c.utf8Size + byteLength cs := rfl

@[simp] theorem byteLength_append (as bs : List Char) :
    byteLength (as ++ bs) = byteLength as + byteLength bs := by
  induction as with
  | nil => simp
  | cons c as ih => rw [List.cons_append, byteLength_cons, byteLength_cons, ih, Nat.add_assoc]

end ProtoSchema
