import ProtoSchema.Proofs.Program.Basic
import ProtoSchema.Proofs.Reading.Block

/-! # The past of a cursor

What a cursor has been given, has taken and has closed before a run plays no part in it: the run
adds to this, whatever it is. Every node starts by looking at the next token, so it plays no part
either whether this has been done before. -/

namespace ProtoSchema

variable {α β : Type} {seen : Option (Option Token)} {p : Parser α}

/-- The cursor behind what another one has gone through. -/
def Cursor.behind (c past : Cursor) : Cursor :=
  { c with answered := c.answered ++ past.answered, taken := c.taken ++ past.taken,
           closed := c.closed ++ past.closed }

/-- A result behind what a cursor has gone through. -/
def resultBehind (past : Cursor) :
    EStateM.Result ParseError Cursor α → EStateM.Result ParseError Cursor α
  | .ok a c => .ok a (c.behind past)
  | .error e c => .error e (c.behind past)

namespace Cursor

theorem peek_behind (past c : Cursor) : peek (c.behind past) = resultBehind past (peek c) := by
  rcases c with ⟨pending, _ | l, stop, answered, taken, closed⟩
  · rcases pending with _ | ⟨_ | ⟨l | span⟩, rest⟩ <;> rfl
  · rfl

theorem take_behind (past c : Cursor) : take (c.behind past) = resultBehind past (take c) := by
  rcases c with ⟨pending, _ | l, stop, answered, taken, closed⟩ <;> rfl

end Cursor

open Cursor

/-- A run goes alike behind every past. -/
theorem Composed.behind (h : Composed seen p) (past c : Cursor) :
    p (c.behind past) = resultBehind past (p c) := by
  have sequence {α β : Type} {p : Parser α} {f : α → Parser β} {c : Cursor}
      (first : p (c.behind past) = resultBehind past (p c))
      (rest : ∀ a d, f a (d.behind past) = resultBehind past (f a d)) :
      (p >>= f) (c.behind past) = resultBehind past ((p >>= f) c) := by
    cases run : p c with
    | ok a d =>
      rw [run] at first
      rw [Parser.bind_of_ok run, Parser.bind_of_ok first, rest]
    | error e d =>
      rw [run] at first
      rw [Parser.bind_of_error run, Parser.bind_of_error first]
      rfl
  induction h generalizing c with
  | pure a => rfl
  | bind _ _ ih ih' => exact sequence (ih c) ih'
  | peek _ ih => exact sequence (peek_behind past c) ih
  | take => exact take_behind past c
  | fail => rfl
  | close => rfl
  | fault => rfl
  | sized _ ih => exact ih c.size c
  | looked _ ih => exact ih c

/-! ## The first look -/

/-- That a parser starts by looking at the next token. -/
def LooksFirst (p : Parser α) : Prop := ∃ f : Option Token → Parser α, p = peek >>= f

namespace LooksFirst

theorem bind {f : α → Parser β} (h : LooksFirst p) : LooksFirst (p >>= f) := by
  obtain ⟨g, rfl⟩ := h
  exact ⟨_, bind_assoc _ _ _⟩

theorem look (f : Option TokenKind → Parser α) : LooksFirst (peekKind >>= f) := ⟨_, peekKind_bind f⟩

theorem expect (k : TokenKind) : LooksFirst (expect k) := look _

theorem takeIf (k : TokenKind) : LooksFirst (takeIf k) := look _

/-- The look may be taken before. -/
theorem of_hold {c : Cursor} {l : Lexeme} {rest : List (Option Item)} (h : LooksFirst p)
    (empty : c.held = none) (pending : c.pending = some (.token l) :: rest) :
    p (c.hold l rest) = p c := by
  obtain ⟨f, rfl⟩ := h
  have look : peek c = .ok (some l.token) (c.hold l rest) := by
    obtain ⟨_, _, stop, answered, taken, closed⟩ := c
    cases empty
    cases pending
    rfl
  rw [Parser.bind_of_ok look, Parser.bind_of_ok (peek_of_held rfl)]

end LooksFirst

/-- Every node starts by looking at the next token. -/
theorem Node.looksFirst (n : Node) : LooksFirst n.parser := by
  have blockHead (word : Keyword) : LooksFirst (Parser.blockHead word) := (LooksFirst.expect _).bind
  have identifier : LooksFirst Parser.identifier := .look _
  have syntaxDecl : LooksFirst Parser.syntaxDecl := (LooksFirst.expect _).bind
  have sign : LooksFirst Parser.sign := .look _
  have message : LooksFirst Parser.message := by
    rw [Parser.message_eq]
    exact (blockHead _).bind
  cases n with
  | file => exact syntaxDecl.bind
  | syntaxDecl => exact syntaxDecl
  | imported => exact (LooksFirst.expect _).bind
  | package => exact (LooksFirst.expect _).bind
  | option => exact (LooksFirst.expect _).bind
  | fullIdent => exact identifier.bind
  | constant => exact .look _
  | signedNumber => exact sign.bind
  | field => exact (LooksFirst.takeIf _).bind
  | enumField => exact identifier.bind
  | enum => exact (blockHead _).bind
  | oneof => exact (blockHead _).bind
  | message => exact message

end ProtoSchema
