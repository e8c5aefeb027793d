import ProtoSchema.Error
import ProtoSchema.Lexer

/-! # Cursors

A cursor reads items strictly in order and looks at most one token ahead. It asks for an item only
while it holds no token, and a failure is reported when it is reached. Besides the items still to
come it keeps what has been: the answers it was given, the tokens that were taken and the blocks
that were closed. -/

namespace ProtoSchema

/-- A block whose closing brace has been read. -/
inductive Block where
  | message (name : Token)
  | enum (name : Token)
  | oneof (name : Token) (fields : Nat)
deriving DecidableEq, Repr

/-- A reader over items. A pending `none` reports the end of the input once, and behind the last
pending answer the end is reported for ever. `stop` is where the last item ended. The lists of what
was answered, taken and closed have the latest in front. -/
structure Cursor where
  pending : List (Option Item)
  held : Option Lexeme
  stop : Nat
  answered : List (Option Item)
  taken : List Lexeme
  closed : List Block
deriving DecidableEq, Repr

/-- A parser moves a cursor and answers a value, or stops where it stands with an error. -/
abbrev Parser := EStateM ParseError Cursor

namespace Cursor

def ofAnswers (answers : List (Option Item)) : Cursor := ⟨answers, none, 0, [], [], []⟩

def ofItems (items : List Item) : Cursor := ofAnswers (items.map some)

def ofSource (source : String) : Cursor := ofItems (lex source)

/-- The number of answers not yet used, a held token included. -/
def size (c : Cursor) : Nat := c.pending.length + c.held.toList.length

/-- What stands at the place of a cursor that has looked ahead. -/
def sighting (c : Cursor) : Sighting :=
  match c.held with
  | some l => ⟨some l.token, l.span⟩
  | none => ⟨none, .at c.stop⟩

/-- The next answer of the source. -/
def ask (c : Cursor) : Option Item × Cursor :=
  match c.pending with
  | [] => (none, { c with answered := none :: c.answered })
  | a :: rest => (a, { c with pending := rest, answered := a :: c.answered })

/-- Asks for an item, unless a token is held. -/
def fill : Parser Unit := fun c =>
  match c.held with
  | some _ => .ok () c
  | none =>
    match c.ask with
    | (some (.token l), c) => .ok () { c with held := some l, stop := l.span.stop }
    | (some (.failure span), c) => .error (.invalidToken span) { c with stop := span.stop }
    | (none, c) => .ok () c

/-- The next token, or `none` at the end of the input. -/
def peek : Parser (Option Token) := do
  fill
  return (← get).held.map Lexeme.token

def peekKind : Parser (Option TokenKind) := do
  return (← peek).map Token.kind

/-- Takes the token that is held. -/
def take : Parser Token := fun c =>
  match c.held with
  | some l => .ok l.token { c with held := none, taken := l :: c.taken }
  | none => .error (.fault .nothingHeld) c

theorem take_of_held {c : Cursor} {l : Lexeme} (h : c.held = some l) :
    take c = .ok l.token { c with held := none, taken := l :: c.taken } := by
  simp [take, h]

/-- Takes the next token, unless the input is at its end. -/
def advance : Parser (Option Token) := do
  match ← peek with
  | some _ => return some (← take)
  | none => return none

/-- Fails with an error about what stands at the cursor's place. -/
def fail (error : Sighting → ParseError) : Parser α := do
  throw (error (← get).sighting)

/-- Takes the next token, which must be of the given kind. -/
def expect (kind : TokenKind) : Parser Token := do
  if (← peekKind) = some kind then take else fail (.unexpectedToken kind)

/-- Takes the next token if it is of the given kind. -/
def takeIf (kind : TokenKind) : Parser (Option Token) := do
  if (← peekKind) = some kind then return some (← take) else return none

/-- Records that a block has been closed. -/
def close (block : Block) : Parser Unit :=
  modify fun c => { c with closed := block :: c.closed }

end Cursor

end ProtoSchema
