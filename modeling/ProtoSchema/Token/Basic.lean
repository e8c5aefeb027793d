import ProtoSchema.Span
import ProtoSchema.Token.Kind

/-! # Tokens

A token is a kind together with its text, exactly as it stands in the source: a string literal keeps
its quotes and escapes. What a source offers a reader one after the other are items: tokens with
their spans, and stretches of text that are no token. -/

namespace ProtoSchema

structure Token where
  kind : TokenKind
  text : String
deriving DecidableEq, Repr

namespace Token

/-- The token of a kind that fixes its text; other kinds give the empty text. -/
def ofKind (k : TokenKind) : Token := ⟨k, k.text?.getD ""⟩

/-- Names a token in an error: names and literals with their class, others by their text. -/
def description (t : Token) : String :=
  match t.kind with
  | .identifier | .stringLiteral | .decimalLiteral | .floatLiteral =>
    t.kind.description ++ " (" ++ t.text ++ ")"
  | _ => t.text

end Token

/-- A token at its place in a source. -/
structure Lexeme where
  token : Token
  span : Span
deriving DecidableEq, Repr

/-- What a source offers: a token, or a stretch of text in which there is none. -/
inductive Item where
  | token (lexeme : Lexeme)
  | failure (span : Span)
deriving DecidableEq, Repr

namespace Item

def span : Item → Span
  | .token l => l.span
  | .failure s => s

def lexeme? : Item → Option Lexeme
  | .token l => some l
  | .failure _ => none

end Item

end ProtoSchema
