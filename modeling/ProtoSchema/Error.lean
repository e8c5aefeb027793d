import ProtoSchema.Token.Basic

/-! # Errors

An error says what was expected and what was found, and points at the place in the source. What was
found is a token or the end of the input. Each sort of error has its text, its span and the labels
that point into the source; a fault would be a mistake of the parser itself. -/

namespace ProtoSchema

/-- What stands at a place: a token, or the end of the input. -/
structure Sighting where
  found : Option Token
  span : Span
deriving DecidableEq, Repr

namespace Sighting

def endOfInput : String := "end of input"

/-- What was found, by its text. -/
def text (s : Sighting) : String :=
  match s.found with
  | some t => t.text
  | none => endOfInput

/-- What was found, with the class of a name or literal. -/
def description (s : Sighting) : String :=
  match s.found with
  | some t => t.description
  | none => endOfInput

end Sighting

/-- A condition that the parser keeps by its construction. -/
inductive Fault where
  | nothingHeld
  | emptyName
  | noProgress
deriving DecidableEq, Repr

inductive ParseError where
  | invalidToken (span : Span)
  | unexpectedToken (expected : TokenKind) (seen : Sighting)
  | unknownSyntax (seen : Sighting)
  | invalidSyntaxKind (kind : TokenKind) (span : Span)
  | missingSyntaxSemicolon (span : Span)
  | invalidImport (seen : Sighting)
  | expectedIdentifier (seen : Sighting)
  | invalidConstant (seen : Sighting)
  | expectedNumber (seen : Sighting)
  | invalidFieldType (seen : Sighting)
  | oneofFieldWithLabel (span : Span)
  | invalidStatement (seen : Sighting)
  | duplicatePackage (first second : Span)
  | fault (broken : Fault)
deriving DecidableEq, Repr

namespace ParseError

/-- The text of an error. -/
def message : ParseError → String
  | .invalidToken _ => "invalid token"
  | .unexpectedToken expected seen =>
    "expected '" ++ expected.description ++ "', got " ++ seen.text ++ " instead"
  | .unknownSyntax seen => "expected literal string \"proto3\", got " ++ seen.text ++ " instead"
  | .invalidSyntaxKind kind _ =>
    "expected literal string \"proto3\", got a " ++ kind.name ++ " instead"
  | .missingSyntaxSemicolon _ => "missing semicolon at the end of the syntax statement"
  | .invalidImport seen => "expected imported package name, got " ++ seen.description
  | .expectedIdentifier seen => "expected identifier, got " ++ seen.description
  | .invalidConstant seen => "expected a valid constant value, but got " ++ seen.text
  | .expectedNumber seen => "expected numeric literal, got " ++ seen.text ++ " instead"
  | .invalidFieldType seen => "expected field type, got " ++ seen.description
  | .oneofFieldWithLabel _ => "oneof fields cannot have labels"
  | .invalidStatement seen =>
    "expected 'import', 'package', 'option', 'message' or 'enum', got " ++ seen.text ++ " instead"
  | .duplicatePackage _ _ => "multiple package names specified"
  | .fault _ => "internal error"

/-- The span of the token that caused an error. -/
def span : ParseError → Span
  | .invalidToken span | .invalidSyntaxKind _ span | .missingSyntaxSemicolon span
  | .oneofFieldWithLabel span => span
  | .unexpectedToken _ seen | .unknownSyntax seen | .invalidImport seen | .expectedIdentifier seen
  | .invalidConstant seen | .expectedNumber seen | .invalidFieldType seen
  | .invalidStatement seen => seen.span
  | .duplicatePackage _ second => second
  | .fault _ => .at 0

/-- What is written beside the places in the source that an error points at. -/
def labels (e : ParseError) : List (String × Span) :=
  match e with
  | .unknownSyntax _ | .oneofFieldWithLabel _ => [("defined here", e.span)]
  | .missingSyntaxSemicolon _ => [("expected ';' here", e.span)]
  | .duplicatePackage first second => [("defined here…", first), ("…and again here", second)]
  | .fault _ => []
  | _ => [("found here", e.span)]

/-- Advice on how to mend an error. -/
def help : ParseError → Option String
  | .invalidImport _ => some "the imported file name must be a quoted string"
  | _ => none

end ParseError

end ProtoSchema
