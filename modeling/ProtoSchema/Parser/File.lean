import ProtoSchema.Parser.Block

/-! # Files

A file starts with its syntax statement. Imports, options, messages, enums and at most one package
statement follow in any order, with empty statements among them. -/

namespace ProtoSchema.Parser
open Cursor

/-- The only language version that is accepted, as it is written. -/
def proto3 : String := "\"proto3\""

/-- The version in a syntax statement. -/
def versionLiteral : Parser Token := do
  match ← peek with
  | some ⟨.stringLiteral, text⟩ => if text = proto3 then take else fail .unknownSyntax
  | none => fail .unknownSyntax
  | some ⟨kind, _⟩ => fail fun seen => .invalidSyntaxKind kind seen.span

def syntaxDecl : Parser SyntaxDecl := do
  let _ ← expect (.keyword .syntaxKw)
  let _ ← expect .equals
  let value ← versionLiteral
  match ← peekKind with
  | some .semicolon =>
    let _ ← take
    return ⟨value⟩
  | _ => fail fun seen => .missingSyntaxSemicolon seen.span

/-- The word that marks an import, if there is one. -/
def importModifier : Parser (Option Token) := do
  match ← peekKind with
  | some (.keyword .publicKw) | some (.keyword .weakKw) => return some (← take)
  | _ => return none

def importPath : Parser Token := do
  match ← peekKind with
  | some .stringLiteral => take
  | _ => fail .invalidImport

def importStatement : Parser Import := do
  let _ ← expect (.keyword .importKw)
  let modifier ← importModifier
  let path ← importPath
  let _ ← expect .semicolon
  return ⟨path, modifier⟩

def package : Parser Package := do
  let _ ← expect (.keyword .packageKw)
  let name ← fullIdent
  let _ ← expect .semicolon
  return ⟨name⟩

/-- A package statement behind others. A second one is refused once it is complete. -/
def onlyPackage (earlier : List Statement) : Parser Statement := do
  let keyword := (← get).sighting.span
  let read ← package
  match earlier.findSome? Statement.packageKeyword? with
  | some first => throw (.duplicatePackage first keyword)
  | none => return .package read keyword

/-- The next statement behind those read so far, or nothing at the end of the input. -/
def statement (earlier : List Statement) : Parser (Option Statement) := do
  match ← peekKind with
  | some .semicolon =>
    let _ ← take
    return some .empty
  | some (.keyword .importKw) => return some (.imported (← importStatement))
  | some (.keyword .packageKw) => return some (← onlyPackage earlier)
  | some (.keyword .optionKw) => return some (.option (← optionStatement))
  | some (.keyword .messageKw) => return some (.message (← message))
  | some (.keyword .enumKw) => return some (.enum (← enum))
  | some _ => fail .invalidStatement
  | none => return none

def file : Parser File := do
  let version ← syntaxDecl
  return .ofStatements version (← collect statement)

end ProtoSchema.Parser
