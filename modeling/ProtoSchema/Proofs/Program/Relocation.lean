import ProtoSchema.Proofs.Acceptance.File
import ProtoSchema.Proofs.Program.Basic

/-! # Runs over the same tokens at other places

A parser looks at kinds and texts of tokens. Their places it only copies, into its cursor and into
errors. So if everything in a source stands elsewhere, a run goes the same way, and what it answers
or reports is the same but for these places. -/

namespace ProtoSchema

/-- Other positions for the starts and the ends of what stands in a source. -/
structure Relocation where
  start : Nat → Nat
  stop : Nat → Nat

variable (ρ : Relocation)

/-- An empty range is where something ended. -/
def Span.relocate (s : Span) : Span :=
  ⟨if s.start = s.stop then ρ.stop s.start else ρ.start s.start, ρ.stop s.stop⟩

@[simp] theorem Span.relocate_at (n : Nat) : (Span.at n).relocate ρ = .at (ρ.stop n) := by
  simp [relocate, Span.at]

def Lexeme.relocate (l : Lexeme) : Lexeme := ⟨l.token, l.span.relocate ρ⟩

def Item.relocate : Item → Item
  | .token l => .token (l.relocate ρ)
  | .failure s => .failure (s.relocate ρ)

def Sighting.relocate (s : Sighting) : Sighting := ⟨s.found, s.span.relocate ρ⟩

def Statement.relocate : Statement → Statement
  | .package p s => .package p (s.relocate ρ)
  | s => s

namespace ParseError

def relocate : ParseError → ParseError
  | .invalidToken s => .invalidToken (s.relocate ρ)
  | .unexpectedToken expected seen => .unexpectedToken expected (seen.relocate ρ)
  | .unknownSyntax seen => .unknownSyntax (seen.relocate ρ)
  | .invalidSyntaxKind kind s => .invalidSyntaxKind kind (s.relocate ρ)
  | .missingSyntaxSemicolon s => .missingSyntaxSemicolon (s.relocate ρ)
  | .invalidImport seen => .invalidImport (seen.relocate ρ)
  | .expectedIdentifier seen => .expectedIdentifier (seen.relocate ρ)
  | .invalidConstant seen => .invalidConstant (seen.relocate ρ)
  | .expectedNumber seen => .expectedNumber (seen.relocate ρ)
  | .invalidFieldType seen => .invalidFieldType (seen.relocate ρ)
  | .oneofFieldWithLabel s => .oneofFieldWithLabel (s.relocate ρ)
  | .invalidStatement seen => .invalidStatement (seen.relocate ρ)
  | .duplicatePackage first second => .duplicatePackage (first.relocate ρ) (second.relocate ρ)
  | .fault broken => .fault broken

theorem message_relocate (e : ParseError) : (e.relocate ρ).message = e.message := by
  cases e <;> rfl

theorem help_relocate (e : ParseError) : (e.relocate ρ).help = e.help := by
  cases e <;> rfl

theorem labels_relocate (e : ParseError) :
    (e.relocate ρ).labels = e.labels.map fun l => (l.1, l.2.relocate ρ) := by
  cases e <;> rfl

end ParseError

theorem Complaint.error_relocate (q : Complaint) (seen : Sighting) :
    q.error (seen.relocate ρ) = (q.error seen).relocate ρ := by
  cases q <;> rfl

namespace Cursor

def relocate (c : Cursor) : Cursor where
  pending := c.pending.map (Option.map (Item.relocate ρ))
  held := c.held.map (Lexeme.relocate ρ)
  stop := ρ.stop c.stop
  answered := c.answered.map (Option.map (Item.relocate ρ))
  taken := c.taken.map (Lexeme.relocate ρ)
  closed := c.closed

@[simp] theorem size_relocate (c : Cursor) : (c.relocate ρ).size = c.size := by
  simp only [size, relocate, List.length_map]
  cases c.held <;> rfl

theorem sighting_relocate (c : Cursor) : (c.relocate ρ).sighting = c.sighting.relocate ρ := by
  rcases c with ⟨_, _ | l, _, _, _, _⟩
  · simp [sighting, relocate, Sighting.relocate]
  · rfl

end Cursor

variable {α β γ δ : Type}

/-- A result in which everything stands elsewhere. -/
def resultAt (g : α → β) :
    EStateM.Result ParseError Cursor α → EStateM.Result ParseError Cursor β
  | .ok a c => .ok (g a) (c.relocate ρ)
  | .error e c => .error (e.relocate ρ) (c.relocate ρ)

/-- That a parser does the same as another one where everything stands elsewhere. -/
def Mirrors (g : α → β) (p : Parser α) (q : Parser β) : Prop :=
  ∀ c : Cursor, q (c.relocate ρ) = resultAt ρ g (p c)

namespace Mirrors

open Cursor

variable {ρ} {g : α → β} {h : γ → δ} {p : Parser α} {q : Parser β} {f : α → Parser γ}
  {f' : β → Parser δ}

theorem pure {a : α} {b : β} (same : g a = b) : Mirrors ρ g (pure a) (pure b) := fun c => by
  subst same
  rfl

theorem bind (first : Mirrors ρ g p q) (rest : ∀ a, Mirrors ρ h (f a) (f' (g a))) :
    Mirrors ρ h (p >>= f) (q >>= f') := by
  intro c
  have run := first c
  cases result : p c with
  | ok a d =>
    rw [result] at run
    rw [Parser.bind_of_ok result, Parser.bind_of_ok run]
    exact rest a d
  | error e d =>
    rw [result] at run
    rw [Parser.bind_of_error result, Parser.bind_of_error run]
    rfl

theorem peek : Mirrors ρ id peek peek := by
  rintro ⟨pending, _ | l, stop, answered, taken, closed⟩
  · rcases pending with _ | ⟨_ | ⟨l | s⟩, rest⟩ <;> rfl
  · rfl

theorem take : Mirrors ρ id take take := by
  rintro ⟨pending, _ | l, stop, answered, taken, closed⟩ <;> rfl

theorem fail (q : Complaint) : Mirrors ρ g (fail q.error) (fail q.error) := by
  intro c
  change EStateM.Result.error (q.error (c.relocate ρ).sighting) _ = _
  rw [sighting_relocate, q.error_relocate]
  rfl

theorem throw (e : ParseError) : Mirrors ρ g (throw e) (throw (e.relocate ρ)) := fun _ => rfl

theorem close (block : Block) : Mirrors ρ id (close block) (close block) := fun _ => rfl

/-- What depends on the number of unused answers alone. -/
theorem sized {f : Nat → Parser α} {f' : Nat → Parser β} (h : ∀ n, Mirrors ρ g (f n) (f' n)) :
    Mirrors ρ g (get >>= fun c => f c.size) (get >>= fun c => f' c.size) := by
  intro c
  change f' (c.relocate ρ).size _ = resultAt ρ g (f c.size c)
  rw [size_relocate]
  exact h c.size c

theorem get : Mirrors ρ (Cursor.relocate ρ) get get := fun _ => rfl

end Mirrors

theorem Composed.mirrors {seen : Option (Option Token)} {p : Parser α} (h : Composed seen p) :
    Mirrors ρ id p p := by
  induction h with
  | pure => exact .pure rfl
  | bind _ _ ih ih' => exact ih.bind ih'
  | peek _ ih => exact Mirrors.peek.bind ih
  | take => exact .take
  | fail q => exact .fail q
  | close block => exact .close block
  | fault broken => exact .throw (.fault broken)
  | sized _ ih => exact .sized ih
  | looked _ ih => exact ih

/-! ## Files -/

namespace Parser
open Cursor

variable {ρ}

theorem findSome_relocate (earlier : List Statement) :
    (earlier.map (Statement.relocate ρ)).findSome? Statement.packageKeyword? =
      (earlier.findSome? Statement.packageKeyword?).map (Span.relocate ρ) := by
  rw [List.findSome?_map, List.map_findSome?]
  congr 1
  funext s
  cases s <;> rfl

theorem mirrors_onlyPackage (earlier : List Statement) : Mirrors ρ (Statement.relocate ρ)
    (onlyPackage earlier) (onlyPackage (earlier.map (Statement.relocate ρ))) := by
  refine Mirrors.get.bind fun c => (composed_package.mirrors ρ).bind fun read => ?_
  rw [findSome_relocate, Cursor.sighting_relocate]
  cases earlier.findSome? Statement.packageKeyword? with
  | some first => exact .throw _
  | none => exact .pure rfl

theorem mirrors_statement (earlier : List Statement) :
    Mirrors ρ (Option.map (Statement.relocate ρ)) (statement earlier)
      (statement (earlier.map (Statement.relocate ρ))) := by
  have other {γ : Type} {p : Parser γ} {seen : Option (Option Token)} {g : γ → Statement}
      (plain : ∀ a, (g a).relocate ρ = g a) (h : Composed seen p) :
      Mirrors ρ (Option.map (Statement.relocate ρ)) (p >>= fun a => pure (some (g a)))
        (p >>= fun a => pure (some (g a))) :=
    (h.mirrors ρ).bind fun a => .pure (congrArg some (plain a))
  rw [statement, statement, peekKind_bind, peekKind_bind]
  refine Mirrors.peek.bind fun t => ?_
  rw [id_eq]
  split
  · next h => exact other (g := fun _ => .empty) (fun _ => rfl) (.take_kind h)
  · exact other (g := .imported) (fun _ => rfl) composed_importStatement
  · exact (mirrors_onlyPackage earlier).bind fun s => .pure rfl
  · exact other (g := .option) (fun _ => rfl) composed_optionStatement
  · exact other (g := .message) (fun _ => rfl) composed_message
  · exact other (g := .enum) (fun _ => rfl) composed_enum
  · exact .fail .invalidStatement
  · exact .pure rfl

theorem mirrors_statements (k : Nat) (earlier : List Statement) :
    Mirrors ρ (List.map (Statement.relocate ρ)) (collectWithin statement k earlier)
      (collectWithin statement k (earlier.map (Statement.relocate ρ))) := by
  induction k generalizing earlier with
  | zero => exact .throw (.fault .noProgress)
  | succ k ih =>
    refine (mirrors_statement earlier).bind fun o => ?_
    cases o with
    | none => exact .pure List.map_reverse
    | some s => exact ih (s :: earlier)

theorem ofStatements_relocate (version : SyntaxDecl) (statements : List Statement) :
    File.ofStatements version (statements.map (Statement.relocate ρ)) =
      File.ofStatements version statements := by
  rw [← File.ofStatements_unplaced version statements, ← File.ofStatements_unplaced, List.map_map]
  congr 2
  funext s
  cases s <;> rfl

theorem mirrors_file : Mirrors ρ id file file := by
  refine (composed_syntaxDecl.mirrors ρ).bind fun version => ?_
  have statements :
      Mirrors ρ (List.map (Statement.relocate ρ)) (collect statement) (collect statement) :=
    .sized fun n => mirrors_statements (n + 1) []
  exact statements.bind fun as => .pure (ofStatements_relocate version as).symm

end Parser

/-- A run over the same tokens at other places has the same result, but for the places. -/
theorem Node.mirrors (n : Node) : Mirrors ρ id n.parser n.parser := by
  by_cases h : n = .file
  · subst h
    exact Parser.mirrors_file
  · exact (Node.composed h).mirrors ρ

end ProtoSchema
