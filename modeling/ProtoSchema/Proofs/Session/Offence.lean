import ProtoSchema.Proofs.Session.Account

/-! # Where a failed run leaves its cursor

A run that fails leaves its cursor at what the error is about, so that the next call finds it there:
a token that does not fit is still held, and has not been taken; the end of the input is where the
last item ended. A failure has been passed, and a second package statement has been taken as a
whole. -/

namespace ProtoSchema

open Cursor

/-- How a cursor stands when an error has been reported. -/
def ParseError.Rests (e : ParseError) (d : Cursor) : Prop :=
  match e with
  | .invalidToken span =>
    d.held = none ∧ d.answered.head? = some (some (.failure span)) ∧ d.stop = span.stop ∧
      d.ahead = d.pending
  | .duplicatePackage _ second =>
    d.held = none ∧ ∃ front keyword body l read, keyword.span = second ∧
      d.taken.reverse = front ++ (keyword :: body ++ [l]) ∧ l.token.kind = .semicolon ∧
      Grammar.package (tokens (keyword :: body ++ [l])) read ∧
      d.answered.head? = some (some (.token l))
  | .fault _ => False
  | e =>
    (∃ l, d.held = some l ∧ d.answered.head? = some (some (.token l)) ∧ e.span = l.span ∧
      peek d = .ok (some l.token) d) ∨
    d.held = none ∧ d.answered.head? = some none ∧ e.span = .at (lastStop d.answered)

namespace ParseError

variable {d : Cursor}

theorem rests_complaint {q : Complaint} {s : Sighting} :
    (q.error s).Rests d ↔
      (∃ l, d.held = some l ∧ d.answered.head? = some (some (.token l)) ∧ s.span = l.span ∧
        peek d = .ok (some l.token) d) ∨
      d.held = none ∧ d.answered.head? = some none ∧ s.span = .at (lastStop d.answered) := by
  cases q <;> exact Iff.rfl

theorem rests_of_offends {source : List (Option Item)} {e : ParseError} {a : Option Item}
    (accounts : d.Accounts source) (last : d.answered.head? = some a) (h : e.Offends d a) :
    e.Rests d := by
  cases h with
  | failure span held =>
    refine ⟨held, last, ?_, by simp [ahead, held]⟩
    obtain ⟨before, answered⟩ := List.head?_eq_some_iff.1 last
    rw [accounts.stop, answered]
    rfl
  | token q held => exact rests_complaint.2 (.inl ⟨_, held, last, rfl, peek_of_held held⟩)
  | ended q held =>
    refine rests_complaint.2 (.inr ⟨held, last, ?_⟩)
    rw [accounts.stop]
  | second held taken ends package => exact ⟨held, _, _, _, _, _, rfl, taken, ends, package, last⟩

end ParseError

/-- A run that fails, of any node and from where any calls have left a cursor, leaves it at what the
error is about. The source may have reported an end and gone on. -/
theorem Node.rests_of_error (n : Node) (source : List (Option Item)) (calls : List Call)
    {e : ParseError} {d : Cursor} (run : n.parser ((ofAnswers source).after calls) = .error e d) :
    d.Accounts source ∧ e.Rests d := by
  have before := (accounts_ofAnswers source).way (way_after _ calls)
  have accounts : d.Accounts source := by
    have way := (n.traces ((ofAnswers source).after calls)).way
    rw [run] at way
    exact before.way way
  obtain ⟨a, last, offends⟩ := n.offends before.fresh run
  exact ⟨accounts, ParseError.rests_of_offends accounts last offends⟩

/-- A package statement that was cut short by an end fails there. Behind the end the source goes on,
and what it gives then is held when the next statement fails. -/
theorem Node.rests_of_error_resumed :
    let keyword : Lexeme := ⟨⟨.keyword .packageKw, "package"⟩, ⟨0, 7⟩⟩
    let semicolon : Lexeme := ⟨⟨.semicolon, ";"⟩, ⟨9, 10⟩⟩
    let source : List (Option Item) := [some (.token keyword), none, some (.token semicolon)]
    let e : ParseError := .unexpectedToken (.keyword .packageKw) ⟨some semicolon.token, ⟨9, 10⟩⟩
    let d : Cursor := ⟨[], some semicolon, 10, source.reverse, [keyword], []⟩
    Node.package.parser ((ofAnswers source).after [.read .package]) = .error e d ∧
      d.Accounts source ∧ e.Rests d := by
  intro keyword semicolon source e d
  have run : Node.package.parser ((ofAnswers source).after [.read .package]) = .error e d := rfl
  exact ⟨run, Node.rests_of_error .package source [.read .package] run⟩

end ProtoSchema
