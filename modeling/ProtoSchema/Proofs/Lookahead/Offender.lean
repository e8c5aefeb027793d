import ProtoSchema.Proofs.Lookahead.Ending

/-! # What a run stops at

A run that fails is about the answer it was given last: a failure, a token that does not fit, or the
report of an end. Only a second package is refused when all of it has been taken; the last answer is
then the semicolon that ends it. -/

namespace ProtoSchema

open Cursor

/-- How an error is about an answer, seen from the cursor that it leaves. -/
inductive ParseError.Offends (d : Cursor) : ParseError → Option Item → Prop
  | failure (span : Span) (held : d.held = none) :
      Offends d (.invalidToken span) (some (.failure span))
  | token {l : Lexeme} (q : Complaint) (held : d.held = some l) :
    Offends d (q.error ⟨some l.token, l.span⟩) (some (.token l))
  | ended (q : Complaint) (held : d.held = none) : Offends d (q.error ⟨none, .at d.stop⟩) none
  | second {front keyword body l read} {first : Span} (held : d.held = none)
    (taken : d.taken.reverse = front ++ (keyword :: body ++ [l])) (ends : l.token.kind = .semicolon)
    (package : Grammar.package (tokens (keyword :: body ++ [l])) read) :
    Offends d (.duplicatePackage first keyword.span) (some (.token l))

variable {α : Type}

theorem Composed.error_ne_duplicate {seen : Option (Option Token)} {p : Parser α}
    (h : Composed seen p) {c d : Cursor} {e : ParseError} (run : p c = .error e d)
    (first second : Span) :
    e ≠ .duplicatePackage first second := by
  induction h generalizing c with
  | pure a => cases run
  | bind _ _ ih ih' =>
    obtain run | ⟨a, c', -, run⟩ := Parser.bind_eq_error.1 run
    · exact ih run
    · exact ih' a run
  | peek _ ih =>
    obtain run | ⟨t, c', -, run⟩ := Parser.bind_eq_error.1 run
    · have look := c.look_peek
      rw [run] at look
      cases look
      nofun
    · exact ih t run
  | take =>
    unfold Cursor.take at run
    split at run
    · cases run
    · cases run
      nofun
  | fail q fits =>
    cases run
    cases q <;> nofun
  | close block => cases run
  | fault broken =>
    cases run
    nofun
  | sized _ ih => exact ih c.size run
  | looked _ ih => exact ih run

namespace Parser

/-- A package statement takes its keyword, which had been held, and what belongs to it. -/
theorem text_of_package {c d : Cursor} {k : Lexeme} {read : Package} (held : c.held = some k)
    (run : package c = .ok read d) : ∃ x xs, d.taken = (k :: x :: xs).reverse ++ c.taken ∧
      Grammar.package (tokens (k :: x :: xs)) read := by
  obtain ⟨-, x, xs, taken⟩ := taken_of_package held run
  obtain ⟨w, used, moves, text⟩ := @Node.phrase_of_run .package _ _ _ run
  obtain rfl : w = k :: x :: xs := by simpa [moves.taken] using taken
  exact ⟨x, xs, moves.taken, text⟩

/-- It ends with its semicolon. -/
theorem ends_package {c d : Cursor} {k : Lexeme} {read : Package} (fresh : c.Fresh)
    (held : c.held = some k) (run : package c = .ok read d) :
    ∃ body l, d.Released l ∧ l.token.kind = .semicolon ∧
      d.taken.reverse = c.taken.reverse ++ (k :: body ++ [l]) ∧
      Grammar.package (tokens (k :: body ++ [l])) read := by
  obtain ⟨l, released, semicolon⟩ := lands_package c read d fresh c.holds_none run
  obtain ⟨x, xs, taken, text⟩ := text_of_package held run
  have whole : d.taken.reverse = c.taken.reverse ++ (k :: x :: xs) := by simp [taken]
  obtain ⟨body, last, split⟩ : ∃ body last, x :: xs = body ++ [last] :=
    ⟨_, _, (List.dropLast_concat_getLast (List.cons_ne_nil x xs)).symm⟩
  rw [split] at whole text
  obtain rfl : last = l := by
    have top := released.taken
    rw [← List.reverse_reverse d.taken, whole] at top
    simpa using top
  exact ⟨body, last, released, List.mem_singleton.1 semicolon, whole, text⟩

/-- A package statement is refused because of an earlier one when it is complete. -/
theorem refused_of_onlyPackage {earlier : List Statement} {c d : Cursor} {first second : Span}
    (run : onlyPackage earlier c = .error (.duplicatePackage first second) d) :
    earlier.findSome? Statement.packageKeyword? = some first ∧ c.sighting.span = second ∧
      ∃ read, package c = .ok read d := by
  obtain run | ⟨c', _, here, run⟩ := bind_eq_error.1 run
  · cases run
  cases here
  obtain run | ⟨read, c₁, package, run⟩ := bind_eq_error.1 run
  · exact absurd rfl (composed_package.error_ne_duplicate run first second)
  cases found : earlier.findSome? Statement.packageKeyword? with
  | some place =>
    rw [found] at run
    cases run
    exact ⟨rfl, rfl, read, package⟩
  | none =>
    rw [found] at run
    cases run

/-- A statement that is refused because of an earlier one is a package statement. -/
theorem refused_of_statement {earlier : List Statement} {c d : Cursor} {first second : Span}
    (run : statement earlier c = .error (.duplicatePackage first second) d) :
    earlier.findSome? Statement.packageKeyword? = some first ∧ ∃ c' k read,
      c.Look (.ok (some k.token) c') ∧ c'.held = some k ∧ k.span = second ∧
      package c' = .ok read d := by
  have other {β : Type} {t : Option Token} {p : Parser β} {g : β → Option Statement} {c' : Cursor}
      (h : Composed (some t) p)
      (run : (p >>= fun b => pure (g b)) c' = .error (.duplicatePackage first second) d) : False :=
    h.map.error_ne_duplicate run first second rfl
  rw [statement, peekKind_bind] at run
  obtain run | ⟨t, c', look, run⟩ := bind_eq_error.1 run
  · have look := c.look_peek
    rw [run] at look
    cases look
  have look' := c.look_peek
  rw [look] at look'
  generalize kind : t.map Token.kind = k at run
  split at run
  · exact (other (.take_kind kind) run).elim
  · exact (other (t := t) composed_importStatement.looked run).elim
  · obtain ⟨u, rfl, -⟩ := Option.map_eq_some_iff.1 kind
    obtain ⟨l, held, rfl⟩ := Option.map_eq_some_iff.1 (Holds.of_look look' _ rfl)
    obtain run | ⟨_, _, -, run⟩ := bind_eq_error.1 run
    · obtain ⟨named, here, read, package⟩ := refused_of_onlyPackage run
      exact ⟨named, c', l, read, look', held, by rw [← here, sighting, held], package⟩
    · cases run
  · exact (other (t := t) composed_optionStatement.looked run).elim
  · exact (other (t := t) composed_message.looked run).elim
  · exact (other (t := t) composed_enum.looked run).elim
  · cases run
  · cases run

theorem offends_of_statement {earlier : List Statement} {c d : Cursor} {first second : Span}
    (fresh : c.Fresh) (run : statement earlier c = .error (.duplicatePackage first second) d) :
    ∃ a, d.answered.head? = some a ∧ (ParseError.duplicatePackage first second).Offends d a := by
  obtain ⟨-, c', k, read, look, held, rfl, package⟩ := refused_of_statement run
  obtain ⟨body, l, released, semicolon, taken, text⟩ :=
    ends_package ((Step.look look).fresh fresh) held package
  exact ⟨_, released.answered, .second released.held taken semicolon text⟩

theorem offends_of_statements {k : Nat} {earlier : List Statement} {c d : Cursor}
    {first second : Span} (fresh : c.Fresh) (known : Known earlier c)
    (run : collectWithin statement k earlier c = .error (.duplicatePackage first second) d) :
    ∃ a, d.answered.head? = some a ∧ (ParseError.duplicatePackage first second).Offends d a := by
  induction k generalizing earlier c with
  | zero => cases run
  | succ k ih =>
    obtain run | ⟨o, c', step, run⟩ := bind_eq_error.1 run
    · exact offends_of_statement fresh run
    · obtain ⟨path, known'⟩ := (traces_statement known).ok o c' step
      cases o with
      | none => cases run
      | some s => exact ih (path.fresh fresh) (known' s rfl) run

theorem offends_of_file {c d : Cursor} {first second : Span} (fresh : c.Fresh)
    (run : file c = .error (.duplicatePackage first second) d) :
    ∃ a, d.answered.head? = some a ∧ (ParseError.duplicatePackage first second).Offends d a := by
  obtain run | ⟨version, c', read, run⟩ := bind_eq_error.1 run
  · exact absurd rfl (composed_syntaxDecl.error_ne_duplicate run first second)
  obtain ⟨path, -⟩ := (composed_syntaxDecl.traces c.ready).ok version c' read
  obtain run | ⟨_, _, -, run⟩ := bind_eq_error.1 run
  · exact offends_of_statements (k := c'.size + 1) (path.fresh fresh) (List.forall_mem_nil _) run
  · cases run

end Parser

/-- An error is about the answer that was given last. -/
theorem Node.offends {n : Node} {c d : Cursor} {e : ParseError} (fresh : c.Fresh)
    (run : n.parser c = .error e d) : ∃ a, d.answered.head? = some a ∧ e.Offends d a := by
  obtain ⟨d', path, arises⟩ := (n.traces c).error e d run
  cases arises with
  | failure held pending => exact ⟨_, rfl, .failure _ held⟩
  | @complaint _ q fits ended =>
    rw [sighting]
    cases held : d.held with
    | some l => exact ⟨_, path.fresh fresh l held, .token q held⟩
    | none => exact ⟨_, ended held, .ended q held⟩
  | duplicate =>
    by_cases file : n = .file
    · subst file
      exact Parser.offends_of_file fresh run
    · exact absurd rfl ((Node.composed file).error_ne_duplicate run _ _)
  | fault broken => exact absurd run ((n.reads_node _).ne_fault c.ready broken)

end ProtoSchema
