import ProtoSchema.Proofs.Program.Path
import ProtoSchema.Proofs.Trace.History

/-! # Runs depend on what they were given

What a parser does from a cursor depends on the answers that it is given there, and on no others.
Where it meets no failure, this is known from the phrase that it reads. Where it meets one, what
stands in front of the failure determines the tokens that were taken, and these the blocks that were
closed. -/

namespace ProtoSchema

variable {α : Type}

namespace Cursor

/-- That some answers are what was asked for between two cursors. Where there are enough of them,
they came from the front of those that were pending. -/
structure Asks (c : Cursor) (used : List (Option Item)) (d : Cursor) : Prop where
  answered : d.answered = used.reverse ++ c.answered
  pending : used.length ≤ c.pending.length → c.pending = used ++ d.pending

namespace Asks

variable {b c d : Cursor} {as bs : List (Option Item)}

theorem refl (c : Cursor) : c.Asks [] c := ⟨rfl, fun _ => rfl⟩

theorem trans (h : b.Asks as c) (h' : c.Asks bs d) : b.Asks (as ++ bs) d where
  answered := by simp [h'.answered, h.answered]
  pending := by
    intro few
    rw [List.length_append] at few
    have first := h.pending (by omega)
    rw [first, List.length_append] at few
    rw [first, h'.pending (by omega), List.append_assoc]

end Asks

/-- While answers are left, those that were given came from the front. -/
theorem Path.pending_eq {c d : Cursor} (h : Path c d) (left : d.pending ≠ []) :
    ∃ used, d.answered = used.reverse ++ c.answered ∧ c.pending = used ++ d.pending := by
  induction h with
  | refl => exact ⟨[], rfl, rfl⟩
  | @tail b d _ step ih =>
    have one : ∃ used, d.answered = used.reverse ++ b.answered ∧ b.pending = used ++ d.pending := by
      cases step with
      | look look =>
        cases look with
        | held => exact ⟨[], rfl, rfl⟩
        | token _ pending => exact ⟨[_], rfl, pending⟩
        | ended _ pending => exact ⟨[_], rfl, pending⟩
        | exhausted => exact absurd rfl left
      | release => exact ⟨[], rfl, rfl⟩
      | close => exact ⟨[], rfl, rfl⟩
    obtain ⟨as, answered, pending⟩ := one
    obtain ⟨bs, answered', pending'⟩ := ih (by simp [pending, left])
    exact ⟨bs ++ as, by simp [answered, answered'], by simp [pending', pending]⟩

theorem Path.asks {c d : Cursor} {w : List Lexeme} {used : List (Option Item)} (path : Path c d)
    (moves : c.Moves w used d) : c.Asks used d := by
  refine ⟨moves.answered, fun few => ?_⟩
  by_cases left : d.pending = []
  · obtain ⟨k, supply⟩ := moves.supply
    rw [left, List.append_nil] at supply ⊢
    have length := congrArg List.length supply
    rw [List.length_append, List.length_replicate] at length
    obtain rfl : k = 0 := by omega
    rwa [List.replicate_zero, List.append_nil] at supply
  · obtain ⟨used', answered, pending⟩ := path.pending_eq left
    obtain rfl : used' = used := by simpa using answered.symm.trans moves.answered
    exact pending

/-- No answer that was passed is a failure. -/
theorem Moves.not_failure {c d : Cursor} {w : List Lexeme} {used : List (Option Item)}
    (h : c.Moves w used d) (span : Span) : some (.failure span) ∉ used := by
  intro mem
  obtain ⟨as, whole, filter⟩ := h.passed
  have mem : some (Item.failure span) ∈ as ++ answers d.held.toList :=
    whole ▸ List.mem_append_right _ mem
  rcases List.mem_append.1 mem with mem | mem
  · have mem : some (Item.failure span) ∈ answers w := filter ▸ List.mem_filter.2 ⟨mem, rfl⟩
    simp [answers] at mem
  · simp [answers] at mem

/-- What was passed stands in front of the first failure. -/
theorem Moves.used_before {c d : Cursor} {used rest front : List (Option Item)} {span : Span}
    {w : List Lexeme} (h : c.Moves w used d)
    (pending : c.pending = front ++ some (.failure span) :: rest) :
    ∃ zs, front = used ++ zs := by
  obtain ⟨k, supply⟩ := h.supply
  rw [pending, List.append_assoc] at supply
  rcases List.append_eq_append_iff.1 supply with ⟨zs, rfl, eq⟩ | ⟨zs, rfl, -⟩
  · cases zs with
    | nil => exact ⟨[], by simp⟩
    | cons z zs =>
      obtain ⟨rfl, -⟩ := List.cons.inj eq
      exact absurd (List.mem_append_right _ List.mem_cons_self) (h.not_failure span)
  · exact ⟨zs, rfl⟩

end Cursor

open Cursor

/-- Lists are split in one way at the first failure in them. -/
theorem first_failure {used used' rest rest' : List (Option Item)} {span span' : Span}
    (eq : used ++ some (.failure span) :: rest = used' ++ some (.failure span') :: rest')
    (clean : ∀ s, some (.failure s) ∉ used) (clean' : ∀ s, some (.failure s) ∉ used') :
    used = used' ∧ span = span' ∧ rest = rest' := by
  induction used generalizing used' with
  | nil =>
    cases used' with
    | nil => simpa using eq
    | cons y used' =>
      obtain ⟨rfl, -⟩ := List.cons.inj eq
      exact absurd List.mem_cons_self (clean' span)
  | cons x used ih =>
    cases used' with
    | nil =>
      obtain ⟨rfl, -⟩ := List.cons.inj eq
      exact absurd List.mem_cons_self (clean span')
    | cons y used' =>
      obtain ⟨rfl, tail⟩ := List.cons.inj eq
      obtain ⟨rfl, same⟩ := ih tail (fun s hs => clean s (List.mem_cons_of_mem _ hs))
        fun s hs => clean' s (List.mem_cons_of_mem _ hs)
      exact ⟨rfl, same⟩

theorem answers_injective : Function.Injective answers :=
  List.map_injective_iff.2 fun l l' h => by simpa using h

/-- How a run has moved its cursor, if it has not met a failure. -/
theorem moves_of_covers {P : Phrase α} {c : Cursor} {used : List (Option Item)}
    {r : EStateM.Result ParseError Cursor α} (h : P.Covers c used r)
    (clean : ∀ span d, r ≠ .error (.invalidToken span) d) :
    ∃ w, c.Moves w used (finalCursor r) := by
  cases r with
  | ok a d =>
    obtain ⟨w, moves, -⟩ := h
    exact ⟨w, moves⟩
  | error e d =>
    obtain ⟨w, c₁, moves, stops, -⟩ := h
    have same : d = c₁ := by
      cases e with
      | invalidToken span => exact absurd rfl (clean span d)
      | duplicatePackage => exact stops
      | fault => exact False.elim stops
      | _ => exact stops.1
    exact ⟨w, same ▸ moves⟩

/-- That a parser reads a phrase under every bound, that its runs are made of single steps, and that
there is a report on them. -/
structure Parser.Lawful (p : Parser α) : Prop where
  reads : ∃ P : Phrase α, ∀ n, Reads n none p P
  traces : ∀ c : Cursor, c.Traces p fun _ _ => True
  reports : ∃ R : Report α, Reports none p R

namespace Parser.Lawful

variable {p : Parser α} {c d : Cursor} {front rest : List (Option Item)} {span : Span}

theorem path_of_clean (h : Lawful p) (clean : ∀ span d, p c ≠ .error (.invalidToken span) d) :
    c.Path (finalCursor (p c)) := by
  cases run : p c with
  | ok a d => exact ((h.traces c).ok a d run).1
  | error e d =>
    obtain ⟨d', path, arises⟩ := (h.traces c).error e d run
    cases arises with
    | failure => exact absurd run (clean _ _)
    | complaint | duplicate | fault => exact path

/-- A run that meets no failure depends on the answers it has used. -/
theorem steady_of_clean (h : Lawful p) (clean : ∀ span d, p c ≠ .error (.invalidToken span) d) :
    ∃ w used, c.Moves w used (finalCursor (p c)) ∧
      ∀ ys, p (c.facing (used ++ ys)) = resultFacing ys (p c) := by
  obtain ⟨P, reads⟩ := h.reads
  have within (bound : Nat) (less : c.size < bound) :
      ∃ w used, c.Moves w used (finalCursor (p c)) ∧ Steady bound p c used := by
    obtain ⟨used, covers, steady⟩ := (reads bound).run c ⟨less, nofun⟩
    obtain ⟨w, moves⟩ := moves_of_covers covers clean
    exact ⟨w, used, moves, steady⟩
  obtain ⟨w, used, moves, -⟩ := within _ (Nat.lt_succ_self _)
  refine ⟨w, used, moves, fun ys => ?_⟩
  -- the bound has room for both runs
  obtain ⟨_, used', moves', steady⟩ := within (c.size + (c.facing (used ++ ys)).size + 1) (by omega)
  obtain rfl : used' = used := by simpa using moves'.answered.symm.trans moves.answered
  exact steady clean ys (by omega)

/-- A run that meets a failure has passed what stands in front of it, and this determines the
rest. -/
theorem passed_of_failure (h : Lawful p) (run : p c = .error (.invalidToken span) d) :
    ∃ used w es, c.pending = used ++ some (.failure span) :: d.pending ∧
      (∀ s, some (.failure s) ∉ used) ∧
      (answers c.held.toList ++ used).filter Option.isSome = answers w ∧ Logged (tokens w) es ∧
      d = ⟨d.pending, none, span.stop, some (.failure span) :: (used.reverse ++ c.answered),
        w.reverse ++ c.taken, es.reverse ++ c.closed⟩ := by
  obtain ⟨R, reports⟩ := h.reports
  obtain ⟨w, es, goes, logged⟩ := reports.error c _ d (holds_none c) run
  obtain ⟨c', path, arises⟩ := (h.traces c).error _ d run
  generalize found : ParseError.invalidToken span = e at arises
  cases arises with
  | @failure _ place rest held pending =>
    cases found
    obtain ⟨used, answered, whole⟩ := path.pending_eq (by simp [pending])
    obtain ⟨v, used', moves⟩ := path.moves
    obtain rfl : used' = used := by simpa using moves.answered.symm.trans answered
    obtain rfl : v = w := by simpa using moves.taken.symm.trans goes.taken
    obtain ⟨as, passed, filter⟩ := moves.passed
    obtain rfl : as = answers c.held.toList ++ used' := by simpa [held] using passed.symm
    refine ⟨used', v, es, whole.trans (by rw [pending]; rfl), moves.not_failure, filter, logged, ?_⟩
    have taken := goes.taken
    have closed := goes.closed
    rw [← answered, ← taken, ← closed]
    simp only [missed, held]
  | @complaint _ q => cases q <;> cases found
  | duplicate => cases found
  | fault => cases found

/-- A run meets the first failure that is ahead of it, or goes alike whatever stands there. -/
theorem meets_or_steady (h : Lawful p) (pending : c.pending = front ++ some (.failure span) :: rest)
    (clean : ∀ s, some (.failure s) ∉ front) :
    (∃ d, p c = .error (.invalidToken span) d) ∨
      (∀ s d, p c ≠ .error (.invalidToken s) d) ∧
        ∃ used zs, front = used ++ zs ∧
          ∀ ys, p (c.facing (used ++ ys)) = resultFacing ys (p c) := by
  by_cases met : ∃ s d, p c = .error (.invalidToken s) d
  · obtain ⟨s, d, run⟩ := met
    obtain ⟨used, -, -, whole, clean', -⟩ := h.passed_of_failure run
    obtain ⟨-, rfl, -⟩ := first_failure (pending.symm.trans whole) clean clean'
    exact .inl ⟨d, run⟩
  · have met (s : Span) (d : Cursor) : p c ≠ .error (.invalidToken s) d :=
      fun run => met ⟨s, d, run⟩
    obtain ⟨v, used, moves, steady⟩ := h.steady_of_clean met
    obtain ⟨zs, split⟩ := moves.used_before pending
    exact .inr ⟨met, used, zs, split, steady⟩

/-- A run that meets a failure depends on the answers in front of it. -/
theorem steady_of_failure (h : Lawful p) (run : p c = .error (.invalidToken span) d) :
    ∃ used, c.Asks used d ∧
      ∀ ys, p (c.facing (used ++ ys)) = .error (.invalidToken span) (d.facing ys) := by
  obtain ⟨used, w, es, whole, clean, filter, logged, final⟩ := h.passed_of_failure run
  have asks : c.Asks (used ++ [some (.failure span)]) d := by
    refine ⟨?_, fun _ => by rw [whole, List.append_assoc, List.singleton_append]⟩
    rw [final, List.reverse_append, List.append_assoc]
    rfl
  refine ⟨_, asks, fun ys => ?_⟩
  rw [List.append_assoc, List.singleton_append]
  rcases h.meets_or_steady (c := c.facing (used ++ some (.failure span) :: ys)) rfl clean with
    ⟨d', run'⟩ | ⟨met, before, zs, rfl, steady⟩
  · obtain ⟨used', w', es', whole', clean', filter', logged', final'⟩ := h.passed_of_failure run'
    obtain ⟨rfl, -, rest⟩ := first_failure whole' clean clean'
    obtain rfl := answers_injective (filter.symm.trans filter')
    obtain rfl := logged.unique logged'
    rw [run', final', final, ← rest]
    rfl
  · have other := steady (zs ++ some (.failure span) :: d.pending)
    rw [← List.append_assoc, ← whole] at other
    change p c = _ at other
    rw [run] at other
    generalize p (c.facing (before ++ zs ++ some (.failure span) :: ys)) = r at met other
    cases r with
    | ok => cases other
    | error e d' =>
      obtain ⟨rfl, -⟩ := EStateM.Result.error.inj other
      exact absurd rfl (met span d')

/-- A run depends on the answers that it was given and on no others. -/
theorem steady (h : Lawful p) (c : Cursor) : ∃ used, c.Asks used (finalCursor (p c)) ∧
    ∀ ys, p (c.facing (used ++ ys)) = resultFacing ys (p c) := by
  by_cases met : ∃ span d, p c = .error (.invalidToken span) d
  · obtain ⟨span, d, run⟩ := met
    rw [run]
    exact h.steady_of_failure run
  · have clean (span : Span) (d : Cursor) : p c ≠ .error (.invalidToken span) d :=
      fun run => met ⟨span, d, run⟩
    obtain ⟨w, used, moves, steady⟩ := h.steady_of_clean clean
    exact ⟨used, (h.path_of_clean clean).asks moves, steady⟩

end Parser.Lawful

end ProtoSchema
