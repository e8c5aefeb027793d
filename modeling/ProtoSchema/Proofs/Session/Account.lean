import ProtoSchema.Proofs.Session.Call

/-! # What a cursor accounts for

At every point of a session the lexemes that were taken, with the one that is held behind them, are
those that the source has given, in their order; every failure among its answers was reported by the
call that asked for it. This is kept by each single act, and so along every way. -/

namespace ProtoSchema

open Cursor

/-- The lexemes among some answers. -/
def givenLexemes (as : List (Option Item)) : List Lexeme :=
  as.filterMap fun a => a.bind Item.lexeme?

theorem givenLexemes_concat (as : List (Option Item)) (a : Option Item) :
    givenLexemes (as ++ [a]) = givenLexemes as ++ (a.bind Item.lexeme?).toList := by
  rw [givenLexemes, List.filterMap_append]
  cases h : a.bind Item.lexeme? <;> simp [givenLexemes, h]

/-- The spans of the failures among some answers. -/
def givenFailures (as : List (Option Item)) : List Span :=
  as.filterMap fun
    | some (.failure span) => some span
    | _ => none

theorem givenFailures_append (as bs : List (Option Item)) :
    givenFailures (as ++ bs) = givenFailures as ++ givenFailures bs := List.filterMap_append

theorem givenFailures_eq_nil {as : List (Option Item)} (h : ∀ span, some (.failure span) ∉ as) :
    givenFailures as = [] := by
  refine List.filterMap_eq_nil_iff.2 fun a mem => ?_
  match a with
  | some (.failure span) => exact absurd mem (h span)
  | some (.token _) | none => rfl

/-- That a cursor has lost, doubled and moved nothing of what a source has given, and that it knows
where the last item ended. Behind its last answer the source reports the end without end. -/
structure Cursor.Accounts (source : List (Option Item)) (c : Cursor) : Prop where
  supply : ∃ k, source ++ List.replicate k none = c.answered.reverse ++ c.pending
  lexemes : c.taken.reverse ++ c.held.toList = givenLexemes c.answered.reverse
  stop : c.stop = lastStop c.answered
  held : ∀ l, c.held = some l → c.answered.head? = some (some (.token l)) ∧ c.stop = l.span.stop

namespace Cursor

variable {source : List (Option Item)} {c d : Cursor}

theorem accounts_ofAnswers (source : List (Option Item)) : (ofAnswers source).Accounts source where
  supply := ⟨0, List.append_nil source⟩
  lexemes := rfl
  stop := rfl
  held := nofun

namespace Accounts

/-- An answer that was pending is accounted for when it is taken up as it should be. -/
theorem answer {a : Option Item} {rest : List (Option Item)} {held : Option Lexeme} {stop : Nat}
    (h : c.Accounts source) (empty : c.held = none) (pending : c.pending = a :: rest)
    (token : held = a.bind Item.lexeme?) (place : stop = lastStop (a :: c.answered)) :
    ({ c with pending := rest, held := held, stop := stop, answered := a :: c.answered } :
      Cursor).Accounts source where
  supply := by
    obtain ⟨k, supply⟩ := h.supply
    exact ⟨k, by simp [supply, pending]⟩
  lexemes := by
    have before := h.lexemes
    rw [empty, Option.toList_none, List.append_nil] at before
    rw [before, token, List.reverse_cons, givenLexemes_concat]
  stop := place
  held := by
    intro l hl
    subst token place
    obtain ⟨i, rfl, lexeme⟩ := Option.bind_eq_some_iff.1 hl
    cases i with
    | token l' =>
      cases lexeme
      exact ⟨rfl, rfl⟩
    | failure => cases lexeme

theorem look {r : EStateM.Result ParseError Cursor (Option Token)} (h : c.Accounts source)
    (empty : c.held = none) (look : c.Look r) : (finalCursor r).Accounts source := by
  cases look with
  | held => exact h
  | token _ pending => exact h.answer empty pending rfl rfl
  | failure _ pending => exact h.answer empty pending empty rfl
  | ended _ pending => exact h.answer empty pending empty h.stop
  | exhausted _ pending =>
    -- the source reports its end once more
    have more : ({ c with pending := [none] } : Cursor).Accounts source := by
      obtain ⟨k, supply⟩ := h.supply
      refine ⟨⟨k + 1, ?_⟩, h.lexemes, h.stop, h.held⟩
      rw [List.replicate_succ', ← List.append_assoc, supply, pending, List.append_nil]
    exact more.answer empty rfl empty h.stop

theorem act (h : c.Accounts source) (act : c.Act d) : d.Accounts source := by
  cases act with
  | ask empty look => exact h.look empty look
  | @take l held =>
    refine ⟨h.supply, ?_, h.stop, nofun⟩
    rw [release, ← h.lexemes, held]
    simp
  | close => exact ⟨h.supply, h.lexemes, h.stop, h.held⟩

theorem way (h : c.Accounts source) (way : c.Way d) : d.Accounts source := by
  induction way with
  | refl => exact h
  | tail _ act ih => exact ih.act act

theorem fresh (h : c.Accounts source) : c.Fresh := fun l held => (h.held l held).1

end Accounts

end Cursor

/-! ## Single calls -/

/-- What a call does to a cursor: it goes its way by single acts; a failure that it is given ends
it, and is reported; it takes the tokens of its answer; and if it only looks, it keeps what was
held. -/
structure Call.Keeps (k : Call) (c : Cursor) : Prop where
  way : c.Way (finalCursor (k.run c))
  invalid : ∃ given, (finalCursor (k.run c)).answered = given.reverse ++ c.answered ∧
    givenFailures given = k.invalid c
  takes : ∀ a d, k.run c = .ok a d → ∃ w, d.taken = w.reverse ++ c.taken ∧ k.phrase (tokens w) a
  looks : k.OnlyLooks c → (finalCursor (k.run c)).taken = c.taken ∧
    ∀ l, c.held = some l → finalCursor (k.run c) = c
  refuses : ∀ e d, k.run c = .error e d → (∃ n, k = .read n) ∨ (∃ span, e = .invalidToken span) ∨
    ∃ kind, k = .expect kind ∧ e = .unexpectedToken kind d.sighting ∧
      ∀ l, d.held = some l → l.token.kind ≠ kind

namespace Call

variable {k : Call} {c d : Cursor}

theorem given_of_run (k : Call) (c : Cursor) :
    ∃ given, (finalCursor (k.run c)).answered = given.reverse ++ c.answered ∧
      givenFailures given = k.invalid c := by
  have clean {used : List (Option Item)} {w : List Lexeme} {d : Cursor} (moves : c.Moves w used d) :
      givenFailures used = [] := givenFailures_eq_nil moves.not_failure
  cases run : k.run c with
  | ok a d =>
    obtain ⟨w, used, moves, -⟩ := phrase_of_run run
    refine ⟨used, moves.answered, ?_⟩
    rw [clean moves, invalid, run]
  | error e d =>
    obtain ⟨d', path, arises⟩ := (k.traces c).error e d run
    obtain ⟨w, used, moves⟩ := path.moves
    cases arises with
    | @failure _ span rest held pending =>
      refine ⟨used ++ [some (.failure span)], by simp [finalCursor, missed, moves.answered], ?_⟩
      rw [givenFailures_append, clean moves, invalid, run]
      rfl
    | @complaint _ q =>
      refine ⟨used, moves.answered, ?_⟩
      rw [clean moves, invalid, run]
      cases q <;> rfl
    | duplicate =>
      refine ⟨used, moves.answered, ?_⟩
      rw [clean moves, invalid, run]
    | fault =>
      refine ⟨used, moves.answered, ?_⟩
      rw [clean moves, invalid, run]

theorem keeps_of_look {r : EStateM.Result ParseError Cursor (Option Token)} (h : c.Look r) :
    (finalCursor r).taken = c.taken ∧ ∀ l, c.held = some l → finalCursor r = c := by
  cases h with
  | held => exact ⟨rfl, fun _ _ => rfl⟩
  | token empty | failure empty | ended empty | exhausted empty =>
    refine ⟨rfl, fun l held => ?_⟩
    cases empty.symm.trans held

/-- A parser that stays behind its look, whatever it answers there. -/
theorem keeps_of_stay {α : Type} {f : Option Token → Parser α}
    (stay : ∀ t d, seen c.ahead = some t → finalCursor (f t d) = d) :
    (finalCursor ((Cursor.peek >>= f) c)).taken = c.taken ∧
      ∀ l, c.held = some l → finalCursor ((Cursor.peek >>= f) c) = c := by
  have keeps := keeps_of_look c.look_peek
  cases run : Cursor.peek c with
  | ok t d =>
    rw [run] at keeps
    rwa [Parser.bind_of_ok run, stay t d (seen_of_peek run)]
  | error e d =>
    rw [run] at keeps
    rwa [Parser.bind_of_error run]

theorem keeps_of_onlyLooks (h : k.OnlyLooks c) : (finalCursor (k.run c)).taken = c.taken ∧
    ∀ l, c.held = some l → finalCursor (k.run c) = c := by
  have other {kind : TokenKind} (h : ∀ t, seen c.ahead = some (some t) → t.kind ≠ kind)
      (t : Option Token) (ahead : seen c.ahead = some t) : t.map Token.kind ≠ some kind := by
    rintro same
    obtain ⟨u, rfl, hu⟩ := Option.map_eq_some_iff.1 same
    exact h u ahead hu
  cases k with
  | peek => exact keeps_of_look c.look_peek
  | peekKind => exact keeps_of_stay fun _ _ _ => rfl
  | advance => exact h.elim
  | expect kind =>
    rw [run, expect_eq]
    refine keeps_of_stay fun t d ahead => ?_
    rw [if_neg (other h t ahead)]
    rfl
  | takeIf kind =>
    rw [run, takeIf_eq]
    refine keeps_of_stay fun t d ahead => ?_
    rw [if_neg (other h t ahead)]
    rfl
  | read n => exact h.elim

theorem error_of_peek {α : Type} {f : Option Token → Parser α} {e : ParseError} {P : Prop}
    (run : (Cursor.peek >>= f) c = .error e d)
    (rest : ∀ t c', c'.Holds (some t) → f t c' = .error e d → P) :
    (∃ span, e = .invalidToken span) ∨ P := by
  have look := c.look_peek
  obtain first | ⟨t, c', first, next⟩ := Parser.bind_eq_error.1 run
  · rw [first] at look
    cases look
    exact .inl ⟨_, rfl⟩
  · rw [first] at look
    exact .inr (rest t c' (.of_look look) next)

theorem take_ne_error {t : Token} {e : ParseError} (holds : c.Holds (some (some t))) :
    Cursor.take c ≠ .error e d := by
  obtain ⟨l, held, -⟩ := Option.map_eq_some_iff.1 (holds _ rfl)
  rw [take_eq_release held]
  nofun

/-- An operation of the cursor itself fails at a failure, or where another token was expected. -/
theorem refuses_of_run {e : ParseError} (run : k.run c = .error e d) : (∃ n, k = .read n) ∨
    (∃ span, e = .invalidToken span) ∨
    ∃ kind, k = .expect kind ∧ e = .unexpectedToken kind d.sighting ∧
      ∀ l, d.held = some l → l.token.kind ≠ kind := by
  cases k with
  | peek =>
    rw [Call.run, ← bind_pure Cursor.peek] at run
    exact .inr (error_of_peek run fun _ _ _ rest => nomatch rest)
  | peekKind => exact .inr (error_of_peek run fun _ _ _ rest => nomatch rest)
  | advance =>
    refine .inr (error_of_peek run fun t c' holds rest => ?_)
    cases t with
    | none => cases rest
    | some t =>
      obtain took | ⟨_, _, -, rest⟩ := Parser.bind_eq_error.1 rest
      · exact absurd took (take_ne_error holds)
      · cases rest
  | expect kind =>
    rw [Call.run, expect_eq] at run
    refine .inr (error_of_peek run fun t c' holds rest => ?_)
    split at rest
    · next same =>
      obtain ⟨u, rfl, -⟩ := Option.map_eq_some_iff.1 same
      exact absurd rest (take_ne_error holds)
    · next other =>
      cases rest
      refine ⟨kind, rfl, rfl, fun l held same => other ?_⟩
      rw [← holds t rfl, held, Option.map_some, Option.map_some, same]
  | takeIf kind =>
    rw [Call.run, takeIf_eq] at run
    refine .inr (error_of_peek run fun t c' holds rest => ?_)
    split at rest
    · next same =>
      obtain ⟨u, rfl, -⟩ := Option.map_eq_some_iff.1 same
      obtain took | ⟨_, _, -, rest⟩ := Parser.bind_eq_error.1 rest
      · exact absurd took (take_ne_error holds)
      · cases rest
    · cases rest
  | read n => exact .inl ⟨n, rfl⟩

theorem keeps (k : Call) (c : Cursor) : k.Keeps c where
  way := (k.traces c).way
  invalid := given_of_run k c
  takes _ _ run := by
    obtain ⟨w, used, moves, text⟩ := phrase_of_run run
    exact ⟨w, moves.taken, text⟩
  looks := keeps_of_onlyLooks
  refuses _ _ := refuses_of_run

end Call

/-! ## Sessions -/

namespace Cursor

theorem way_after (c : Cursor) (calls : List Call) : c.Way (c.after calls) := by
  induction calls generalizing c with
  | nil => exact .refl
  | cons k ks ih => exact (k.keeps c).way.trans (ih _)

theorem given_after (c : Cursor) (calls : List Call) :
    ∃ given, (c.after calls).answered = given.reverse ++ c.answered ∧
      givenFailures given = c.invalid calls := by
  induction calls generalizing c with
  | nil => exact ⟨[], rfl, rfl⟩
  | cons k ks ih =>
    obtain ⟨as, answered, failures⟩ := (k.keeps c).invalid
    obtain ⟨bs, answered', failures'⟩ := ih (finalCursor (k.run c))
    refine ⟨as ++ bs, ?_, ?_⟩
    · rw [after, answered', answered, List.reverse_append, List.append_assoc]
    · rw [givenFailures_append, failures, failures', invalid]

/-- Nothing is lost, doubled or moved by any calls on one cursor, which may fail and may be parses
of any nodes. At every point of their way the cursor accounts for what the source has given it. The
failures among these answers are the invalid tokens that were reported, in their order; and whatever
is called next keeps its part of this. A session asks a source for finitely many answers, so it does
not matter whether the source has an end. -/
theorem session_accounts (source : List (Option Item)) (calls : List Call) :
    let c := (ofAnswers source).after calls
    (ofAnswers source).Way c ∧
    (∀ d, (ofAnswers source).Way d → d.Accounts source) ∧
    givenFailures c.answered.reverse = (ofAnswers source).invalid calls ∧
    ∀ k : Call, k.Keeps c := by
  intro c
  refine ⟨way_after _ calls, fun d way => (accounts_ofAnswers source).way way, ?_,
    fun k => k.keeps c⟩
  obtain ⟨given, answered, failures⟩ := given_after (ofAnswers source) calls
  rw [answered, ← failures]
  simp [ofAnswers]

end Cursor

end ProtoSchema
