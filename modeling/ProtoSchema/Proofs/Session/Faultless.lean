import ProtoSchema.Proofs.Session.Account

/-! # No call faults

The parser takes tokens, makes names and counts its steps under conditions that it does not check
again: a token is held, a segment was read, the cursor has moved. They hold in every run, so no call
faults, wherever other calls have left its cursor and whatever the source answers. A source need not
have an end: a call that returns has asked it for finitely many answers, and goes alike on every
front of it that has these. -/

namespace ProtoSchema

open Cursor

theorem finalCursor_resultFacing {α : Type} (as : List (Option Item))
    (r : EStateM.Result ParseError Cursor α) :
    finalCursor (resultFacing as r) = (finalCursor r).facing as := by
  cases r <;> rfl

theorem Call.ne_fault (k : Call) (c d : Cursor) (broken : Fault) :
    k.run c ≠ .error (.fault broken) d := by
  obtain ⟨P, reads⟩ := k.lawful.reads
  exact (reads _).ne_fault c.ready broken

namespace Cursor

/-- Some calls depend on the answers that they were given and on no others. -/
theorem steady_after (c : Cursor) (calls : List Call) : ∃ used, c.Asks used (c.after calls) ∧
    ∀ ys, (c.facing (used ++ ys)).after calls = (c.after calls).facing ys := by
  induction calls generalizing c with
  | nil => exact ⟨[], .refl c, fun _ => rfl⟩
  | cons k ks ih =>
    obtain ⟨used, asks, steady⟩ := k.lawful.steady c
    obtain ⟨used', asks', steady'⟩ := ih (finalCursor (k.run c))
    refine ⟨used ++ used', asks.trans asks', fun ys => ?_⟩
    rw [after, List.append_assoc, steady, finalCursor_resultFacing, steady', after]

/-- The answers that a source gives first. -/
def firstAnswers (source : Nat → Option Item) (m : Nat) : List (Option Item) :=
  (List.range m).map source

theorem length_firstAnswers (source : Nat → Option Item) (m : Nat) :
    (firstAnswers source m).length = m := by
  simp [firstAnswers]

theorem firstAnswers_add (source : Nat → Option Item) (m j : Nat) : firstAnswers source (m + j) =
    firstAnswers source m ++ firstAnswers (fun i => source (m + i)) j := by
  simp [firstAnswers, List.range_add, Function.comp_def]

/-- Wherever any calls have left a cursor, a call ends with a value or with an error that is no
fault, and so does every call behind it. The source may answer anything at any time: tokens of any
kind and text, failures, and ends behind which it goes on. It need not have an end: as long as no
more than a front of it has been asked for, the call ends in the same way on every longer front,
before the same answers. -/
theorem session_faultless (source : Nat → Option Item) (calls : List Call) (k : Call) (m : Nat) :
    let c := (ofAnswers (firstAnswers source m)).after calls
    let r := k.run c
    ((∃ a d, r = .ok a d) ∨ ∃ e d, r = .error e d ∧ ∀ broken, e ≠ .fault broken) ∧
    (∀ (further : List Call) (l : Call) (broken : Fault) (d : Cursor),
      l.run ((finalCursor r).after further) ≠ .error (.fault broken) d) ∧
    ((finalCursor r).answered.length ≤ m → ∀ m' ≥ m,
      k.run ((ofAnswers (firstAnswers source m')).after calls) =
        resultFacing ((firstAnswers source m').drop (finalCursor r).answered.length) r) := by
  intro c r
  refine ⟨?_, fun further l broken d => l.ne_fault _ d broken, fun told m' longer => ?_⟩
  · cases run : r with
    | ok a d => exact .inl ⟨a, d, rfl⟩
    | error e d =>
      refine .inr ⟨e, d, rfl, ?_⟩
      rintro broken rfl
      exact k.ne_fault c d broken run
  · obtain ⟨j, rfl⟩ := Nat.exists_eq_add_of_le longer
    obtain ⟨used, asks, before⟩ := steady_after (ofAnswers (firstAnswers source m)) calls
    obtain ⟨used', asks', here⟩ := k.lawful.steady c
    have all := asks.trans asks'
    have answered : (finalCursor r).answered = (used ++ used').reverse :=
      all.answered.trans (List.append_nil _)
    have length : (finalCursor r).answered.length = (used ++ used').length := by
      rw [answered, List.length_reverse]
    have whole : firstAnswers source m = used ++ used' ++ (finalCursor r).pending :=
      all.pending (by rw [← length]; exact told.trans (length_firstAnswers source m).ge)
    rw [length, firstAnswers_add, whole, List.append_assoc (used ++ used'), List.drop_left,
      List.append_assoc used, ← facing_ofAnswers (firstAnswers source m), before, here]

/-- A package statement of an endless source is read behind a failed start of one, an end that was
not the last and a failure that another call has passed. -/
theorem session_faultless_endless :
    let keyword (start : Nat) : Lexeme := ⟨⟨.keyword .packageKw, "package"⟩, ⟨start, start + 7⟩⟩
    let name : Lexeme := ⟨⟨.identifier, "a"⟩, ⟨18, 19⟩⟩
    let semicolon (start : Nat) : Lexeme := ⟨⟨.semicolon, ";"⟩, ⟨start, start + 1⟩⟩
    let source : Nat → Option Item
      | 0 => some (.token (keyword 0))
      | 1 => none
      | 2 => some (.failure ⟨8, 9⟩)
      | 3 => some (.token (keyword 10))
      | 4 => some (.token name)
      | i + 5 => some (.token (semicolon (19 + i)))
    let calls : List Call := [.read .package, .expect .dot]
    let run (m : Nat) := (Call.read .package).run ((ofAnswers (firstAnswers source m)).after calls)
    (finalCursor (run 6)).answered.length ≤ 6 ∧ ∀ m ≥ 6, ∃ d, run m = .ok ⟨⟨[name.token]⟩⟩ d := by
  intro keyword name semicolon source calls run
  have told : (finalCursor (run 6)).answered.length ≤ 6 := by decide
  refine ⟨told, fun m longer => ?_⟩
  exact ⟨_, (session_faultless source calls (.read .package) 6).2.2 told m longer⟩

end Cursor

end ProtoSchema
