import ProtoSchema.Proofs.Cursor.Look

/-! # What is ahead of a cursor

The answers a cursor has not used, with the token it holds in front. The end of the input counts as
an answer too: behind the last pending one it is reported without end, so a cursor moves over
answers that were pending and, past them, over such reports. -/

namespace ProtoSchema

def tokens (w : List Lexeme) : List Token := w.map Lexeme.token

@[simp] theorem tokens_nil : tokens [] = [] := rfl

@[simp] theorem tokens_cons (l : Lexeme) (w : List Lexeme) :
    tokens (l :: w) = l.token :: tokens w := rfl

@[simp] theorem tokens_append (v w : List Lexeme) : tokens (v ++ w) = tokens v ++ tokens w :=
  List.map_append

theorem tokens_eq_append {w : List Lexeme} {us vs : List Token} (h : tokens w = us ++ vs) :
    ∃ v u, w = v ++ u ∧ tokens v = us ∧ tokens u = vs := List.map_eq_append_iff.1 h

/-- The answers that give some lexemes. -/
def answers (w : List Lexeme) : List (Option Item) := w.map fun l => some (.token l)

@[simp] theorem answers_nil : answers [] = [] := rfl

@[simp] theorem answers_cons (l : Lexeme) (w : List Lexeme) :
    answers (l :: w) = some (.token l) :: answers w := rfl

@[simp] theorem answers_append (v w : List Lexeme) : answers (v ++ w) = answers v ++ answers w :=
  List.map_append

@[simp] theorem length_answers (w : List Lexeme) : (answers w).length = w.length :=
  List.length_map _

/-- The token in front of some answers, or nothing at their end. No token is seen at a failure. -/
def seen : List (Option Item) → Option (Option Token)
  | some (.token l) :: _ => some (some l.token)
  | some (.failure _) :: _ => none
  | none :: _ | [] => some none

/-- What a look leaves of some answers: a token stays, the report of an end is used up. -/
def looked : List (Option Item) → List (Option Item)
  | none :: as => as
  | as => as

namespace Cursor

def ahead (c : Cursor) : List (Option Item) := answers c.held.toList ++ c.pending

theorem size_eq_length_ahead (c : Cursor) : c.size = c.ahead.length := by
  simp [size, ahead, Nat.add_comm]

@[simp] theorem ahead_ofAnswers (as : List (Option Item)) : (ofAnswers as).ahead = as := rfl

theorem peek_ahead {c : Cursor} {t} (h : seen c.ahead = some t) :
    ∃ c', peek c = .ok t c' ∧ c'.held.map Lexeme.token = t ∧ c'.taken = c.taken ∧
      c'.ahead = looked c.ahead := by
  have look := c.look_peek
  generalize peek c = r at look
  cases look with
  | held hl =>
    simp only [ahead, hl, Option.toList, answers_cons, answers_nil] at h
    cases h
    exact ⟨c, rfl, by rw [hl]; rfl, rfl, by simp [ahead, hl, looked]⟩
  | token hl hp =>
    simp only [ahead, hl, hp, Option.toList, answers_nil] at h
    cases h
    exact ⟨_, rfl, rfl, rfl, by simp [ahead, hold, hl, hp, looked]⟩
  | failure hl hp =>
    simp only [ahead, hl, hp, Option.toList, answers_nil] at h
    cases h
  | ended hl hp =>
    simp only [ahead, hl, hp, Option.toList, answers_nil] at h
    cases h
    exact ⟨_, rfl, by simp [ended, hl], rfl, by simp [ahead, ended, hl, hp, looked]⟩
  | exhausted hl hp =>
    simp only [ahead, hl, hp, Option.toList, answers_nil] at h
    cases h
    exact ⟨_, rfl, by simp [ended, hl], rfl, by simp [ahead, ended, hl, hp, looked]⟩

/-- A look answers what is seen ahead. -/
theorem seen_of_peek {c c' : Cursor} {t} (h : peek c = .ok t c') : seen c.ahead = some t := by
  have look := c.look_peek
  rw [h] at look
  cases look with
  | held hl => simp [ahead, hl, seen]
  | token hl hp => simp [ahead, hl, hp, seen]
  | ended hl hp => simp [ahead, hl, hp, seen]
  | exhausted hl hp => simp [ahead, hl, hp, seen]

theorem taken_of_peek {c c' : Cursor} {t} (h : peek c = .ok t c') : c'.taken = c.taken := by
  have look := c.look_peek
  rw [h] at look
  cases look <;> rfl

/-- The cursor with other answers still to come. -/
def facing (c : Cursor) (as : List (Option Item)) : Cursor := { c with pending := as }

theorem facing_ofAnswers (xs as : List (Option Item)) :
    (ofAnswers xs).facing as = ofAnswers as := rfl

theorem facing_ofItems (items : List Item) (as : List (Option Item)) :
    (ofItems items).facing as = ofAnswers as := rfl

/-! ## Moving -/

/-- That a cursor has taken some lexemes and used some answers. Every lexeme that was taken had been
held or came with the answers; none of these was a failure, and a token that is now held was the
last of them. -/
structure Moves (c : Cursor) (w : List Lexeme) (used : List (Option Item)) (c' : Cursor) :
    Prop where
  taken : c'.taken = w.reverse ++ c.taken
  answered : c'.answered = used.reverse ++ c.answered
  size : c'.size + w.length ≤ c.size
  supply : ∃ k, c.pending ++ List.replicate k none = used ++ c'.pending
  passed : ∃ as, answers c.held.toList ++ used = as ++ answers c'.held.toList ∧
    as.filter Option.isSome = answers w

namespace Moves

variable {c c₁ c₂ : Cursor} {v w : List Lexeme} {as bs r : List (Option Item)}

theorem refl (c : Cursor) : c.Moves [] [] c where
  taken := rfl
  answered := rfl
  size := Nat.le_refl _
  supply := ⟨0, by simp⟩
  passed := ⟨[], by simp, rfl⟩

theorem trans (h : c.Moves v as c₁) (h' : c₁.Moves w bs c₂) : c.Moves (v ++ w) (as ++ bs) c₂ where
  taken := by simp [h'.taken, h.taken]
  answered := by simp [h'.answered, h.answered]
  size := by
    have := h.size
    have := h'.size
    simp only [List.length_append]
    omega
  supply := by
    obtain ⟨k, hk⟩ := h.supply
    obtain ⟨m, hm⟩ := h'.supply
    refine ⟨k + m, ?_⟩
    rw [← List.replicate_append_replicate, ← List.append_assoc, hk, List.append_assoc, hm,
      List.append_assoc]
  passed := by
    obtain ⟨xs, hx, fx⟩ := h.passed
    obtain ⟨ys, hy, fy⟩ := h'.passed
    refine ⟨xs ++ ys, ?_, by simp [fx, fy]⟩
    rw [← List.append_assoc, hx, List.append_assoc, hy, List.append_assoc]

/-- What was ahead of a cursor is what it has passed, and then what is ahead of it now. -/
theorem ahead (h : c.Moves w as c₁) : ∃ k xs, xs.filter Option.isSome = answers w ∧
    c.ahead ++ List.replicate k none = xs ++ c₁.ahead := by
  obtain ⟨k, hk⟩ := h.supply
  obtain ⟨xs, hx, fx⟩ := h.passed
  refine ⟨k, xs, fx, ?_⟩
  simp only [Cursor.ahead]
  rw [List.append_assoc, hk, ← List.append_assoc, hx, List.append_assoc]

theorem of_look {t} (h : c.Look (.ok t c₁)) : ∃ used, c.Moves [] used c₁ ∧
    ∀ as, peek (c.facing (used ++ as)) = .ok t (c₁.facing as) := by
  obtain ⟨pending, held, stop, answered, taken, closed⟩ := c
  cases h with
  | held hl =>
    cases hl
    exact ⟨[], refl _, fun as => rfl⟩
  | @token l rest hl hp =>
    cases hl
    cases hp
    exact ⟨[some (.token l)], ⟨rfl, rfl, Nat.le_refl _, ⟨0, List.append_nil _⟩, [], rfl, rfl⟩,
      fun as => rfl⟩
  | ended hl hp =>
    cases hl
    cases hp
    exact ⟨[none], ⟨rfl, rfl, Nat.le_succ _, ⟨0, List.append_nil _⟩, [none], rfl, rfl⟩,
      fun as => rfl⟩
  | exhausted hl hp =>
    cases hl
    cases hp
    exact ⟨[none], ⟨rfl, rfl, Nat.le_refl _, ⟨1, rfl⟩, [none], rfl, rfl⟩, fun as => rfl⟩

theorem release {l : Lexeme} (h : c.held = some l) : c.Moves [l] [] (c.release l) where
  taken := rfl
  answered := rfl
  size := by simp [Cursor.release, Cursor.size, h]
  supply := ⟨0, by simp [Cursor.release]⟩
  passed := ⟨[some (.token l)], by simp [Cursor.release, h], rfl⟩

end Moves

theorem size_le_of_peekKind {c d : Cursor} {k : Option TokenKind} (run : peekKind c = .ok k d) :
    d.size ≤ c.size := by
  obtain ⟨t, c', first, rest⟩ := Parser.bind_eq_ok.1 run
  cases rest
  have look := c.look_peek
  rw [first] at look
  obtain ⟨used, moves, -⟩ := Moves.of_look look
  exact moves.size

end Cursor

end ProtoSchema
