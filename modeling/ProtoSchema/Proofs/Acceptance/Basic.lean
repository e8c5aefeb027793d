import ProtoSchema.Proofs.Cursor.Ahead

/-! # Accepting a phrase

A parser accepts a phrase if it takes every text of it, exactly, and answers the value the text
stands for. What may follow the text depends on the phrase. Behind a last token that is fixed
anything may stand, be it a failure of the source. A parser that looks further can only be promised
to stop if what it sees there does not belong to it. -/

namespace ProtoSchema

variable {α β : Type}

/-- From wherever the lexemes `w` are next, with the answers `r` behind them, a parser takes `w`,
answers `a` and leaves `r'`. -/
def Runs (p : Parser α) (w : List Lexeme) (a : α) (r r' : List (Option Item)) : Prop :=
  ∀ c : Cursor, c.ahead = answers w ++ r →
    ∃ c', p c = .ok a c' ∧ c'.taken = w.reverse ++ c.taken ∧ c'.ahead = r'

namespace Runs

open Cursor

variable {p : Parser α} {f : α → Parser β} {a : α} {b : β} {v w : List Lexeme}
  {r r' : List (Option Item)}

theorem pure (a : α) : Runs (pure a) [] a r r := fun c hc => ⟨c, rfl, rfl, hc⟩

theorem bind (hp : Runs p v a (answers w ++ r) (answers w ++ r)) (hf : Runs (f a) w b r r') :
    Runs (p >>= f) (v ++ w) b r r' := by
  intro c hc
  obtain ⟨c₁, run, taken, left⟩ := hp c (by simpa using hc)
  obtain ⟨c₂, run', taken', left'⟩ := hf c₁ left
  rw [Parser.bind_of_ok run]
  exact ⟨c₂, run', by simp [taken', taken], left'⟩

theorem bind_pure (hp : Runs p w a r r') (hf : f a = Pure.pure b) : Runs (p >>= f) w b r r' := by
  intro c hc
  obtain ⟨c', run, taken, left⟩ := hp c hc
  rw [Parser.bind_of_ok run, hf]
  exact ⟨c', rfl, taken, left⟩

/-- A look that stops a parser takes nothing. -/
theorem peek_stop {f : Option Token → Parser α} {t} (h : seen r = some t) (hf : f t = Pure.pure a) :
    Runs (peek >>= f) [] a r (looked r) := by
  intro c hc
  rw [answers_nil, List.nil_append] at hc
  obtain ⟨c', run, -, taken, left⟩ := peek_ahead (hc ▸ h)
  rw [Parser.bind_of_ok run, hf]
  exact ⟨c', rfl, taken, hc ▸ left⟩

/-- A parser that goes on from a token it has seen without taking it. -/
theorem peek {l : Lexeme} {f : Option Token → Parser α}
    (h : Runs (f (some l.token)) (l :: w) a r r') :
    Runs (peek >>= f) (l :: w) a r r' := by
  intro c hc
  obtain ⟨c₁, run, -, taken, left⟩ := peek_ahead (c := c) (by rw [hc]; rfl)
  obtain ⟨c₂, run', taken', left'⟩ := h c₁ (by rw [left, hc]; rfl)
  rw [Parser.bind_of_ok run]
  exact ⟨c₂, run', by rw [taken', taken], left'⟩

theorem peek_take {l : Lexeme} {f : Option Token → Parser α} {g : Token → Parser α}
    (hf : f (some l.token) = take >>= g) (h : Runs (g l.token) w a r r') :
    Runs (Cursor.peek >>= f) (l :: w) a r r' := by
  intro c hc
  obtain ⟨c₁, run, held, taken, left⟩ := peek_ahead (c := c) (by rw [hc]; rfl)
  rw [hc] at left
  obtain ⟨l', hl, -⟩ := Option.map_eq_some_iff.1 held
  obtain ⟨rfl, pending⟩ : l' = l ∧ c₁.pending = answers w ++ r := by
    simpa [ahead, hl, looked] using left
  obtain ⟨c₂, run', taken', left'⟩ := h (c₁.release l') (by simp [ahead, release, pending])
  rw [Parser.bind_of_ok run, hf, Parser.bind_of_ok (take_eq_release hl)]
  exact ⟨c₂, run', by simp [taken', release, taken], left'⟩

end Runs

end ProtoSchema
