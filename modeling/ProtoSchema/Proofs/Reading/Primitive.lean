import ProtoSchema.Proofs.Reading.Basic

/-! # Reading single tokens

A look at the next token takes nothing; it fails only where the source does. A token that was looked
at can be taken, and an error about what was seen is right if the phrase can start with nothing but
what the error names. -/

namespace ProtoSchema.Reads
open Phrase Cursor

variable {α β : Type} {n : Nat} {seen : Option (Option Token)} {P : Phrase α}

theorem ready_of_look {c c' : Cursor} {t} (h : c.Look (.ok t c')) (hc : c.Ready n none) :
    c'.Ready n (some t) := by
  obtain ⟨used, moves, -⟩ := Moves.of_look h
  refine ⟨Nat.lt_of_le_of_lt moves.size hc.1, ?_⟩
  rintro _ ⟨⟩
  cases h with
  | held hl => exact ⟨by simp [hl], nofun⟩
  | token hl hp => exact ⟨rfl, nofun⟩
  | ended hl hp => exact ⟨by simp [ended, hl], fun _ => rfl⟩
  | exhausted hl hp => exact ⟨by simp [ended, hl], fun _ => rfl⟩

/-- A look ahead: the rest of the parser may go on from what was seen. -/
theorem peek {f : Option Token → Parser α} (h : ∀ t, Reads n (some t) (f t) P) :
    Reads n none (peek >>= f) P where
  viable := (h none).viable
  run c hc := by
    have look := c.look_peek
    cases run : Cursor.peek c with
    | ok t c' =>
      rw [run] at look
      obtain ⟨used, moves, same⟩ := Moves.of_look look
      refine .behind run moves (fun as less => ⟨same as, ?_⟩)
        ((h t).run c' (ready_of_look look hc)) fun ts a ha => ha
      have other := (c.facing (used ++ as)).look_peek
      rw [same as] at other
      obtain ⟨used', moves', -⟩ := Moves.of_look other
      exact Nat.lt_of_le_of_lt moves'.size less
    | error e c' =>
      rw [run] at look
      refine ⟨[], ?_, fun clean => ?_⟩
      · rw [Parser.bind_of_error run]
        cases look with
        | failure hl hp =>
          refine ⟨[], c, .refl c, ⟨hl, _, hp, rfl⟩, ?_⟩
          rintro v ⟨-, rfl | ⟨t, -, ht⟩⟩
          · exact (h none).viable
          · exact ht.elim
      · rw [Parser.bind_of_error run] at clean
        cases look
        exact absurd rfl (clean _ _)

theorem look {f : Option TokenKind → Parser α}
    (h : ∀ t, Reads n (some t) (f (t.map Token.kind)) P) :
    Reads n none (peekKind >>= f) P := by
  rw [peekKind_bind]
  exact peek h

theorem take {t : Token} : Reads n (some (some t)) take (one (· = t)) where
  viable := ⟨[t], t, rfl, rfl⟩
  run c hc := by
    obtain ⟨l, hl, rfl⟩ := Option.map_eq_some_iff.1 (hc.2 _ rfl).1
    refine ⟨[], ?_, fun _ as _ => ?_⟩
    · rw [take_eq_release hl]
      exact ⟨[l], .release hl, rfl, rfl⟩
    · rw [take_eq_release hl]
      exact take_eq_release (c := c.facing as) hl

theorem take_kind {t : Option Token} {k : TokenKind} (h : t.map Token.kind = some k) :
    Reads n (some t) Cursor.take (kind k) := by
  obtain ⟨t, rfl, rfl⟩ := Option.map_eq_some_iff.1 h
  exact take.mono fun ts a ⟨hts, ha⟩ => ⟨hts, ha ▸ rfl⟩

theorem fail {t : Option Token} {e : Sighting → ParseError} (viable : P.Viable [])
    (named : ∀ s t, (e s).Names t → P.Viable [t])
    (stops : ∀ c, (c.held = none → c.answered.head? = some none) → (e c.sighting).StopsAt c c) :
    Reads n (some t) (fail e) P where
  viable := viable
  run c hc := by
    refine ⟨[], ⟨[], c, .refl c, stops c fun hn => ?_, ?_⟩, fun _ as _ => rfl⟩
    · obtain ⟨ht, he⟩ := hc.2 t rfl
      exact he (by simpa [hn] using ht.symm)
    · rintro v ⟨-, rfl | ⟨t, rfl, ht⟩⟩
      · exact viable
      · exact named _ _ ht

theorem expect (k : TokenKind) : Reads n none (expect k) (kind k) := by
  rw [expect_eq]
  apply Reads.peek
  intro t
  split
  · next h => exact take_kind h
  · exact fail (viable_kind k) (fun s t ht => ⟨[], t, rfl, ht⟩) fun c h => ⟨rfl, rfl, h⟩

theorem takeIf (k : TokenKind) : Reads n none (takeIf k) (optional (kind k)) := by
  rw [takeIf_eq]
  apply Reads.peek
  intro t
  split
  · next h => exact (take_kind h).map.mono le_sup_left
  · exact (pure none).mono le_sup_right

/-- What is read behind a token that need not be there, and what is read without it. -/
theorem takeIf_bind {k : TokenKind} {f : Option Token → Parser α} {Q : Phrase α}
    (hsome : ∀ t, Reads n none (f (some t)) P) (hnone : Reads n none (f none) Q) :
    Reads n none (Cursor.takeIf k >>= f) ((kind k >>= fun _ => P) ⊔ Q) := by
  have h : Reads n none (Cursor.takeIf k >>= f)
      (optional (kind k) >>= fun o => o.elim Q fun _ => P) := by
    apply (takeIf k).bind
    intro o
    cases o with
    | none => exact hnone
    | some t => exact hsome t
  rw [optional_bind] at h
  exact h

end ProtoSchema.Reads
