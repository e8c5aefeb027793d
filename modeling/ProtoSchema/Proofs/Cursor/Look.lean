import ProtoSchema.Parser.Repetition

/-! # Looking at the next token

The ways in which a look ends, each with the cursor it leaves. All other facts about a cursor's
single operations are read off from these. -/

namespace ProtoSchema

variable {α β : Type}

namespace Parser

theorem bind_of_ok {p : Parser α} {f : α → Parser β} {c d a} (h : p c = .ok a d) :
    (p >>= f) c = f a d := by
  simp only [bind, EStateM.bind, h]

theorem bind_of_error {p : Parser α} {f : α → Parser β} {c d e} (h : p c = .error e d) :
    (p >>= f) c = .error e d := by
  simp only [bind, EStateM.bind, h]

theorem bind_eq_ok {p : Parser α} {f : α → Parser β} {c d b} :
    (p >>= f) c = .ok b d ↔ ∃ a c', p c = .ok a c' ∧ f a c' = .ok b d := by
  constructor
  · intro h
    cases hp : p c with
    | ok a c' => exact ⟨a, c', rfl, by rwa [bind_of_ok hp] at h⟩
    | error e c' => simp [bind_of_error hp] at h
  · rintro ⟨a, c', hp, hf⟩
    rwa [bind_of_ok hp]

theorem bind_eq_error {p : Parser α} {f : α → Parser β} {c d e} :
    (p >>= f) c = .error e d ↔ p c = .error e d ∨ ∃ a c', p c = .ok a c' ∧ f a c' = .error e d := by
  constructor
  · intro h
    cases hp : p c with
    | ok a c' => exact .inr ⟨a, c', rfl, (bind_of_ok hp).symm.trans h⟩
    | error e' c' =>
      rw [bind_of_error hp] at h
      cases h
      exact .inl rfl
  · rintro (h | ⟨a, c', hp, hf⟩)
    · exact bind_of_error h
    · rwa [bind_of_ok hp]

end Parser

namespace Cursor

/-- A cursor that holds a token it has just been given. -/
def hold (c : Cursor) (l : Lexeme) (rest : List (Option Item)) : Cursor :=
  { c with pending := rest, held := some l, stop := l.span.stop,
           answered := some (.token l) :: c.answered }

/-- A cursor that has just been given a failure. -/
def missed (c : Cursor) (span : Span) (rest : List (Option Item)) : Cursor :=
  { c with pending := rest, stop := span.stop, answered := some (.failure span) :: c.answered }

/-- A cursor that has just been told that the input is at its end. -/
def ended (c : Cursor) (rest : List (Option Item)) : Cursor :=
  { c with pending := rest, answered := none :: c.answered }

/-- How a look at the next token ends. -/
inductive Look (c : Cursor) : EStateM.Result ParseError Cursor (Option Token) → Prop
  | held {l} (h : c.held = some l) : Look c (.ok (some l.token) c)
  | token {l rest} (h : c.held = none) (hp : c.pending = some (.token l) :: rest) :
    Look c (.ok (some l.token) (c.hold l rest))
  | failure {span rest} (h : c.held = none) (hp : c.pending = some (.failure span) :: rest) :
    Look c (.error (.invalidToken span) (c.missed span rest))
  | ended {rest} (h : c.held = none) (hp : c.pending = none :: rest) :
    Look c (.ok none (c.ended rest))
  | exhausted (h : c.held = none) (hp : c.pending = []) : Look c (.ok none (c.ended []))

theorem look_peek (c : Cursor) : c.Look (peek c) := by
  rcases c with ⟨pending, _ | l, stop, answered, taken, closed⟩
  · rcases pending with _ | ⟨_ | ⟨l | span⟩, rest⟩
    · exact .exhausted rfl rfl
    · exact .ended rfl rfl
    · exact .token rfl rfl
    · exact .failure rfl rfl
  · exact .held rfl

/-- A token that is held is seen again, and the source is not asked. -/
theorem peek_of_held {c : Cursor} {l : Lexeme} (h : c.held = some l) :
    peek c = .ok (some l.token) c := by
  have look := c.look_peek
  generalize peek c = r at look
  cases look with
  | held hl =>
    cases hl.symm.trans h
    rfl
  | token empty | failure empty | ended empty | exhausted empty => cases empty.symm.trans h

theorem peekKind_bind (f : Option TokenKind → Parser α) :
    (peekKind >>= f) = (peek >>= fun t => f (t.map Token.kind)) := by
  funext c
  simp only [peekKind, bind, EStateM.bind]
  cases peek c <;> rfl

/-- The cursor behind the token it holds. -/
def release (c : Cursor) (l : Lexeme) : Cursor := { c with held := none, taken := l :: c.taken }

theorem take_eq_release {c : Cursor} {l} (h : c.held = some l) :
    take c = .ok l.token (c.release l) := take_of_held h

theorem expect_eq (k : TokenKind) :
    expect k = peek >>= fun t =>
      if t.map Token.kind = some k then take else fail (.unexpectedToken k) := peekKind_bind _

theorem held_of_expect {c d : Cursor} {k : TokenKind} {t : Token} (run : expect k c = .ok t d) :
    d.held = none := by
  rw [expect_eq] at run
  obtain ⟨o, c', -, run⟩ := Parser.bind_eq_ok.1 run
  split at run
  · unfold take at run
    split at run <;> cases run
    rfl
  · cases run

theorem takeIf_eq (k : TokenKind) :
    takeIf k = peek >>= fun t =>
      if t.map Token.kind = some k then take >>= fun t => pure (some t) else pure none :=
  peekKind_bind _

/-- That a cursor which has looked ahead holds what it has seen. -/
def Holds (c : Cursor) (seen : Option (Option Token)) : Prop :=
  ∀ t, seen = some t → c.held.map Lexeme.token = t

theorem holds_none (c : Cursor) : c.Holds none := nofun

theorem Holds.of_look {t : Option Token} {c c' : Cursor} (h : c.Look (.ok t c')) :
    c'.Holds (some t) := by
  rintro _ ⟨⟩
  cases h with
  | held hl => simp [hl]
  | token hl hp => rfl
  | ended hl hp => simp [ended, hl]
  | exhausted hl hp => simp [ended, hl]

end Cursor

end ProtoSchema
