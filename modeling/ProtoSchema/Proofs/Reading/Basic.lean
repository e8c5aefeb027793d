import ProtoSchema.Proofs.Cursor.Ahead
import ProtoSchema.Proofs.Phrase.Basic

/-! # Reading a phrase

A parser reads a phrase if, wherever it succeeds, the tokens it took are a text of the phrase with
the value it answers, and, wherever it fails, the tokens it took can be continued to such a text,
also by every token that the error names. What it does must depend on the answers it has used and on
no others. The property passes from the parts of a parser to the whole. It is bounded by the number
of unused answers, for parsers that repeat or nest. -/

namespace ProtoSchema

namespace ParseError

/-- The tokens that an error names as fitting. -/
def Names (e : ParseError) (t : Token) : Prop :=
  match e with
  | .unexpectedToken expected _ => t.kind = expected
  | .unknownSyntax _ | .invalidSyntaxKind _ _ => t = ⟨.stringLiteral, "\"proto3\""⟩
  | .missingSyntaxSemicolon _ => t.kind = .semicolon
  | .invalidImport _ => t.kind = .stringLiteral
  | .expectedIdentifier _ => t.kind = .identifier
  | .invalidConstant _ =>
    t.kind ∈ [.stringLiteral, .plus, .minus, .decimalLiteral, .floatLiteral, .keyword .trueKw,
      .keyword .falseKw, .identifier]
  | .expectedNumber _ => t.kind = .decimalLiteral ∨ t.kind = .floatLiteral
  | .invalidFieldType _ => t.kind.isScalar ∨ t.kind = .identifier ∨ t.kind = .dot
  | .invalidStatement _ =>
    t.kind ∈ [.keyword .importKw, .keyword .packageKw, .keyword .optionKw, .keyword .messageKw,
      .keyword .enumKw]
  | .invalidToken _ | .oneofFieldWithLabel _ | .duplicatePackage _ _ | .fault _ => False

/-- What can follow the tokens in front of an error: nothing in particular, or a token it names. A
second package is refused behind a complete statement, so nothing is said about what follows it. -/
def Fits (e : ParseError) (v : List Token) : Prop :=
  (∀ first second, e ≠ .duplicatePackage first second) ∧ (v = [] ∨ ∃ t, v = [t] ∧ e.Names t)

/-- How a run stops with an error that was found at a cursor: it passes a failure that comes next,
or stays at the token or the end of the input that the error points at. -/
def StopsAt (e : ParseError) (c c' : Cursor) : Prop :=
  match e with
  | .invalidToken span => c.held = none ∧
      ∃ rest, c.pending = some (.failure span) :: rest ∧ c' = c.missed span rest
  | .duplicatePackage _ _ => c' = c
  | .fault _ => False
  | e => c' = c ∧ e.span = c.sighting.span ∧ (c.held = none → c.answered.head? = some none)

end ParseError

variable {α β : Type}

/-- What a phrase promises for the result of a run that has used some answers. -/
def Phrase.Covers (P : Phrase α) (c : Cursor) (used : List (Option Item)) :
    EStateM.Result ParseError Cursor α → Prop
  | .ok a c' => ∃ w, c.Moves w used c' ∧ P (tokens w) a
  | .error e c' => ∃ w c₁, c.Moves w used c₁ ∧ e.StopsAt c₁ c' ∧
      ∀ v, e.Fits v → P.Viable (tokens w ++ v)

/-- A result at a cursor with other answers still to come. -/
def resultFacing (as : List (Option Item)) :
    EStateM.Result ParseError Cursor α → EStateM.Result ParseError Cursor α
  | .ok a c => .ok a (c.facing as)
  | .error e c => .error e (c.facing as)

/-- That a run goes alike whatever stands behind the answers it has used, unless it meets a failure.
As elsewhere there is a bound on the unused answers. -/
def Steady (n : Nat) (p : Parser α) (c : Cursor) (used : List (Option Item)) : Prop :=
  (∀ span c', p c ≠ .error (.invalidToken span) c') →
    ∀ as, (c.facing (used ++ as)).size < n → p (c.facing (used ++ as)) = resultFacing as (p c)

/-- What a phrase promises for the run of a parser from a cursor. -/
def Phrase.Guides (P : Phrase α) (n : Nat) (p : Parser α) (c : Cursor) : Prop :=
  ∃ used, P.Covers c used (p c) ∧ Steady n p c used

/-- That fewer than a number of answers are unused. If the next token has been looked at, it is also
known which one it is, or that the input is at its end. -/
def Cursor.Ready (n : Nat) (seen : Option (Option Token)) (c : Cursor) : Prop :=
  c.size < n ∧ ∀ t, seen = some t →
    c.held.map Lexeme.token = t ∧ (t = none → c.answered.head? = some none)

/-- A parser reads a phrase from all cursors with fewer than `n` unused answers. -/
structure Reads (n : Nat) (seen : Option (Option Token)) (p : Parser α) (P : Phrase α) : Prop where
  viable : P.Viable []
  run : ∀ c, c.Ready n seen → P.Guides n p c

namespace Phrase.Guides

variable {P Q : Phrase α} {F : Phrase β} {n m : Nat} {p : Parser α} {f : α → Parser β}
  {c c' : Cursor} {w : List Lexeme} {used : List (Option Item)} {a : α}

theorem mono (h : P.Guides n p c) (hle : P ≤ Q) : Q.Guides n p c := by
  obtain ⟨used, covers, steady⟩ := h
  refine ⟨used, ?_, steady⟩
  cases hr : p c with
  | ok a c' =>
    rw [hr] at covers
    obtain ⟨w, hw, hP⟩ := covers
    exact ⟨w, hw, hle _ _ hP⟩
  | error e c' =>
    rw [hr] at covers
    obtain ⟨w, c₁, hw, hs, hv⟩ := covers
    exact ⟨w, c₁, hw, hs, fun v hf => (hv v hf).mono hle⟩

/-- A run that goes on behind a part which has succeeded. -/
theorem behind {Q : Phrase β} (run : p c = .ok a c') (moves : c.Moves w used c')
    (same : ∀ as, (c.facing (used ++ as)).size < n →
      p (c.facing (used ++ as)) = .ok a (c'.facing as) ∧ (c'.facing as).size < m)
    (h : F.Guides m (f a) c') (hle : ∀ ts b, F ts b → Q (tokens w ++ ts) b) :
    Q.Guides n (p >>= f) c := by
  obtain ⟨used', covers, steady⟩ := h
  refine ⟨used ++ used', ?_, fun clean as size => ?_⟩
  · rw [Parser.bind_of_ok run]
    cases hr : f a c' with
    | ok b d =>
      rw [hr] at covers
      obtain ⟨u, hu, hF⟩ := covers
      exact ⟨w ++ u, moves.trans hu, by simpa using hle _ _ hF⟩
    | error e d =>
      rw [hr] at covers
      obtain ⟨u, c₁, hu, hs, hv⟩ := covers
      refine ⟨w ++ u, c₁, moves.trans hu, hs, fun v hf => ?_⟩
      obtain ⟨ts, b, hb⟩ := hv v hf
      exact ⟨ts, b, by simpa using hle _ _ hb⟩
  · rw [List.append_assoc] at size ⊢
    obtain ⟨first, size'⟩ := same _ size
    rw [Parser.bind_of_ok first, Parser.bind_of_ok run]
    rw [Parser.bind_of_ok run] at clean
    exact steady clean as size'

end Phrase.Guides

namespace Reads

open Phrase Cursor

variable {n : Nat} {seen : Option (Option Token)} {p q : Parser α} {f : α → Parser β}
  {P Q : Phrase α} {F : α → Phrase β}

theorem mono (h : Reads n seen p P) (hle : P ≤ Q) : Reads n seen p Q :=
  ⟨h.viable.mono hle, fun c hc => (h.run c hc).mono hle⟩

/-- Only the runs below the bound count. -/
theorem congr (h : Reads n seen p P) (same : ∀ c, c.size < n → q c = p c) : Reads n seen q P where
  viable := h.viable
  run c hc := by
    obtain ⟨used, covers, steady⟩ := h.run c hc
    refine ⟨used, by rwa [same c hc.1], fun clean as size => ?_⟩
    rw [same c hc.1] at clean ⊢
    rw [same _ size, steady clean as size]

theorem below {m : Nat} (h : Reads n seen p P) (hm : m ≤ n) : Reads m seen p P where
  viable := h.viable
  run c hc := by
    obtain ⟨used, covers, steady⟩ := h.run c ⟨Nat.lt_of_lt_of_le hc.1 hm, hc.2⟩
    exact ⟨used, covers, fun clean as less => steady clean as (Nat.lt_of_lt_of_le less hm)⟩

/-- What reads a phrase does not fault. -/
theorem ne_fault (h : Reads n seen p P) {c c' : Cursor} (hc : c.Ready n seen) (broken : Fault) :
    p c ≠ .error (.fault broken) c' := by
  intro run
  obtain ⟨used, covers, -⟩ := h.run c hc
  rw [run] at covers
  obtain ⟨_, _, -, stops, -⟩ := covers
  exact stops

/-- What reads a phrase without having looked does so after a look. -/
theorem looked (h : Reads n none p P) : Reads n seen p P :=
  ⟨h.viable, fun c hc => h.run c ⟨hc.1, nofun⟩⟩

theorem pure (a : α) : Reads n seen (pure a) (pure a) :=
  ⟨⟨[], a, rfl, rfl⟩, fun c _ => ⟨[], ⟨[], .refl c, rfl, rfl⟩, fun _ _ _ => rfl⟩⟩

/-- The rule of sequence, for a second part that may rely on a smaller bound. -/
theorem bind_of_size {m : α → Nat} (hp : Reads n seen p P) (hf : ∀ a, Reads (m a) none (f a) (F a))
    (size : ∀ (c c' : Cursor) w as a,
      c.size < n → c.Moves w as c' → P (tokens w) a → c'.size < m a) :
    Reads n seen (p >>= f) (P >>= F) where
  viable := hp.viable.bind fun a => (hf a).viable
  run c hc := by
    obtain ⟨used, covers, steady⟩ := hp.run c hc
    cases hr : p c with
    | ok a c' =>
      rw [hr] at covers
      obtain ⟨w, hw, hP⟩ := covers
      refine .behind hr hw (fun as less => ?_)
        ((hf a).run c' ⟨size c c' w used a hc.1 hw hP, nofun⟩)
        fun ts b hb => ⟨_, _, _, hP, hb, rfl⟩
      have other := steady (by simp [hr]) as less
      rw [hr] at other
      obtain ⟨used', covers', -⟩ := hp.run (c.facing (used ++ as)) ⟨less, hc.2⟩
      rw [other] at covers'
      obtain ⟨w', hw', hP'⟩ := covers'
      exact ⟨other, size _ _ w' used' a less hw' hP'⟩
    | error e c' =>
      rw [hr] at covers
      obtain ⟨w, c₁, hw, hs, hv⟩ := covers
      refine ⟨used, ?_, fun clean as less => ?_⟩
      · rw [Parser.bind_of_error hr]
        exact ⟨w, c₁, hw, hs, fun v hv' => (hv v hv').bind fun a => (hf a).viable⟩
      · rw [Parser.bind_of_error hr] at clean ⊢
        have other := steady (fun span d he => by
          rw [hr] at he
          cases he
          exact clean _ _ rfl) as less
        rw [hr] at other
        exact Parser.bind_of_error other

/-- A text that is not empty leaves fewer answers unused. -/
theorem size_lt (hP : P.Advances) {c c' : Cursor} {w : List Lexeme} {as : List (Option Item)}
    {a : α} (h : c.Moves w as c') (ha : P (tokens w) a) : c'.size < c.size := by
  have : w ≠ [] := by
    rintro rfl
    exact hP a ha
  have := List.length_pos_iff.2 this
  have := h.size
  omega

theorem bind (hp : Reads n seen p P) (hf : ∀ a, Reads n none (f a) (F a)) :
    Reads n seen (p >>= f) (P >>= F) :=
  hp.bind_of_size hf fun c c' w as a hc hw _ => by
    have := hw.size
    omega

/-- Behind a part that takes tokens, fewer answers are unused. -/
theorem bind_of_advances (hP : P.Advances) (hp : Reads (n + 1) seen p P)
    (hf : ∀ a, Reads n none (f a) (F a)) : Reads (n + 1) seen (p >>= f) (P >>= F) :=
  hp.bind_of_size hf fun c c' w as a hc hw h => by
    have := size_lt hP hw h
    omega

theorem map {g : α → β} (hp : Reads n seen p P) :
    Reads n seen (p >>= fun a => Pure.pure (g a)) (g <$> P) :=
  hp.bind fun _ => .pure _

end Reads

end ProtoSchema
