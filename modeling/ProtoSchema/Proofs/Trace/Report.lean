import ProtoSchema.Proofs.Cursor.Look
import ProtoSchema.Proofs.Cursor.Ahead
import ProtoSchema.Proofs.Trace.Braces

/-! # Reports on runs

A run takes tokens and records blocks. What is reported about it relates these to the value that it
answers; where it fails, the blocks are those that the tokens close. Reports are put together like
parsers: each rule says what can be reported about a whole from what is reported about its parts. -/

namespace ProtoSchema

variable {α β : Type}

namespace Cursor

/-- That on its way to another one, a cursor has taken some lexemes and recorded some blocks. -/
structure Goes (c : Cursor) (w : List Lexeme) (es : List Block) (d : Cursor) : Prop where
  taken : d.taken = w.reverse ++ c.taken
  closed : d.closed = es.reverse ++ c.closed

namespace Goes

variable {c c₁ c₂ : Cursor} {v w : List Lexeme} {es fs : List Block}

theorem refl (c : Cursor) : c.Goes [] [] c := ⟨rfl, rfl⟩

theorem trans (h : c.Goes v es c₁) (h' : c₁.Goes w fs c₂) : c.Goes (v ++ w) (es ++ fs) c₂ where
  taken := by simp [h'.taken, h.taken]
  closed := by simp [h'.closed, h.closed]

theorem of_look {t : Option Token} {c c' : Cursor} (h : c.Look (.ok t c')) : c.Goes [] [] c' := by
  cases h <;> exact ⟨rfl, rfl⟩

end Goes

end Cursor

/-- What can be reported about a value, the tokens that were taken for it and the blocks that were
closed meanwhile. -/
abbrev Report (α : Type) := α → List Token → List Block → Prop

/-- That all runs of a parser have a report. -/
structure Reports (seen : Option (Option Token)) (p : Parser α) (R : Report α) : Prop where
  ok : ∀ c a d, c.Holds seen → p c = .ok a d → ∃ w es, c.Goes w es d ∧ R a (tokens w) es
  error : ∀ c e d, c.Holds seen → p c = .error e d → ∃ w es, c.Goes w es d ∧ Logged (tokens w) es

/-- The report that a single token was taken and is the value. -/
def One (k : TokenKind) : Report Token := fun t ts es => ts = [t] ∧ t.kind = k ∧ es = []

/-- The report that no braces were taken, and how many semicolons were. -/
def Still (n : Nat) : Report α := fun _ ts es =>
  es = [] ∧ (∀ t ∈ ts, t.kind ≠ .leftBrace ∧ t.kind ≠ .rightBrace) ∧ countKind .semicolon ts = n

theorem Logged.nil : Logged [] [] := .of_braceless (List.forall_mem_nil _)

namespace Still

variable {n m : Nat} {a : α} {b : β} {ts us : List Token} {es fs : List Block}

theorem logged (h : Still n a ts es) : Logged ts es := by
  obtain ⟨rfl, braceless, -⟩ := h
  exact .of_braceless fun t ht => (braceless t ht).2

theorem balanced (h : Still n a ts es) : Balanced ts := .of_braceless h.2.1

theorem nil (a : α) : Still 0 a [] [] := ⟨rfl, List.forall_mem_nil _, rfl⟩

theorem append (h : Still n a ts es) (h' : Still m b us fs) (c : γ) :
    Still (n + m) c (ts ++ us) (es ++ fs) := by
  obtain ⟨rfl, left, count⟩ := h
  obtain ⟨rfl, right, count'⟩ := h'
  exact ⟨rfl, List.forall_mem_append.2 ⟨left, right⟩, by rw [countKind_append, count, count']⟩

end Still

namespace Reports
open Cursor

variable {seen : Option (Option Token)} {p : Parser α} {f : α → Parser β} {R : Report α}
  {S T : Report β}

theorem mono {R' : Report α} (h : Reports seen p R) (weaker : ∀ a ts es, R a ts es → R' a ts es) :
    Reports seen p R' where
  ok c a d hc run := by
    obtain ⟨w, es, goes, report⟩ := h.ok c a d hc run
    exact ⟨w, es, goes, weaker _ _ _ report⟩
  error := h.error

theorem get {f : Cursor → Parser α} (h : ∀ c, Reports none (f c) R) :
    Reports none (get >>= f) R where
  ok c := (h c).ok c
  error c := (h c).error c

theorem looked (h : Reports none p R) : Reports seen p R where
  ok c a d _ run := h.ok c a d c.holds_none run
  error c e d _ run := h.error c e d c.holds_none run

theorem pure {a : α} (h : R a [] []) : Reports seen (pure a) R where
  ok := by
    rintro c a d - ⟨⟩
    exact ⟨[], [], .refl c, h⟩
  error := by
    rintro c e d - ⟨⟩

theorem throw (e : ParseError) : Reports seen (throw e : Parser α) R where
  ok := by
    rintro c a d - ⟨⟩
  error := by
    rintro c e d - ⟨⟩
    exact ⟨[], [], .refl c, .nil⟩

theorem fail (e : Sighting → ParseError) : Reports seen (fail e : Parser α) R where
  ok := by
    rintro c a d - ⟨⟩
  error := by
    rintro c e d - ⟨⟩
    exact ⟨[], [], .refl c, .nil⟩

/-- A part and what follows it. Unless the second part cannot fail, the first one must have its
log. -/
theorem bind {F : α → Report β} (hp : Reports seen p R) (hf : ∀ a, Reports none (f a) (F a))
    (logged : ∀ a ts es, R a ts es → Logged ts es ∨ ∀ c e d, f a c ≠ .error e d)
    (whole : ∀ a b ts us es fs, R a ts es → F a b us fs → T b (ts ++ us) (es ++ fs)) :
    Reports seen (p >>= f) T where
  ok c b d hc run := by
    obtain ⟨a, c₁, first, second⟩ := Parser.bind_eq_ok.1 run
    obtain ⟨v, es, goes, report⟩ := hp.ok c a c₁ hc first
    obtain ⟨w, fs, goes', report'⟩ := (hf a).ok c₁ b d c₁.holds_none second
    exact ⟨v ++ w, es ++ fs, goes.trans goes', by simpa using whole _ _ _ _ _ _ report report'⟩
  error c e d hc run := by
    cases first : p c with
    | error e' c₁ =>
      rw [Parser.bind_of_error first] at run
      cases run
      exact hp.error c e d hc first
    | ok a c₁ =>
      rw [Parser.bind_of_ok first] at run
      obtain ⟨v, es, goes, report⟩ := hp.ok c a c₁ hc first
      obtain ⟨w, fs, goes', report'⟩ := (hf a).error c₁ e d c₁.holds_none run
      have log := (logged a _ _ report).resolve_right fun sure => sure _ _ _ run
      exact ⟨v ++ w, es ++ fs, goes.trans goes', by simpa using log.append report'⟩

theorem map {g : α → β} (hp : Reports seen p R) (h : ∀ a ts es, R a ts es → T (g a) ts es) :
    Reports seen (p >>= fun a => Pure.pure (g a)) T := by
  refine hp.bind (F := fun a b ts es => b = g a ∧ ts = [] ∧ es = []) (fun a => pure ⟨rfl, rfl, rfl⟩)
    (fun a ts es _ => .inr fun c e d failed => by cases failed) ?_
  rintro a b ts us es fs report ⟨rfl, rfl, rfl⟩
  simpa using h a ts es report

theorem peek {f : Option Token → Parser α} (h : ∀ t, Reports (some t) (f t) R) :
    Reports none (peek >>= f) R where
  ok c a d _ run := by
    obtain ⟨t, c₁, first, second⟩ := Parser.bind_eq_ok.1 run
    have look := c.look_peek
    rw [first] at look
    obtain ⟨w, es, goes, report⟩ := (h t).ok c₁ a d (.of_look look) second
    exact ⟨w, es, (Goes.of_look look).trans goes, report⟩
  error c e d _ run := by
    have look := c.look_peek
    cases first : Cursor.peek c with
    | error e' c₁ =>
      rw [Parser.bind_of_error first] at run
      rw [first] at look
      cases run
      cases look
      exact ⟨[], [], ⟨rfl, rfl⟩, .nil⟩
    | ok t c₁ =>
      rw [Parser.bind_of_ok first] at run
      rw [first] at look
      obtain ⟨w, es, goes, report⟩ := (h t).error c₁ e d (.of_look look) run
      exact ⟨w, es, (Goes.of_look look).trans goes, report⟩

theorem look {f : Option TokenKind → Parser α}
    (h : ∀ t, Reports (some t) (f (t.map Token.kind)) R) :
    Reports none (peekKind >>= f) R := by
  rw [peekKind_bind]
  exact peek h

theorem take {t : Option Token} {k : TokenKind} (h : t.map Token.kind = some k) :
    Reports (some t) take (One k) := by
  obtain ⟨u, rfl, rfl⟩ := Option.map_eq_some_iff.1 h
  have taking (c : Cursor) (hc : c.Holds (some (some u))) :
      ∃ l, c.held = some l ∧ l.token = u := Option.map_eq_some_iff.1 (hc _ rfl)
  constructor
  · intro c a d hc run
    obtain ⟨l, held, rfl⟩ := taking c hc
    rw [take_eq_release held] at run
    cases run
    exact ⟨[l], [], ⟨rfl, rfl⟩, rfl, rfl, rfl⟩
  · intro c e d hc run
    obtain ⟨l, held, -⟩ := taking c hc
    rw [take_eq_release held] at run
    cases run

theorem expect (k : TokenKind) : Reports none (expect k) (One k) := by
  apply look
  intro t
  split
  · next h => exact take h
  · exact fail _

/-- What a step of a loop reports: that it has found something, or what stopped it. -/
def Step (R : Report α) (S : List Token → List Block → Prop) : Report (Option α)
  | some a => R a
  | none => S

/-- A loop: what is reported about everything that was found so far grows with each step. -/
theorem collect {step : List α → Parser (Option α)} {S : List Token → List Block → Prop}
    {A : Report (List α)}
    (hstep : ∀ found, Reports none (step found) (Step R S))
    (logged : ∀ a ts es, R a ts es → Logged ts es) (start : A [] [] [])
    (more : ∀ as a ts us es fs, A as ts es → R a us fs → A (as ++ [a]) (ts ++ us) (es ++ fs)) :
    Reports none (Parser.collect step) fun as ts es =>
      ∃ us vs fs gs, ts = us ++ vs ∧ es = fs ++ gs ∧ A as us fs ∧ S vs gs := by
  have within (k : Nat) (found : List α) :
      Reports none (Parser.collectWithin step k found) fun as ts es =>
        ∀ us fs, A found.reverse us fs →
        ∃ us' vs fs' gs, us ++ ts = us' ++ vs ∧ fs ++ es = fs' ++ gs ∧ A as us' fs' ∧ S vs gs := by
    induction k generalizing found with
    | zero => exact throw _
    | succ k ih =>
      let rest : Option α → Report (List α) := fun o as ts es => match o with
        | some a => ∀ us fs, A (a :: found).reverse us fs → ∃ us' vs fs' gs,
            us ++ ts = us' ++ vs ∧ fs ++ es = fs' ++ gs ∧ A as us' fs' ∧ S vs gs
        | none => as = found.reverse ∧ ts = [] ∧ es = []
      refine (hstep found).bind (F := rest) (fun o => ?_) (fun o ts es report => ?_) ?_
      · cases o with
        | some a => exact ih (a :: found)
        | none => exact pure ⟨rfl, rfl, rfl⟩
      · cases o with
        | some a => exact .inl (logged a ts es report)
        | none => exact .inr fun c e d failed => by cases failed
      · intro o as ts us es fs report report' vs gs all
        cases o with
        | some a =>
          have further := report' (vs ++ ts) (gs ++ es) (by simpa using more _ a _ _ _ _ all report)
          simpa using further
        | none =>
          obtain ⟨rfl, rfl, rfl⟩ := report'
          exact ⟨vs, ts, gs, es, by simp, by simp, all, report⟩
  have all (k : Nat) := (within k []).mono fun as ts es h => h [] [] start
  simp only [List.nil_append] at all
  exact ⟨fun c => (all (c.size + 1)).ok c, fun c => (all (c.size + 1)).error c⟩

/-- A parser that nests in itself. -/
theorem nested {body : Parser α → Parser α}
    (h : ∀ inner, Reports none inner R → Reports none (body inner) R) :
    Reports none (Parser.nested body) R := by
  have within (k : Nat) : Reports none (Parser.nestedWithin body k) R := by
    induction k with
    | zero => exact throw _
    | succ k ih => exact h _ ih
  exact ⟨fun c => (within (c.size + 1)).ok c, fun c => (within (c.size + 1)).error c⟩

end Reports

end ProtoSchema
