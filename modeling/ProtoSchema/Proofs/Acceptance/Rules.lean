import ProtoSchema.Proofs.Acceptance.Basic
import ProtoSchema.Proofs.Reading.Repetition

/-! # Rules for accepting

How acceptance passes from the parts of a parser to the whole. What may follow a part is known from
the first tokens of what is read behind it, and a branch is chosen by the first token of its text.
Both are taken from the grammar. -/

namespace ProtoSchema

variable {α β γ : Type}

/-- What may follow a text, with what is left of it when the text has been read. -/
abbrev Follow := List (Option Item) → List (Option Item) → Prop

/-- Behind the text stands a token of certain kinds, which stays there. -/
def Before (K : TokenKind → Prop) : Follow :=
  fun r r' => r' = r ∧ ∃ t, seen r = some (some t) ∧ K t.kind

/-- Behind the text the parser looks at a token of certain kinds, or at the end of the input. -/
def Past (K : TokenKind → Prop) : Follow :=
  fun r r' => r' = looked r ∧ ∃ t, seen r = some t ∧ ∀ u, t = some u → K u.kind

theorem past_of_before {K : TokenKind → Prop} {r r' : List (Option Item)} (h : Before K r r') :
    Past K r r' := by
  obtain ⟨hr, t, ht, hk⟩ := h
  refine ⟨hr.trans ?_, some t, ht, fun u hu => by cases hu; exact hk⟩
  rcases r with _ | ⟨_ | ⟨l | span⟩, r⟩
  · rfl
  · cases ht
  · rfl
  · cases ht

/-- That the texts of a phrase, with what may follow them, may follow in turn. -/
def Phrase.Suits (F : Phrase α) (S : Follow) (T : Follow) : Prop :=
  ∀ v b r r', F (tokens v) b → S r r' → T (answers v ++ r) (answers v ++ r)

theorem Phrase.suits_eq {F : Phrase α} {S : Follow} : F.Suits S Eq := fun _ _ _ _ _ _ => rfl

theorem Phrase.suits_before {F : Phrase α} {S : Follow} {K : TokenKind → Prop} (hA : F.Advances)
    (hK : F.Leads K) : F.Suits S (Before K) := by
  intro v b r r' h _
  cases v with
  | nil => exact (hA b h).elim
  | cons l v => exact ⟨rfl, l.token, rfl, hK l.token (tokens v) b h⟩

/-- A parser accepts a phrase where no more than `n` answers are unused. -/
def Accepts (n : Nat) (S : Follow) (p : Parser α) (P : Phrase α) : Prop :=
  ∀ w a r r', w.length + r.length < n → P (tokens w) a → S r r' → Runs p w a r r'

namespace Accepts

open Phrase Cursor

variable {n : Nat} {S T : Follow} {K : TokenKind → Prop} {p : Parser α} {f : α → Parser β}
  {P Q : Phrase α} {F : α → Phrase β}

theorem anti (h : Accepts n S p P) (hle : Q ≤ P) : Accepts n S p Q :=
  fun w a r r' hn hQ => h w a r r' hn (hle _ _ hQ)

theorem follow (h : Accepts n S p P) (hS : ∀ r r', T r r' → S r r') : Accepts n T p P :=
  fun w a r r' hn hP hr => h w a r r' hn hP (hS r r' hr)

theorem sup (hP : Accepts n S p P) (hQ : Accepts n S p Q) : Accepts n S p (P ⊔ Q) := by
  rintro w a r r' hn (h | h) hr
  · exact hP w a r r' hn h hr
  · exact hQ w a r r' hn h hr

/-- A pure result. -/
theorem pure (a : α) : Accepts n Eq (pure a) (pure a) := by
  rintro w b r _ - ⟨hw, rfl⟩ rfl
  obtain rfl := List.map_eq_nil_iff.1 hw
  exact .pure b

/-- The rule of sequence, for a second part that may rely on a smaller bound. -/
theorem bind_of_size {m : Nat} (hp : Accepts n T p P) (hf : ∀ a, Accepts m S (f a) (F a))
    (hF : ∀ a, (F a).Suits S T)
    (size : ∀ (v u : List Lexeme) a k,
      (v ++ u).length + k < n → P (tokens v) a → u.length + k < m) :
    Accepts n S (p >>= f) (P >>= F) := by
  rintro w b r r' hn ⟨us, vs, a, ha, hb, he⟩ hr
  obtain ⟨v, u, rfl, rfl, rfl⟩ := tokens_eq_append he
  refine (hp v a _ _ ?_ ha (hF a u b r r' hb hr)).bind (hf a u b r r' (size v u a _ hn ha) hb hr)
  simpa [Nat.add_assoc] using hn

theorem bind_suits (hp : Accepts n T p P) (hf : ∀ a, Accepts n S (f a) (F a))
    (hF : ∀ a, (F a).Suits S T) : Accepts n S (p >>= f) (P >>= F) :=
  hp.bind_of_size hf hF fun v u a k hn _ => by
    simp only [List.length_append] at hn
    omega

/-- In a sequence behind a first part that does not look further, nothing is asked of the second. -/
theorem bind (hp : Accepts n Eq p P) (hf : ∀ a, Accepts n S (f a) (F a)) :
    Accepts n S (p >>= f) (P >>= F) :=
  hp.bind_suits hf fun _ => suits_eq

theorem bind_before (hp : Accepts n (Before K) p P) (hf : ∀ a, Accepts n S (f a) (F a))
    (hA : ∀ a, (F a).Advances) (hK : ∀ a, (F a).Leads K) : Accepts n S (p >>= f) (P >>= F) :=
  hp.bind_suits hf fun a => suits_before (hA a) (hK a)

theorem bind_of_advances (hP : P.Advances) (hp : Accepts (n + 1) Eq p P)
    (hf : ∀ a, Accepts n S (f a) (F a)) : Accepts (n + 1) S (p >>= f) (P >>= F) :=
  hp.bind_of_size hf (fun _ => suits_eq) fun v u a k hn h => by
    have : v ≠ [] := by
      rintro rfl
      exact hP a h
    have := List.length_pos_iff.2 this
    simp only [List.length_append] at hn
    omega

theorem map {g : α → β} (hp : Accepts n S p P) :
    Accepts n S (p >>= fun a => Pure.pure (g a)) (g <$> P) := by
  intro w b r r' hn h hr
  obtain ⟨a, ha, rfl⟩ := map_iff.1 h
  exact (hp w a r r' hn ha hr).bind_pure rfl

/-- What accepts a phrase before anything accepts it before certain tokens. -/
theorem before (h : Accepts n Eq p P) : Accepts n (Before K) p P := h.follow fun _ _ hr => hr.1.symm

/-! ## Looking at the next token -/

theorem map_kind_ne {t : Option Token} {k : TokenKind} (h : ∀ u, t = some u → u.kind ≠ k) :
    t.map Token.kind ≠ some k := by
  intro he
  obtain ⟨u, rfl, hu⟩ := Option.map_eq_some_iff.1 he
  exact h u rfl hu

theorem peek_take {q : Token → Prop} {f : Option Token → Parser β} {g : Token → Parser β}
    {G : Token → Phrase β} (hf : ∀ t, q t → f (some t) = take >>= g)
    (hg : ∀ t, q t → Accepts n S (g t) (G t)) : Accepts n S (peek >>= f) (one q >>= G) := by
  rintro w b r r' hn ⟨us, vs, t, ⟨rfl, ht⟩, hb, he⟩ hr
  obtain ⟨v, u, rfl, hv, rfl⟩ := tokens_eq_append he
  obtain ⟨l, rfl, rfl⟩ := List.map_eq_singleton_iff.1 hv
  refine .peek_take (hf _ ht) (hg _ ht u b r r' ?_ hb hr)
  simp only [List.length_append] at hn
  omega

/-- A branch that takes the token which was seen. -/
theorem look_take {q : Token → Prop} {f : Option TokenKind → Parser β} {g : Token → Parser β}
    {G : Token → Phrase β} (hf : ∀ t, q t → f (some t.kind) = take >>= g)
    (hg : ∀ t, q t → Accepts n S (g t) (G t)) : Accepts n S (peekKind >>= f) (one q >>= G) := by
  rw [peekKind_bind]
  exact peek_take hf hg

theorem peek_one {q : Token → Prop} {f : Option Token → Parser Token}
    (hf : ∀ t, q t → f (some t) = take) : Accepts n Eq (peek >>= f) (one q) := by
  have h : Accepts n Eq (peek >>= f) (one q >>= Pure.pure) :=
    peek_take (fun t ht => (hf t ht).trans (bind_pure _).symm) fun t _ => pure t
  rwa [bind_pure] at h

theorem look_one {q : Token → Prop} {f : Option TokenKind → Parser Token}
    (hf : ∀ t, q t → f (some t.kind) = take) : Accepts n Eq (peekKind >>= f) (one q) := by
  rw [peekKind_bind]
  exact peek_one hf

/-- A branch that goes on from the token which was seen. -/
theorem look {f : Option TokenKind → Parser α} (hA : P.Advances) (hK : P.Leads K)
    (hf : ∀ k, K k → f (some k) = p) (hp : Accepts n S p P) : Accepts n S (peekKind >>= f) P := by
  intro w a r r' hn h hr
  cases w with
  | nil => exact (hA a h).elim
  | cons l w =>
    rw [peekKind_bind]
    refine .peek ?_
    rw [Option.map_some, hf _ (hK _ _ _ h)]
    exact hp _ a r r' hn h hr

theorem look_map {f : Option TokenKind → Parser β} {g : α → β} (hA : P.Advances) (hK : P.Leads K)
    (hf : ∀ k, K k → f (some k) = p >>= fun a => Pure.pure (g a)) (hp : Accepts n S p P) :
    Accepts n S (peekKind >>= f) (g <$> P) :=
  look hA.bind_left (hA.leads_bind hK) hf hp.map

/-- Parsers that agree on the first tokens of a phrase accept it alike. -/
theorem look_congr {f g : Option TokenKind → Parser α} (hA : P.Advances) (hK : P.Leads K)
    (hf : ∀ k, K k → f (some k) = g (some k)) (hg : Accepts n S (peekKind >>= g) P) :
    Accepts n S (peekKind >>= f) P := by
  intro w a r r' hn h hr c hc
  have run := hg w a r r' hn h hr c hc
  cases w with
  | nil => exact (hA a h).elim
  | cons l w =>
    obtain ⟨c', look, -⟩ := peek_ahead (c := c) (by rw [hc]; rfl)
    rw [peekKind_bind, Parser.bind_of_ok look, Option.map_some] at run ⊢
    rwa [hf _ (hK _ _ _ h)]

/-- A branch that stops at what was seen. -/
theorem look_stop {f : Option TokenKind → Parser α} {a : α}
    (hf : ∀ t : Option Token, (∀ u, t = some u → K u.kind) → f (t.map Token.kind) = Pure.pure a) :
    Accepts n (Past K) (peekKind >>= f) (Pure.pure a) := by
  rintro w b r _ - ⟨hw, rfl⟩ ⟨rfl, t, ht, hk⟩
  obtain rfl := List.map_eq_nil_iff.1 hw
  rw [peekKind_bind]
  exact .peek_stop ht (hf t hk)

theorem expect (k : TokenKind) : Accepts n Eq (expect k) (kind k) :=
  look_one fun _ ht => if_pos (congrArg some ht)

theorem takeIf_bind_eq (k : TokenKind) (f : Option Token → Parser β) :
    (takeIf k >>= f) = peekKind >>= fun t =>
      if t = some k then take >>= fun t => f (some t) else f none := by
  simp only [takeIf, bind_assoc]
  congr 1
  funext t
  split <;> simp

theorem takeIf (k : TokenKind) : Accepts n (Before (· ≠ k)) (takeIf k) (optional (kind k)) := by
  refine .sup ?_ ?_
  · exact (look_take (fun _ ht => if_pos (congrArg some ht)) fun t _ => pure (some t)).before
  · exact (look_stop fun _ ht => if_neg (map_kind_ne ht)).follow fun _ _ => past_of_before

/-! ## Repetition and nesting -/

/-- A loop takes members up to what stops it, behind those it has found. -/
theorem runs_collectWithin {step : List α → Parser (Option α)} {R : Phrase γ} (hP : P.Advances)
    (member : ∀ found, Accepts n T (step found) (some <$> P))
    (stop : ∀ found, Accepts n S (step found) ((fun _ => none) <$> R))
    (hS : (many P >>= fun _ => R).Suits S T) {ts : List Token} {as : List α} (h : many P ts as)
    {k : Nat} {v u : List Lexeme} {b : γ} {r r' : List (Option Item)} (found : List α)
    (hv : tokens v = ts) (hu : R (tokens u) b) (hr : S r r')
    (hn : (v ++ u).length + r.length < n) (hk : (v ++ u).length + r.length < k) :
    Runs (Parser.collectWithin step k found) (v ++ u) (found.reverse ++ as) r r' := by
  obtain ⟨k, rfl⟩ : ∃ m, k = m + 1 := Nat.exists_eq_succ_of_ne_zero (by omega)
  induction h generalizing v k found with
  | nil =>
    obtain rfl := List.map_eq_nil_iff.1 hv
    rw [List.append_nil]
    exact (stop found u none r r' hn (map_iff.2 ⟨b, hu, rfl⟩) hr).bind_pure rfl
  | @cons us vs a as ha has ih =>
    obtain ⟨x, y, rfl, rfl, rfl⟩ := tokens_eq_append hv
    have nonempty : x ≠ [] := by
      rintro rfl
      exact hP a ha
    have := List.length_pos_iff.2 nonempty
    simp only [List.length_append] at hn hk ih
    obtain ⟨k, rfl⟩ : ∃ m, k = m + 1 := Nat.exists_eq_succ_of_ne_zero (by omega)
    have first : Runs (step found) x (some a) (answers (y ++ u) ++ r) (answers (y ++ u) ++ r) := by
      refine member found x (some a) _ _ ?_ (map_iff.2 ⟨a, ha, rfl⟩) (hS (y ++ u) b r r' ?_ hr)
      · simp only [List.length_append, length_answers]
        omega
      · exact ⟨_, _, as, has, hu, tokens_append y u⟩
    have rest := ih (a :: found) rfl (by omega) k (by omega)
    rw [List.reverse_cons, List.append_assoc] at rest
    rw [List.append_assoc]
    exact first.bind rest

theorem collect {step : List α → Parser (Option α)} {R : Phrase γ} (hP : P.Advances)
    (member : ∀ found, Accepts n T (step found) (some <$> P))
    (stop : ∀ found, Accepts n S (step found) ((fun _ => none) <$> R))
    (hS : (many P >>= fun _ => R).Suits S T) : Accepts n S (Parser.collect step) (upTo P R []) := by
  intro w _ r r' hn h hr c hc
  obtain ⟨ts, us, as, b, has, hb, rfl, he⟩ := upTo_iff.1 h
  obtain ⟨v, u, rfl, hv, rfl⟩ := tokens_eq_append he
  have size : c.size = (v ++ u).length + r.length := by
    rw [size_eq_length_ahead, hc, List.length_append, length_answers]
  exact runs_collectWithin hP member stop hS has [] hv hb hr hn (by omega) c hc

/-- A parser that nests in itself, where the outer one takes a token before the inner one starts. -/
theorem nested {body : Parser α → Parser α}
    (hbody : ∀ n inner, Accepts n Eq inner P → Accepts (n + 1) Eq (body inner) P) :
    Accepts n Eq (Parser.nested body) P := by
  have bounded (k : Nat) : Accepts k Eq (Parser.nestedWithin body k) P := by
    induction k with
    | zero => exact fun w a r r' hn => absurd hn (Nat.not_lt_zero _)
    | succ k ih => exact hbody k _ ih
  intro w a r r' _ h hr c hc
  have size : c.size = w.length + r.length := by
    rw [size_eq_length_ahead, hc, List.length_append, length_answers]
  exact bounded (c.size + 1) w a r r' (by omega) h hr c hc

end Accepts

end ProtoSchema
