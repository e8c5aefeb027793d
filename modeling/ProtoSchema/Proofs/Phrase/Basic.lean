import Mathlib.Order.FixedPoints
import Mathlib.Order.ConditionallyCompleteLattice.Basic
import Mathlib.Order.CompletePartialOrder
import ProtoSchema.Token.Basic

/-! # Phrases

A phrase of a grammar is a set of token lists, each with the values it stands for. Phrases are
written in sequence, as a choice, which is their join, or repeated. Nothing is said about how a
phrase is recognized: a choice looks at no token, and a sequence may be divided anywhere. -/

namespace ProtoSchema

/-- A set of token lists with their values. -/
def Phrase (α : Type) := List Token → α → Prop

namespace Phrase

variable {α β : Type} {P Q : Phrase α} {F G : α → Phrase β}

instance : CompleteLattice (Phrase α) :=
  inferInstanceAs (CompleteLattice (List Token → α → Prop))

instance : Monad Phrase where
  pure a := fun ts b => ts = [] ∧ b = a
  bind P F := fun ts b => ∃ us vs a, P us a ∧ F a vs b ∧ ts = us ++ vs

/-- A single token with a property. -/
def one (p : Token → Prop) : Phrase Token := fun ts t => ts = [t] ∧ p t

def kind (k : TokenKind) : Phrase Token := one (·.kind = k)

/-- Any number of texts of a phrase in sequence. -/
inductive many (P : Phrase α) : Phrase (List α)
  | nil : many P [] []
  | cons {ts us a as} : P ts a → many P us as → many P (ts ++ us) (a :: as)

def optional (P : Phrase α) : Phrase (Option α) := some <$> P ⊔ pure none

/-- No tokens at all, provided that a condition holds. -/
def guard (p : Prop) : Phrase Unit := fun ts _ => ts = [] ∧ p

theorem pure_iff {a b : α} {ts} : (pure a : Phrase α) ts b ↔ ts = [] ∧ b = a := Iff.rfl

theorem map_iff {f : α → β} {ts b} : (f <$> P) ts b ↔ ∃ a, P ts a ∧ b = f a := by
  constructor
  · rintro ⟨us, _, a, hu, ⟨rfl, rfl⟩, rfl⟩
    exact ⟨a, by simpa using hu, rfl⟩
  · rintro ⟨a, h, rfl⟩
    exact ⟨ts, [], a, h, ⟨rfl, rfl⟩, (List.append_nil ts).symm⟩

theorem sup_iff {ts a} : (P ⊔ Q) ts a ↔ P ts a ∨ Q ts a := Iff.rfl

theorem optional_iff {ts o} :
    optional P ts o ↔ (∃ a, P ts a ∧ o = some a) ∨ (ts = [] ∧ o = none) := by
  simp only [optional, sup_iff, map_iff, pure_iff]

theorem bind_pure_iff {f : α → β} {ts b} :
    (P >>= fun a => pure (f a)) ts b ↔ ∃ a, P ts a ∧ b = f a := map_iff

theorem guard_bind_iff {p : Prop} {G : Unit → Phrase β} {ts b} :
    (guard p >>= G) ts b ↔ p ∧ G () ts b := by
  constructor
  · rintro ⟨_, vs, _, ⟨rfl, hp⟩, h, rfl⟩
    exact ⟨hp, h⟩
  · rintro ⟨hp, h⟩
    exact ⟨[], ts, (), ⟨rfl, hp⟩, h, rfl⟩

theorem guard_true : guard True = pure () := by
  funext ts u
  exact propext ⟨fun ⟨hts, _⟩ => ⟨hts, rfl⟩, fun ⟨hts, _⟩ => ⟨hts, trivial⟩⟩

/-! ## Texts put together -/

theorem text_pure (a : α) : (pure a : Phrase α) [] a := ⟨rfl, rfl⟩

theorem text_kind {k : TokenKind} {t : Token} (h : t.kind = k) : kind k [t] t := ⟨rfl, h⟩

theorem text_bind {us vs a b} (h : P us a) (h' : F a vs b) : (P >>= F) (us ++ vs) b :=
  ⟨us, vs, a, h, h', rfl⟩

/-- A text behind a token of a given kind. -/
theorem text_cons {k : TokenKind} {t : Token} {G : Token → Phrase β} {vs b} (h : t.kind = k)
    (h' : G t vs b) : (kind k >>= G) (t :: vs) b := text_bind (text_kind h) h'

theorem text_map {f : α → β} {us a} (h : P us a) : (f <$> P) us (f a) := map_iff.2 ⟨a, h, rfl⟩

theorem text_bind_pure {f : α → β} {us a} (h : P us a) :
    (P >>= fun a => pure (f a)) us (f a) := text_map h

theorem text_some {us a} (h : P us a) : optional P us (some a) := .inl (text_map h)

theorem text_none : optional P [] none := .inr (text_pure none)

instance : LawfulMonad Phrase := by
  refine LawfulMonad.mk' Phrase ?_ ?_ ?_
  · intro α P
    funext ts a
    exact propext (map_iff.trans ⟨fun ⟨b, hb, e⟩ => e ▸ hb, fun h => ⟨a, h, rfl⟩⟩)
  · intro α β a F
    funext ts b
    exact propext ⟨fun ⟨us, vs, _, ⟨hu, ha⟩, h, e⟩ => by subst hu ha e; exact h,
      fun h => ⟨[], ts, a, ⟨rfl, rfl⟩, h, rfl⟩⟩
  · intro α β γ P F G
    funext ts c
    refine propext ⟨?_, ?_⟩
    · rintro ⟨_, ws, b, ⟨us, vs, a, ha, hb, rfl⟩, hc, rfl⟩
      exact ⟨us, vs ++ ws, a, ha, ⟨vs, ws, b, hb, hc, rfl⟩, List.append_assoc ..⟩
    · rintro ⟨us, _, a, ha, ⟨vs, ws, b, hb, hc, rfl⟩, rfl⟩
      exact ⟨us ++ vs, ws, b, ⟨us, vs, a, ha, hb, rfl⟩, hc, (List.append_assoc ..).symm⟩

theorem bind_mono (hP : P ≤ Q) (hF : ∀ a, F a ≤ G a) : P >>= F ≤ Q >>= G := by
  rintro ts b ⟨us, vs, a, hu, hv, rfl⟩
  exact ⟨us, vs, a, hP _ _ hu, hF _ _ _ hv, rfl⟩

theorem optional_bind {F : Option α → Phrase β} :
    optional P >>= F = (P >>= fun a => F (some a)) ⊔ F none := by
  funext ts b
  refine propext ⟨?_, ?_⟩
  · rintro ⟨us, vs, o, ho, hb, rfl⟩
    rcases optional_iff.1 ho with ⟨a, ha, rfl⟩ | ⟨rfl, rfl⟩
    · exact .inl ⟨us, vs, a, ha, hb, rfl⟩
    · exact .inr hb
  · rintro (⟨us, vs, a, ha, hb, rfl⟩ | hb)
    · exact ⟨us, vs, some a, optional_iff.2 (.inl ⟨a, ha, rfl⟩), hb, rfl⟩
    · exact ⟨[], ts, none, optional_iff.2 (.inr ⟨rfl, rfl⟩), hb, rfl⟩

theorem map_mono {f : α → β} (h : P ≤ Q) : f <$> P ≤ f <$> Q := bind_mono h fun _ => le_rfl

theorem many_mono (h : P ≤ Q) : many P ≤ many Q := by
  intro ts as hs
  induction hs with
  | nil => exact .nil
  | cons hp _ ih => exact .cons (h _ _ hp) ih

theorem many_append {us vs : List Token} {as bs : List α} (h : many P us as) (h' : many P vs bs) :
    many P (us ++ vs) (as ++ bs) := by
  induction h with
  | nil => exact h'
  | cons ha _ ih =>
    rw [List.append_assoc, List.cons_append]
    exact .cons ha ih

theorem many_singleton {ts : List Token} {a : α} (h : P ts a) : many P ts [a] := by
  have one := many.cons h .nil
  rwa [List.append_nil] at one

theorem one_sup_one {p q : Token → Prop} : one p ⊔ one q = one fun t => p t ∨ q t := by
  funext ts t
  exact propext and_or_left.symm

/-! ## Prefixes -/

/-- That some continuation of a token list is a text of the phrase. -/
def Viable (P : Phrase α) (us : List Token) : Prop := ∃ vs a, P (us ++ vs) a

theorem viable_of_text {ts a} (h : P ts a) : P.Viable ts := ⟨[], a, by simpa using h⟩

theorem viable_pure (a : α) : (pure a : Phrase α).Viable [] := viable_of_text (text_pure a)

theorem viable_kind (k : TokenKind) : (kind k).Viable [] := ⟨[⟨k, ""⟩], _, text_kind rfl⟩

theorem Viable.mono {us} (h : P.Viable us) (hle : P ≤ Q) : Q.Viable us := by
  obtain ⟨vs, a, hv⟩ := h
  exact ⟨vs, a, hle _ _ hv⟩

theorem Viable.front {u v} (h : P.Viable (u ++ v)) : P.Viable u := by
  obtain ⟨w, a, hw⟩ := h
  exact ⟨v ++ w, a, by simpa using hw⟩

/-- What can be continued in the first part of a sequence can be continued through the second. -/
theorem Viable.bind {us} (h : P.Viable us) (hF : ∀ a, (F a).Viable []) : (P >>= F).Viable us := by
  obtain ⟨vs, a, hv⟩ := h
  obtain ⟨ws, b, hw⟩ := hF a
  exact ⟨vs ++ ws, b, us ++ vs, ws, a, hv, hw, (List.append_assoc ..).symm⟩

theorem viable_map {us} (f : α → β) (h : P.Viable us) : (f <$> P).Viable us :=
  h.bind fun _ => viable_pure _

/-- What ends with a token can be continued to it. -/
theorem viable_last (k : TokenKind) (f : Token → α) :
    (kind k >>= fun t => pure (f t)).Viable [] := (viable_kind k).bind fun t => viable_pure (f t)

theorem viable_bind_append {us vs a} (hu : P us a) (hv : (F a).Viable vs) :
    (P >>= F).Viable (us ++ vs) := by
  obtain ⟨ws, b, hw⟩ := hv
  exact ⟨ws, b, us, vs ++ ws, a, hu, hw, List.append_assoc ..⟩

theorem viable_cons {k : TokenKind} {t : Token} {G : Token → Phrase β} {vs} (h : t.kind = k)
    (hv : (G t).Viable vs) : (kind k >>= G).Viable (t :: vs) := viable_bind_append (text_kind h) hv

/-! ## Texts that are not empty -/

/-- That no text of the phrase is empty. -/
def Advances (P : Phrase α) : Prop := ∀ a, ¬ P [] a

theorem advances_one (p : Token → Prop) : (one p).Advances := by
  rintro t ⟨h, -⟩
  simp at h

theorem advances_kind (k : TokenKind) : (kind k).Advances := advances_one _

theorem Advances.bind_left (h : P.Advances) : (P >>= F).Advances := by
  rintro b ⟨us, vs, a, hu, -, he⟩
  obtain ⟨rfl, -⟩ := List.append_eq_nil_iff.1 he.symm
  exact h a hu

theorem advances_map (f : α → β) (h : P.Advances) : (f <$> P).Advances := h.bind_left

theorem Advances.bind_right (h : ∀ a, (F a).Advances) : (P >>= F).Advances := by
  rintro b ⟨us, vs, a, -, hv, he⟩
  obtain ⟨-, rfl⟩ := List.append_eq_nil_iff.1 he.symm
  exact h a b hv

theorem Advances.sup (hP : P.Advances) (hQ : Q.Advances) : (P ⊔ Q).Advances := by
  rintro a (h | h)
  · exact hP a h
  · exact hQ a h

/-! ## First tokens -/

/-- That every text which is not empty starts with a token of certain kinds. -/
def Leads (P : Phrase α) (K : TokenKind → Prop) : Prop := ∀ t ts a, P (t :: ts) a → K t.kind

variable {K L : TokenKind → Prop}

theorem Leads.mono (h : P.Leads K) (hle : ∀ k, K k → L k) : P.Leads L :=
  fun t ts a ht => hle _ (h t ts a ht)

theorem leads_one {p : Token → Prop} (h : ∀ t, p t → K t.kind) : (one p).Leads K := by
  rintro t ts a ⟨he, ha⟩
  cases he
  exact h _ ha

theorem leads_kind (k : TokenKind) : (kind k).Leads (· = k) := leads_one fun _ h => h

theorem leads_pure (a : α) : (pure a : Phrase α).Leads K := by
  rintro t ts b ⟨he, -⟩
  cases he

theorem Leads.sup (hP : P.Leads K) (hQ : Q.Leads K) : (P ⊔ Q).Leads K := by
  rintro t ts a (h | h)
  · exact hP t ts a h
  · exact hQ t ts a h

theorem Leads.bind (hP : P.Leads K) (hF : ∀ a, (F a).Leads K) : (P >>= F).Leads K := by
  rintro t ts b ⟨us, vs, a, hu, hv, he⟩
  cases us with
  | nil =>
    obtain rfl : t :: ts = vs := he
    exact hF a t ts b hv
  | cons u us =>
    cases he
    exact hP t us a hu

/-- The first token of a sequence is that of its first part, if this is never empty. -/
theorem Advances.leads_bind (hA : P.Advances) (hP : P.Leads K) : (P >>= F).Leads K := by
  rintro t ts b ⟨us, vs, a, hu, hv, he⟩
  cases us with
  | nil => exact (hA a hu).elim
  | cons u us =>
    cases he
    exact hP t us a hu

/-- What stands behind a token plays no part for the first one. -/
theorem leads_kind_bind {k : TokenKind} {G : Token → Phrase β} (h : K k) : (kind k >>= G).Leads K :=
  (advances_kind k).leads_bind ((leads_kind k).mono fun _ hk => by rwa [hk])

theorem Leads.many (hP : P.Leads K) : (many P).Leads K := by
  intro t ts as h
  generalize he : t :: ts = us at h
  induction h generalizing ts with
  | nil => cases he
  | @cons vs ws a as ha _ ih =>
    cases vs with
    | nil => exact ih ts he
    | cons v vs =>
      cases he
      exact hP t vs a ha

end Phrase

end ProtoSchema
