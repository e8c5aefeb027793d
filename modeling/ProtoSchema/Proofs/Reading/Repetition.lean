import ProtoSchema.Proofs.Reading.Primitive

/-! # Reading in loops and in depth

A step that is repeated either finds a member or stops; the loop then reads the members and what
stops them. Members take tokens, so the bound on the number of steps is never met. A parser that
nests in itself behind at least one token never meets its bound either. -/

namespace ProtoSchema

variable {α β γ : Type}

namespace Phrase

variable {P : Phrase α} {Q : Phrase β}

/-- A member, or what stops a repetition. -/
def orStop (P : Phrase α) (Q : Phrase β) : Phrase (Option α) := some <$> P ⊔ (fun _ => none) <$> Q

/-- Members up to what stops them, behind those found already, of which the latest is in front. -/
def upTo (P : Phrase α) (Q : Phrase β) (found : List α) : Phrase (List α) := do
  let rest ← many P
  let _ ← Q
  return found.reverse ++ rest

theorem upTo_iff {found as : List α} {ts} : upTo P Q found ts as ↔
    ∃ us vs rest b, many P us rest ∧ Q vs b ∧ as = found.reverse ++ rest ∧ ts = us ++ vs := by
  constructor
  · rintro ⟨us, vs, rest, hm, stop, rfl⟩
    obtain ⟨b, hb, rfl⟩ := bind_pure_iff.1 stop
    exact ⟨us, vs, rest, b, hm, hb, rfl, rfl⟩
  · rintro ⟨us, vs, rest, b, hm, hb, rfl, rfl⟩
    exact text_bind hm (text_bind_pure hb)

theorem upTo_pure : upTo P (pure ()) [] = many P := by simp [upTo]

theorem upTo_stop {ts b} (found : List α) (h : Q ts b) : upTo P Q found ts found.reverse :=
  upTo_iff.2 ⟨[], ts, [], b, .nil, h, (List.append_nil _).symm, rfl⟩

theorem upTo_more {ts us a as} {found : List α} (ha : P ts a) (h : upTo P Q (a :: found) us as) :
    upTo P Q found (ts ++ us) as := by
  obtain ⟨us, vs, rest, b, hm, hb, rfl, rfl⟩ := upTo_iff.1 h
  exact upTo_iff.2 ⟨ts ++ us, vs, a :: rest, b, .cons ha hm, hb, by simp, by simp⟩

theorem viable_upTo (found : List α) (h : Q.Viable []) : (upTo P Q found).Viable [] := by
  obtain ⟨vs, b, hb⟩ := h
  exact ⟨vs, _, upTo_stop found hb⟩

end Phrase

/-! ## Bounds that do not matter -/

namespace Parser

/-- A loop whose steps move the cursor runs alike under all bounds that it cannot meet. -/
theorem collectWithin_bound {n : Nat} {step : List α → Parser (Option α)}
    (less : ∀ found c a c', c.size < n → step found c = .ok (some a) c' → c'.size < c.size)
    {k m : Nat} {found : List α} {c : Cursor} (hn : c.size < n) (hk : c.size < k)
    (hm : c.size < m) :
    collectWithin step k found c = collectWithin step m found c := by
  induction k generalizing m found c with
  | zero => omega
  | succ k ih =>
    obtain ⟨m, rfl⟩ : ∃ i, m = i + 1 := Nat.exists_eq_succ_of_ne_zero (by omega)
    unfold collectWithin
    cases run : step found c with
    | error e c' => rw [bind_of_error run, bind_of_error run]
    | ok o c' =>
      rw [bind_of_ok run, bind_of_ok run]
      cases o with
      | none => rfl
      | some a =>
        have := less found c a c' hn run
        exact ih (by omega) (by omega) (by omega)

/-- How a loop goes on from a cursor, by steps that all find something. The latest find is in
front. -/
inductive Iterates (step : List α → Parser (Option α)) (c : Cursor) : List α → Cursor → Prop
  | start : Iterates step c [] c
  | more {found d a e} (h : Iterates step c found d) (go : step found d = .ok (some a) e) :
    Iterates step c (a :: found) e

/-- Every step that finds something leaves one answer less. -/
theorem Iterates.size_le {n : Nat} {step : List α → Parser (Option α)}
    (less : ∀ found c a c', c.size < n → step found c = .ok (some a) c' → c'.size < c.size)
    {c d : Cursor} {found : List α} (hc : c.size < n) (h : Iterates step c found d) :
    d.size + found.length ≤ c.size := by
  induction h with
  | start => exact Nat.le_refl _
  | more _ go ih =>
    have := less _ _ _ _ (by omega) go
    rw [List.length_cons]
    omega

/-- A loop depends on its steps where it comes to take them. -/
theorem collect_congr {step step' : List α → Parser (Option α)} {c : Cursor}
    (same : ∀ found d, Iterates step c found d → step found d = step' found d) :
    collect step c = collect step' c := by
  have within (k : Nat) (found : List α) (d : Cursor) (way : Iterates step c found d) :
      collectWithin step k found d = collectWithin step' k found d := by
    induction k generalizing found d with
    | zero => rfl
    | succ k ih =>
      unfold collectWithin
      cases run : step found d with
      | error e d' => rw [bind_of_error run, bind_of_error ((same found d way).symm.trans run)]
      | ok o d' =>
        rw [bind_of_ok run, bind_of_ok ((same found d way).symm.trans run)]
        cases o with
        | none => rfl
        | some a => exact ih _ _ (way.more run)
  exact within (c.size + 1) [] c .start

/-- That two parsers run alike from all cursors with fewer than a number of unused answers. -/
def AgreeBelow (n : Nat) (p q : Parser α) : Prop := ∀ c : Cursor, c.size < n → p c = q c

namespace AgreeBelow

variable {n m : Nat} {p q : Parser α}

theorem bind_left {f : α → Parser β} (h : AgreeBelow n p q) : AgreeBelow n (p >>= f) (q >>= f) := by
  intro c hc
  simp only [bind, EStateM.bind, h c hc]

theorem bind_right {f g : α → Parser β} (h : ∀ a, AgreeBelow m (f a) (g a))
    (size : ∀ c a c', c.size < n → p c = .ok a c' → c'.size < m) :
    AgreeBelow n (p >>= f) (p >>= g) := by
  intro c hc
  cases run : p c with
  | ok a c' => rw [bind_of_ok run, bind_of_ok run, h a c' (size c a c' hc run)]
  | error e c' => rw [bind_of_error run, bind_of_error run]

theorem collect {step step' : List α → Parser (Option α)}
    (h : ∀ found, AgreeBelow n (step found) (step' found))
    (less : ∀ found c a c', c.size < n → step found c = .ok (some a) c' → c'.size < c.size) :
    AgreeBelow n (Parser.collect step) (Parser.collect step') := by
  refine fun c hc => collect_congr fun found d way => h found d ?_
  have := way.size_le less hc
  omega

end AgreeBelow

end Parser

namespace Reads

open Phrase Cursor

variable {n : Nat} {P : Phrase α} {Q : Phrase β}

/-- One round of a loop, and with it all further ones. -/
theorem collectWithin {step : List α → Parser (Option α)} (hP : P.Advances) (hQ : Q.Viable [])
    (hstep : ∀ found, Reads n none (step found) (orStop P Q)) {k m : Nat} (hm : m ≤ n) (hk : m ≤ k)
    (found : List α) : Reads m none (Parser.collectWithin step k found) (upTo P Q found) := by
  induction k generalizing m found with
  | zero => exact ⟨viable_upTo found hQ, fun c hc => absurd hc.1 (by omega)⟩
  | succ k ih =>
    let bound : Option α → Nat := fun o => if o.isSome then m - 1 else m
    let further : Option α → Phrase (List α) := fun o =>
      o.elim (Pure.pure found.reverse) fun a => upTo P Q (a :: found)
    refine Reads.mono (P := orStop P Q >>= further)
      (((hstep found).below hm).bind_of_size (m := bound) (fun o => ?_)
        fun c c' w as o hc hw ho => ?_) ?_
    · cases o with
      | none => exact .pure _
      | some a => exact ih (Nat.le_trans (Nat.sub_le m 1) hm) (Nat.sub_le_of_le_add hk) _
    · rcases ho with h | h
      · obtain ⟨a, ha, rfl⟩ := map_iff.1 h
        have := size_lt hP hw ha
        change c'.size < m - 1
        omega
      · obtain ⟨b, -, rfl⟩ := map_iff.1 h
        exact Nat.lt_of_le_of_lt (Nat.le_trans (Nat.le_add_right _ _) hw.size) hc
    · rintro ts as ⟨us, vs, o, h | h, hs, rfl⟩
      · obtain ⟨a, ha, rfl⟩ := map_iff.1 h
        exact upTo_more ha hs
      · obtain ⟨b, hb, rfl⟩ := map_iff.1 h
        obtain ⟨rfl, rfl⟩ := hs
        simpa using upTo_stop found hb

theorem size_of_run {p : Parser α} (hP : P.Advances) (h : Reads n none p P) {c c' : Cursor} {a : α}
    (hc : c.size < n) (run : p c = .ok a c') : c'.size < c.size := by
  obtain ⟨used, covers, -⟩ := h.run c ⟨hc, nofun⟩
  rw [run] at covers
  obtain ⟨w, hw, ha⟩ := covers
  exact size_lt hP hw ha

theorem size_le_of_run {p : Parser α} (h : Reads n none p P) {c c' : Cursor} {a : α}
    (hc : c.size < n) (run : p c = .ok a c') : c'.size ≤ c.size := by
  obtain ⟨used, covers, -⟩ := h.run c ⟨hc, nofun⟩
  rw [run] at covers
  obtain ⟨w, hw, -⟩ := covers
  exact Nat.le_trans (Nat.le_add_right _ _) hw.size

theorem size_of_step {p : Parser (Option α)} (hP : P.Advances) (h : Reads n none p (orStop P Q))
    {c c' : Cursor} {a : α} (hc : c.size < n) (run : p c = .ok (some a) c') : c'.size < c.size := by
  obtain ⟨used, covers, -⟩ := h.run c ⟨hc, nofun⟩
  rw [run] at covers
  obtain ⟨w, hw, h | h⟩ := covers
  · obtain ⟨b, hb, -⟩ := map_iff.1 h
    exact size_lt hP hw hb
  · obtain ⟨b, -, h⟩ := map_iff.1 h
    cases h

theorem collect {step : List α → Parser (Option α)} (hP : P.Advances) (hQ : Q.Viable [])
    (hstep : ∀ found, Reads n none (step found) (orStop P Q)) :
    Reads n none (Parser.collect step) (upTo P Q []) := by
  refine (collectWithin hP hQ hstep (Nat.le_refl n) (Nat.le_refl n) []).congr fun c hc => ?_
  exact Parser.collectWithin_bound (fun found _ _ _ => size_of_step hP (hstep found)) hc
    (Nat.lt_succ_self _) hc

end Reads

/-! ## Nesting -/

/-- What is needed of a body that stands for a parser which nests in itself: the outer one takes a
token before the inner one starts, so what is nested only matters where fewer answers are unused. -/
structure Parser.Deepens (body : Parser α → Parser α) (P : Phrase α) : Prop where
  viable : P.Viable []
  reads : ∀ n inner, Reads n none inner P → Reads (n + 1) none (body inner) P
  agrees : ∀ n inner inner', Reads n none inner P → AgreeBelow n inner inner' →
    AgreeBelow (n + 1) (body inner) (body inner')

namespace Parser.Deepens

open Cursor

variable {body : Parser α → Parser α} {P : Phrase α}

theorem bounded (h : Deepens body P) (k : Nat) : Reads k none (nestedWithin body k) P := by
  induction k with
  | zero => exact ⟨h.viable, fun c hc => absurd hc.1 (Nat.not_lt_zero _)⟩
  | succ k ih => exact h.reads k _ ih

/-- A deeper bound makes no difference, since all that is nested reads the phrase as well. -/
theorem deeper (h : Deepens body P) {k m : Nat} (hkm : k ≤ m) :
    AgreeBelow k (nestedWithin body k) (nestedWithin body m) := by
  induction k generalizing m with
  | zero => exact fun c hc => absurd hc (Nat.not_lt_zero _)
  | succ k ih =>
    obtain ⟨m, rfl⟩ : ∃ i, m = i + 1 := Nat.exists_eq_succ_of_ne_zero (by omega)
    exact h.agrees k _ _ (h.bounded k) (ih (Nat.le_of_succ_le_succ hkm))

theorem nested (h : Deepens body P) {n : Nat} : Reads n none (Parser.nested body) P :=
  (h.bounded n).congr fun c hc => h.deeper hc c (Nat.lt_succ_self _)

/-- A parser that nests in itself is what its body makes of it. -/
theorem nested_eq (h : Deepens body P) : Parser.nested body = body (Parser.nested body) := by
  funext c
  have inner : AgreeBelow c.size (nestedWithin body c.size) (Parser.nested body) :=
    fun d hd => (h.deeper hd d (Nat.lt_succ_self _)).symm
  exact h.agrees c.size _ _ (h.bounded c.size) inner c (Nat.lt_succ_self _)

end Parser.Deepens

end ProtoSchema
