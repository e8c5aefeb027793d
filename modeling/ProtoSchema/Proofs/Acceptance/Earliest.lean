import ProtoSchema.Proofs.Acceptance.Exact

/-! # Errors at the earliest token

Where a parser fails, what it took can still become a text of its production, with a token that the
error names next, but no longer with the token that stands there. A run that stops at a token has
used no answers behind it, so it would go the same way in front of a text that goes on with this
token; such texts, however, are accepted. Second packages are refused by another rule, so they are
not counted here. -/

namespace ProtoSchema

/-- The place an error points at, seen from a reader of items: a failure, or a token or the end of
the input that no text of the phrase has there. -/
def ParseError.Blames {α : Type} (e : ParseError) (P : Phrase α) (items : List Item)
    (u : List Lexeme) (c : Cursor) : Prop :=
  match e, c.held with
  | .fault _, _ => False
  | .invalidToken span, held => held = none ∧
      ∃ rest, items = u.map .token ++ .failure span :: rest
  | e, some x => e.span = x.span ∧ (∃ rest, items = u.map .token ++ .token x :: rest) ∧
      ¬ P.Viable (tokens u ++ [x.token])
  | e, none => e.span = .at c.stop ∧ items = u.map .token ∧ ∀ a, ¬ P (tokens u) a

/-- The two ways in which a run stops that is not stopped by a second package. -/
theorem ParseError.StopsAt.elim {e : ParseError} {c c' : Cursor} (h : e.StopsAt c c')
    (hd : ∀ first second, e ≠ .duplicatePackage first second) :
    (∃ span rest, e = .invalidToken span ∧ c.held = none ∧
        c.pending = some (.failure span) :: rest ∧ c' = c.missed span rest) ∨
      ((∀ span, e ≠ .invalidToken span) ∧ (∀ broken, e ≠ .fault broken) ∧ c' = c ∧
        e.span = c.sighting.span ∧ (c.held = none → c.answered.head? = some none)) := by
  cases e with
  | invalidToken span =>
    obtain ⟨held, rest, pending, rfl⟩ := h
    exact .inl ⟨span, rest, rfl, held, pending, rfl⟩
  | duplicatePackage first second => exact absurd rfl (hd first second)
  | fault broken => exact False.elim h
  | _ => exact .inr ⟨nofun, nofun, h⟩

theorem answers_eq_map (w : List Lexeme) : answers w = (w.map Item.token).map some :=
  (List.map_map ..).symm

theorem filter_map_some (items : List Item) :
    (items.map some).filter Option.isSome = items.map some := List.filter_eq_self.2 (by simp)

/-- Items up to one that has been used, where what came before it were tokens. -/
theorem items_split {items : List Item} {w : List Lexeme} {k : Nat} {xs rest : List (Option Item)}
    {i : Item} (h : items.map some ++ List.replicate k none = xs ++ some i :: rest)
    (hw : xs.filter Option.isSome = answers w) :
    xs = answers w ∧ ∃ rest, items = w.map .token ++ i :: rest := by
  rcases List.append_eq_append_iff.1 h with ⟨ys, -, he⟩ | ⟨ys, hi, he⟩
  · have : some i ∈ List.replicate k none := by rw [he]; simp
    simp at this
  · cases ys with
    | nil =>
      have : some i ∈ List.replicate k none := by rw [← he.trans (List.nil_append _)]; simp
      simp at this
    | cons y ys =>
      obtain ⟨front, back, rfl, rfl, hb⟩ := List.map_eq_append_iff.1 hi
      rw [filter_map_some] at hw
      obtain ⟨j, back, rfl, rfl, -⟩ := List.map_eq_cons_iff.1 hb
      obtain ⟨he, -⟩ : some i = some j ∧ _ := by simpa using he
      cases he
      rw [answers_eq_map] at hw
      have front_eq := (List.map_inj_right fun _ _ => Option.some.inj).1 hw
      exact ⟨by rw [hw, answers_eq_map], back, by rw [front_eq]⟩

/-- Items whose end has been reported, where what came before it were tokens. -/
theorem items_ended {items : List Item} {w : List Lexeme} {k : Nat} {xs rest : List (Option Item)}
    (h : items.map some ++ List.replicate k none = xs ++ none :: rest)
    (hw : xs.filter Option.isSome = answers w) : items = w.map .token := by
  have all : xs.filter Option.isSome = items.map some := by
    rcases List.append_eq_append_iff.1 h with ⟨ys, rfl, he⟩ | ⟨ys, hi, he⟩
    · have ends : ys.filter Option.isSome = [] := by
        refine List.filter_eq_nil_iff.2 fun y hy => ?_
        have : y ∈ List.replicate k none := by rw [he]; exact List.mem_append_left _ hy
        simp [List.eq_of_mem_replicate this]
      rw [List.filter_append, filter_map_some, ends, List.append_nil]
    · cases ys with
      | nil => rw [← List.append_nil xs, ← hi, filter_map_some]
      | cons y ys =>
        obtain ⟨rfl, -⟩ : none = y ∧ _ := by simpa using he
        have : none ∈ items.map some := by rw [hi]; simp
        simp at this
  rw [all, answers_eq_map] at hw
  exact (List.map_inj_right fun _ _ => Option.some.inj).1 hw

namespace Node
open Cursor Phrase

/-- A text of a production, packages not counted, is read to its end at the end of the input, or
refused because of a second package. -/
theorem runs_of_openPhrase {nd : Node} {c : Cursor} {w : List Lexeme} {t : nd.Tree}
    (hc : c.ahead = answers w) (h : nd.openPhrase (tokens w) t) :
    (∃ t c', nd.parser c = .ok t c') ∨
      ∃ first second c', nd.parser c = .error (.duplicatePackage first second) c' := by
  have hc' : c.ahead = answers w ++ [] := by simpa using hc
  by_cases file : nd = .file
  · subst file
    obtain ⟨-, -, ⟨-, c', run, -⟩ | ⟨-, first, second, c', run⟩⟩ := Parser.file_run h rfl hc'
    · exact .inl ⟨t, c', run⟩
    · exact .inr ⟨first, second, c', run⟩
  · have same : nd.openPhrase = nd.phrase := by cases nd <;> first | rfl | exact absurd rfl file
    obtain ⟨c', run, -⟩ := runs_of_phrase hc' (same ▸ h) (nd.stops_nil t)
    exact .inl ⟨t, c', run⟩

/-- A token at which a run stops does not continue what was taken. -/
theorem not_viable_of_run {nd : Node} {items : List Item} {e : ParseError} {c' : Cursor}
    {x : Lexeme} (run : nd.parser (.ofItems items) = .error e c') (hx : c'.held = some x)
    (hd : ∀ first second, e ≠ .duplicatePackage first second)
    (hi : ∀ span, e ≠ .invalidToken span) :
    ¬ nd.openPhrase.Viable (tokens c'.taken.reverse ++ [x.token]) := by
  rintro ⟨v, t, ht⟩
  let w : List Lexeme := v.map fun u => ⟨u, .at 0⟩
  have hw : tokens w = v := by simp [w, tokens, Function.comp_def]
  -- the bound has room for what has been used and for the rest of the text
  let n := items.length + c'.answered.length + w.length + 2
  have small : (Cursor.ofItems items).size = items.length := by simp [ofItems, ofAnswers, size]
  obtain ⟨used, covers, steady⟩ :=
    (nd.reads_node n).run (.ofItems items) ⟨by omega, fun t h => by cases h⟩
  rw [run] at covers
  obtain ⟨u, c₁, moves, stops, -⟩ := covers
  obtain ⟨span, -, rfl, -⟩ | ⟨-, -, rfl, -⟩ := stops.elim hd
  · exact hi span rfl
  obtain ⟨k, supply⟩ := moves.supply
  obtain ⟨xs, passed, filter⟩ := moves.passed
  have used_eq : used = xs ++ [some (.token x)] := by simpa [ofItems, ofAnswers, hx] using passed
  rw [used_eq, List.append_assoc] at supply
  obtain ⟨rfl, -⟩ := items_split supply filter
  have length := congrArg List.length moves.answered
  simp only [List.length_append, List.length_reverse] at length
  have plain (span : Span) (d : Cursor)
      (h : nd.parser (.ofItems items) = .error (.invalidToken span) d) : False := by
    rw [run] at h
    cases h
    exact hi span rfl
  have other := steady plain (answers w) (by
    rw [facing_ofItems, size_eq_length_ahead, ahead_ofAnswers, List.length_append, length_answers]
    omega)
  have text : nd.openPhrase (tokens (u ++ x :: w)) t := by
    simpa [moves.taken, ofItems, ofAnswers, hw] using ht
  have ahead :
      ((Cursor.ofItems items).facing (used ++ answers w)).ahead = answers (u ++ x :: w) := by
    simp [facing_ofItems, used_eq]
  rw [run] at other
  obtain ⟨t', c₂, ok⟩ | ⟨first, second, c₂, refused⟩ := runs_of_openPhrase ahead text
  · rw [ok] at other
    cases other
  · rw [refused] at other
    cases other
    exact hd first second rfl

/-- Every error but that about a second package is found at the earliest token: what was taken can
become a text of the production, also with any token that the error names next, but not with what
stands there. -/
theorem error_earliest {nd : Node} {items : List Item} {e : ParseError} {c' : Cursor}
    (run : nd.parser (.ofItems items) = .error e c')
    (hd : ∀ first second, e ≠ .duplicatePackage first second) :
    ∃ u, c'.taken = u.reverse ∧ nd.openPhrase.Viable (tokens u) ∧
      (∀ t, e.Names t → nd.openPhrase.Viable (tokens u ++ [t])) ∧
      e.Blames nd.openPhrase items u c' := by
  obtain ⟨used, covers, -⟩ := (nd.reads_node _).run (.ofItems items) ⟨Nat.lt_succ_self _, nofun⟩
  rw [run] at covers
  obtain ⟨u, c₁, moves, stops, fits⟩ := covers
  have taken : c₁.taken = u.reverse := by simpa [ofItems, ofAnswers] using moves.taken
  have viable := fits [] ⟨hd, .inl rfl⟩
  rw [List.append_nil] at viable
  have named (t : Token) (ht : e.Names t) := fits [t] ⟨hd, .inr ⟨t, rfl, ht⟩⟩
  obtain ⟨k, supply⟩ := moves.supply
  obtain ⟨xs, passed, filter⟩ := moves.passed
  change answers [] ++ used = _ at passed
  change items.map some ++ _ = _ at supply
  rw [answers_nil, List.nil_append] at passed
  obtain ⟨span, rest, rfl, held, pending, rfl⟩ | ⟨hi, hf, rfl, place, ended⟩ := stops.elim hd
  · refine ⟨u, taken, viable, named, held, ?_⟩
    rw [passed, held, pending] at supply
    exact (items_split (by simpa using supply) filter).2
  refine ⟨u, taken, viable, named, ?_⟩
  cases held : c'.held with
  | some x =>
    have unfit := not_viable_of_run run held hd hi
    rw [taken, List.reverse_reverse] at unfit
    rw [passed, held] at supply
    obtain ⟨-, next⟩ := items_split (by simpa using supply) filter
    have here : e.span = x.span := by rw [place, sighting, held]
    unfold ParseError.Blames
    rw [held]
    cases e with
    | invalidToken span => exact absurd rfl (hi span)
    | fault broken => exact absurd rfl (hf broken)
    | _ => exact ⟨here, next, unfit⟩
  | none =>
    obtain ⟨before, last⟩ : ∃ before, used = before ++ [none] := by
      have answered : c'.answered = used.reverse := by
        simpa [ofItems, ofAnswers] using moves.answered
      obtain ⟨before, h⟩ := List.head?_eq_some_iff.1 (answered ▸ ended held)
      exact ⟨before.reverse, by simpa using congrArg List.reverse h⟩
    rw [held] at passed
    obtain rfl : used = xs := by simpa using passed
    rw [last, List.append_assoc] at supply
    rw [last, List.filter_append] at filter
    have all : items = u.map .token := items_ended supply (by simpa using filter)
    have short (t : nd.Tree) : ¬ nd.openPhrase (tokens u) t := fun h => by
      have ahead : (Cursor.ofItems items).ahead = answers u := by rw [answers_eq_map, ← all]; rfl
      obtain ⟨t', c₂, ok⟩ | ⟨first, second, c₂, refused⟩ := runs_of_openPhrase ahead h
      · rw [ok] at run
        cases run
      · rw [refused] at run
        cases run
        exact hd first second rfl
    have here : e.span = .at c'.stop := by rw [place, sighting, held]
    unfold ParseError.Blames
    rw [held]
    cases e with
    | invalidToken span => exact absurd rfl (hi span)
    | fault broken => exact absurd rfl (hf broken)
    | _ => exact ⟨here, all, short⟩

/-- A package statement without a name is refused at the semicolon, where a name would have
fitted. -/
theorem error_earliest_package :
    let keyword : Lexeme := ⟨⟨.keyword .packageKw, "package"⟩, ⟨0, 7⟩⟩
    let semicolon : Lexeme := ⟨⟨.semicolon, ";"⟩, ⟨8, 9⟩⟩
    ∃ c', Node.package.parser (.ofItems [.token keyword, .token semicolon]) =
        .error (.expectedIdentifier ⟨some semicolon.token, semicolon.span⟩) c' ∧
      Grammar.package.Viable [keyword.token, ⟨.identifier, "a"⟩] ∧
      ¬ Grammar.package.Viable [keyword.token, semicolon.token] := by
  intro keyword semicolon
  refine ⟨_, rfl, ?_⟩
  have run : Node.package.parser (.ofItems [.token keyword, .token semicolon]) =
    .error (.expectedIdentifier ⟨some semicolon.token, semicolon.span⟩) _ := rfl
  obtain ⟨u, taken, -, named, -, -, unfit⟩ := error_earliest run nofun
  obtain rfl : u = [keyword] := by
    simpa [ofItems, ofAnswers] using congrArg List.reverse taken.symm
  exact ⟨named ⟨.identifier, "a"⟩ rfl, unfit⟩

end Node

end ProtoSchema
