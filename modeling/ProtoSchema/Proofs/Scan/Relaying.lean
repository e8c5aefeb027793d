import ProtoSchema.Proofs.Scan.LongestMatch

/-! # Other layouts of a source

A source without failures is written anew: its tokens stay, and between them stand other blanks and
comments, with something left wherever there was something. The same tokens are read from it. A
token is seen as far as the tokens reach that directly follow it, and these are the same as before,
up to a gap or the end; behind this point no token but a literal goes on, and a literal is closed
already. -/

namespace ProtoSchema

/-- A text that may stand in front of any other one as a gap: its line comments have their line's
end, and its block comments are closed. -/
inductive Filler : List Char → Prop
  | nil : Filler []
  | blank {c cs} (hc : c ∈ [' ', '\t', '\n', '\x0b', '\x0c', '\r']) (rest : Filler cs) :
    Filler (c :: cs)
  | line {body cs} (hb : '\n' ∉ body) (rest : Filler cs) :
    Filler ('/' :: '/' :: (body ++ '\n' :: cs))
  | block {body cs} (first : ¬ ['*', '/'] <:+: body ++ ['*']) (rest : Filler cs) :
    Filler ('/' :: '*' :: (body ++ '*' :: '/' :: cs))

theorem Filler.gap {g : List Char} (h : Filler g) (after : List Char) : Gap g after := by
  induction h with
  | nil => exact .nil
  | blank hc _ ih => exact .blank hc ih
  | line hb _ ih => exact .line hb (by simp) (.blank (by decide) ih)
  | block first _ ih => exact .block first ih

/-- A text in which the tokens of some lexemes follow each other again, with fillers around them.
Lexemes that stood apart are kept apart: `stop` is where the one in front ended. -/
inductive Relaid : Option Nat → List Lexeme → List Char → Prop
  | done {stop g} (h : Filler g) : Relaid stop [] g
  | lexeme {stop l w g cs} (h : Filler g) (apart : ∀ p ∈ stop, p < l.span.start → g ≠ [])
    (further : Relaid (some l.span.stop) w cs) :
    Relaid stop (l :: w) (g ++ (l.token.text.toList ++ cs))

/-! ## Skipped characters -/

theorem head_gap {gap after : List Char} (h : Gap gap after) (full : gap ≠ []) (c : Char)
    (hc : gap.head? = some c) : c ∈ Segment.skipped := by
  cases h with
  | nil => exact absurd rfl full
  | blank hb =>
    cases hc
    exact List.mem_append_left ['/'] hb
  | line => cases hc; decide
  | block => cases hc; decide

/-- The characters with which a token that is no literal may go on. -/
def Segment.goesOn (c : Char) : Bool := Word.isPart c || c == '.' || c == '+' || c == '-'

theorem goesOn_of_isPart {c : Char} (h : Word.isPart c) : Segment.goesOn c := by
  simp [Segment.goesOn, h]

/-- Behind its first character, a token that is no literal has only characters with which it may go
on. -/
theorem goesOn_of_mem_tail {k : TokenKind} (literal : k ≠ .stringLiteral) {w : List Char}
    (h : w ∈ k.pattern) {c : Char} (hc : c ∈ w.tail) : Segment.goesOn c := by
  have word (hw : w ∈ Pattern.word) : Segment.goesOn c := by
    obtain ⟨d, ds, rfl, -, parts⟩ := Pattern.mem_word.1 hw
    exact goesOn_of_isPart (parts c hc)
  have digit (d : Char) (hd : d.isDigit) : Segment.goesOn d :=
    goesOn_of_isPart (by simp [Word.isPart, Char.isAlphanum, hd])
  have power {v : List Char} (hv : v ∈ Pattern.exponent) (hc : c ∈ v) : Segment.goesOn c := by
    obtain ⟨m, s, ds, rfl, mark, sign, -, digits⟩ := Pattern.mem_exponent.1 hv
    rcases List.mem_cons.1 hc with rfl | hc
    · rcases mark with rfl | rfl <;> decide
    rcases List.mem_append.1 hc with hc | hc
    · rcases sign with rfl | rfl | rfl
      · cases hc
      · rw [List.mem_singleton.1 hc]; decide
      · rw [List.mem_singleton.1 hc]; decide
    · exact digit c (digits c hc)
  cases k with
  | identifier => exact word h
  | keyword k =>
    obtain rfl := Set.mem_singleton_iff.1 h
    exact word k.mem_word
  | scalar t =>
    obtain rfl := Set.mem_singleton_iff.1 h
    exact word t.mem_word
  | stringLiteral => exact absurd rfl literal
  | decimalLiteral => exact digit c ((Pattern.mem_digits.1 h).2 c (List.mem_of_mem_tail hc))
  | floatLiteral =>
    have hc := List.mem_of_mem_tail hc
    obtain ⟨whole, hw, ⟨fraction, exponent, hf, -, he, rfl⟩ | ⟨-, exponent, he, rfl⟩⟩ :=
      Pattern.mem_float.1 h
    · rcases List.mem_append.1 hc with hc | hc
      · exact digit c (hw c hc)
      rcases List.mem_cons.1 hc with rfl | hc
      · decide
      rcases List.mem_append.1 hc with hc | hc
      · exact digit c (hf c hc)
      · rcases Pattern.mem_maybe.1 he with rfl | he
        · cases hc
        · exact power he hc
    · rcases List.mem_append.1 hc with hc | hc
      · exact digit c (hw c hc)
      · exact power he hc
  | mark m =>
    rw [Set.mem_singleton_iff.1 h, Mark.text, String.toList_ofList] at hc
    cases hc
  | blockComment => cases h

theorem goesOn_of_skipped {c : Char} (h : c ∈ Segment.skipped) : Segment.goesOn c = false := by
  have none : Segment.skipped.any Segment.goesOn = false := by decide
  simpa using List.any_eq_false.1 none c h

/-! ## How far a token is seen -/

/-- That a text goes on like another one, up to where it ends or something is skipped in it. -/
def Parallel (cs cs' : List Char) : Prop :=
  ∃ u x y, cs = u ++ x ∧ cs' = u ++ y ∧ ∀ c, y.head? = some c → c ∈ Segment.skipped

theorem Parallel.append {cs cs' : List Char} (h : Parallel cs cs') (w : List Char) :
    Parallel (w ++ cs) (w ++ cs') := by
  obtain ⟨u, x, y, rfl, rfl, head⟩ := h
  exact ⟨w ++ u, x, y, by simp, by simp, head⟩

namespace Segment

variable {c : Char} {cs : List Char} {k : TokenKind}

theorem scan_of_longest {w : List Char} (h : Longest k w (c :: cs)) :
    scan c cs = (.token k, w.length - 1) := by
  have decides := decides_scan c cs
  cases result : scan c cs with
  | mk kind n =>
    have bound := scan_le c cs
    rw [result] at decides bound
    cases kind with
    | token l =>
      obtain ⟨rfl, rfl⟩ := h.unique decides
      rw [List.length_cons, List.length_take_of_le bound, Nat.add_sub_cancel]
    | trivia => exact absurd h.declared (decides k w h.front)
    | failure => exact absurd h.declared (decides k w h.front)

/-- A token is read again in front of a text that goes on in the same way, up to a character with
which no token goes on but a literal. -/
theorem scan_upTo {bs u x y : List Char} (h : scan c (bs ++ (u ++ x)) = (.token k, bs.length))
    (stops : ∀ e, y.head? = some e → goesOn e = false) :
    scan c (bs ++ (u ++ y)) = (.token k, bs.length) := by
  by_cases literal : k = .stringLiteral
  · subst literal
    have ends : TokenKind.stringLiteral.EndsBefore (u ++ y) := fun _ _ => rfl
    have again := scan_append h ends
    rwa [List.take_left] at again
  have longest := decides_scan c (bs ++ (u ++ x))
  rw [h] at longest
  change Longest k (c :: (bs ++ (u ++ x)).take bs.length) (c :: (bs ++ (u ++ x))) at longest
  rw [List.take_left] at longest
  have start := TokenKind.starts_of_front longest.declared longest.front
  have again : Longest k (c :: bs) (c :: (bs ++ (u ++ y))) := by
    refine ⟨⟨u ++ y, rfl⟩, longest.declared, fun l v hv hl => ?_, longest.preferred⟩
    have other : l ≠ .stringLiteral := by
      rintro rfl
      have quote := TokenKind.starts_of_front hl hv
      exact literal (TokenKind.eq_stringLiteral_of_quote start quote)
    rw [← List.append_assoc, ← List.cons_append] at hv
    by_cases short : v.length ≤ (c :: (bs ++ u)).length
    · have inside := List.prefix_of_prefix_length_le hv (List.prefix_append _ y) short
      apply longest.longest l v _ hl
      rw [← List.append_assoc, ← List.cons_append]
      exact inside.trans (List.prefix_append _ x)
    · obtain ⟨d, rfl⟩ := List.prefix_of_prefix_length_le (List.prefix_append _ y) hv (by omega)
      cases d with
      | nil => simp at short
      | cons e d =>
        obtain ⟨ds, rfl⟩ := (List.prefix_append_right_inj _).1 hv
        have on := goesOn_of_mem_tail (c := e) other hl (by simp)
        rw [stops e rfl] at on
        cases on
  have result := scan_of_longest again
  simpa using result

/-- A token is read again in front of a text that goes on in parallel. -/
theorem scan_parallel {bs after after' : List Char}
    (h : scan c (bs ++ after) = (.token k, bs.length))
    (along : Parallel after after') : scan c (bs ++ after') = (.token k, bs.length) := by
  obtain ⟨u, x, y, rfl, rfl, head⟩ := along
  exact scan_upTo h fun e he => goesOn_of_skipped (head e he)

/-- Where a text offers a token first: behind a gap, with the further items behind it. -/
theorem items_front {p : Nat} {cs : List Char} {l : Lexeme} {is : List Item}
    (h : items p (cut cs) = .token l :: is) : ∃ gap c bs rest, cs = gap ++ (c :: bs ++ rest) ∧
      Gap gap (c :: bs ++ rest) ∧ l.token.text.toList = c :: bs ∧
      l.span.start = p + byteLength gap ∧
      scan c (bs ++ rest) = (.token l.token.kind, bs.length) ∧
      items l.span.stop (cut rest) = is := by
  induction cs using cut_induction generalizing p with
  | nil => cases h
  | cons c cs ih =>
    rw [items_cons] at h
    cases item : (first c cs).item? p with
    | none =>
      rw [item, Option.toList_none, List.nil_append] at h
      obtain ⟨gap, d, bs, rest, eq, skipped, text, start, scanned, further⟩ := ih h
      have trivia : (scan c cs).1 = .trivia := by
        cases kind : (scan c cs).1 with
        | trivia => rfl
        | token k => simp [item?, first, kind] at item
        | failure => simp [item?, first, kind] at item
      refine ⟨(first c cs).chars ++ gap, d, bs, rest, ?_, ?_, text, ?_, scanned, further⟩
      · rw [List.append_assoc, ← eq]
        simp [first]
      · exact .append (eq ▸ Trivia.gap_of_scan (trivia_of_scan trivia)) skipped
      · rw [start, width, byteLength_append, Nat.add_assoc]
    | some i =>
      rw [item, Option.toList_some, List.singleton_append] at h
      obtain ⟨rfl, further⟩ := List.cons.inj h
      obtain ⟨kind, text⟩ := item?_eq_token item
      have span : l.span = ⟨p, p + (first c cs).width⟩ := by
        rw [item?, kind] at item
        exact congrArg Lexeme.span (Item.token.inj (Option.some.inj item)).symm
      refine ⟨[], c, cs.take (scan c cs).2, cs.drop (scan c cs).2, by simp, .nil, ?_, ?_, ?_, ?_⟩
      · rw [text, Segment.text, String.toList_ofList]
        rfl
      · rw [span, byteLength_nil, Nat.add_zero]
      · rw [List.take_append_drop, List.length_take_of_le (scan_le c cs)]
        exact Prod.ext kind rfl
      · rw [span]
        exact further

end Segment

/-! ## Reading another layout -/

theorem eq_nil_of_byteLength {cs : List Char} (h : byteLength cs = 0) : cs = [] := by
  cases cs with
  | nil => rfl
  | cons c cs =>
    have := c.utf8Size_pos
    rw [byteLength_cons] at h
    omega

/-- What starts with something skipped goes on like any text. -/
theorem Filler.parallel {g after cs : List Char} (h : Filler g) (full : after = [] ∨ g ≠ []) :
    Parallel cs (g ++ after) := by
  refine ⟨[], cs, g ++ after, rfl, rfl, fun c hc => ?_⟩
  cases g with
  | nil =>
    obtain rfl := full.resolve_right (· rfl)
    cases hc
  | cons d g => exact head_gap (h.gap after) (List.cons_ne_nil _ _) c hc

/-- The tokens of a text are read from every text in which they are laid out anew, which goes on
like the old one behind a token that ends where the old text starts. -/
theorem Relaid.items {stop : Option Nat} {w : List Lexeme} {cs' : List Char} (h : Relaid stop w cs')
    {p : Nat} {cs : List Char} (old : Segment.items p (Segment.cut cs) = w.map .token) :
    (∀ p', ∃ w', Segment.items p' (Segment.cut cs') = w'.map .token ∧ tokens w' = tokens w) ∧
      (stop = some p → Parallel cs cs') := by
  induction h generalizing p cs with
  | @done _ g h =>
    have none (p' : Nat) := Segment.items_gap (h.gap []) p'
    have along : Parallel cs (g ++ []) := h.parallel (.inl rfl)
    rw [List.append_nil] at none along
    exact ⟨fun p' => ⟨[], none p', rfl⟩, fun _ => along⟩
  | @lexeme stop l w g after' h apart _ ih =>
    obtain ⟨gap, c, bs, after, rfl, -, text, start, scanned, further⟩ := Segment.items_front old
    obtain ⟨again, along⟩ := ih further
    have scanned' := Segment.scan_parallel scanned (along rfl)
    refine ⟨fun p' => ?_, ?_⟩
    · let q := p' + byteLength g
      obtain ⟨w', items, same⟩ := again (q + byteLength (c :: bs))
      refine ⟨⟨l.token, ⟨q, q + byteLength (c :: bs)⟩⟩ :: w', ?_,
        by rw [tokens_cons, same, tokens_cons]⟩
      rw [Segment.items_gap (h.gap _), text, List.cons_append, Segment.items_token scanned',
        List.take_left, List.drop_left, items, ← text, String.ofList_toList, List.map_cons]
    · rintro rfl
      by_cases full : g = []
      · subst full
        have closed : byteLength gap = 0 := by
          by_contra wide
          exact apart p rfl (by omega) rfl
        obtain rfl := eq_nil_of_byteLength closed
        rw [text, List.nil_append, List.nil_append]
        exact (along rfl).append (c :: bs)
      · exact h.parallel (.inr full)

end ProtoSchema
