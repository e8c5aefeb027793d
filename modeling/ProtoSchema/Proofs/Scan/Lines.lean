import ProtoSchema.Proofs.Scan.Closing

/-! # Lines

No item but a block comment goes beyond the end of its line. Whatever a line consists of, and be it
text that no token can be read from, the next line is read as if it stood alone, unless a block
comment has been left open. -/

namespace ProtoSchema

/-- A gap stays whole in front of a line's end. -/
theorem Gap.line_end {gap after : List Char} (h : Gap gap after) (bs : List Char) :
    Gap gap (after ++ '\n' :: bs) := by
  induction h with
  | nil => exact .nil
  | blank hc _ ih => exact .blank hc ih
  | @line body cs after hb he _ ih =>
    refine .line hb (fun c hc => ?_) ih
    rw [← List.append_assoc, List.head?_append, Option.or_eq_some_iff] at hc
    rcases hc with hc | ⟨-, hc⟩
    · exact he c hc
    · cases hc
      rfl
  | block first _ ih => exact .block first ih

/-- A literal that is not closed breaks off at the line's end as it does at the end of the text. -/
theorem Quoted.reach_line (quote : Char) (cs bs : List Char) :
    reach quote (cs ++ '\n' :: bs) = reach quote cs := by
  fun_induction reach quote cs with
  | case1 => rfl
  | case2 => rfl
  | case3 => rfl
  | case4 => rfl
  | case5 c cs line ih => simp [reach, line, ih]
  | case6 cs line last pair =>
    have escape : quote ≠ '\\' := fun h => by cases cs <;> simp_all
    simp [reach_cons quote _ line escape]
  | case7 c cs line last pair other ih =>
    have escape : c ≠ '\\' := fun h => by cases cs <;> simp_all
    rw [List.cons_append, reach_cons quote _ line escape, if_neg other, ih]

namespace Trivia

variable {c : Char} {cs : List Char} {n : Nat}

theorem scan_line (h : scan c cs = none) (bs : List Char) : scan c (cs ++ '\n' :: bs) = none := by
  unfold scan at h ⊢
  split at h
  · cases h
  · next blank =>
    rw [if_neg blank]
    cases cs with
    | nil => simp
    | cons d cs =>
      split at h
      · cases h
      · next comment =>
        split at h <;> cases h
      · next line block => split <;> simp_all

/-- Blanks and whole comments apart, what is skipped is a comment that is left open. -/
theorem front_of_failure (h : scan c cs = some (.failure, n)) : ['/', '*'] <+: c :: cs := by
  unfold scan at h
  split at h
  · cases h
  · split at h
    · cases h
    · exact ⟨_, rfl⟩
    · cases h

end Trivia

theorem Number.exists_token {c : Char} {cs : List Char} {r : SegmentKind × Nat}
    (h : scan c cs = some r) : ∃ k n, r = (.token k, n) := by
  unfold scan at h
  split at h
  · cases h
    exact ⟨_, _, rfl⟩
  · split at h
    · cases h
      exact ⟨_, _, rfl⟩
    · cases h

namespace Segment

variable {c : Char} {cs : List Char} {n : Nat}

/-- Words, numbers and marks are tokens whatever follows their start. -/
theorem exists_token (h : Word.isStart c ∨ c.isDigit ∨ ∃ m : Mark, c = m.char) (cs : List Char) :
    ∃ k n, scan c cs = (.token k, n) := by
  rcases h with word | digit | ⟨m, rfl⟩
  · rw [scan, scan?_word word, Word.scan, if_pos word]
    exact ⟨_, _, rfl⟩
  · rw [scan, scan?_digit digit]
    cases found : Number.scan c cs with
    | some r => exact Number.exists_token found
    | none =>
      unfold Number.scan at found
      split at found
      · cases found
      · rw [if_pos digit] at found
        cases found
  · rw [scan, scan?_mark]
    cases found : Number.scan m.char cs with
    | some r => exact Number.exists_token found
    | none => exact ⟨_, _, rfl⟩

/-- A failure starts with a quote, or where no token starts. -/
theorem scan_of_failure (h : scan c cs = (.failure, n)) :
    Quoted.isQuote c ∨ ∀ ds, scan? c ds = Trivia.scan c ds := by
  have none : ¬ (Word.isStart c ∨ c.isDigit ∨ ∃ m : Mark, c = m.char) := by
    intro start
    obtain ⟨k, m, token⟩ := exists_token start cs
    cases h.symm.trans token
  rw [not_or, not_or, not_exists] at none
  obtain ⟨word, digit, mark⟩ := none
  by_cases quote : Quoted.isQuote c
  · exact .inl quote
  · exact .inr (scan?_other word digit quote mark)

/-- Text in which there is no token stays so in front of a line's end. -/
theorem scan_failure_line (h : scan c cs = (.failure, n)) (closed : ¬ ['/', '*'] <+: c :: cs)
    (bs : List Char) : scan c (cs ++ '\n' :: bs) = (.failure, n) := by
  rcases scan_of_failure h with quote | other
  · rw [scan, scan?_quote quote, Quoted.scan, if_pos quote] at h ⊢
    rwa [Quoted.reach_line]
  · rw [scan, other] at h ⊢
    cases found : Trivia.scan c cs with
    | none => rwa [Trivia.scan_line found, ← found]
    | some r =>
      rw [found] at h
      cases h
      exact absurd (Trivia.front_of_failure found) closed

/-- What is neither skipped nor left open is read alike in front of a line's end. -/
theorem scan_line (skipped : (scan c cs).1 ≠ .trivia)
    (closed : (scan c cs).1 = .failure → ¬ ['/', '*'] <+: c :: cs) (bs : List Char) :
    scan c (cs ++ '\n' :: bs) = scan c cs := by
  cases result : scan c cs with
  | mk kind n =>
    have bound := scan_le c cs
    rw [result] at skipped closed bound
    cases kind with
    | token k =>
      have length : (cs.take n).length = n := List.length_take_of_le bound
      have token : scan c (cs.take n ++ (cs.drop n ++ [])) = (.token k, (cs.take n).length) := by
        rw [List.append_nil, List.take_append_drop, length, result]
      have again := scan_upTo (y := '\n' :: bs) token fun e he => by
        cases he
        rfl
      rwa [← List.append_assoc, List.take_append_drop, length] at again
    | trivia => exact absurd rfl skipped
    | failure => exact scan_failure_line result (closed rfl) bs

/-- A block comment that is left open takes all that is left. -/
theorem drop_of_open (h : scan c cs = (.failure, n)) (front : ['/', '*'] <+: c :: cs) :
    cs.drop n = [] := by
  obtain ⟨comment, eq⟩ := front
  cases eq
  cases closing : Trivia.closing? comment with
  | some m =>
    have step : Trivia.scan '/' ('*' :: comment) = some (.trivia, m + 1) := by
      simp [Trivia.scan, Trivia.isBlank, closing]
    cases h.symm.trans (scan_of_trivia step)
  | none =>
    have step : Trivia.scan '/' ('*' :: comment) = some (.failure, comment.length + 1) := by
      simp [Trivia.scan, Trivia.isBlank, closing]
    have failure : scan '/' ('*' :: comment) = (.failure, comment.length + 1) := by
      simp [scan, scan?, step]
    cases h.symm.trans failure
    simp

/-- That the last segment of a text is no block comment which is left open. -/
def Closed (ss : List Segment) : Prop :=
  ∀ s, ss.getLast? = some s → s.kind = .failure → ¬ ['/', '*'] <+: s.chars

theorem Closed.tail {s : Segment} {ss : List Segment} (h : Closed (s :: ss)) : Closed ss := by
  intro t last
  refine h t ?_
  rw [List.getLast?_cons, last, Option.getD_some]

theorem not_open (closed : Closed (cut (c :: cs))) (h : scan c cs = (.failure, n)) :
    ¬ ['/', '*'] <+: c :: cs := by
  intro front
  have last := drop_of_open h front
  have all : cs.take n = cs := by simpa [last] using List.take_append_drop n cs
  have whole : first c cs = ⟨.failure, c :: cs⟩ := by rw [first, h, all]
  rw [cut_cons, h, last, cut_nil, whole] at closed
  exact closed _ rfl rfl front

/-- The items of two texts with a line's end between them. -/
theorem items_line (bs : List Char) {cs : List Char} (closed : Closed (cut cs)) (p : Nat) :
    items p (cut (cs ++ '\n' :: bs)) =
      items p (cut cs) ++ items (p + byteLength (cs ++ ['\n'])) (cut bs) := by
  induction cs using cut_induction generalizing p with
  | nil => simp [items_blank (c := '\n') rfl, items]
  | cons c cs ih =>
    have ih := ih (cut_cons c cs ▸ closed).tail
    have whole : byteLength (c :: cs ++ ['\n']) =
        (first c cs).width + byteLength (cs.drop (scan c cs).2 ++ ['\n']) := by
      have chars : (first c cs).chars ++ cs.drop (scan c cs).2 = c :: cs := by simp [first]
      rw [width, ← byteLength_append, ← List.append_assoc, chars]
    by_cases skipped : (scan c cs).1 = .trivia
    · -- blanks go on behind the line's end, but a gap can be divided there
      have gap := Trivia.gap_of_scan (trivia_of_scan skipped)
      have here := items_gap gap p
      have there := items_gap (gap.line_end bs) p
      rw [List.cons_append, List.take_append_drop] at here
      rw [← List.append_assoc, List.cons_append, List.take_append_drop] at there
      rw [there, here, ih, whole, Nat.add_assoc]
      rfl
    · have same := scan_line skipped (fun failure => not_open closed (Prod.ext failure rfl)) bs
      have drop : (cs ++ '\n' :: bs).drop (scan c cs).2 = cs.drop (scan c cs).2 ++ '\n' :: bs :=
        List.drop_append_of_le_length (scan_le c cs)
      have first_eq : first c (cs ++ '\n' :: bs) = first c cs := by
        rw [first, first, same, List.take_append_of_le_length (scan_le c cs)]
      rw [List.cons_append, items_cons, items_cons, first_eq, same, drop, ih, whole,
        List.append_assoc, Nat.add_assoc]

/-- Tokens that are read before a line's end are read whatever stands behind it. -/
theorem items_line_front (bs : List Char) {w : List Lexeme} {p : Nat} {cs : List Char}
    {rest : List Item} (h : items p (cut cs) = w.map .token ++ rest) :
    ∃ rest', items p (cut (cs ++ '\n' :: bs)) = w.map .token ++ rest' := by
  induction w generalizing p cs with
  | nil => exact ⟨_, rfl⟩
  | cons l w ih =>
    obtain ⟨gap, c, ds, after, rfl, skipped, -, -, scanned, further⟩ := items_front h
    obtain ⟨rest', again⟩ := ih further
    have old := items_gap_token skipped scanned p
    obtain ⟨same, -⟩ := List.cons.inj (old.symm.trans h)
    have same := Item.token.inj same
    have stop : l.span.stop = p + byteLength gap + byteLength (c :: ds) := by rw [← same]
    have scanned' : scan c (ds ++ (after ++ '\n' :: bs)) = (.token l.token.kind, ds.length) := by
      rw [← List.append_assoc, scan_line (by rw [scanned]; nofun) (by rw [scanned]; nofun), scanned]
    have skipped' : Gap gap (c :: ds ++ (after ++ '\n' :: bs)) := by
      simpa using skipped.line_end bs
    have new := items_gap_token skipped' scanned' p
    rw [same, ← stop, again] at new
    exact ⟨rest', by simpa using new⟩

theorem items_concat (p : Nat) (ss : List Segment) (s : Segment) :
    items p (ss ++ [s]) =
      items p ss ++ (s.item? (p + byteLength (ss.map chars).flatten)).toList := by
  induction ss generalizing p with
  | nil => simp [items]
  | cons t ss ih => simp [items, ih, width, Nat.add_assoc]

/-- A block comment that is left open is the last item of its text. -/
theorem closed_of_lex {source : String}
    (h : ∀ span, (lex source).getLast? = some (.failure span) →
      ¬ ['/', '*'] <+: (slice source span).toList) :
    Closed (cut source.toList) := by
  intro s last failure
  obtain ⟨ss, split⟩ := List.getLast?_eq_some_iff.1 last
  have whole : source.toList = (ss.map chars).flatten ++ (s.chars ++ []) := by
    rw [← flatten_cut source.toList, split]
    simp
  have text := slice_eq whole
  have item : (lex source).getLast? = some (.failure
      ⟨byteLength (ss.map chars).flatten,
        byteLength (ss.map chars).flatten + byteLength s.chars⟩) := by
    rw [lex, split, items_concat, item?, failure]
    simp [width]
  have open' := h _ item
  rwa [text, String.toList_ofList] at open'

/-- A text in which there are only tokens leaves nothing open. -/
theorem closed_of_tokens {p : Nat} {cs : List Char} {w : List Lexeme}
    (h : items p (cut cs) = w.map .token) : Closed (cut cs) := by
  intro s last failure
  obtain ⟨ss, split⟩ := List.getLast?_eq_some_iff.1 last
  rw [split, items_concat, item?, failure] at h
  have mem : Item.failure ⟨p + byteLength (ss.map chars).flatten,
      p + byteLength (ss.map chars).flatten + s.width⟩ ∈ w.map Item.token := by
    rw [← h]
    simp
  obtain ⟨l, -, e⟩ := List.mem_map.1 mem
  cases e

end Segment

/-- A line's end lets a source be read from there as if it stood alone, whatever stands in front of
it: only a block comment that is left open goes on behind it. -/
theorem lex_line (a b : String)
    (closed : ∀ span, (lex a).getLast? = some (.failure span) →
      ¬ ['/', '*'] <+: (slice a span).toList) :
    lex (a ++ "\n" ++ b) = lex a ++ (lex b).map (.shift (a.utf8ByteSize + 1)) := by
  have width : byteLength (a.toList ++ ['\n']) = a.utf8ByteSize + 1 := by
    rw [byteLength_append, utf8ByteSize_eq_byteLength]
    rfl
  have text : (a ++ "\n" ++ b).toList = a.toList ++ '\n' :: b.toList := by simp
  have items := Segment.items_line b.toList (Segment.closed_of_lex closed) 0
  rw [width, Nat.zero_add] at items
  rw [lex, text, items, lex, lex, ← Segment.items_shift, Nat.add_zero]

/-- An open literal with a backslash at its end leaves the next line as it is. -/
theorem lex_line_backslash :
    let a := "x \"s\\"
    (∀ span, (lex a).getLast? = some (.failure span) → ¬ ['/', '*'] <+: (slice a span).toList) ∧
      lex (a ++ "\n" ++ "y") =
        [.token ⟨⟨.identifier, "x"⟩, ⟨0, 1⟩⟩, .failure ⟨2, 4⟩, .failure ⟨4, 5⟩,
          .token ⟨⟨.identifier, "y"⟩, ⟨6, 7⟩⟩] := by
  intro a
  have items : lex a = [.token ⟨⟨.identifier, "x"⟩, ⟨0, 1⟩⟩, .failure ⟨2, 4⟩, .failure ⟨4, 5⟩] := by
    decide +kernel
  have next : lex "y" = [.token ⟨⟨.identifier, "y"⟩, ⟨0, 1⟩⟩] := by decide +kernel
  have closed (span : Span) (last : (lex a).getLast? = some (.failure span)) :
      ¬ ['/', '*'] <+: (slice a span).toList := by
    rw [items] at last
    cases last
    decide +kernel
  refine ⟨closed, ?_⟩
  rw [lex_line a "y" closed, items, next]
  rfl

end ProtoSchema
