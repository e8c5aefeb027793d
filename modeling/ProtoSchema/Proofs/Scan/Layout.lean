import ProtoSchema.Proofs.Cursor.Ahead
import ProtoSchema.Proofs.Scan.Locality
import ProtoSchema.Proofs.Scan.Tiling

/-! # Layouts

The tokens that are read from a source can be read from any other text in which they follow each
other with gaps between them. Two tokens need a gap only where the second one would go on with the
first. -/

namespace ProtoSchema

/-- That a token is what is read from its own text. -/
def Token.Scans (t : Token) : Prop := lex t.text = [.token ⟨t, ⟨0, t.text.utf8ByteSize⟩⟩]

/-- A text in which some tokens follow each other, with gaps around them. -/
inductive Layout : List Token → List Char → Prop
  | done {gap} (h : Gap gap []) : Layout [] gap
  | token {t ts g cs} (h : Gap g (t.text.toList ++ cs)) (ends : t.kind.EndsBefore cs)
    (further : Layout ts cs) : Layout (t :: ts) (g ++ (t.text.toList ++ cs))

/-! ## Gaps are skipped -/

namespace Trivia

theorem closing?_of_first {body rest : List Char} (h : ¬ ['*', '/'] <:+: body ++ ['*']) :
    closing? (body ++ '*' :: '/' :: rest) = some (body.length + 2) := by
  induction body with
  | nil => rfl
  | cons c body ih =>
    have further : closing? (body ++ '*' :: '/' :: rest) = some (body.length + 2) :=
      ih fun inside => h (List.infix_cons inside)
    rw [List.cons_append, closing?]
    · simp [further]
    · rintro tail rfl eq
      cases body with
      | nil => cases eq
      | cons b body =>
        cases eq
        exact h ⟨[], body ++ ['*'], rfl⟩

end Trivia

namespace Segment

variable {c : Char} {cs : List Char} {n : Nat}

theorem items_cons (p : Nat) (c : Char) (cs : List Char) : items p (cut (c :: cs)) =
    ((first c cs).item? p).toList ++
      items (p + (first c cs).width) (cut (cs.drop (scan c cs).2)) := by
  rw [cut_cons, items]

theorem scan_of_trivia (h : Trivia.scan c cs = some (.trivia, n)) : scan c cs = (.trivia, n) := by
  simp [scan, scan?, h]

theorem items_of_trivia (h : Trivia.scan c cs = some (.trivia, n)) (p : Nat) :
    items p (cut (c :: cs)) = items (p + byteLength (c :: cs.take n)) (cut (cs.drop n)) := by
  rw [items_cons]
  simp [item?, first, scan_of_trivia h, width]

/-- A blank is skipped, whether or not others follow it. -/
theorem items_blank (h : Trivia.isBlank c) (p : Nat) (cs : List Char) :
    items p (cut (c :: cs)) = items (p + byteLength [c]) (cut cs) := by
  have run (b : Char) (bs : List Char) (hb : Trivia.isBlank b) :
      Trivia.scan b bs = some (.trivia, runLength Trivia.isBlank bs) := if_pos hb
  rw [items_of_trivia (run c cs h)]
  cases cs with
  | nil => rfl
  | cons b cs =>
    by_cases hb : Trivia.isBlank b
    · rw [items_of_trivia (run b cs hb)]
      simp [runLength, hb, byteLength, Nat.add_assoc]
    · simp [runLength, hb]

/-- A gap gives no items. -/
theorem items_gap {gap rest : List Char} (h : Gap gap rest) (p : Nat) :
    items p (cut (gap ++ rest)) = items (p + byteLength gap) (cut rest) := by
  induction h generalizing p with
  | nil => simp
  | @blank c cs rest hc _ ih =>
    have blank : Trivia.isBlank c := by simpa [Trivia.isBlank, or_assoc] using hc
    rw [List.cons_append, items_blank blank, ih]
    simp [byteLength, Nat.add_assoc]
  | @line body cs rest hb he _ ih =>
    have run : runLength (· != '\n') (body ++ (cs ++ rest)) = body.length :=
      runLength_append (fun c hc => by simpa using ne_of_mem_of_not_mem hc hb)
        fun c hc => by simpa using he c hc
    have comment : Trivia.scan '/' ('/' :: (body ++ (cs ++ rest))) =
        some (.trivia, body.length + 1) := by
      simp [Trivia.scan, Trivia.isBlank, run]
    have skipped := items_of_trivia comment p
    simp only [List.take_succ_cons, List.drop_succ_cons, List.take_left, List.drop_left] at skipped
    rw [List.cons_append, List.cons_append, List.append_assoc, skipped, ih]
    simp [Nat.add_assoc]
  | @block body cs rest first _ ih =>
    have comment : Trivia.scan '/' ('*' :: (body ++ '*' :: '/' :: (cs ++ rest))) =
        some (.trivia, body.length + 3) := by
      simp [Trivia.scan, Trivia.isBlank, Trivia.closing?_of_first first]
    have skipped := items_of_trivia comment p
    simp only [List.take_succ_cons, List.drop_succ_cons, List.take_length_add_append,
      List.drop_length_add_append, List.take_zero, List.drop_zero] at skipped
    rw [List.cons_append, List.cons_append, List.append_assoc, List.cons_append, List.cons_append,
      skipped, ih]
    simp [Nat.add_assoc]

/-- The one item of a token that is read in front of a text. -/
theorem items_token {k : TokenKind} (h : scan c cs = (.token k, n)) (p : Nat) :
    items p (cut (c :: cs)) =
      .token ⟨⟨k, String.ofList (c :: cs.take n)⟩, ⟨p, p + byteLength (c :: cs.take n)⟩⟩ ::
        items (p + byteLength (c :: cs.take n)) (cut (cs.drop n)) := by
  rw [items_cons]
  simp [item?, first, h, width, text]

theorem item?_eq_token {s : Segment} {p : Nat} {l : Lexeme} (h : s.item? p = some (.token l)) :
    s.kind = .token l.token.kind ∧ l.token.text = s.text := by
  unfold item? at h
  split at h
  · cases h
  · next k hk =>
    cases h
    exact ⟨hk, rfl⟩
  · cases h

theorem width_first_pos (c : Char) (cs : List Char) : 0 < (first c cs).width := by
  have := c.utf8Size_pos
  simp only [width, first, byteLength_cons]
  omega

theorem le_start_of_mem_items {p : Nat} {i : Item} (h : i ∈ items p (cut cs)) :
    p ≤ i.span.start := by
  obtain ⟨before, _, _, -, -, span, -⟩ := (Tiling.of_cut p cs).exists_part h
  rw [span]
  exact Nat.le_add_right _ _

end Segment

/-! ## Tokens are read again -/

/-- One step of the scanner reads all of a token that is what is read from its own text. -/
theorem Token.Scans.scan {t : Token} (h : t.Scans) :
    ∃ c cs, t.text.toList = c :: cs ∧ Segment.scan c cs = (.token t.kind, cs.length) := by
  rw [Scans, lex] at h
  cases text : t.text.toList with
  | nil =>
    rw [text] at h
    cases h
  | cons c cs =>
    refine ⟨c, cs, rfl, ?_⟩
    rw [text, Segment.items_cons, Nat.zero_add] at h
    cases item : (Segment.first c cs).item? 0 with
    | none =>
      -- What is behind skipped text does not start at the front.
      rw [item, Option.toList_none, List.nil_append] at h
      have start := Segment.le_start_of_mem_items (h ▸ List.mem_cons_self)
      exact absurd (Segment.width_first_pos c cs) (Nat.not_lt.2 start)
    | some i =>
      rw [item] at h
      obtain rfl : i = _ := (List.cons.inj h).1
      obtain ⟨kind, whole⟩ := Segment.item?_eq_token item
      rw [← String.toList_inj, text, Segment.text, String.toList_ofList] at whole
      have behind : cs = cs.take (Segment.scan c cs).2 := (List.cons.inj whole).2
      have length : (Segment.scan c cs).2 = cs.length := by
        have short := Segment.scan_le c cs
        have long := congrArg List.length behind
        rw [List.length_take] at long
        omega
      exact Prod.ext kind length

theorem Token.scans_of_scan {t : Token} {c : Char} {cs : List Char} (text : t.text.toList = c :: cs)
    (scan : Segment.scan c cs = (.token t.kind, cs.length)) : t.Scans := by
  have whole := Segment.items_token scan 0
  rw [List.take_length, List.drop_length, ← text] at whole
  rw [Scans, lex, whole, String.ofList_toList, utf8ByteSize_eq_byteLength]
  simp [Segment.items]

/-- Every token of a source is read from its own text. -/
theorem scans_of_mem_items {p : Nat} {cs : List Char} {l : Lexeme}
    (h : .token l ∈ Segment.items p (Segment.cut cs)) : l.token.Scans := by
  induction cs using Segment.cut_induction generalizing p with
  | nil => cases h
  | cons c cs ih =>
    rw [Segment.items_cons, List.mem_append, Option.mem_toList] at h
    rcases h with h | h
    · obtain ⟨kind, text⟩ := Segment.item?_eq_token h
      have whole : l.token.text.toList = c :: cs.take (Segment.scan c cs).2 := by
        rw [text, Segment.text, String.toList_ofList]
        rfl
      apply Token.scans_of_scan whole
      have again := Segment.scan_append (n := (Segment.scan c cs).2) (Prod.ext kind rfl)
        (TokenKind.endsBefore_nil _)
      rw [List.append_nil] at again
      rw [again, List.length_take_of_le (Segment.scan_le c cs)]
    · exact ih h

/-- The items of a layout are its tokens. -/
theorem Layout.items {ts : List Token} {cs : List Char} (h : Layout ts cs) (hs : ∀ t ∈ ts, t.Scans)
    (p : Nat) : ∃ w, Segment.items p (Segment.cut cs) = w.map Item.token ∧ tokens w = ts := by
  induction h generalizing p with
  | @done gap h =>
    refine ⟨[], ?_, rfl⟩
    have none := Segment.items_gap h p
    rwa [List.append_nil] at none
  | @token t ts gap cs h ends _ ih =>
    obtain ⟨c, bs, text, scan⟩ := (hs t List.mem_cons_self).scan
    rw [Segment.items_gap h, text, List.cons_append]
    have again := Segment.scan_append scan ends
    rw [List.take_length] at again
    rw [Segment.items_token again, List.take_left, List.drop_left, ← text, String.ofList_toList]
    obtain ⟨w, hw, rfl⟩ := ih (fun u hu => hs u (List.mem_cons_of_mem t hu)) _
    exact ⟨⟨t, _⟩ :: w, by rw [hw, List.map_cons], rfl⟩

/-! ## Texts with given tokens -/

theorem Layout.behind {ts : List Token} {gap cs : List Char} (h : Gap gap cs) (hl : Layout ts cs) :
    Layout ts (gap ++ cs) := by
  cases hl with
  | done h' => exact .done (Gap.append (by simpa using h) h')
  | token h' ends further =>
    rw [← List.append_assoc]
    exact .token (h.append h') ends further

theorem TokenKind.takes_of_skipped (k : TokenKind) {c : Char} (h : c ∈ Segment.skipped) :
    k.takes c = false := by
  have none : Segment.skipped.any k.takes = false := by
    cases k with
    | mark m => cases m <;> rfl
    | _ => rfl
  simpa using List.any_eq_false.1 none c h

/-- No token goes on with a gap. -/
theorem Gap.endsBefore {gap after : List Char} (h : Gap gap after) (full : gap ≠ [])
    (k : TokenKind) : k.EndsBefore (gap ++ after) := by
  rintro c hc
  cases h with
  | nil => exact absurd rfl full
  | @blank b cs _ hb _ =>
    cases hc
    exact k.takes_of_skipped (List.mem_append_left ['/'] hb)
  | line =>
    cases hc
    exact k.takes_of_skipped (by decide)
  | block =>
    cases hc
    exact k.takes_of_skipped (by decide)

/-- Tokens with a blank between each two of them. -/
def spaced (ts : List Token) : String := " ".intercalate (ts.map Token.text)

theorem Layout.spaced (ts : List Token) : Layout ts (spaced ts).toList := by
  rw [ProtoSchema.spaced, String.toList_intercalate, List.map_map]
  induction ts with
  | nil => exact .done .nil
  | cons t ts ih =>
    cases ts with
    | nil =>
      rw [List.map_singleton, List.intercalate_singleton]
      have one : Layout [t] ([] ++ (t.text.toList ++ [])) :=
        .token .nil (TokenKind.endsBefore_nil _) (.done .nil)
      simpa using one
    | cons u ts =>
      rw [List.map_cons, List.map_cons, List.intercalate_cons_cons, ← List.map_cons,
        List.append_assoc]
      have blank (cs : List Char) : Gap [' '] cs := .blank (by decide) .nil
      exact .token (g := []) .nil ((blank _).endsBefore (by simp) _) (ih.behind (blank _))

end ProtoSchema
