import Mathlib.Data.List.TakeWhile
import Mathlib.Data.String.Basic
import ProtoSchema.Lexer

/-! # How far a token is seen

Where a token has been read, the text behind it matters only through its first character: any other
text whose first character does not go on with the token gives the same token again. Words end
before what is no part of a word, and numbers before what could make them longer. A literal is
closed by its quote, and of the marks only the point looks behind itself, where a digit makes it a
float. -/

namespace ProtoSchema

/-- Whether a character that stands directly behind a token of a kind is read with it. -/
def TokenKind.takes : TokenKind → Char → Bool
  | .identifier, c | .keyword _, c | .scalar _, c => Word.isPart c
  | .decimalLiteral, c => c.isDigit || c == '.' || c == 'e' || c == 'E'
  | .floatLiteral, c => c.isDigit || c == 'e' || c == 'E'
  | .dot, c => c.isDigit
  | _, _ => false

/-- That a token of a kind ends in front of a text. -/
def TokenKind.EndsBefore (k : TokenKind) (after : List Char) : Prop :=
  ∀ c, after.head? = some c → k.takes c = false

theorem TokenKind.endsBefore_nil (k : TokenKind) : k.EndsBefore [] := nofun

theorem runLength_eq_zero {p : Char → Bool} {cs : List Char}
    (h : ∀ c, cs.head? = some c → p c = false) : runLength p cs = 0 := by
  cases cs with
  | nil => rfl
  | cons c cs => simp [runLength, h c rfl]

theorem runLength_append {p : Char → Bool} {run after : List Char} (hr : ∀ c ∈ run, p c)
    (h : ∀ c, after.head? = some c → p c = false) : runLength p (run ++ after) = run.length := by
  have none := runLength_eq_zero h
  simp only [runLength] at none ⊢
  rw [List.takeWhile_append_of_pos hr, List.length_append, none, Nat.add_zero]

/-- A run that has been cut off from what followed is the same run in front of another text. -/
theorem runLength_take_append {p : Char → Bool} {cs after : List Char}
    (h : ∀ c, after.head? = some c → p c = false) :
    runLength p (cs.take (runLength p cs) ++ after) = runLength p cs := by
  rw [take_runLength, runLength_append (fun _ => List.mem_takeWhile_imp) h]
  rfl

/-! ## Words -/

namespace Word

/-- The kinds of words go on with the same characters. -/
theorem takes_ofWord (s : String) : (TokenKind.ofWord s).takes = isPart := by
  unfold TokenKind.ofWord
  split <;> rfl

theorem scan_append {c : Char} {cs after : List Char} {k : TokenKind} {n : Nat}
    (h : scan c cs = some (.token k, n)) (ends : k.EndsBefore after) :
    scan c (cs.take n ++ after) = some (.token k, n) := by
  unfold scan at h ⊢
  split at h
  · next start =>
    cases h
    rw [TokenKind.EndsBefore, takes_ofWord] at ends
    have length : runLength isPart (cs.take (runLength isPart cs) ++ after) = runLength isPart cs :=
      runLength_take_append ends
    have chars :
        (cs.take (runLength isPart cs) ++ after).takeWhile isPart = cs.takeWhile isPart := by
      rw [← take_runLength, length, ← take_runLength isPart cs]
      exact List.take_left' (List.length_take_of_le (runLength_le _ _))
    rw [if_pos start, length, chars]
  · cases h

end Word

/-! ## Numbers -/

namespace Number

theorem sign_take_append {cs after : List Char} {n : Nat} (hn : n ≠ 0) (full : cs ≠ []) :
    sign (cs.take n ++ after) = sign cs := by
  obtain ⟨c, cs, rfl⟩ := List.exists_cons_of_ne_nil full
  obtain ⟨n, rfl⟩ := Nat.exists_eq_succ_of_ne_zero hn
  rfl

/-- An exponent starts with its mark. -/
theorem head_exponent {cs after : List Char} (h : exponent cs ≠ 0) (c : Char)
    (hc : (cs.take (exponent cs) ++ after).head? = some c) : c = 'e' ∨ c = 'E' := by
  cases cs with
  | nil => exact absurd rfl h
  | cons b cs =>
    by_cases mark : (b = 'e' ∨ b = 'E') ∧ digits (cs.drop (sign cs)) ≠ 0
    · obtain ⟨n, hn⟩ := Nat.exists_eq_succ_of_ne_zero h
      rw [hn] at hc
      cases hc
      exact mark.1
    · exact absurd (by simp only [exponent, if_neg mark]) h

theorem exponent_eq_zero {cs : List Char} (h : TokenKind.floatLiteral.EndsBefore cs) :
    exponent cs = 0 := by
  cases cs with
  | nil => rfl
  | cons c cs =>
    have ends := h c rfl
    simp only [TokenKind.takes, Bool.or_eq_false_iff, beq_eq_false_iff_ne] at ends
    simp [exponent, ends.1.2, ends.2]

theorem not_digit {after : List Char} (h : TokenKind.floatLiteral.EndsBefore after) (c : Char)
    (hc : after.head? = some c) : c.isDigit = false := by
  have ends := h c hc
  simp only [TokenKind.takes, Bool.or_eq_false_iff] at ends
  exact ends.1.1

variable {cs after : List Char}

theorem exponent_take_append (ends : TokenKind.floatLiteral.EndsBefore after) :
    exponent (cs.take (exponent cs) ++ after) = exponent cs := by
  cases cs with
  | nil => exact exponent_eq_zero ends
  | cons c cs =>
    by_cases mark : (c = 'e' ∨ c = 'E') ∧ digits (cs.drop (sign cs)) ≠ 0
    · have length : exponent (c :: cs) = sign cs + digits (cs.drop (sign cs)) + 1 := by
        simp only [exponent, if_pos mark]
        omega
      have full : cs ≠ [] := by
        rintro rfl
        exact mark.2 rfl
      have signs : sign (cs.take (sign cs + digits (cs.drop (sign cs))) ++ after) = sign cs :=
        sign_take_append (by omega) full
      have behind : (cs.take (sign cs + digits (cs.drop (sign cs))) ++ after).drop (sign cs) =
          (cs.drop (sign cs)).take (digits (cs.drop (sign cs))) ++ after := by
        have := sign_le cs
        rw [List.drop_append_of_le_length (by simp only [List.length_take]; omega), List.drop_take,
          Nat.add_sub_cancel_left]
      have run : digits ((cs.drop (sign cs)).take (digits (cs.drop (sign cs))) ++ after) =
          digits (cs.drop (sign cs)) := runLength_take_append (not_digit ends)
      rw [length, List.take_succ_cons, List.cons_append, exponent, signs, behind, run, if_pos mark]
      omega
    · have none : exponent (c :: cs) = 0 := by simp only [exponent, if_neg mark]
      rw [none]
      exact exponent_eq_zero ends

theorem not_digit_exponent (ends : TokenKind.floatLiteral.EndsBefore after) (c : Char)
    (hc : (cs.take (exponent cs) ++ after).head? = some c) : c.isDigit = false := by
  by_cases h : exponent cs = 0
  · rw [h] at hc
    exact not_digit ends c hc
  · rcases head_exponent h c hc with rfl | rfl <;> decide

/-! A float is read from the digits in front, and from what stands behind them: a point, or none. -/

variable {whole rest : List Char}

theorem float?_point (hw : ∀ c ∈ whole, c.isDigit) : float? (whole ++ '.' :: rest) =
    if whole = [] ∧ digits rest = 0 then none
    else some (whole.length + 1 + digits rest + exponent (rest.drop (digits rest))) := by
  have front : digits (whole ++ '.' :: rest) = whole.length :=
    runLength_append hw (by rintro c ⟨⟩; decide)
  simp [float?, front]

theorem float?_plain (hw : ∀ c ∈ whole, c.isDigit)
    (hr : ∀ c, rest.head? = some c → c.isDigit = false ∧ c ≠ '.') : float? (whole ++ rest) =
    if whole = [] ∨ exponent rest = 0 then none else some (whole.length + exponent rest) := by
  have front : digits (whole ++ rest) = whole.length := runLength_append hw fun c hc => (hr c hc).1
  have point (tail : List Char) : rest ≠ '.' :: tail := by
    rintro rfl
    exact (hr '.' rfl).2 rfl
  -- The side condition of the second branch is found in the context.
  simp [float?, front]

theorem float?_point_append {n : Nat} (hw : ∀ c ∈ whole, c.isDigit)
    (h : float? (whole ++ '.' :: rest) = some n) (ends : TokenKind.floatLiteral.EndsBefore after) :
    n ≠ 0 ∧ float? ((whole ++ '.' :: rest).take n ++ after) = some n := by
  rw [float?_point hw] at h
  split at h
  · cases h
  · next digit =>
    cases h
    refine ⟨by omega, ?_⟩
    have cut : (whole ++ '.' :: rest).take
          (whole.length + 1 + digits rest + exponent (rest.drop (digits rest))) ++ after =
        whole ++ '.' :: (rest.take (digits rest) ++
          ((rest.drop (digits rest)).take (exponent (rest.drop (digits rest))) ++ after)) := by
      rw [Nat.add_assoc, Nat.add_assoc, List.take_length_add_append, Nat.add_comm 1,
        List.take_succ_cons, List.take_add]
      simp
    have fraction : digits (rest.take (digits rest) ++
        ((rest.drop (digits rest)).take (exponent (rest.drop (digits rest))) ++ after)) =
        digits rest := runLength_take_append (not_digit_exponent ends)
    rw [cut, float?_point hw, fraction, if_neg digit,
      List.drop_left' (List.length_take_of_le (digits_le rest)), exponent_take_append ends]

theorem float?_plain_append {n : Nat} (hw : ∀ c ∈ whole, c.isDigit)
    (hr : ∀ c, rest.head? = some c → c.isDigit = false ∧ c ≠ '.')
    (h : float? (whole ++ rest) = some n) (ends : TokenKind.floatLiteral.EndsBefore after) :
    n ≠ 0 ∧ float? ((whole ++ rest).take n ++ after) = some n := by
  rw [float?_plain hw hr] at h
  split at h
  · cases h
  · next digit =>
    cases h
    have power : exponent rest ≠ 0 := fun h => digit (.inr h)
    refine ⟨by omega, ?_⟩
    rw [List.take_length_add_append, List.append_assoc, float?_plain hw, exponent_take_append ends,
      if_neg digit]
    intro c hc
    rcases head_exponent power c hc with rfl | rfl <;> decide

/-- A float is not empty, and is read again in front of a text with which it does not go on. -/
theorem float?_append {n : Nat} (h : float? cs = some n)
    (ends : TokenKind.floatLiteral.EndsBefore after) :
    n ≠ 0 ∧ float? (cs.take n ++ after) = some n := by
  have front : ∀ c ∈ cs.takeWhile Char.isDigit, c.isDigit := fun _ => List.mem_takeWhile_imp
  have behind (c : Char) (hc : (cs.dropWhile Char.isDigit).head? = some c) : c.isDigit = false := by
    simpa [hc] using List.head?_dropWhile_not Char.isDigit cs
  rw [← @List.takeWhile_append_dropWhile _ Char.isDigit cs] at h ⊢
  by_cases point : (cs.dropWhile Char.isDigit).head? = some '.'
  · obtain ⟨rest, eq⟩ := List.head?_eq_some_iff.1 point
    rw [eq] at h ⊢
    exact float?_point_append front h ends
  · apply float?_plain_append front _ h ends
    intro c hc
    refine ⟨behind c hc, ?_⟩
    rintro rfl
    exact point hc

theorem scan_append {c : Char} {k : TokenKind} {n : Nat} (h : scan c cs = some (.token k, n))
    (ends : k.EndsBefore after) : scan c (cs.take n ++ after) = some (.token k, n) := by
  unfold scan at h
  split at h
  · next m hm =>
    cases h
    obtain ⟨positive, further⟩ := float?_append hm ends
    obtain ⟨m, rfl⟩ := Nat.exists_eq_succ_of_ne_zero positive
    simp only [List.take_succ_cons, List.cons_append] at further
    simp [scan, further]
  · split at h
    · next whole digit =>
      cases h
      have float : TokenKind.floatLiteral.EndsBefore after := fun e he => by
        have := ends e he
        simp_all [TokenKind.takes]
      have all : ∀ d ∈ c :: cs.take (digits cs), d.isDigit := by
        rw [digits, take_runLength]
        exact List.forall_mem_cons.2 ⟨digit, fun _ => List.mem_takeWhile_imp⟩
      have behind (e : Char) (he : after.head? = some e) : e.isDigit = false ∧ e ≠ '.' := by
        have := ends e he
        simp_all [TokenKind.takes]
      have short : float? (c :: (cs.take (digits cs) ++ after)) = none := by
        rw [← List.cons_append, float?_plain all behind, if_pos (.inr (exponent_eq_zero float))]
      have length : digits (cs.take (digits cs) ++ after) = digits cs :=
        runLength_take_append (not_digit float)
      simp [scan, short, digit, length]
    · cases h

end Number

/-! ## String literals -/

namespace Quoted

theorem Reach.shift_eq_closed {k n : Nat} {r : Reach} (h : r.shift k = ⟨true, n⟩) :
    ∃ m, r = ⟨true, m⟩ ∧ n = m + k := by
  obtain ⟨closes, m⟩ := r
  obtain ⟨rfl, rfl⟩ : closes = true ∧ m + k = n := by simpa [Reach.shift] using h
  exact ⟨m, rfl, rfl⟩

theorem reach_cons (quote : Char) {c : Char} (cs : List Char) (line : c ≠ '\n')
    (escape : c ≠ '\\') :
    reach quote (c :: cs) = if c = quote then ⟨true, 1⟩ else (reach quote cs).shift 1 := by
  rw [reach.eq_def]
  split <;> simp_all

/-- The text behind a closing quote plays no part. -/
theorem reach_append {quote : Char} {cs after : List Char} {n : Nat}
    (h : reach quote cs = ⟨true, n⟩) : reach quote (cs.take n ++ after) = ⟨true, n⟩ := by
  fun_induction reach quote cs generalizing n with
  | case1 => cases h
  | case2 => cases h
  | case3 => cases h
  | case4 => cases h
  | case5 c cs line ih =>
    obtain ⟨m, hm, rfl⟩ := Reach.shift_eq_closed h
    simp [reach, line, ih hm, Reach.shift]
  | case6 cs line last pair =>
    cases h
    have escape : quote ≠ '\\' := fun h => by cases cs <;> simp_all
    simp [reach_cons quote after line escape]
  | case7 c cs line last pair other ih =>
    obtain ⟨m, hm, rfl⟩ := Reach.shift_eq_closed h
    have escape : c ≠ '\\' := fun h => by cases cs <;> simp_all
    rw [List.take_succ_cons, List.cons_append, reach_cons quote _ line escape, if_neg other, ih hm]
    rfl

theorem scan_append {c : Char} {cs after : List Char} {k : TokenKind} {n : Nat}
    (h : scan c cs = some (.token k, n)) : scan c (cs.take n ++ after) = some (.token k, n) := by
  unfold scan at h ⊢
  split at h
  · next quote =>
    cases hr : reach c cs with
    | mk closes length =>
      rw [hr] at h
      cases closes with
      | false => cases h
      | true =>
        cases h
        rw [if_pos quote, reach_append hr]
        rfl
  · cases h

end Quoted

/-! ## Tokens -/

namespace Segment

variable {c : Char} {cs after : List Char} {k : TokenKind} {n : Nat}

/-- The characters with which skipped text starts. -/
def skipped : List Char := [' ', '\t', '\n', '\x0b', '\x0c', '\r', '/']

theorem trivia_scan_eq_none (h : c ∉ skipped) (cs : List Char) : Trivia.scan c cs = none := by
  simp only [skipped, List.mem_cons, List.not_mem_nil, or_false, not_or] at h
  obtain ⟨h₁, h₂, h₃, h₄, h₅, h₆, h₇⟩ := h
  unfold Trivia.scan
  rw [if_neg (by simp [Trivia.isBlank, *])]
  split <;> simp_all

/-- A number starts with a digit or a point, and the point stands in front of a digit. -/
theorem number_scan_eq_none (digit : c.isDigit = false)
    (h : c = '.' → ∀ d, cs.head? = some d → d.isDigit = false) : Number.scan c cs = none := by
  have none : Number.float? (c :: cs) = none := by
    by_cases point : c = '.'
    · subst point
      have fraction : Number.digits cs = 0 := runLength_eq_zero (h rfl)
      have eq := @Number.float?_point [] cs nofun
      rwa [if_pos ⟨rfl, fraction⟩] at eq
    · have plain (b : Char) (hb : (c :: cs).head? = some b) : b.isDigit = false ∧ b ≠ '.' := by
        cases hb
        exact ⟨digit, point⟩
      have eq := @Number.float?_plain [] (c :: cs) nofun plain
      rwa [if_pos (.inl rfl)] at eq
  simp [Number.scan, none, digit]

theorem trivia_scan_of {p : Char → Bool} (h : p c) (hp : skipped.any p = false)
    (cs : List Char) : Trivia.scan c cs = none := by
  apply trivia_scan_eq_none
  intro hc
  exact List.any_eq_false.1 hp c hc h

/-! The first character says which scanner answers. -/

theorem scan?_word (h : Word.isStart c) (cs : List Char) : scan? c cs = Word.scan c cs := by
  simp [scan?, trivia_scan_of h (by decide), Word.scan, h]

theorem not_isStart_of_isDigit (h : c.isDigit) : ¬ Word.isStart c := by
  intro start
  change ((decide ('A'.val ≤ c.val ∧ c.val ≤ 'Z'.val) || 'a'.val ≤ c.val && c.val ≤ 'z'.val) ||
    c == '_') = true at start
  simp only [Bool.and_eq_true, Bool.or_eq_true, decide_eq_true_eq, beq_iff_eq,
    UInt32.le_iff_toNat_le, Char.reduceVal, UInt32.reduceToNat] at start
  obtain ⟨low, high⟩ := Char.isDigit_iff_toNat.1 h
  simp only [Char.reduceToNat] at low high
  rcases start with (⟨upper, -⟩ | ⟨lower, -⟩) | rfl
  · change 65 ≤ c.toNat at upper
    omega
  · change 97 ≤ c.toNat at lower
    omega
  · revert h
    decide

theorem scan?_digit (h : c.isDigit) (cs : List Char) : scan? c cs = Number.scan c cs := by
  have word : Word.scan c cs = none := if_neg (not_isStart_of_isDigit h)
  have some : ∃ r, Number.scan c cs = some r := by
    unfold Number.scan
    split
    · exact ⟨_, rfl⟩
    · exact ⟨_, if_pos h⟩
  obtain ⟨r, number⟩ := some
  simp [scan?, trivia_scan_of h (by decide), word, number]

theorem scan?_quote (h : Quoted.isQuote c) (cs : List Char) : scan? c cs = Quoted.scan c cs := by
  have quote : c = '"' ∨ c = '\'' := by simpa [Quoted.isQuote] using h
  have word : Word.scan c cs = none := if_neg (by rcases quote with rfl | rfl <;> decide)
  have number : Number.scan c cs = none :=
    number_scan_eq_none (by rcases quote with rfl | rfl <;> rfl)
      (by rcases quote with rfl | rfl <;> nofun)
  simp [scan?, trivia_scan_of h (by decide), word, number, Quoted.scan, h]

theorem scan?_mark (m : Mark) (cs : List Char) : scan? m.char cs =
    (Number.scan m.char cs).or (some (.token (.mark m), 0)) := by
  have trivia : Trivia.scan m.char cs = none := trivia_scan_eq_none (by cases m <;> decide) cs
  have word : Word.scan m.char cs = none := if_neg (by cases m <;> decide)
  have quoted : Quoted.scan m.char cs = none := if_neg (by cases m <;> decide)
  have mark : scanMark m.char cs = some (.token (.mark m), 0) := by cases m <;> rfl
  simp [scan?, trivia, word, quoted, mark]

theorem trivia_scan_ne_token : Trivia.scan c cs ≠ some (.token k, n) := by
  unfold Trivia.scan
  split
  · nofun
  · split
    · nofun
    · split <;> nofun
    · nofun

/-- Where no token starts there may still be a comment. -/
theorem scan?_other (word : ¬ Word.isStart c) (digit : ¬ c.isDigit) (quote : ¬ Quoted.isQuote c)
    (mark : ∀ m : Mark, c ≠ m.char) (cs : List Char) : scan? c cs = Trivia.scan c cs := by
  have noWord : Word.scan c cs = none := if_neg word
  have noNumber : Number.scan c cs = none :=
    number_scan_eq_none (by simpa using digit) fun point => absurd point (mark .dot)
  have noQuote : Quoted.scan c cs = none := if_neg quote
  have noMark : scanMark c cs = none := by
    rw [scanMark, Mark.ofChar?, Option.map_eq_none_iff, List.find?_eq_none]
    exact fun m _ => by simpa using Ne.symm (mark m)
  simp [scan?, noWord, noNumber, noQuote, noMark]

theorem starts_of_token (h : scan? c cs = some (.token k, n)) :
    Word.isStart c ∨ c.isDigit ∨ Quoted.isQuote c ∨ ∃ m : Mark, c = m.char := by
  by_contra none
  simp only [not_or, not_exists] at none
  obtain ⟨word, digit, quote, mark⟩ := none
  rw [scan?_other word digit quote mark] at h
  exact trivia_scan_ne_token h

theorem scan?_append (h : scan? c cs = some (.token k, n)) (ends : k.EndsBefore after) :
    scan? c (cs.take n ++ after) = some (.token k, n) := by
  rcases starts_of_token h with start | start | start | ⟨m, rfl⟩
  · rw [scan?_word start] at h ⊢
    exact Word.scan_append h ends
  · rw [scan?_digit start] at h ⊢
    exact Number.scan_append h ends
  · rw [scan?_quote start] at h ⊢
    exact Quoted.scan_append h
  · rw [scan?_mark] at h ⊢
    rcases Option.or_eq_some_iff.1 h with number | ⟨-, mark⟩
    · rw [Number.scan_append number ends, Option.some_or]
    · cases mark
      have number : Number.scan m.char after = none := by
        have digit : m.char.isDigit = false := by cases m <;> rfl
        refine number_scan_eq_none digit fun point d hd => ?_
        have dot : m = .dot := by cases m <;> simp_all [Mark.char]
        subst dot
        exact ends d hd
      rw [List.take_zero, List.nil_append, number, Option.none_or]

/-- A token is read again in front of every text with which it does not go on. -/
theorem scan_append (h : scan c cs = (.token k, n)) (ends : k.EndsBefore after) :
    scan c (cs.take n ++ after) = (.token k, n) := by
  unfold scan at h ⊢
  cases hs : scan? c cs with
  | none =>
    rw [hs] at h
    cases h
  | some r =>
    rw [hs] at h
    cases h
    rw [scan?_append hs ends, Option.getD_some]

end Segment

end ProtoSchema
