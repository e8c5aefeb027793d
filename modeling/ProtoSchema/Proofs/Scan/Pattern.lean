import Mathlib.Computability.Language
import ProtoSchema.Proofs.Scan.Locality

/-! # Declared patterns

What the texts of each kind of token are, apart from how they are found: a pattern is a language
over characters, made of classes of characters by sequence, choice and repetition. Then each pattern
is compared with the function that looks for it at the front of a text. -/

namespace ProtoSchema
open Computability

namespace Pattern

/-- One character of a class. -/
def oneOf (p : Char → Prop) : Language Char := {w | ∃ c, p c ∧ w = [c]}

def word : Language Char :=
  oneOf (fun c => c.isAlpha ∨ c = '_') * (oneOf fun c => c.isAlphanum ∨ c = '_')∗

def digits : Language Char := oneOf (·.isDigit) * (oneOf (·.isDigit))∗

def exponent : Language Char :=
  oneOf (fun c => c = 'e' ∨ c = 'E') * (1 + oneOf fun c => c = '+' ∨ c = '-') * digits

/-- Digits with a point behind or among them, digits with an exponent, or digits behind a point. -/
def float : Language Char :=
  digits * oneOf (· = '.') * (oneOf (·.isDigit))∗ * (1 + exponent) + digits * exponent +
    oneOf (· = '.') * digits * (1 + exponent)

/-- A text in quotes of one sort. A backslash stands with the character behind it. -/
def quoted (quote : Char) : Language Char :=
  oneOf (· = quote) * (oneOf (fun c => c ≠ quote ∧ c ≠ '\\' ∧ c ≠ '\n') +
    oneOf (· = '\\') * oneOf (· ≠ '\n'))∗ * oneOf (· = quote)

end Pattern

/-- The texts that a kind declares. -/
def TokenKind.pattern : TokenKind → Language Char
  | .identifier => Pattern.word
  | .stringLiteral => Pattern.quoted '"' + Pattern.quoted '\''
  | .decimalLiteral => Pattern.digits
  | .floatLiteral => Pattern.float
  | .keyword w => {w.text.toList}
  | .scalar t => {t.text.toList}
  | .mark m => {m.text.toList}
  | .blockComment => 0

theorem TokenKind.pattern_of_text {k : TokenKind} {t : String} (h : k.text? = some t) :
    k.pattern = {t.toList} := by
  cases k <;> cases h <;> rfl

namespace Pattern

variable {p : Char → Prop} {cs w : List Char} {c : Char}

theorem mem_oneOf : w ∈ oneOf p ↔ ∃ c, p c ∧ w = [c] := Iff.rfl

theorem mem_kstar_oneOf : w ∈ (oneOf p)∗ ↔ ∀ c ∈ w, p c := by
  constructor
  · rintro ⟨parts, rfl, h⟩ c hc
    obtain ⟨part, hp, hc⟩ := List.mem_flatten.1 hc
    obtain ⟨d, hd, rfl⟩ := h part hp
    rwa [List.mem_singleton.1 hc]
  · intro h
    have whole : w = (w.map fun c => [c]).flatten := by
      rw [← List.flatMap_def, List.flatMap_singleton']
    refine ⟨_, whole, fun part hp => ?_⟩
    obtain ⟨c, hc, rfl⟩ := List.mem_map.1 hp
    exact ⟨c, h c hc, rfl⟩

theorem mem_maybe {L : Language Char} : w ∈ 1 + L ↔ w = [] ∨ w ∈ L := Iff.rfl

/-! ## Words -/

theorem mem_word : w ∈ word ↔ ∃ c cs, w = c :: cs ∧ Word.isStart c ∧ ∀ d ∈ cs, Word.isPart d := by
  simp only [word, Language.mem_mul, mem_oneOf, mem_kstar_oneOf, Word.isStart, Word.isPart,
    Bool.or_eq_true, beq_iff_eq]
  constructor
  · rintro ⟨_, ⟨c, hc, rfl⟩, cs, hcs, rfl⟩
    exact ⟨c, cs, rfl, hc, hcs⟩
  · rintro ⟨c, cs, rfl, hc, hcs⟩
    exact ⟨[c], ⟨c, hc, rfl⟩, cs, hcs, rfl⟩

/-- A front that belongs to a class is no longer than the run of the class. -/
theorem length_le_runLength {q : Char → Bool} (h : w <+: cs) (hw : ∀ c ∈ w, q c) :
    w.length ≤ runLength q cs := by
  obtain ⟨rest, rfl⟩ := h
  rw [runLength, List.takeWhile_append_of_pos hw, List.length_append]
  exact Nat.le_add_right _ _

/-! ## Numbers -/

theorem mem_digits : w ∈ digits ↔ w ≠ [] ∧ ∀ c ∈ w, c.isDigit := by
  simp only [digits, Language.mem_mul, mem_oneOf, mem_kstar_oneOf]
  constructor
  · rintro ⟨_, ⟨c, hc, rfl⟩, cs, hcs, rfl⟩
    exact ⟨List.cons_ne_nil _ _, List.forall_mem_cons.2 ⟨hc, hcs⟩⟩
  · rintro ⟨nonempty, h⟩
    obtain ⟨c, cs, rfl⟩ := List.exists_cons_of_ne_nil nonempty
    obtain ⟨hc, hcs⟩ := List.forall_mem_cons.1 h
    exact ⟨[c], ⟨c, hc, rfl⟩, cs, hcs, rfl⟩

theorem mem_exponent : w ∈ exponent ↔ ∃ c s ds, w = c :: (s ++ ds) ∧ (c = 'e' ∨ c = 'E') ∧
    (s = [] ∨ s = ['+'] ∨ s = ['-']) ∧ ds ≠ [] ∧ ∀ d ∈ ds, d.isDigit := by
  simp only [exponent, Language.mem_mul, mem_maybe, mem_oneOf, mem_digits]
  constructor
  · rintro ⟨_, ⟨_, ⟨c, hc, rfl⟩, s, hs, rfl⟩, ds, ⟨full, hd⟩, rfl⟩
    refine ⟨c, s, ds, by simp, hc, ?_, full, hd⟩
    rcases hs with rfl | ⟨d, rfl | rfl, rfl⟩ <;> simp
  · rintro ⟨c, s, ds, rfl, hc, hs, full, hd⟩
    refine ⟨c :: s, ⟨[c], ⟨c, hc, rfl⟩, s, ?_, rfl⟩, ds, ⟨full, hd⟩, by simp⟩
    rcases hs with rfl | rfl | rfl <;> simp

/-- A float has digits, then a point with a fraction or none, then an exponent or none; there are
digits on one side of a point, and where there is no point there is an exponent. -/
theorem mem_float : w ∈ float ↔ ∃ whole, (∀ c ∈ whole, c.isDigit) ∧
    ((∃ fraction power, (∀ c ∈ fraction, c.isDigit) ∧ ¬ (whole = [] ∧ fraction = []) ∧
        power ∈ 1 + exponent ∧ w = whole ++ '.' :: (fraction ++ power)) ∨
      whole ≠ [] ∧ ∃ power ∈ exponent, w = whole ++ power) := by
  simp only [float, Language.mem_add, Language.mem_mul, mem_oneOf, mem_kstar_oneOf, mem_digits]
  constructor
  · rintro
      ((⟨_, ⟨_, ⟨whole, ⟨full, hw⟩, _, ⟨_, rfl, rfl⟩, rfl⟩, fraction, hf, rfl⟩, power, hp, rfl⟩ |
        ⟨whole, ⟨full, hw⟩, power, hp, rfl⟩) |
        ⟨_, ⟨_, ⟨_, rfl, rfl⟩, fraction, ⟨full, hf⟩, rfl⟩, power, hp, rfl⟩)
    · exact ⟨whole, hw, .inl ⟨fraction, power, hf, fun h => full h.1, hp, by simp⟩⟩
    · exact ⟨whole, hw, .inr ⟨full, power, hp, rfl⟩⟩
    · exact ⟨[], nofun, .inl ⟨fraction, power, hf, fun h => full h.2, hp, by simp⟩⟩
  · rintro ⟨whole, hw, ⟨fraction, power, hf, some, hp, rfl⟩ | ⟨full, power, hp, rfl⟩⟩
    · by_cases full : whole = []
      · subst full
        have inner : fraction ≠ [] := fun h => some ⟨rfl, h⟩
        exact .inr ⟨_, ⟨_, ⟨_, rfl, rfl⟩, fraction, ⟨inner, hf⟩, rfl⟩, power, hp, by simp⟩
      · exact .inl (.inl ⟨_, ⟨_, ⟨whole, ⟨full, hw⟩, _, ⟨_, rfl, rfl⟩, rfl⟩, fraction, hf, rfl⟩,
          power, hp, by simp⟩)
    · exact .inl (.inr ⟨whole, ⟨full, hw⟩, power, hp, rfl⟩)

theorem take_exponent (cs : List Char) : cs.take (Number.exponent cs) ∈ 1 + exponent := by
  cases cs with
  | nil => exact .inl rfl
  | cons c cs =>
    by_cases mark : (c = 'e' ∨ c = 'E') ∧ Number.digits (cs.drop (Number.sign cs)) ≠ 0
    · refine mem_maybe.2 (.inr (mem_exponent.2 ⟨c, cs.take (Number.sign cs),
        (cs.drop (Number.sign cs)).takeWhile Char.isDigit, ?_, mark.1, ?_, ?_,
        fun _ => List.mem_takeWhile_imp⟩))
      · simp only [Number.exponent, if_pos mark]
        rw [← take_runLength, ← List.take_add, Nat.add_assoc, Nat.add_comm 1, List.take_succ_cons]
        rfl
      · cases cs with
        | nil => exact .inl rfl
        | cons d cs =>
          by_cases sign : d = '+' ∨ d = '-'
          · rcases sign with rfl | rfl <;> simp [Number.sign]
          · simp [Number.sign, sign]
      · exact fun h => mark.2 (congrArg List.length h)
    · simp only [Number.exponent, if_neg mark]
      exact .inl rfl

theorem length_le_exponent (h : w <+: cs) (hw : w ∈ exponent) : w.length ≤ Number.exponent cs := by
  obtain ⟨rest, rfl⟩ := h
  obtain ⟨c, s, ds, rfl, hc, hs, full, hd⟩ := mem_exponent.1 hw
  obtain ⟨d, ds, rfl⟩ := List.exists_cons_of_ne_nil full
  have digit : ¬ (d = '+' ∨ d = '-') := by
    have := hd d List.mem_cons_self
    rintro (rfl | rfl) <;> revert this <;> decide
  have sign : Number.sign (s ++ (d :: ds) ++ rest) = s.length := by
    rcases hs with rfl | rfl | rfl <;> simp [Number.sign, digit]
  have run : (d :: ds).length ≤ Number.digits (d :: ds ++ rest) :=
    length_le_runLength (List.prefix_append _ _) hd
  have behind : (s ++ (d :: ds) ++ rest).drop s.length = d :: ds ++ rest := by simp
  rw [List.cons_append, Number.exponent, sign, behind, if_pos]
  · simp only [List.length_cons, List.length_append] at run ⊢
    omega
  · refine ⟨hc, ?_⟩
    simp only [List.length_cons] at run
    omega

theorem head_exponent (hw : w ∈ exponent) {rest : List Char} {c : Char}
    (hc : (w ++ rest).head? = some c) : c.isDigit = false ∧ c ≠ '.' := by
  obtain ⟨d, s, ds, rfl, mark, -⟩ := mem_exponent.1 hw
  cases hc
  rcases mark with rfl | rfl <;> decide

/-- Digits that end before the rest of a text are its run of digits. -/
theorem digits_append {ds rest : List Char} (hd : ∀ c ∈ ds, c.isDigit)
    (h : ∀ c, rest.head? = some c → c.isDigit = false) : Number.digits (ds ++ rest) = ds.length :=
  runLength_append hd h

theorem one_lt_length_float (hw : w ∈ float) : 1 < w.length := by
  obtain ⟨whole, -, ⟨fraction, power, -, some, -, rfl⟩ | ⟨full, power, hp, rfl⟩⟩ := mem_float.1 hw
  · by_cases empty : whole = []
    · have := List.length_pos_iff.2 fun h : fraction = [] => some ⟨empty, h⟩
      simp only [List.length_append, List.length_cons]
      omega
    · have := List.length_pos_iff.2 empty
      simp only [List.length_append, List.length_cons]
      omega
  · obtain ⟨c, s, ds, rfl, -⟩ := mem_exponent.1 hp
    have := List.length_pos_iff.2 full
    simp only [List.length_append, List.length_cons]
    omega

/-- No float at the front of a text is longer than the one that is found. -/
theorem length_le_float (h : w <+: cs) (hw : w ∈ float) :
    ∃ n, Number.float? cs = some n ∧ w.length ≤ n := by
  obtain ⟨rest, rfl⟩ := h
  obtain ⟨whole, hwhole, ⟨fraction, power, hf, some, hp, rfl⟩ | ⟨full, power, hp, rfl⟩⟩ :=
    mem_float.1 hw
  · have front : whole ++ '.' :: (fraction ++ power) ++ rest =
        whole ++ '.' :: (fraction ++ power ++ rest) := by simp
    have fractions : fraction.length ≤ Number.digits (fraction ++ power ++ rest) := by
      rw [List.append_assoc]
      exact length_le_runLength (List.prefix_append _ _) hf
    rw [front, Number.float?_point hwhole, if_neg]
    · refine ⟨_, rfl, ?_⟩
      simp only [List.length_append, List.length_cons]
      rcases mem_maybe.1 hp with rfl | hp
      · simp only [List.length_nil]
        omega
      · have all : Number.digits (fraction ++ power ++ rest) = fraction.length := by
          rw [List.append_assoc]
          exact digits_append hf fun c hc => (head_exponent hp hc).1
        have behind : (fraction ++ power ++ rest).drop fraction.length = power ++ rest := by simp
        have := length_le_exponent (List.prefix_append power rest) hp
        rw [all, behind]
        omega
    · rintro ⟨rfl, none⟩
      refine some ⟨rfl, List.length_eq_zero_iff.1 ?_⟩
      omega
  · have nonzero := length_le_exponent (List.prefix_append power rest) hp
    have positive : power.length ≠ 0 := by
      obtain ⟨c, s, ds, rfl, -⟩ := mem_exponent.1 hp
      simp
    rw [List.append_assoc, Number.float?_plain hwhole fun c hc => head_exponent hp hc, if_neg]
    · refine ⟨_, rfl, ?_⟩
      rw [List.length_append]
      omega
    · rintro (rfl | none)
      · exact full rfl
      · omega

/-- What is found is a float, and it is longer than the digits at its front. -/
theorem take_float {n : Nat} (h : Number.float? cs = some n) :
    cs.take n ∈ float ∧ Number.digits cs < n := by
  have front : ∀ c ∈ cs.takeWhile Char.isDigit, c.isDigit := fun _ => List.mem_takeWhile_imp
  have length : Number.digits cs = (cs.takeWhile Char.isDigit).length := rfl
  have behind (c : Char) (hc : (cs.dropWhile Char.isDigit).head? = some c) : c.isDigit = false := by
    simpa [hc] using List.head?_dropWhile_not Char.isDigit cs
  rw [length]
  generalize hw : cs.takeWhile Char.isDigit = whole at *
  generalize hr : cs.dropWhile Char.isDigit = rest at *
  obtain rfl : whole ++ rest = cs := by rw [← hw, ← hr, List.takeWhile_append_dropWhile]
  by_cases point : rest.head? = some '.'
  · obtain ⟨rest, rfl⟩ := List.head?_eq_some_iff.1 point
    rw [Number.float?_point front] at h
    split at h
    · cases h
    · next some =>
      cases h
      refine ⟨mem_float.2 ⟨whole, front, .inl ⟨rest.takeWhile Char.isDigit, _,
        fun _ => List.mem_takeWhile_imp, ?_, take_exponent (rest.drop (Number.digits rest)), ?_⟩⟩,
        by omega⟩
      · exact fun h => some ⟨h.1, congrArg List.length h.2⟩
      · rw [Nat.add_assoc, Nat.add_assoc, List.take_length_add_append, Nat.add_comm 1,
          List.take_succ_cons, List.take_add, Number.digits, take_runLength]
  · rw [Number.float?_plain front] at h
    · split at h
      · cases h
      · next some =>
        cases h
        rw [not_or] at some
        refine ⟨mem_float.2 ⟨whole, front, .inr ⟨some.1, _, ?_, List.take_length_add_append _⟩⟩,
          by omega⟩
        refine (mem_maybe.1 (take_exponent rest)).resolve_left fun h => some.2 ?_
        have := Number.exponent_le rest
        have := congrArg List.length h
        simp only [List.length_take, List.length_nil] at this
        omega
    · intro c hc
      refine ⟨behind c hc, ?_⟩
      rintro rfl
      exact point hc

/-! ## String literals -/

theorem isQuote_iff : Quoted.isQuote c ↔ c = '"' ∨ c = '\'' := by simp [Quoted.isQuote]

variable {quote : Char}

theorem ne_of_isQuote (h : Quoted.isQuote quote) : quote ≠ '\n' ∧ quote ≠ '\\' := by
  rcases isQuote_iff.1 h with rfl | rfl <;> decide

/-- A literal at the front of a text is closed where the text behind its quote is. -/
theorem reach_of_mem (hq : Quoted.isQuote quote) (h : w <+: cs) (hw : w ∈ quoted quote) :
    ∃ rest, cs = quote :: rest ∧ Quoted.reach quote rest = ⟨true, w.length - 1⟩ := by
  obtain ⟨rest, rfl⟩ := h
  obtain ⟨_, ⟨_, ⟨q, opens, rfl⟩, _, ⟨parts, rfl, hp⟩, rfl⟩, _, ⟨q', closes, rfl⟩, rfl⟩ := hw
  obtain rfl : quote = q := opens.symm
  obtain rfl : quote = q' := closes.symm
  obtain ⟨line, escape⟩ := ne_of_isQuote hq
  refine ⟨parts.flatten ++ quote :: rest, by simp, ?_⟩
  have length : ([quote] ++ parts.flatten ++ [quote]).length - 1 = parts.flatten.length + 1 := by
    simp
  rw [length]
  induction parts with
  | nil => simp [Quoted.reach_cons quote rest line escape]
  | cons part parts ih =>
    obtain ⟨first, others⟩ := List.forall_mem_cons.1 hp
    have further := ih others (by simp)
    rcases first with ⟨c, ⟨hc, hb, hn⟩, rfl⟩ | ⟨_, ⟨_, rfl, rfl⟩, _, ⟨c, hc, rfl⟩, rfl⟩
    · simp [Quoted.reach_cons quote _ hn hb, hc, further, Quoted.Reach.shift]
    · simp [Quoted.reach, hc, further, Quoted.Reach.shift]

theorem mem_of_reach {n : Nat} (h : Quoted.reach quote cs = ⟨true, n⟩) :
    quote :: cs.take n ∈ quoted quote := by
  have body : ∃ parts : List (List Char), cs.take n = parts.flatten ++ [quote] ∧
      ∀ part ∈ parts, part ∈ oneOf (fun c => c ≠ quote ∧ c ≠ '\\' ∧ c ≠ '\n') +
        oneOf (· = '\\') * oneOf (· ≠ '\n') := by
    fun_induction Quoted.reach quote cs generalizing n with
    | case1 => cases h
    | case2 => cases h
    | case3 => cases h
    | case4 => cases h
    | case5 c cs line ih =>
      obtain ⟨m, hm, rfl⟩ := Quoted.Reach.shift_eq_closed h
      obtain ⟨parts, eq, hp⟩ := ih hm
      refine ⟨['\\', c] :: parts, by simp [eq], List.forall_mem_cons.2 ⟨.inr ?_, hp⟩⟩
      exact ⟨_, ⟨_, rfl, rfl⟩, _, ⟨c, line, rfl⟩, rfl⟩
    | case6 cs line last pair =>
      cases h
      exact ⟨[], rfl, List.forall_mem_nil _⟩
    | case7 c cs line last pair other ih =>
      obtain ⟨m, hm, rfl⟩ := Quoted.Reach.shift_eq_closed h
      obtain ⟨parts, eq, hp⟩ := ih hm
      have escape : c ≠ '\\' := fun h => by cases cs <;> simp_all
      exact ⟨[c] :: parts, by simp [eq],
        List.forall_mem_cons.2 ⟨.inl ⟨c, ⟨other, escape, line⟩, rfl⟩, hp⟩⟩
  obtain ⟨parts, eq, hp⟩ := body
  rw [eq, ← List.cons_append]
  exact ⟨_, ⟨[quote], ⟨_, rfl, rfl⟩, _, ⟨parts, rfl, hp⟩, rfl⟩, _, ⟨_, rfl, rfl⟩, rfl⟩

end Pattern

end ProtoSchema
