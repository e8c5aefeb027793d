import Mathlib.Data.List.TakeWhile
import ProtoSchema.Proofs.Scan.Layout
import ProtoSchema.Proofs.Scan.Pattern

/-! # The longest match

Where an item starts, all kinds of tokens are tried at once. The longest text that some kind
declares is the token, and a word or mark with a kind of its own is never taken for anything else.
If no kind declares anything there, the item is a failure. -/

namespace ProtoSchema

/-- That a text is read at the front of another one, as a token of a kind: no kind declares a longer
front, and if several kinds declare this one, it is of the kind whose text is fixed. -/
structure Longest (k : TokenKind) (w cs : List Char) : Prop where
  front : w <+: cs
  declared : w ∈ k.pattern
  longest : ∀ (l : TokenKind) v, v <+: cs → v ∈ l.pattern → v.length ≤ w.length
  preferred : ∀ l : TokenKind, w ∈ l.pattern → l = k ∨ l.text? = none ∧ k.text?.isSome

/-- That no kind declares a front of a text. -/
def Unmatched (cs : List Char) : Prop := ∀ (k : TokenKind) v, v <+: cs → v ∉ k.pattern

/-- A text has one token at its front at most. -/
theorem Longest.unique {k l : TokenKind} {v w cs : List Char} (h : Longest k v cs)
    (h' : Longest l w cs) : k = l ∧ v = w := by
  have length : v.length = w.length :=
    Nat.le_antisymm (h'.longest k v h.front h.declared) (h.longest l w h'.front h'.declared)
  obtain rfl : v = w := by
    rw [List.prefix_iff_eq_take.1 h.front, List.prefix_iff_eq_take.1 h'.front, length]
  refine ⟨?_, rfl⟩
  rcases h'.preferred k h.declared with same | ⟨-, fixed⟩
  · exact same
  · rcases h.preferred l h'.declared with same | ⟨none, -⟩
    · exact same.symm
    · rw [none] at fixed
      cases fixed

/-! ## First characters -/

section Words

variable {w : List Char}

theorem Pattern.mem_word_of_all (start : w.head?.any Word.isStart) (all : w.all Word.isPart) :
    w ∈ Pattern.word := by
  cases w with
  | nil => cases start
  | cons c cs =>
    rw [List.all_cons, Bool.and_eq_true, List.all_eq_true] at all
    exact Pattern.mem_word.2 ⟨c, cs, rfl, start, all.2⟩

theorem Keyword.mem_word (k : Keyword) : k.text.toList ∈ Pattern.word := by
  apply Pattern.mem_word_of_all <;> cases k <;> decide

theorem ScalarType.mem_word (t : ScalarType) : t.text.toList ∈ Pattern.word := by
  apply Pattern.mem_word_of_all <;> cases t <;> decide

end Words

namespace TokenKind

/-- Whether texts of a kind start with a character. -/
def starts : TokenKind → Char → Bool
  | .identifier, c | .keyword _, c | .scalar _, c => Word.isStart c
  | .stringLiteral, c => Quoted.isQuote c
  | .decimalLiteral, c => c.isDigit
  | .floatLiteral, c => c.isDigit || c == '.'
  | .mark m, c => c == m.char
  | .blockComment, _ => false

variable {k : TokenKind} {c : Char} {cs w : List Char}

theorem head_pattern (h : w ∈ k.pattern) : ∃ c cs, w = c :: cs ∧ k.starts c := by
  have word (hw : w ∈ Pattern.word) : ∃ c cs, w = c :: cs ∧ Word.isStart c := by
    obtain ⟨c, cs, rfl, start, -⟩ := Pattern.mem_word.1 hw
    exact ⟨c, cs, rfl, start⟩
  have quoted (q : Char) (hw : w ∈ Pattern.quoted q) : ∃ cs, w = q :: cs := by
    obtain ⟨_, ⟨_, ⟨_, rfl, rfl⟩, _, -, rfl⟩, _, -, rfl⟩ := hw
    exact ⟨_, rfl⟩
  cases k with
  | identifier => exact word h
  | keyword k =>
    obtain rfl := Set.mem_singleton_iff.1 h
    exact word k.mem_word
  | scalar t =>
    obtain rfl := Set.mem_singleton_iff.1 h
    exact word t.mem_word
  | stringLiteral =>
    rcases h with h | h
    · exact ⟨_, _, (quoted _ h).choose_spec, rfl⟩
    · exact ⟨_, _, (quoted _ h).choose_spec, rfl⟩
  | decimalLiteral =>
    obtain ⟨nonempty, all⟩ := Pattern.mem_digits.1 h
    obtain ⟨c, cs, rfl⟩ := List.exists_cons_of_ne_nil nonempty
    exact ⟨c, cs, rfl, all c List.mem_cons_self⟩
  | floatLiteral =>
    obtain ⟨whole, hw, point | ⟨full, power, -, rfl⟩⟩ := Pattern.mem_float.1 h
    · obtain ⟨fraction, power, -, -, -, rfl⟩ := point
      cases whole with
      | nil => exact ⟨_, _, rfl, rfl⟩
      | cons c cs => exact ⟨_, _, rfl, by simp [starts, hw c List.mem_cons_self]⟩
    · obtain ⟨c, cs, rfl⟩ := List.exists_cons_of_ne_nil full
      exact ⟨_, _, rfl, by simp [starts, hw c List.mem_cons_self]⟩
  | mark m =>
    exact ⟨m.char, [], (Set.mem_singleton_iff.1 h).trans (String.toList_ofList), by simp [starts]⟩
  | blockComment => cases h

theorem starts_of_front (h : w ∈ k.pattern) (front : w <+: c :: cs) : k.starts c := by
  obtain ⟨d, ds, rfl, start⟩ := head_pattern h
  obtain ⟨rfl, -⟩ := List.cons_prefix_cons.1 front
  exact start

/-! The first character leaves few kinds. -/

theorem kind_of_start (hk : k.starts c) (hc : Word.isStart c) :
    k = .identifier ∨ (∃ word, k = .keyword word) ∨ ∃ type, k = .scalar type := by
  cases k with
  | identifier => exact .inl rfl
  | keyword word => exact .inr (.inl ⟨word, rfl⟩)
  | scalar type => exact .inr (.inr ⟨type, rfl⟩)
  | stringLiteral => rcases Pattern.isQuote_iff.1 hk with rfl | rfl <;> cases hc
  | decimalLiteral => exact absurd hc (Segment.not_isStart_of_isDigit hk)
  | floatLiteral =>
    by_cases digit : c.isDigit
    · exact absurd hc (Segment.not_isStart_of_isDigit digit)
    · obtain rfl : c = '.' := by simpa [starts, digit] using hk
      cases hc
  | mark m =>
    obtain rfl : c = m.char := by simpa [starts] using hk
    cases m <;> cases hc
  | blockComment => cases hk

theorem eq_stringLiteral_of_quote (hk : k.starts c) (hc : Quoted.isQuote c) :
    k = .stringLiteral := by
  cases k with
  | stringLiteral => rfl
  | mark m =>
    obtain rfl : c = m.char := by simpa [starts] using hk
    cases m <;> cases hc
  | _ => rcases Pattern.isQuote_iff.1 hc with rfl | rfl <;> cases hk

theorem kind_of_digit (hk : k.starts c) (hc : c.isDigit) :
    k = .decimalLiteral ∨ k = .floatLiteral := by
  cases k with
  | decimalLiteral => exact .inl rfl
  | floatLiteral => exact .inr rfl
  | stringLiteral => rcases Pattern.isQuote_iff.1 hk with rfl | rfl <;> cases hc
  | mark m =>
    obtain rfl : c = m.char := by simpa [starts] using hk
    cases m <;> cases hc
  | blockComment => cases hk
  | _ => exact absurd hk (Segment.not_isStart_of_isDigit hc)

theorem kind_of_mark {m : Mark} (hk : k.starts m.char) :
    k = .mark m ∨ m = .dot ∧ k = .floatLiteral := by
  cases k with
  | mark n =>
    have same : m = n := by
      revert hk
      cases m <;> cases n <;> decide
    exact .inl (same ▸ rfl)
  | floatLiteral => cases m <;> first | exact .inr ⟨rfl, rfl⟩ | cases hk
  | blockComment => cases hk
  | _ => cases m <;> cases hk

end TokenKind

/-! ## Words -/

namespace TokenKind

theorem ofWord_keyword (k : Keyword) : ofWord k.text = .keyword k := by cases k <;> decide

theorem ofWord_scalar (t : ScalarType) : ofWord t.text = .scalar t := by cases t <;> decide

theorem text_ofWord (s : String) : ofWord s = .identifier ∨ (ofWord s).text? = some s := by
  unfold ofWord
  split
  · next found =>
    have same := List.find?_some found
    exact .inr (congrArg some (eq_of_beq same))
  · next found =>
    have same := List.find?_some found
    exact .inr (congrArg some (eq_of_beq same))
  · exact .inl rfl

end TokenKind

open TokenKind in
theorem longest_word {c : Char} (cs : List Char) (h : Word.isStart c) :
    Longest (.ofWord (String.ofList (c :: cs.takeWhile Word.isPart)))
      (c :: cs.takeWhile Word.isPart) (c :: cs) := by
  have whole : c :: cs.takeWhile Word.isPart ∈ Pattern.word :=
    Pattern.mem_word.2 ⟨c, _, rfl, h, fun _ => List.mem_takeWhile_imp⟩
  have front : c :: cs.takeWhile Word.isPart <+: c :: cs :=
    List.cons_prefix_cons.2 ⟨rfl, List.takeWhile_prefix _⟩
  refine ⟨front, ?_, fun l v hv hl => ?_, fun l hl => ?_⟩
  · rcases text_ofWord (String.ofList (c :: cs.takeWhile Word.isPart)) with name | fixed
    · rwa [name]
    · rw [pattern_of_text fixed, String.toList_ofList]
      exact Set.mem_singleton _
  · have word : v ∈ Pattern.word := by
      rcases kind_of_start (starts_of_front hl hv) h with rfl | ⟨k, rfl⟩ | ⟨t, rfl⟩
      · exact hl
      · exact (Set.mem_singleton_iff.1 hl) ▸ k.mem_word
      · exact (Set.mem_singleton_iff.1 hl) ▸ t.mem_word
    obtain ⟨d, ds, rfl, -, parts⟩ := Pattern.mem_word.1 word
    exact Nat.succ_le_succ (Pattern.length_le_runLength (List.cons_prefix_cons.1 hv).2 parts)
  · -- a kind that fixes its text is the one that is found by it
    rcases kind_of_start (starts_of_front hl front) h with rfl | ⟨k, rfl⟩ | ⟨t, rfl⟩
    · rcases text_ofWord (String.ofList (c :: cs.takeWhile Word.isPart)) with name | fixed
      · exact .inl name.symm
      · exact .inr ⟨rfl, by rw [fixed]; rfl⟩
    · rw [Set.mem_singleton_iff.1 hl, String.ofList_toList, ofWord_keyword]
      exact .inl rfl
    · rw [Set.mem_singleton_iff.1 hl, String.ofList_toList, ofWord_scalar]
      exact .inl rfl

/-! ## Numbers -/

section Numbers

variable {c : Char} {cs : List Char} {n : Nat}

theorem kind_of_number {k : TokenKind} (hk : k.starts c) (hc : c.isDigit ∨ c = '.') :
    k = .decimalLiteral ∨ k = .floatLiteral ∨ k = .dot := by
  rcases hc with digit | rfl
  · exact (TokenKind.kind_of_digit hk digit).imp_right .inl
  · rcases TokenKind.kind_of_mark (m := .dot) hk with rfl | ⟨-, rfl⟩
    · exact .inr (.inr rfl)
    · exact .inr (.inl rfl)

theorem length_of_mem_dot {w : List Char} (h : w ∈ TokenKind.dot.pattern) : w.length = 1 := by
  rw [Set.mem_singleton_iff.1 h]
  rfl

/-- A float is longer than the decimal or the point at its front. -/
theorem longest_float (hc : c.isDigit ∨ c = '.') (h : Number.float? (c :: cs) = some n) :
    Longest .floatLiteral ((c :: cs).take n) (c :: cs) := by
  obtain ⟨float, longer⟩ := Pattern.take_float h
  have length : ((c :: cs).take n).length = n := List.length_take_of_le (Number.float?_le h)
  have long := Pattern.one_lt_length_float float
  refine ⟨List.take_prefix _ _, float, fun l v hv hl => ?_, fun l hl => ?_⟩
  · rcases kind_of_number (TokenKind.starts_of_front hl hv) hc with rfl | rfl | rfl
    · have := Pattern.length_le_runLength hv (Pattern.mem_digits.1 hl).2
      rw [length]
      exact Nat.le_of_lt (Nat.lt_of_le_of_lt this longer)
    · obtain ⟨m, found, le⟩ := Pattern.length_le_float hv hl
      rw [length]
      rwa [Option.some.inj (h.symm.trans found)]
    · rw [length_of_mem_dot hl]
      exact Nat.le_of_lt long
  · have starts := TokenKind.starts_of_front hl (List.take_prefix _ _)
    rcases kind_of_number starts hc with rfl | rfl | rfl
    · have := Pattern.length_le_runLength (List.take_prefix _ _) (Pattern.mem_digits.1 hl).2
      rw [length] at this
      exact absurd longer (Nat.not_lt.2 this)
    · exact .inl rfl
    · rw [length_of_mem_dot hl] at long
      exact absurd long (Nat.lt_irrefl 1)

theorem longest_decimal (hc : c.isDigit) (h : Number.float? (c :: cs) = none) :
    Longest .decimalLiteral (c :: cs.takeWhile Char.isDigit) (c :: cs) := by
  have front : c :: cs.takeWhile Char.isDigit <+: c :: cs :=
    List.cons_prefix_cons.2 ⟨rfl, List.takeWhile_prefix _⟩
  have noFloat {v : List Char} (hv : v <+: c :: cs) : v ∉ TokenKind.floatLiteral.pattern := by
    intro hl
    obtain ⟨n, found, -⟩ := Pattern.length_le_float hv hl
    rw [h] at found
    cases found
  have whole : (c :: cs).takeWhile Char.isDigit = c :: cs.takeWhile Char.isDigit := by simp [hc]
  refine ⟨front, ?_, fun l v hv hl => ?_, fun l hl => ?_⟩
  · exact Pattern.mem_digits.2
      ⟨List.cons_ne_nil _ _, List.forall_mem_cons.2 ⟨hc, fun _ => List.mem_takeWhile_imp⟩⟩
  · rcases TokenKind.kind_of_digit (TokenKind.starts_of_front hl hv) hc with rfl | rfl
    · rw [← whole]
      exact Pattern.length_le_runLength hv (Pattern.mem_digits.1 hl).2
    · exact absurd hl (noFloat hv)
  · rcases TokenKind.kind_of_digit (TokenKind.starts_of_front hl front) hc with rfl | rfl
    · exact .inl rfl
    · exact absurd hl (noFloat front)

end Numbers

/-! ## Literals and marks -/

theorem mem_quoted {c : Char} {cs w : List Char} (h : w ∈ TokenKind.stringLiteral.pattern)
    (front : w <+: c :: cs) : w ∈ Pattern.quoted c := by
  have quoted (q : Char) (hw : w ∈ Pattern.quoted q) : q = c := by
    obtain ⟨_, ⟨_, ⟨_, rfl, rfl⟩, _, -, rfl⟩, _, -, rfl⟩ := hw
    exact (List.cons_prefix_cons.1 front).1
  rcases h with h | h
  · exact quoted _ h ▸ h
  · exact quoted _ h ▸ h

/-- A literal is closed in one place at most, so it has no competitors. -/
theorem longest_quoted {c : Char} {cs : List Char} {n : Nat} (hc : Quoted.isQuote c)
    (h : Quoted.reach c cs = ⟨true, n⟩) : Longest .stringLiteral (c :: cs.take n) (c :: cs) := by
  have front : c :: cs.take n <+: c :: cs := List.cons_prefix_cons.2 ⟨rfl, List.take_prefix _ _⟩
  refine ⟨front, ?_, fun l v hv hl => ?_, fun l hl => ?_⟩
  · have literal := Pattern.mem_of_reach h
    rcases Pattern.isQuote_iff.1 hc with rfl | rfl
    · exact .inl literal
    · exact .inr literal
  · obtain rfl := TokenKind.eq_stringLiteral_of_quote (TokenKind.starts_of_front hl hv) hc
    obtain ⟨rest, eq, closed⟩ := Pattern.reach_of_mem hc hv (mem_quoted hl hv)
    obtain ⟨-, rfl⟩ := List.cons.inj eq
    rw [h] at closed
    have length : n = v.length - 1 := congrArg Quoted.Reach.length closed
    have short : n ≤ cs.length := by
      have := Quoted.length_reach_le c cs
      rwa [h] at this
    rw [List.length_cons, List.length_take_of_le short]
    omega
  · exact .inl (TokenKind.eq_stringLiteral_of_quote (TokenKind.starts_of_front hl front) hc)

theorem unmatched_quoted {c : Char} {cs : List Char} (hc : Quoted.isQuote c)
    (h : (Quoted.reach c cs).closes = false) : Unmatched (c :: cs) := by
  intro l v hv hl
  obtain rfl := TokenKind.eq_stringLiteral_of_quote (TokenKind.starts_of_front hl hv) hc
  obtain ⟨rest, eq, closed⟩ := Pattern.reach_of_mem hc hv (mem_quoted hl hv)
  obtain ⟨-, rfl⟩ := List.cons.inj eq
  rw [closed] at h
  cases h

theorem longest_mark {m : Mark} {cs : List Char} (h : Number.scan m.char cs = none) :
    Longest (.mark m) [m.char] (m.char :: cs) := by
  have front : [m.char] <+: m.char :: cs := List.cons_prefix_cons.2 ⟨rfl, List.nil_prefix⟩
  have only (l : TokenKind) (v : List Char) (hv : v <+: m.char :: cs) (hl : v ∈ l.pattern) :
      l = .mark m := by
    rcases TokenKind.kind_of_mark (TokenKind.starts_of_front hl hv) with same | ⟨rfl, rfl⟩
    · exact same
    · obtain ⟨n, found, -⟩ := Pattern.length_le_float hv hl
      unfold Number.scan at h
      rw [found] at h
      cases h
  refine ⟨front, ?_, fun l v hv hl => ?_, fun l hl => .inl (only l _ front hl)⟩
  · exact Set.mem_singleton_iff.2 String.toList_ofList.symm
  · obtain rfl := only l v hv hl
    rw [Set.mem_singleton_iff.1 hl, Mark.text, String.toList_ofList]

/-! ## One step of the scanner -/

namespace Segment

variable {c : Char} {cs : List Char}

/-- What is right about a step of the scanner: a token is the longest match, and where there is no
token there is no match. -/
def Decides (c : Char) (cs : List Char) : SegmentKind × Nat → Prop
  | (.token k, n) => Longest k (c :: cs.take n) (c :: cs)
  | _ => Unmatched (c :: cs)

theorem decides_number (hc : c.isDigit ∨ c = '.') {r : SegmentKind × Nat}
    (h : Number.scan c cs = some r) : Decides c cs r := by
  unfold Number.scan at h
  split at h
  · next n found =>
    cases h
    have positive := Number.float?_append found (TokenKind.endsBefore_nil _)
    have longest := longest_float hc found
    obtain ⟨n, rfl⟩ := Nat.exists_eq_succ_of_ne_zero positive.1
    exact longest
  · next none =>
    split at h
    · next digit =>
      cases h
      have longest := longest_decimal digit none
      rwa [← take_runLength] at longest
    · cases h

theorem decides_quoted (hc : Quoted.isQuote c) {r : SegmentKind × Nat}
    (h : Quoted.scan c cs = some r) : Decides c cs r := by
  rw [Quoted.scan, if_pos hc] at h
  cases h
  cases reach : Quoted.reach c cs with
  | mk closes n =>
    cases closes with
    | true => exact longest_quoted hc reach
    | false => exact unmatched_quoted hc (by rw [reach])

/-- Where no kind starts, nothing is declared and no token is read. -/
theorem decides_other (word : ¬ Word.isStart c) (digit : ¬ c.isDigit) (quote : ¬ Quoted.isQuote c)
    (mark : ¬ ∃ m : Mark, c = m.char) : Decides c cs (scan c cs) := by
  have unmatched : Unmatched (c :: cs) := by
    intro k v hv hk
    have start := TokenKind.starts_of_front hk hv
    cases k with
    | stringLiteral => exact quote start
    | decimalLiteral => exact digit start
    | floatLiteral =>
      have point : c = '.' := by simpa [TokenKind.starts, digit] using start
      exact mark ⟨.dot, point⟩
    | mark m => exact mark ⟨m, by simpa [TokenKind.starts] using start⟩
    | blockComment => cases start
    | _ => exact word start
  cases result : scan c cs with
  | mk kind n =>
    cases kind with
    | token k =>
      have some : scan? c cs = some (.token k, n) := by
        cases found : scan? c cs with
        | none =>
          rw [scan, found] at result
          cases result
        | some r =>
          rw [scan, found] at result
          exact congrArg Option.some result
      rcases starts_of_token some with h | h | h | h
      · exact absurd h word
      · exact absurd h digit
      · exact absurd h quote
      · exact absurd h mark
    | trivia => exact unmatched
    | failure => exact unmatched

/-- Every step of the scanner is right. -/
theorem decides_scan (c : Char) (cs : List Char) : Decides c cs (scan c cs) := by
  by_cases word : Word.isStart c
  · have longest := longest_word cs word
    rw [← take_runLength] at longest
    rw [scan, scan?_word word, Word.scan, if_pos word, ← take_runLength]
    exact longest
  by_cases digit : c.isDigit
  · rw [scan, scan?_digit digit]
    cases found : Number.scan c cs with
    | some r => exact decides_number (.inl digit) found
    | none =>
      unfold Number.scan at found
      split at found
      · cases found
      · rw [if_pos digit] at found
        cases found
  by_cases quote : Quoted.isQuote c
  · rw [scan, scan?_quote quote]
    cases found : Quoted.scan c cs with
    | some r => exact decides_quoted quote found
    | none =>
      rw [Quoted.scan, if_pos quote] at found
      cases found
  by_cases mark : ∃ m : Mark, c = m.char
  · obtain ⟨m, rfl⟩ := mark
    rw [scan, scan?_mark]
    cases found : Number.scan m.char cs with
    | none => exact longest_mark found
    | some r =>
      refine decides_number ?_ found
      by_contra none
      rw [not_or] at none
      rw [number_scan_eq_none (by simpa using none.1) fun point => absurd point none.2] at found
      cases found
  · exact decides_other word digit quote mark

/-- Every item of a text is what starts somewhere in it. -/
theorem exists_first {p : Nat} {cs : List Char} {i : Item} (h : i ∈ items p (cut cs)) :
    ∃ before c rest, cs = before ++ c :: rest ∧
      (first c rest).item? (p + byteLength before) = some i := by
  induction cs using cut_induction generalizing p with
  | nil => cases h
  | cons c cs ih =>
    rw [items_cons, List.mem_append, Option.mem_toList] at h
    rcases h with here | behind
    · exact ⟨[], c, cs, rfl, here⟩
    · obtain ⟨before, d, rest, eq, item⟩ := ih behind
      refine ⟨(first c cs).chars ++ before, d, rest, ?_, ?_⟩
      · rw [List.append_assoc, ← eq]
        simp [first]
      · rwa [byteLength_append, ← Nat.add_assoc]

end Segment

/-- That an item is what the patterns declare at the front of a text: a token that is the longest
match, or a failure where there is none. -/
def Item.Fits (i : Item) (cs : List Char) : Prop :=
  match i with
  | .token l => Longest l.token.kind l.token.text.toList cs
  | .failure _ => Unmatched cs

theorem Segment.fits_first {c : Char} {cs : List Char} {p : Nat} {i : Item}
    (h : (first c cs).item? p = some i) : i.Fits (c :: cs) ∧ i.span.start = p := by
  have decides := decides_scan c cs
  cases result : scan c cs with
  | mk kind n =>
    rw [result] at decides
    cases kind with
    | trivia =>
      rw [item?, first, result] at h
      cases h
    | token k =>
      rw [item?, first, result] at h
      cases h
      refine ⟨?_, rfl⟩
      rwa [Item.Fits, Segment.text, String.toList_ofList]
    | failure =>
      rw [item?, first, result] at h
      cases h
      exact ⟨decides, rfl⟩

theorem Token.eq_ofKind {t : Token} {s : String} (h : t.kind.text? = some s) (text : t.text = s) :
    t = .ofKind t.kind := by
  obtain ⟨kind, _⟩ := t
  obtain rfl := text
  change kind.text? = some _ at h
  rw [ofKind, h, Option.getD_some]

namespace Token.Scans

variable {t : Token} {s : String}

/-- A token is declared by its kind. -/
theorem declared (h : t.Scans) : t.text.toList ∈ t.kind.pattern := by
  obtain ⟨c, cs, text, scan⟩ := h.scan
  have decides := Segment.decides_scan c cs
  rw [scan] at decides
  change Longest t.kind (c :: cs.take cs.length) (c :: cs) at decides
  rw [List.take_length, ← text] at decides
  exact decides.declared

theorem text_eq (h : t.Scans) (fixed : t.kind.text? = some s) : t.text = s := by
  have declared := h.declared
  rw [TokenKind.pattern_of_text fixed] at declared
  exact String.toList_inj.1 (Set.mem_singleton_iff.1 declared)

end Token.Scans

/-! ## Texts that are read as tokens -/

theorem Token.scans_of_longest {t : Token} (h : Longest t.kind t.text.toList t.text.toList) :
    t.Scans := by
  obtain ⟨c, cs, text, -⟩ := TokenKind.head_pattern h.declared
  rw [text] at h
  have decides := Segment.decides_scan c cs
  cases result : Segment.scan c cs with
  | mk kind n =>
    rw [result] at decides
    cases kind with
    | token k =>
      obtain ⟨rfl, whole⟩ := Longest.unique decides h
      have length := congrArg List.length (List.cons.inj whole).2
      rw [List.length_take_of_le (by simpa [result] using Segment.scan_le c cs)] at length
      exact Token.scans_of_scan text (by rw [result, length])
    | trivia => exact absurd h.declared (decides _ _ h.front)
    | failure => exact absurd h.declared (decides _ _ h.front)

/-- A word is read as a name, unless it is reserved. -/
theorem Token.scans_word {s : String} (word : s.toList ∈ Pattern.word)
    (free : ∀ k, TokenKind.text? k ≠ some s) : Token.Scans ⟨.identifier, s⟩ := by
  obtain ⟨c, cs, text, start, parts⟩ := Pattern.mem_word.1 word
  have longest := longest_word cs start
  rw [List.takeWhile_eq_self_iff.2 parts, ← text, String.ofList_toList,
    (TokenKind.text_ofWord s).resolve_right (free _)] at longest
  exact Token.scans_of_longest longest

/-- Digits are read as one literal, be there zeros at their front or not. -/
theorem Token.scans_digits {s : String} (digits : s.toList ∈ Pattern.digits) :
    Token.Scans ⟨.decimalLiteral, s⟩ := by
  obtain ⟨nonempty, all⟩ := Pattern.mem_digits.1 digits
  obtain ⟨c, cs, text⟩ := List.exists_cons_of_ne_nil nonempty
  rw [text] at all
  have none : Number.float? (c :: cs) = none := by
    cases found : Number.float? (c :: cs) with
    | none => rfl
    | some n =>
      have longer := (Pattern.take_float found).2
      have run := Pattern.length_le_runLength (List.prefix_refl (c :: cs)) all
      exact absurd (Number.float?_le found) (Nat.not_le.2 (Nat.lt_of_le_of_lt run longer))
  have longest := longest_decimal (all c List.mem_cons_self) none
  rw [List.takeWhile_eq_self_iff.2 (List.forall_mem_cons.1 all).2, ← text] at longest
  exact Token.scans_of_longest longest

/-- The scanner is a longest-match tokenizer of the declared patterns. Where an item starts, the
longest text that some kind declares is the token, of the kind whose text is fixed if there is one,
and the item is a failure just where no kind declares anything. So a token whose kind fixes its text
has this text, no name is a reserved word, and no token is a block comment. -/
theorem lex_longest_match (source : String) :
    (∀ i ∈ lex source, ∃ before rest, source.toList = before ++ rest ∧
      i.span.start = byteLength before ∧ i.Fits rest) ∧
    ∀ l, .token l ∈ lex source →
      (∀ t, l.token.kind.text? = some t → l.token.text = t ∧ l.token = .ofKind l.token.kind) ∧
      (l.token.kind = .identifier → ∀ k t, TokenKind.text? k = some t → l.token.text ≠ t) ∧
      l.token.kind ≠ .blockComment := by
  have fits : ∀ i ∈ lex source, ∃ before rest, source.toList = before ++ rest ∧
      i.span.start = byteLength before ∧ i.Fits rest := by
    intro i hi
    obtain ⟨before, c, rest, eq, item⟩ := Segment.exists_first hi
    obtain ⟨fits, start⟩ := Segment.fits_first item
    exact ⟨before, c :: rest, eq, by rw [start, Nat.zero_add], fits⟩
  refine ⟨fits, fun l hl => ?_⟩
  obtain ⟨before, rest, -, -, longest⟩ := fits _ hl
  have scans : l.token.Scans := scans_of_mem_items hl
  refine ⟨fun t ht => ?_, fun name k t ht same => ?_, fun comment => ?_⟩
  · have text := scans.text_eq ht
    exact ⟨text, Token.eq_ofKind ht text⟩
  · have other : l.token.text.toList ∈ k.pattern := by
      rw [TokenKind.pattern_of_text ht, same]
      exact Set.mem_singleton _
    rcases longest.preferred k other with rfl | ⟨none, -⟩
    · rw [name] at ht
      cases ht
    · rw [none] at ht
      cases ht
  · have declared := scans.declared
    rw [comment] at declared
    cases declared

end ProtoSchema
