import Mathlib.Data.Nat.Digits.Defs
import Mathlib.Tactic.IntervalCases
import ProtoSchema.Proofs.Print.RoundTrip

/-! # Numbers of fields

The numbers in a tree are digits, kept as they were written, and any digits may be a number. Two of
them stand for the same number just if they differ in nothing but the zeros in front. So a number
would have one spelling, if it were not for these zeros. -/

namespace ProtoSchema

open Computability

/-! ## Digits -/

namespace Numeral

def digit (c : Char) : Nat := c.toNat - '0'.toNat

/-- The number that digits stand for, the last one of which counts the ones. -/
def value (cs : List Char) : Nat := Nat.ofDigits 10 (cs.map digit).reverse

/-- Digits without the zeros in front. -/
def significant (cs : List Char) : List Char := cs.dropWhile (· == '0')

variable {c : Char} {cs ds : List Char}

theorem digit_range (h : c.isDigit) : 48 ≤ c.toNat ∧ c.toNat ≤ 57 := by
  simpa [Char.isDigit, UInt32.le_iff_toNat_le] using h

theorem digit_lt (h : c.isDigit) : digit c < 10 :=
  Nat.sub_lt_left_of_lt_add (digit_range h).1 (Nat.lt_succ_of_le (digit_range h).2)

theorem digitChar_digit (h : c.isDigit) : Nat.digitChar (digit c) = c := by
  obtain ⟨low, high⟩ := digit_range h
  rw [digit, ← Char.ofNat_toNat c]
  generalize c.toNat = n at low high
  interval_cases n <;> rfl

theorem digit_ne_zero (h : c.isDigit) (other : c ≠ '0') : digit c ≠ 0 := by
  intro zero
  refine other ?_
  rw [← digitChar_digit h, zero]
  rfl

theorem isDigit_significant (h : ∀ c ∈ cs, c.isDigit) : ∀ c ∈ significant cs, c.isDigit :=
  fun c hc => h c ((List.dropWhile_suffix _).subset hc)

theorem head_significant (h : (significant cs).head? = some c) : c ≠ '0' := by
  have first := List.head?_dropWhile_not (· == '0') cs
  rw [← significant, h] at first
  simpa using first

theorem value_significant (cs : List Char) : value (significant cs) = value cs := by
  induction cs with
  | nil => rfl
  | cons c cs ih =>
    by_cases zero : c = '0'
    · subst zero
      have dropped : significant ('0' :: cs) = significant cs := rfl
      have front : value ('0' :: cs) = value cs := Nat.ofDigits_reverse_zero_cons _
      rw [dropped, front, ih]
    · rw [significant, List.dropWhile_cons_of_neg (by simpa using zero)]

/-- The digits of a number are those of each text that stands for it, but for zeros in front. -/
theorem digits_value (h : ∀ c ∈ cs, c.isDigit) :
    Nat.digits 10 (value cs) = ((significant cs).map digit).reverse := by
  have all := isDigit_significant h
  rw [← value_significant, value]
  refine Nat.digits_ofDigits 10 (by decide) _ (fun n hn => ?_) fun full => ?_
  · obtain ⟨c, hc, rfl⟩ := List.mem_map.1 (List.mem_reverse.1 hn)
    exact digit_lt (all c hc)
  · rw [List.getLast_reverse, List.head_map]
    have some : significant cs ≠ [] := by simpa using full
    exact digit_ne_zero (all _ (List.head_mem some))
      (head_significant (List.head?_eq_some_head some))

/-- Texts of digits stand for one number just if they differ only in zeros at the front. -/
theorem value_eq_iff (hc : ∀ c ∈ cs, c.isDigit) (hd : ∀ d ∈ ds, d.isDigit) :
    value cs = value ds ↔ significant cs = significant ds := by
  constructor
  · intro same
    -- digits in front of which there is no zero can be read off their number
    have back {es : List Char} (h : ∀ e ∈ es, e.isDigit) :
        (Nat.digits 10 (value es)).reverse.map Nat.digitChar = significant es := by
      rw [digits_value h, List.reverse_reverse, List.map_map]
      refine (List.map_congr_left fun c hc => ?_).trans (List.map_id _)
      exact digitChar_digit (isDigit_significant h c hc)
    rw [← back hc, ← back hd, same]
  · intro same
    rw [← value_significant cs, ← value_significant ds, same]

end Numeral

namespace Pattern

/-- Digits without a zero in front, or one zero. -/
def plain : Language Char :=
  oneOf (· = '0') + oneOf (fun c => c.isDigit ∧ c ≠ '0') * (oneOf (·.isDigit))∗

variable {w v : List Char}

theorem mem_plain : w ∈ plain ↔ w = ['0'] ∨ w ≠ [] ∧ w.head? ≠ some '0' ∧ ∀ c ∈ w, c.isDigit := by
  simp only [plain, Language.mem_add, Language.mem_mul, mem_oneOf, mem_kstar_oneOf]
  constructor
  · rintro (⟨c, rfl, rfl⟩ | ⟨_, ⟨c, ⟨digit, other⟩, rfl⟩, cs, digits, rfl⟩)
    · exact .inl rfl
    · exact .inr
        ⟨List.cons_ne_nil _ _, by simpa using other, List.forall_mem_cons.2 ⟨digit, digits⟩⟩
  · rintro (rfl | ⟨nonempty, other, digits⟩)
    · exact .inl ⟨'0', rfl, rfl⟩
    · obtain ⟨c, cs, rfl⟩ := List.exists_cons_of_ne_nil nonempty
      obtain ⟨hc, hcs⟩ := List.forall_mem_cons.1 digits
      exact .inr ⟨[c], ⟨c, ⟨hc, by simpa using other⟩, rfl⟩, cs, hcs, rfl⟩

/-- What is left of such digits without zeros in front: all of them, or nothing of a zero. -/
theorem significant_of_plain (h : w ∈ plain) :
    Numeral.significant w = if w = ['0'] then [] else w := by
  rcases mem_plain.1 h with rfl | ⟨nonempty, other, -⟩
  · rfl
  · obtain ⟨c, cs, rfl⟩ := List.exists_cons_of_ne_nil nonempty
    have zero : c ≠ '0' := by simpa using other
    rw [if_neg (by simp [zero]), Numeral.significant,
      List.dropWhile_cons_of_neg (by simpa using zero)]

theorem eq_of_plain (h : w ∈ plain) (h' : v ∈ plain)
    (same : Numeral.significant w = Numeral.significant v) : w = v := by
  have nonempty {u : List Char} (hu : u ∈ plain) : u ≠ [] := by
    rintro rfl
    rcases mem_plain.1 hu with h | ⟨h, -⟩
    · cases h
    · exact h rfl
  rw [significant_of_plain h, significant_of_plain h'] at same
  split at same <;> split at same
  · next zero zero' => rw [zero, zero']
  · exact absurd same.symm (nonempty h')
  · exact absurd same (nonempty h)
  · exact same

end Pattern

/-! ## The numbers in a tree -/

def Enum.numbers (e : Enum) : List Token := e.body.fields.map fun f => f.number.number

def Oneof.numbers (o : Oneof) : List Token := o.fields.map Field.number

mutual

def Message.numbers : Message → List Token
  | ⟨_, body⟩ => body.numbers

def MessageBody.numbers : MessageBody → List Token
  | ⟨fields, enums, messages, oneofs, _⟩ =>
    fields.map Field.number ++ (enums.flatMap Enum.numbers ++ (Message.numbersList messages ++
      oneofs.flatMap Oneof.numbers))

def Message.numbersList : List Message → List Token
  | [] => []
  | m :: rest => m.numbers ++ Message.numbersList rest

end

/-- The numbers of all fields and of all members of enums, however deep they are nested. -/
def File.numbers (f : File) : List Token :=
  f.messages.flatMap Message.numbers ++ f.enums.flatMap Enum.numbers

theorem Token.is_decimal_iff {t : Token} :
    t.Is .decimalLiteral ↔ t.kind = .decimalLiteral ∧ t.text.toList ∈ Pattern.digits := by
  constructor
  · rintro ⟨kind, scans⟩
    have declared := scans.declared
    rw [kind] at declared
    exact ⟨kind, declared⟩
  · obtain ⟨kind, text⟩ := t
    rintro ⟨rfl, digits⟩
    exact ⟨rfl, Token.scans_digits digits⟩

theorem Enum.WellFormed.numbers_decimal {e : Enum} (h : e.WellFormed) :
    ∀ t ∈ e.numbers, t.Is .decimalLiteral := by
  intro t ht
  obtain ⟨f, hf, rfl⟩ := List.mem_map.1 ht
  exact (h.fields f hf).number

theorem Oneof.WellFormed.numbers_decimal {o : Oneof} (h : o.WellFormed) :
    ∀ t ∈ o.numbers, t.Is .decimalLiteral := by
  intro t ht
  obtain ⟨f, hf, rfl⟩ := List.mem_map.1 ht
  exact (h.fields f hf).1.number

theorem Message.numbersList_eq_flatMap (ms : List Message) :
    numbersList ms = ms.flatMap numbers := by
  induction ms with
  | nil => simp [numbersList]
  | cons m rest ih => simp [numbersList, ih]

theorem Message.WellFormed.numbers_decimal {m : Message} (h : m.WellFormed) :
    ∀ t ∈ m.numbers, t.Is .decimalLiteral := by
  induction h with
  | @intro m _ fields enums _ oneofs _ ih =>
    obtain ⟨name, body⟩ := m
    cases body
    intro t ht
    simp only [Message.numbers, MessageBody.numbers, Message.numbersList_eq_flatMap,
      List.mem_append, List.mem_map, List.mem_flatMap] at ht
    rcases ht with ⟨f, hf, rfl⟩ | ⟨e, he, ht⟩ | ⟨n, hn, ht⟩ | ⟨o, ho, ht⟩
    · exact (fields f hf).number
    · exact (enums e he).numbers_decimal t ht
    · exact ih n hn t ht
    · exact (oneofs o ho).numbers_decimal t ht

namespace File

theorem WellFormed.numbers_decimal {f : File} (h : f.WellFormed) :
    ∀ t ∈ f.numbers, t.Is .decimalLiteral := by
  intro t ht
  rcases List.mem_append.1 ht with ht | ht
  · obtain ⟨m, hm, ht⟩ := List.mem_flatMap.1 ht
    exact (h.messages m hm).numbers_decimal t ht
  · obtain ⟨e, he, ht⟩ := List.mem_flatMap.1 ht
    exact (h.enums e he).numbers_decimal t ht

/-- A file with one message, whose fields have some given numbers. -/
def ofNumbers (numbers : List Token) : File where
  syntaxDecl := ⟨⟨.stringLiteral, "\"proto3\""⟩⟩
  package := none
  imports := []
  options := []
  messages := [⟨⟨.identifier, "M"⟩, ⟨numbers.map fun t =>
    ⟨false, .scalar ⟨.scalar .int32, "int32"⟩, ⟨.identifier, "x"⟩, t, []⟩, [], [], [], []⟩⟩]
  enums := []

/-- Such a file is well formed, whatever digits the numbers are. -/
theorem wellFormed_ofNumbers {ts : List Token} (h : ∀ t ∈ ts, t.Is .decimalLiteral) :
    (ofNumbers ts).WellFormed where
  syntaxDecl := rfl
  package := nofun
  imports := List.forall_mem_nil _
  options := List.forall_mem_nil _
  messages := by
    have name : Token.Scans ⟨.identifier, "M"⟩ := by decide
    have fieldName : Token.Scans ⟨.identifier, "x"⟩ := by decide
    refine List.forall_mem_singleton.2 (.intro ⟨rfl, name⟩ (fun f hf => ?_) (List.forall_mem_nil _)
      (List.forall_mem_nil _) (List.forall_mem_nil _) (List.forall_mem_nil _))
    obtain ⟨t, ht, rfl⟩ := List.mem_map.1 hf
    exact ⟨⟨rfl, by decide⟩, ⟨rfl, fieldName⟩, h t ht, List.forall_mem_nil _⟩
  enums := List.forall_mem_nil _

theorem numbers_ofNumbers (ts : List Token) : (ofNumbers ts).numbers = ts := by
  simp [ofNumbers, numbers, Message.numbers, MessageBody.numbers, Message.numbersList,
    Function.comp_def]

theorem exists_of_numbers {source : String} {ts : List Token}
    (h : (parseFile source).map numbers = .ok ts) :
    ∃ f, parseFile source = .ok f ∧ f.numbers = ts := by
  cases read : parseFile source with
  | error e =>
    rw [read] at h
    cases h
  | ok f =>
    rw [read] at h
    exact ⟨f, rfl, Except.ok.inj h⟩

end File

/-- The numbers in files are texts of digits, and each list of such texts is the list of the numbers
in some file. Two of them are the same number just if their texts are, but for zeros in front; where
there are no such zeros, they are the same number just if they are equal. -/
theorem number_spellings (ts : List Token) :
    ((∃ source f, parseFile source = .ok f ∧ f.numbers = ts) ↔
      ∀ t ∈ ts, t.kind = .decimalLiteral ∧ t.text.toList ∈ Pattern.digits) ∧
    ∀ source f, parseFile source = .ok f → f.numbers = ts → ∀ t ∈ ts, ∀ u ∈ ts,
      (Numeral.value t.text.toList = Numeral.value u.text.toList ↔
        Numeral.significant t.text.toList = Numeral.significant u.text.toList) ∧
      (t.text.toList ∈ Pattern.plain → u.text.toList ∈ Pattern.plain →
        (Numeral.value t.text.toList = Numeral.value u.text.toList ↔ t = u)) := by
  have decimal {source : String} {f : File} (read : parseFile source = .ok f) (t : Token)
      (ht : t ∈ f.numbers) : t.kind = .decimalLiteral ∧ t.text.toList ∈ Pattern.digits :=
    Token.is_decimal_iff.1 ((wellFormed_of_parseFile read).numbers_decimal t ht)
  refine ⟨⟨?_, fun h => ?_⟩, fun source f read numbers t ht u hu => ?_⟩
  · rintro ⟨source, f, read, rfl⟩
    exact decimal read
  · have wellFormed := File.wellFormed_ofNumbers fun t ht => Token.is_decimal_iff.2 (h t ht)
    exact ⟨_, _, parseFile_print wellFormed, File.numbers_ofNumbers ts⟩
  · subst numbers
    obtain ⟨kind, digits⟩ := decimal read t ht
    obtain ⟨kind', digits'⟩ := decimal read u hu
    have same :=
      Numeral.value_eq_iff (Pattern.mem_digits.1 digits).2 (Pattern.mem_digits.1 digits').2
    refine ⟨same, fun plain plain' => ⟨fun h => ?_, fun h => by rw [h]⟩⟩
    obtain ⟨k, text⟩ := t
    obtain ⟨k', text'⟩ := u
    obtain rfl : k = k' := kind.trans kind'.symm
    obtain rfl : text = text' := String.toList_inj.1 (Pattern.eq_of_plain plain plain' (same.1 h))
    rfl

/-- Two fields with one number, which is written in two ways, and a third one. -/
theorem number_spellings_seven :
    let source :=
      "syntax = \"proto3\"; message M { int32 x = 007; oneof o { int32 y = 7; } int32 z = 70; }"
    let digits (text : String) : Token := ⟨.decimalLiteral, text⟩
    ∃ f, parseFile source = .ok f ∧ f.numbers = [digits "007", digits "70", digits "7"] ∧
      (∃ source' f', parseFile source' = .ok f' ∧ f'.numbers = f.numbers.reverse) ∧
      Numeral.value "007".toList = Numeral.value "7".toList ∧
      (Numeral.value "70".toList = Numeral.value "7".toList ↔ digits "70" = digits "7") := by
  intro source digits
  obtain ⟨f, read, numbers⟩ :
      ∃ f, parseFile source = .ok f ∧ f.numbers = [digits "007", digits "70", digits "7"] :=
    File.exists_of_numbers (by decide +kernel)
  have all := (number_spellings f.numbers).1.1 ⟨source, f, read, rfl⟩
  have other := (number_spellings f.numbers.reverse).1.2 fun t ht => all t (List.mem_reverse.1 ht)
  have same := (number_spellings f.numbers).2 source f read rfl
  have zero := same (digits "007") (by simp [numbers]) (digits "7") (by simp [numbers])
  have distinct := same (digits "70") (by simp [numbers]) (digits "7") (by simp [numbers])
  have plain (s : String)
      (h : s.toList ≠ [] ∧ s.toList.head? ≠ some '0' ∧ s.toList.all Char.isDigit) :
      s.toList ∈ Pattern.plain := Pattern.mem_plain.2 (.inr ⟨h.1, h.2.1, List.all_eq_true.1 h.2.2⟩)
  exact ⟨f, read, numbers, other, zero.1.2 (by decide),
    distinct.2 (plain "70" (by decide)) (plain "7" (by decide))⟩

/-- A number may have zeros in front, so it has many spellings. -/
theorem zeros_in_front :
    ¬ ∀ source f, parseFile source = .ok f → ∀ t ∈ f.numbers, t.text.toList ∈ Pattern.plain ∧
      ∀ u ∈ f.numbers,
        Numeral.value t.text.toList = Numeral.value u.text.toList ↔ t.text = u.text := by
  intro plain
  let source := "syntax = \"proto3\"; message M { int32 a = 007; }"
  obtain ⟨f, read, numbers⟩ :
      ∃ f, parseFile source = .ok f ∧ f.numbers = [⟨.decimalLiteral, "007"⟩] :=
    File.exists_of_numbers (by decide +kernel)
  have zeros := (plain source f read ⟨.decimalLiteral, "007"⟩ (by simp [numbers])).1
  exact absurd (Pattern.mem_plain.1 zeros) (by decide)

end ProtoSchema
