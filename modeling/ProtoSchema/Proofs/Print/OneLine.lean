import ProtoSchema.Proofs.Print.RoundTrip

/-! # Texts on one line

No kind of token declares a text with a line's end in it: in a string literal, neither a plain
character nor the one behind a backslash is a line's end. What an error says about a token is put
together from the token's text and from fixed words, so it stays on one line whatever lies between
the tokens of a source. -/

namespace ProtoSchema
open Computability

/-- That there is no line's end in a text. -/
def OneLine (s : String) : Prop := '\n' ∉ s.toList

instance (s : String) : Decidable (OneLine s) := inferInstanceAs (Decidable (_ ∉ _))

theorem OneLine.append {s t : String} (hs : OneLine s) (ht : OneLine t) : OneLine (s ++ t) := by
  unfold OneLine
  rw [String.toList_append, List.mem_append, not_or]
  exact ⟨hs, ht⟩

/-! ## Declared texts -/

namespace Pattern

/-- That no text of a language has a certain character in it. -/
def Avoids (c : Char) (L : Language Char) : Prop := ∀ w ∈ L, c ∉ w

variable {c : Char} {L M : Language Char} {p : Char → Prop}

theorem avoids_oneOf (h : ¬ p c) : Avoids c (oneOf p) := by
  rintro _ ⟨d, hd, rfl⟩ mem
  exact h (List.mem_singleton.1 mem ▸ hd)

theorem avoids_one : Avoids c 1 := by
  rintro w rfl
  exact List.not_mem_nil

namespace Avoids

theorem add (hL : Avoids c L) (hM : Avoids c M) : Avoids c (L + M) := by
  rintro w (h | h)
  · exact hL w h
  · exact hM w h

theorem mul (hL : Avoids c L) (hM : Avoids c M) : Avoids c (L * M) := by
  rintro _ ⟨v, hv, w, hw, rfl⟩ mem
  rcases List.mem_append.1 mem with mem | mem
  · exact hL v hv mem
  · exact hM w hw mem

theorem kstar (h : Avoids c L) : Avoids c L∗ := by
  rintro _ ⟨parts, rfl, hp⟩ mem
  obtain ⟨part, hpart, mem⟩ := List.mem_flatten.1 mem
  exact h part (hp part hpart) mem

end Avoids

theorem avoids_digits : Avoids '\n' digits :=
  .mul (avoids_oneOf (by decide)) (.kstar (avoids_oneOf (by decide)))

theorem avoids_exponent : Avoids '\n' exponent :=
  .mul (.mul (avoids_oneOf (by decide)) (.add avoids_one (avoids_oneOf (by decide)))) avoids_digits

theorem avoids_word : Avoids '\n' word :=
  .mul (avoids_oneOf (by decide)) (.kstar (avoids_oneOf (by decide)))

theorem avoids_float : Avoids '\n' float := by
  have point : Avoids '\n' (oneOf (· = '.')) := avoids_oneOf (by decide)
  have power : Avoids '\n' (1 + exponent) := .add avoids_one avoids_exponent
  refine .add (.add (.mul (.mul (.mul avoids_digits point) (.kstar ?_)) power) ?_) ?_
  · exact avoids_oneOf (by decide)
  · exact .mul avoids_digits avoids_exponent
  · exact .mul (.mul point avoids_digits) power

/-- A line's end can stand in a literal neither by itself nor behind a backslash. -/
theorem avoids_quoted {quote : Char} (h : '\n' ≠ quote) : Avoids '\n' (quoted quote) := by
  refine .mul (.mul (avoids_oneOf h) (.kstar (.add ?_ ?_))) (avoids_oneOf h)
  · exact avoids_oneOf fun plain => plain.2.2 rfl
  · exact .mul (avoids_oneOf (by decide)) (avoids_oneOf fun other => other rfl)

end Pattern

namespace TokenKind
open Pattern

/-- No kind declares a text that goes over a line's end. -/
theorem avoids_pattern (k : TokenKind) : Avoids '\n' k.pattern := by
  cases k with
  | identifier => exact avoids_word
  | stringLiteral => exact .add (avoids_quoted (by decide)) (avoids_quoted (by decide))
  | decimalLiteral => exact avoids_digits
  | floatLiteral => exact avoids_float
  | keyword w => exact fun v hv => avoids_word v (Set.mem_singleton_iff.1 hv ▸ w.mem_word)
  | scalar t => exact fun v hv => avoids_word v (Set.mem_singleton_iff.1 hv ▸ t.mem_word)
  | mark m =>
    rintro v hv
    rw [Set.mem_singleton_iff.1 hv]
    cases m <;> decide
  | blockComment => exact fun v hv => absurd hv (Language.notMem_zero v)

theorem oneLine_text {k : TokenKind} {s : String} (h : k.text? = some s) : OneLine s :=
  k.avoids_pattern _ (pattern_of_text h ▸ Set.mem_singleton _)

theorem oneLine_description (k : TokenKind) : OneLine k.description := by
  cases k with
  | keyword w => exact oneLine_text (k := .keyword w) rfl
  | scalar t => exact oneLine_text (k := .scalar t) rfl
  | mark m => exact oneLine_text (k := .mark m) rfl
  | _ => decide

theorem oneLine_name (k : TokenKind) : OneLine k.name := by
  cases k with
  | keyword w => cases w <;> decide
  | scalar t => cases t <;> decide
  | mark m => cases m <;> decide
  | _ => decide

end TokenKind

theorem Token.Scans.oneLine {t : Token} (h : t.Scans) : OneLine t.text :=
  t.kind.avoids_pattern _ h.declared

theorem Token.oneLine_description {t : Token} (h : OneLine t.text) : OneLine t.description := by
  have named : OneLine (t.kind.description ++ " (" ++ t.text ++ ")") :=
    ((t.kind.oneLine_description.append (by decide)).append h).append (by decide)
  unfold description
  split <;> assumption

/-! ## Errors -/

namespace Sighting

variable {s : Sighting}

theorem oneLine_text (h : ∀ t ∈ s.found, OneLine t.text) : OneLine s.text := by
  unfold text
  split
  · next found => exact h _ found
  · decide

theorem oneLine_description (h : ∀ t ∈ s.found, OneLine t.text) : OneLine s.description := by
  unfold description
  split
  · next found => exact Token.oneLine_description (h _ found)
  · decide

end Sighting

/-- A complaint about a token on one line is on one line itself. -/
theorem Complaint.oneLine_message (q : Complaint) {s : Sighting}
    (h : ∀ t ∈ s.found, OneLine t.text) : OneLine (q.error s).message := by
  have text := s.oneLine_text h
  have description := s.oneLine_description h
  have instead {front : String} (h : OneLine front) : OneLine (front ++ s.text ++ " instead") :=
    (h.append text).append (by decide)
  cases q with
  | unexpectedToken expected =>
    exact instead (.append (.append (by decide) expected.oneLine_description) (by decide))
  | unknownSyntax => exact instead (by decide)
  | invalidSyntaxKind kind => exact .append (.append (by decide) kind.oneLine_name) (by decide)
  | missingSyntaxSemicolon =>
    have fixed : OneLine (ParseError.missingSyntaxSemicolon (.at 0)).message := by decide
    exact fixed
  | invalidImport => exact .append (by decide) description
  | expectedIdentifier => exact .append (by decide) description
  | invalidConstant => exact .append (by decide) text
  | expectedNumber => exact instead (by decide)
  | invalidFieldType => exact .append (by decide) description
  | oneofFieldWithLabel =>
    have fixed : OneLine (ParseError.oneofFieldWithLabel (.at 0)).message := by decide
    exact fixed
  | invalidStatement => exact instead (by decide)

/-- An error about items on one line each is on one line. -/
theorem ParseError.About.oneLine {items : List Item} {e : ParseError} (h : e.About items)
    (lines : ∀ l, .token l ∈ items → OneLine l.token.text) : OneLine e.message := by
  cases h with
  | failure =>
    have fixed : OneLine (invalidToken (.at 0)).message := by decide
    exact fixed
  | @token w l rest q split =>
    refine q.oneLine_message ?_
    rintro _ ⟨⟩
    exact lines l (split ▸ List.mem_append_right _ List.mem_cons_self)
  | @ended w q => exact q.oneLine_message nofun
  | duplicate =>
    have fixed : OneLine (duplicatePackage (.at 0) (.at 0)).message := by decide
    exact fixed

/-! ## Trees -/

/-- The written form of a tree. All tokens of the tree stand in it. -/
def Node.writtenTokens : (n : Node) → n.Tree → List Token
  | .file => File.tokens
  | .syntaxDecl => SyntaxDecl.tokens
  | .imported => Import.tokens
  | .package => Package.tokens
  | .option => OptionSetting.statement
  | .fullIdent => FullIdent.tokens
  | .constant => Constant.tokens
  | .signedNumber => SignedNumber.tokens
  | .field => Field.tokens
  | .enumField => EnumField.tokens
  | .enum => Enum.tokens
  | .oneof => Oneof.tokens
  | .message => Message.tokens

/-- Every tree that is read from a source has its written form as a text. -/
theorem Node.scanned_of_parse {n : Node} {source : String} {t : n.Tree}
    (read : parse n source = .ok t) : n.phrase.scanned (n.writtenTokens t) t := by
  cases n with
  | file => exact File.scanned (Grammar.yields_file.of_parse (n := .file) read)
  | syntaxDecl =>
    exact SyntaxDecl.scanned (Grammar.yields_syntaxDecl.of_parse (n := .syntaxDecl) read)
  | imported => exact Import.scanned (Grammar.yields_importStatement.of_parse (n := .imported) read)
  | package => exact Package.scanned (Grammar.yields_package.of_parse (n := .package) read)
  | option =>
    exact OptionSetting.scanned_statement
      (Grammar.yields_optionStatement.of_parse (n := .option) read)
  | fullIdent => exact FullIdent.scanned (Grammar.yields_fullIdent.of_parse (n := .fullIdent) read)
  | constant => exact Constant.scanned (Grammar.yields_constant.of_parse (n := .constant) read)
  | signedNumber =>
    exact SignedNumber.scanned (Grammar.yields_signedNumber.of_parse (n := .signedNumber) read)
  | field => exact Field.scanned (Grammar.yields_field.of_parse (n := .field) read)
  | enumField => exact EnumField.scanned (Grammar.yields_enumField.of_parse (n := .enumField) read)
  | enum => exact Enum.scanned (Grammar.yields_enum.of_parse (n := .enum) read)
  | oneof => exact Oneof.scanned (Grammar.yields_oneof.of_parse (n := .oneof) read)
  | message => exact Message.scanned (Grammar.yields_message.of_parse (n := .message) read)

/-- However many lines a source has, comments over several lines and literals that are not closed
among them: an error that is reported for it is on one line, and so is every token of a tree that is
read from it. -/
theorem texts_on_one_line (n : Node) (source : String) :
    (∀ e, parse n source = .error e → OneLine e.message) ∧
    ∀ t, parse n source = .ok t → ∀ u ∈ n.writtenTokens t, OneLine u.text := by
  refine ⟨fun e failed => ?_, fun t read u hu => ((Node.scanned_of_parse read).2 u hu).oneLine⟩
  obtain ⟨c, run⟩ := parse_eq_error.1 failed
  exact (Node.error_about run).oneLine fun l mem => (scans_of_mem_items mem).oneLine

/-- A literal with escapes is named in an error behind a comment of two lines. Behind a literal that
its line's end leaves open, one is read that would go on at this end if a backslash could hide
it. -/
theorem texts_on_one_line_literal :
    let name := "/* a\n b */ \"c\\n\\\"\""
    let path := "import // 'd\n'e\\'f' ; 'g\\\n"
    let e : ParseError := .expectedIdentifier ⟨some ⟨.stringLiteral, "\"c\\n\\\"\""⟩, ⟨11, 18⟩⟩
    let i : Import := ⟨⟨.stringLiteral, "'e\\'f'"⟩, none⟩
    parse .fullIdent name = .error e ∧ OneLine e.message ∧ ¬ OneLine name ∧
      parse .imported path = .ok i ∧ ∀ u ∈ i.tokens, OneLine u.text := by
  intro name path e i
  have failed : parse .fullIdent name = .error e := by decide +kernel
  have read : parse .imported path = .ok i := by decide +kernel
  exact ⟨failed, (texts_on_one_line .fullIdent name).1 e failed, by decide, read,
    (texts_on_one_line .imported path).2 i read⟩

end ProtoSchema
