import ProtoSchema.Proofs.Print.RoundTrip

/-! # Dotted names as text

A dotted name has one text, its segments with points between them. No gap is needed there: a word
does not go on with a point, nor a point with a word. So each list of words that are not reserved is
read from its text, and every name that is read from a source, however this is laid out, is read
again from its own. -/

namespace ProtoSchema

namespace FullIdent

/-- No point goes on with a segment. -/
theorem point_endsBefore {t : Token} (h : t.Is .identifier) (after : List Char) :
    TokenKind.dot.EndsBefore (t.text.toList ++ after) := by
  have word := h.2.declared
  rw [h.1] at word
  obtain ⟨c, cs, text, start, -⟩ := Pattern.mem_word.1 word
  rw [text]
  rintro _ ⟨⟩
  exact Bool.eq_false_of_not_eq_true fun digit => Segment.not_isStart_of_isDigit digit start

theorem layout_segments {t : Token} {ts : List Token} (ht : t.Is .identifier)
    (hts : ∀ u ∈ ts, u.Is .identifier) :
    Layout (t :: ts.flatMap fun u => [.ofKind .dot, u])
      (t.text.toList ++ ts.flatMap fun u => '.' :: u.text.toList) := by
  -- the first segment varies, since behind each point a text begins like the whole one
  induction ts generalizing t with
  | nil => exact .token (g := []) .nil (TokenKind.endsBefore_nil _) (.done .nil)
  | cons u ts ih =>
    obtain ⟨hu, further⟩ := List.forall_mem_cons.1 hts
    have behind := Layout.token (t := .ofKind .dot) .nil (point_endsBefore hu _) (ih hu further)
    refine .token (g := []) .nil ?_ behind
    rw [ht.1]
    rintro _ ⟨⟩
    rfl

/-- The text of a name is a layout of its tokens. -/
theorem layout_text {f : FullIdent} (h : f.WellFormed) : Layout f.tokens f.text.toList := by
  obtain ⟨segments⟩ := f
  obtain ⟨nonempty, names⟩ := h
  obtain ⟨t, ts, rfl⟩ := List.exists_cons_of_ne_nil nonempty
  obtain ⟨ht, hts⟩ := List.forall_mem_cons.1 names
  have layout := layout_segments ht hts
  simpa [tokens, text, separated_cons, intercalate_cons, List.flatMap_map] using layout

theorem parse_text {f : FullIdent} (h : f.WellFormed) : parse .fullIdent f.text = .ok f := by
  obtain ⟨text, scans⟩ := scanned h
  exact parse_layout (n := .fullIdent) text scans (layout_text h)

theorem wellFormed_ofWords {names : List String} (nonempty : names ≠ [])
    (words : ∀ s ∈ names, s.toList ∈ Pattern.word ∧ ∀ k, TokenKind.text? k ≠ some s) :
    WellFormed ⟨names.map fun s => ⟨.identifier, s⟩⟩ where
  nonempty := by simpa using nonempty
  names t ht := by
    obtain ⟨s, hs, rfl⟩ := List.mem_map.1 ht
    exact ⟨rfl, Token.scans_word (words s hs).1 (words s hs).2⟩

/-- That a source is read as a dotted name, or as a package statement or a file that has it. -/
inductive ReadFrom (source : String) : FullIdent → Prop
  | name {f} (read : parse .fullIdent source = .ok f) : ReadFrom source f
  | package {p} (read : parse .package source = .ok p) : ReadFrom source p.name
  | file {f p} (read : parseFile source = .ok f) (named : f.package = some p) :
      ReadFrom source p.name

theorem ReadFrom.wellFormed {source : String} {f : FullIdent} (h : ReadFrom source f) :
    f.WellFormed := by
  cases h with
  | name read => exact Grammar.yields_fullIdent.of_parse (n := .fullIdent) read
  | package read => exact Grammar.yields_package.of_parse (n := .package) read
  | file read named => exact (wellFormed_of_parseFile read).package _ named

end FullIdent

/-- Words that are not reserved, with points between them, are read as the name that they make. The
other way round, a name that is read from any source, by itself or as the name of a package, is read
again from its own text; so two names with one text are equal. -/
theorem name_text_inverse :
    (∀ names : List String, names ≠ [] →
      (∀ s ∈ names, s.toList ∈ Pattern.word ∧ ∀ k, TokenKind.text? k ≠ some s) →
      ∃ f : FullIdent, parse .fullIdent (".".intercalate names) = .ok f ∧
        f.segments = names.map (fun s => ⟨.identifier, s⟩) ∧ f.text = ".".intercalate names) ∧
    (∀ source f, FullIdent.ReadFrom source f → parse .fullIdent f.text = .ok f) ∧
    ∀ source source' f f', FullIdent.ReadFrom source f → FullIdent.ReadFrom source' f' →
      f.text = f'.text → f = f' := by
  refine ⟨fun names nonempty words => ?_, fun source f read => FullIdent.parse_text read.wellFormed,
    fun source source' f f' read read' same => ?_⟩
  · let f : FullIdent := ⟨names.map fun s => ⟨.identifier, s⟩⟩
    have text : f.text = ".".intercalate names := by simp [f, FullIdent.text, Function.comp_def]
    have again : parse .fullIdent f.text = .ok f :=
      FullIdent.parse_text (FullIdent.wellFormed_ofWords nonempty words)
    exact ⟨f, text ▸ again, rfl, text⟩
  · have again := FullIdent.parse_text read.wellFormed
    rw [same, FullIdent.parse_text read'.wellFormed] at again
    exact (Except.ok.inj again).symm

/-- A name whose first segment goes on where a reserved word ends, and a package of this name in a
source with comments. -/
theorem name_text_inverse_package :
    let name : FullIdent := ⟨[⟨.identifier, "message_"⟩, ⟨.identifier, "_1e5"⟩]⟩
    let source := "package message_ /**/.\n _1e5 // a\n ; #"
    (∀ s ∈ ["message_", "_1e5"], s.toList ∈ Pattern.word ∧ ∀ k, TokenKind.text? k ≠ some s) ∧
      parse .fullIdent "message_._1e5" = .ok name ∧ name.text = "message_._1e5" ∧
      parse .package source = .ok ⟨name⟩ ∧ parse .fullIdent name.text = .ok name ∧
      ∀ source' f, FullIdent.ReadFrom source' f → f.text = name.text → f = name := by
  intro name source
  have words : ∀ s ∈ ["message_", "_1e5"],
      s.toList ∈ Pattern.word ∧ ∀ k, TokenKind.text? k ≠ some s := by
    intro s hs
    have free (k : TokenKind) : k.text? ≠ some "message_" ∧ k.text? ≠ some "_1e5" := by
      cases k with
      | keyword k => cases k <;> decide
      | scalar t => cases t <;> decide
      | mark m => cases m <;> decide
      | _ => exact ⟨nofun, nofun⟩
    rcases List.mem_pair.1 hs with rfl | rfl
    · exact ⟨Pattern.mem_word_of_all (by decide) (by decide), fun k => (free k).1⟩
    · exact ⟨Pattern.mem_word_of_all (by decide) (by decide), fun k => (free k).2⟩
  have package : parse .package source = .ok ⟨name⟩ := by decide +kernel
  have named : FullIdent.ReadFrom source name := .package package
  obtain ⟨f, read, segments, text⟩ :=
    name_text_inverse.1 ["message_", "_1e5"] (List.cons_ne_nil _ _) words
  have same : f = name := congrArg FullIdent.mk segments
  rw [same] at read text
  exact ⟨words, read, text, package, name_text_inverse.2.1 source name named,
    fun source' f again => name_text_inverse.2.2 source' source f name again named⟩

end ProtoSchema
