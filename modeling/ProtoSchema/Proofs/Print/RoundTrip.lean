import ProtoSchema.Proofs.Acceptance.Source
import ProtoSchema.Proofs.Print.Tokens

/-! # Trees survive being written and read

The trees that are read from sources are the well-formed ones, and a well-formed tree is read again
from its written form. It is read as well from every other text with the same tree: members of
different sorts may be mixed, there may be empty ones among them, and gaps may stand wherever tokens
do not go on. -/

namespace ProtoSchema

/-- What a phrase yields holds of every tree that is read from a source. -/
theorem Phrase.Yields.of_parse {n : Node} {W : n.Tree → Prop} (h : n.phrase.Yields W)
    {source : String} {t : n.Tree} (read : parse n source = .ok t) : W t := by
  obtain ⟨w, rest, fronts⟩ := Node.Fronts.of_parse read
  exact h (tokens w) t fronts.text (scans_of_lex fronts.items)

/-- Every tree that is read from a source is well formed. -/
theorem wellFormed_of_parseFile {source : String} {f : File} (h : parseFile source = .ok f) :
    f.WellFormed :=
  Grammar.yields_file.of_parse (n := .file) h

/-- A tree is read from every layout of a text of it. -/
theorem parse_layout {n : Node} {ts : List Token} {source : String} {t : n.Tree} (h : n.phrase ts t)
    (hs : ∀ u ∈ ts, u.Scans) (hl : Layout ts source.toList) : parse n source = .ok t := by
  obtain ⟨w, items, rfl⟩ := hl.items hs 0
  have whole : lex source = w.map .token ++ [] := by rw [lex, items, List.append_nil]
  exact Node.Fronts.reads ⟨whole, h, n.stops_nil t⟩

theorem parseFile_layout {ts : List Token} {source : String} {f : File} (h : Grammar.file ts f)
    (hs : ∀ t ∈ ts, t.Scans) (hl : Layout ts source.toList) : parseFile source = .ok f :=
  parse_layout (n := .file) h hs hl

theorem parseFile_print {f : File} (h : f.WellFormed) : parseFile f.print = .ok f := by
  obtain ⟨text, scans⟩ := File.scanned h
  exact parseFile_layout text scans (.spaced f.tokens)

/-- The trees that are read from sources are the well-formed ones. Each of them is read again from
its written form, and from every layout of a text of it. -/
theorem parseFile_roundTrip :
    (∀ source f, parseFile source = .ok f → f.WellFormed) ∧
    (∀ f : File, f.WellFormed → parseFile f.print = .ok f) ∧
    ∀ ts source f, Grammar.file ts f → (∀ t ∈ ts, t.Scans) → Layout ts source.toList →
      parseFile source = .ok f :=
  ⟨fun _ _ => wellFormed_of_parseFile, fun _ => parseFile_print, fun _ _ _ => parseFile_layout⟩

/-- A message with a field and an option is read from its written form, and a file that has only its
syntax statement from a text in which a comment is the one gap. -/
theorem parseFile_roundTrip_message :
    let version : SyntaxDecl := ⟨⟨.stringLiteral, "\"proto3\""⟩⟩
    let name (text : String) : Token := ⟨.identifier, text⟩
    let field : Field :=
      ⟨true, .scalar ⟨.scalar .int32, "int32"⟩, name "xs", ⟨.decimalLiteral, "1"⟩,
        [⟨.plain ⟨[name "packed"]⟩, .reference ⟨[⟨.keyword .trueKw, "true"⟩]⟩⟩]⟩
    let file : File := ⟨version, none, [], [], [⟨name "Row", ⟨[field], [], [], [], []⟩⟩], []⟩
    file.print = "syntax = \"proto3\" ; message Row { repeated int32 xs = 1 [ packed = true ] ; }" ∧
      parseFile file.print = .ok file ∧
      parseFile "syntax=\"proto3\"/**/;" = .ok ⟨version, none, [], [], [], []⟩ := by
  intro version name field file
  have names (text : String) (h : (name text).Scans) : FullIdent.WellFormed ⟨[name text]⟩ :=
    ⟨List.cons_ne_nil _ _, List.forall_mem_singleton.2 ⟨rfl, h⟩⟩
  have option : OptionSetting.WellFormed
      ⟨.plain ⟨[name "packed"]⟩, .reference ⟨[⟨.keyword .trueKw, "true"⟩]⟩⟩ :=
    ⟨names "packed" (by decide), .inr ⟨_, rfl, .inl ⟨rfl, by decide⟩⟩⟩
  have fields : field.WellFormed :=
    ⟨⟨rfl, by decide⟩, ⟨rfl, by decide⟩, ⟨rfl, by decide⟩, List.forall_mem_singleton.2 option⟩
  have message : Message.WellFormed ⟨name "Row", ⟨[field], [], [], [], []⟩⟩ :=
    .intro ⟨rfl, by decide⟩ (List.forall_mem_singleton.2 fields) (List.forall_mem_nil _)
      (List.forall_mem_nil _) (List.forall_mem_nil _) (List.forall_mem_nil _)
  have wellFormed : file.WellFormed :=
    ⟨rfl, nofun, List.forall_mem_nil _, List.forall_mem_nil _, List.forall_mem_singleton.2 message,
      List.forall_mem_nil _⟩
  refine ⟨by decide, parseFile_roundTrip.2.1 file wellFormed, ?_⟩
  have layout : Layout version.tokens ([] ++ ("syntax".toList ++ ([] ++ ("=".toList ++
      ([] ++ ("\"proto3\"".toList ++ ("/**/".toList ++ (";".toList ++ [])))))))) := by
    have ends (k : TokenKind) (c : Char) (cs : List Char) (h : k.takes c = false) :
        k.EndsBefore (c :: cs) := by
      rintro _ ⟨⟩
      exact h
    refine .token .nil (ends _ _ _ rfl) (.token .nil (ends _ _ _ rfl) (.token .nil (ends _ _ _ rfl)
      (.token ?_ (TokenKind.endsBefore_nil _) (.done .nil))))
    exact @Gap.block [] [] _ (by decide) .nil
  have bare : File.WellFormed ⟨version, none, [], [], [], []⟩ :=
    ⟨rfl, nofun, List.forall_mem_nil _, List.forall_mem_nil _, List.forall_mem_nil _,
      List.forall_mem_nil _⟩
  obtain ⟨text, scans⟩ := File.scanned bare
  exact parseFile_roundTrip.2.2 _ _ _ text scans layout

end ProtoSchema
