import ProtoSchema.Proofs.Program.Places
import ProtoSchema.Proofs.Program.Relocation
import ProtoSchema.Proofs.Scan.Relaying

/-! # Layout does not matter

When a source is written anew with other gaps, the same tokens are read from it, and every node has
the same result: an equal tree, or the same error at the token with the same number. Both runs are
compared with one over the tokens by themselves, in which the ranges are their numbers. -/

namespace ProtoSchema

theorem length_tokens (w : List Lexeme) : (tokens w).length = w.length := List.length_map _

/-- Tokens whose ranges are their numbers. -/
def numbered (ts : List Token) : List Lexeme := ts.mapIdx fun i t => ⟨t, ⟨i, i + 1⟩⟩

/-- The places of lexemes by their numbers. -/
def Relocation.of (w : List Lexeme) : Relocation where
  start i := (w[i]?.map fun l => l.span.start).getD 0
  stop
    | 0 => 0
    | i + 1 => (w[i]?.map fun l => l.span.stop).getD 0

theorem relocate_numbered (w : List Lexeme) :
    (numbered (tokens w)).map (Lexeme.relocate (.of w)) = w := by
  apply List.ext_getElem
  · simp [numbered, tokens]
  · intro i h h'
    simp [numbered, tokens, Lexeme.relocate, Span.relocate, Relocation.of,
      List.getElem?_eq_getElem h']

theorem ofItems_relocate (w : List Lexeme) :
    (Cursor.ofItems ((numbered (tokens w)).map .token)).relocate (.of w) =
      .ofItems (w.map .token) := by
  have pending : ((numbered (tokens w)).map fun l => some (Item.token (l.relocate (.of w)))) =
      w.map fun l => some (Item.token l) := by
    conv_rhs => rw [← relocate_numbered w, List.map_map]
    rfl
  simpa [Cursor.ofItems, Cursor.ofAnswers, Cursor.relocate, Function.comp_def, Item.relocate] using
    ⟨pending, rfl⟩

theorem span_of_mem_numbered {ts : List Token} {l : Lexeme} (h : l ∈ numbered ts) :
    ∃ i, i < ts.length ∧ l.span = ⟨i, i + 1⟩ := by
  obtain ⟨i, hi, rfl⟩ := List.mem_mapIdx.1 h
  exact ⟨i, hi, rfl⟩

theorem relocate_number {w : List Lexeme} {i : Nat} {l : Lexeme} (h : w[i]? = some l) :
    Span.relocate (.of w) ⟨i, i + 1⟩ = l.span := by
  simp [Span.relocate, Relocation.of, h]

theorem relocate_end (w : List Lexeme) :
    Span.relocate (.of w) (.at (endOf ((numbered (tokens w)).map .token))) =
      .at (endOf (w.map .token)) := by
  rw [Span.relocate_at]
  rcases w.eq_nil_or_concat with rfl | ⟨w, l, rfl⟩
  · rfl
  · simp [endOf, numbered, Item.span, Relocation.of, length_tokens]

/-- That two ranges are those of tokens with the same number, or both lie where the last token
ends. -/
inductive SamePlace (w w' : List Lexeme) : Span → Span → Prop
  | token {i : Nat} {l l' : Lexeme} (h : w[i]? = some l) (h' : w'[i]? = some l') :
    SamePlace w w' l.span l'.span
  | ended : SamePlace w w' (.at (endOf (w.map .token))) (.at (endOf (w'.map .token)))

theorem samePlace_of_mem {w w' : List Lexeme} (same : tokens w' = tokens w) {l : Lexeme}
    (h : l ∈ numbered (tokens w)) :
    SamePlace w w' (l.span.relocate (.of w)) (l.span.relocate (.of w')) := by
  obtain ⟨i, hi, span⟩ := span_of_mem_numbered h
  have length : w'.length = w.length := by rw [← length_tokens, same, length_tokens]
  have there : i < w.length := length_tokens w ▸ hi
  have there' : i < w'.length := length ▸ there
  rw [span, relocate_number (List.getElem?_eq_getElem there),
    relocate_number (List.getElem?_eq_getElem there')]
  exact .token (List.getElem?_eq_getElem there) (List.getElem?_eq_getElem there')

theorem samePlace_of_place {w w' : List Lexeme} (same : tokens w' = tokens w) {e : ParseError}
    (about : e.About ((numbered (tokens w)).map .token)) {s : Span} (hs : s ∈ e.places) :
    SamePlace w w' (s.relocate (.of w)) (s.relocate (.of w')) := by
  have mem {l : Lexeme} {v : List Lexeme} {rest : List Item} (h : l ∈ v)
      (items : (numbered (tokens w)).map Item.token = v.map .token ++ rest) :
      l ∈ numbered (tokens w) := by
    have item : Item.token l ∈ (numbered (tokens w)).map Item.token := by
      rw [items]
      exact List.mem_append_left _ (List.mem_map_of_mem h)
    simpa using item
  cases about with
  | @failure v span rest items =>
    have failure : Item.failure span ∈ (numbered (tokens w)).map Item.token := by simp [items]
    simp at failure
  | @token v l rest q items fits =>
    rw [q.places_error, List.mem_singleton] at hs
    subst hs
    exact samePlace_of_mem same (@mem l (v ++ [l]) rest (by simp) (by simp [items]))
  | @ended v q items fits =>
    rw [q.places_error, List.mem_singleton] at hs
    subst hs
    have ended' := relocate_end w'
    rw [same] at ended'
    rw [relocate_end, ended']
    exact .ended
  | @duplicate v rest k l k' items _ _ between =>
    rcases List.mem_pair.1 hs with rfl | rfl
    · exact samePlace_of_mem same (mem (between.subset (by simp)) items)
    · exact samePlace_of_mem same (mem (between.subset (by simp)) items)

namespace ParseError

/-- An error without its places. -/
def unplaced (e : ParseError) : ParseError := e.relocate ⟨fun _ => 0, fun _ => 0⟩

theorem unplaced_relocate (ρ : Relocation) (e : ParseError) :
    (e.relocate ρ).unplaced = e.unplaced := by
  cases e <;> simp [unplaced, relocate, Sighting.relocate, Span.relocate]

theorem span_relocate {ρ : Relocation} (h : ρ.stop 0 = 0) (e : ParseError) :
    (e.relocate ρ).span = e.span.relocate ρ := by
  cases e with
  | fault => simp [relocate, span, h]
  | _ => rfl

theorem About.span_mem_places {items : List Item} {e : ParseError} (h : e.About items) :
    e.span ∈ e.places := by
  cases h with
  | failure => exact List.mem_singleton_self _
  | @token _ _ _ q => rw [q.places_error, q.span_error]; exact List.mem_singleton_self _
  | @ended _ q => rw [q.places_error, q.span_error]; exact List.mem_singleton_self _
  | duplicate => exact List.mem_cons_of_mem _ (List.mem_singleton_self _)

end ParseError

theorem parse_eq_outcome {source : String} {w : List Lexeme} (h : lex source = w.map .token)
    (n : Node) :
    parse n source =
      outcome (resultAt (.of w) id (n.parser (.ofItems ((numbered (tokens w)).map .token)))) := by
  rw [← Node.mirrors, ofItems_relocate, ← h]
  rfl

/-- Layout does not matter. If all of a source is tokens, then a text in which they are laid out
anew has the same tokens, and every node is read from both with equal trees, or fails with the same
error: it has the same text and help, and its places are those of tokens with the same numbers. -/
theorem parse_relaid {source source' : String} {w : List Lexeme} (h : lex source = w.map .token)
    (relaid : Relaid none w source'.toList) :
    ∃ w', lex source' = w'.map .token ∧ tokens w' = tokens w ∧ ∀ n : Node,
      (∃ t, parse n source = .ok t ∧ parse n source' = .ok t) ∨
      ∃ e e', parse n source = .error e ∧ parse n source' = .error e' ∧ e'.unplaced = e.unplaced ∧
        e'.message = e.message ∧ e'.help = e.help ∧ SamePlace w w' e.span e'.span ∧
        List.Forall₂ (fun l l' => l'.1 = l.1 ∧ SamePlace w w' l.2 l'.2) e.labels e'.labels := by
  obtain ⟨again, -⟩ := relaid.items h
  obtain ⟨w', h', same⟩ := again 0
  refine ⟨w', h', same, fun n => ?_⟩
  rw [parse_eq_outcome h, parse_eq_outcome h', same]
  cases run : n.parser (.ofItems ((numbered (tokens w)).map .token)) with
  | ok t c => exact .inl ⟨t, rfl, rfl⟩
  | error e c =>
    have about := Node.error_about run
    refine .inr ⟨_, _, rfl, rfl, ?_, ?_, ?_, ?_, ?_⟩
    · rw [ParseError.unplaced_relocate, ParseError.unplaced_relocate]
    · rw [ParseError.message_relocate, ParseError.message_relocate]
    · rw [ParseError.help_relocate, ParseError.help_relocate]
    · rw [ParseError.span_relocate rfl, ParseError.span_relocate rfl]
      exact samePlace_of_place same about about.span_mem_places
    · rw [ParseError.labels_relocate, ParseError.labels_relocate, List.forall₂_map_left_iff,
        List.forall₂_map_right_iff, List.forall₂_same]
      intro l hl
      exact ⟨rfl, samePlace_of_place same about (List.mem_map_of_mem hl)⟩

/-- An import without a path fails alike over two lines with a comment between them. -/
theorem parse_relaid_import :
    let w : List Lexeme :=
      [⟨⟨.keyword .importKw, "import"⟩, ⟨0, 6⟩⟩, ⟨⟨.semicolon, ";"⟩, ⟨7, 8⟩⟩]
    lex "import ;" = w.map .token ∧ Relaid none w "import//\n/**/;".toList ∧
      ∃ e', parse .imported "import//\n/**/;" = .error e' ∧
        e'.message = "expected imported package name, got ;" := by
  intro w
  have items : lex "import ;" = w.map .token := by rfl
  have filler : Filler "//\n/**/".toList :=
    @Filler.line [] _ (by decide) (@Filler.block [] _ (by decide) .nil)
  have relaid : Relaid none w "import//\n/**/;".toList :=
    .lexeme (g := []) .nil nofun
      (.lexeme (g := "//\n/**/".toList) filler (fun _ _ _ => by decide) (.done .nil))
  refine ⟨items, relaid, ?_⟩
  obtain ⟨w', -, -, same⟩ := parse_relaid items relaid
  have run : parse .imported "import ;" =
      .error (.invalidImport ⟨some ⟨.semicolon, ";"⟩, ⟨7, 8⟩⟩) := by rfl
  rcases same .imported with ⟨t, ok, -⟩ | ⟨e, e', failed, failed', -, message, -⟩
  · rw [run] at ok
    cases ok
  · rw [run] at failed
    cases failed
    exact ⟨e', failed', message⟩

end ProtoSchema
