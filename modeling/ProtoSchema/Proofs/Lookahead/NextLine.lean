import ProtoSchema.Proofs.Acceptance.Source
import ProtoSchema.Proofs.Lookahead.Unread
import ProtoSchema.Proofs.Scan.Lines

/-! # Text on the next line

A node with no mark at its end is read in the same way whatever tokens stand on the next line,
unless they begin with a point. A dotted name sees where it ends by looking at the next item,
though. If its text is all that stands in front of the line's end, this item is the first one of the
next line, and when that is a failure, the name is not read. Numbers, strings and the two truth
values do not look so far. -/

namespace ProtoSchema

open Cursor

namespace Node

/-- That a tree is, or ends with, a dotted name, which could go on. -/
def EndsInName : (n : Node) → n.Tree → Prop
  | .fullIdent, _ => True
  | .constant, c => c.isName
  | _, _ => False

theorem stops_iff {n : Node} (other : n ≠ .file) {t : n.Tree} {r : List (Option Item)} :
    n.Stops t r ↔ (n.EndsInName t → EndsName r) := by
  cases n with
  | file => exact absurd rfl other
  | fullIdent => exact ⟨fun h _ => h, fun h => h trivial⟩
  | constant => exact Iff.rfl
  | _ => exact ⟨fun _ => False.elim, fun _ => trivial⟩

/-- A text that could go on fails at a failure behind it. -/
theorem fails_behind {n : Node} {w : List Lexeme} {t : n.Tree} {span : Span}
    {r : List (Option Item)} (text : n.phrase (tokens w) t)
    (further : ¬ n.Stops t (some (.failure span) :: r)) :
    ∃ d, n.parser (.ofAnswers (answers w ++ some (.failure span) :: r)) =
      .error (.invalidToken span) d := by
  have clean (s : Span) : some (.failure s) ∉ answers w := by simp [answers]
  obtain met | ⟨-, used, zs, front, steady⟩ :=
    n.lawful.meets_or_steady (c := .ofAnswers (answers w ++ some (.failure span) :: r)) rfl clean
  · exact met
  · -- otherwise the run is that of the text alone
    obtain ⟨c, alone, taken⟩ := runs_of_phrase (c := .ofAnswers (answers w)) (r := [])
      (List.append_nil _).symm text (n.stops_nil t)
    have same := steady zs
    rw [facing_ofAnswers, ← front, alone] at same
    cases run : n.parser (.ofAnswers (answers w ++ some (.failure span) :: r)) with
    | error e d =>
      rw [run] at same
      cases same
    | ok t' d =>
      rw [run] at same
      obtain ⟨rfl, rfl⟩ := EStateM.Result.ok.inj same
      exact absurd (stops_of_run (ahead_ofAnswers _) run taken) further

end Node

/-! ## The first item of a line -/

/-- A text that begins with neither a gap nor a point has no point for its first item. -/
theorem endsName_of_line {cs : List Char}
    (first : ∀ c, cs.head? = some c → c ∉ Segment.skipped ∧ c ≠ '.') {p : Nat}
    (token : ∀ span, (Segment.items p (Segment.cut cs)).head? ≠ some (.failure span)) :
    EndsName ((Segment.items p (Segment.cut cs)).map some) := by
  cases items : Segment.items p (Segment.cut cs) with
  | nil => exact ⟨none, rfl, nofun⟩
  | cons i is =>
    cases i with
    | failure span => exact absurd (by rw [items]; rfl) (token span)
    | token l =>
      refine ⟨some l.token, rfl, fun _ e kind => ?_⟩
      cases e
      have scans := scans_of_mem_items (items ▸ List.mem_cons_self)
      have point : l.token.text = "." := scans.text_eq (by rw [kind]; rfl)
      obtain ⟨gap, c, bs, rest, rfl, skipped, text, -⟩ := Segment.items_front items
      rw [point] at text
      obtain ⟨rfl, -⟩ := List.cons.inj text
      cases gap with
      | nil => exact (first '.' rfl).2 rfl
      | cons d gap => exact (first d rfl).1 (head_gap skipped nofun d rfl)

theorem lex_line_front {source : String} {w : List Lexeme} {rest : List Item}
    (items : lex source = w.map .token ++ rest) (x : String) :
    ∃ rest', lex (source ++ "\n" ++ x) = w.map .token ++ rest' := by
  have text : (source ++ "\n" ++ x).toList = source.toList ++ '\n' :: x.toList := by simp
  rw [lex, text]
  exact Segment.items_line_front x.toList items

/-- Behind a source that is nothing but tokens come the items of the next line. -/
theorem lex_line_tokens {source : String} {w : List Lexeme} (items : lex source = w.map .token)
    (x : String) :
    lex (source ++ "\n" ++ x) = w.map .token ++ (lex x).map (.shift (source.utf8ByteSize + 1)) := by
  have text : (source ++ "\n" ++ x).toList = source.toList ++ '\n' :: x.toList := by simp
  have width : byteLength (source.toList ++ ['\n']) = source.utf8ByteSize + 1 := by
    rw [byteLength_append, utf8ByteSize_eq_byteLength]
    rfl
  have line := Segment.items_line x.toList (Segment.closed_of_tokens items) 0
  rw [width, Nat.zero_add] at line
  rw [lex, text, line, ← items, lex, lex, ← Segment.items_shift, Nat.add_zero]

namespace Node.Fronts

variable {n : Node} {source x : String} {t : n.Tree} {w : List Lexeme} {rest : List Item}

/-- A node that does not end with a name is read whatever stands on the next line. -/
theorem next_line_unnamed (h : n.Fronts source t w rest) (other : n ≠ .file)
    (unnamed : ¬ n.EndsInName t) :
    parse n (source ++ "\n" ++ x) = .ok t := by
  obtain ⟨rest', items⟩ := lex_line_front h.items x
  exact Fronts.reads ⟨items, h.text, (stops_iff other).2 fun named => absurd named unnamed⟩

/-- So is a node behind which there is another token on its own line. -/
theorem next_line_token {l : Lexeme} (h : n.Fronts source t w (.token l :: rest))
    (other : n ≠ .file) :
    parse n (source ++ "\n" ++ x) = .ok t := by
  have items : lex source = (w ++ [l]).map .token ++ rest := by simp [h.items]
  obtain ⟨rest', items'⟩ := lex_line_front items x
  rw [List.map_append, List.append_assoc] at items'
  refine Fronts.reads ⟨items', h.text, (stops_iff other).2 fun named => ?_⟩
  obtain ⟨u, sighted, notDot⟩ := (stops_iff other).1 h.stops named
  exact ⟨u, sighted, notDot⟩

/-- If the node is all of its line, it is the next line that tells where it ends. -/
theorem next_line_whole (h : n.Fronts source t w []) (other : n ≠ .file)
    (first : ∀ c, x.toList.head? = some c → c ∉ Segment.skipped ∧ c ≠ '.')
    (token : ∀ span, (lex x).head? ≠ some (.failure span)) :
    parse n (source ++ "\n" ++ x) = .ok t := by
  refine Fronts.reads
    ⟨lex_line_tokens (by simpa using h.items) x, h.text, (stops_iff other).2 fun _ => ?_⟩
  rw [lex, ← Segment.items_shift]
  refine endsName_of_line first fun span found => ?_
  rw [Segment.items_shift, List.head?_map, Option.map_eq_some_iff] at found
  obtain ⟨i, here, shifted⟩ := found
  cases i with
  | token l => cases shifted
  | failure place => exact token place here

theorem next_line_failure (h : n.Fronts source t w []) (other : n ≠ .file) {span : Span}
    (failure : (lex x).head? = some (.failure span)) (named : n.EndsInName t) :
    parse n (source ++ "\n" ++ x) =
      .error (.invalidToken (span.shift (source.utf8ByteSize + 1))) := by
  obtain ⟨is, items⟩ := List.head?_eq_some_iff.1 failure
  have line := lex_line_tokens (by simpa using h.items) x
  rw [items] at line
  have further : ¬ n.Stops t (some (.failure (span.shift (source.utf8ByteSize + 1))) ::
      (is.map (.shift (source.utf8ByteSize + 1))).map some) := by
    intro stops
    obtain ⟨_, sighted, -⟩ := (stops_iff other).1 stops named
    cases sighted
  obtain ⟨d, run⟩ := fails_behind h.text further
  refine parse_eq_error.2 ⟨d, ?_⟩
  rw [Cursor.ofSource, Cursor.ofItems, line, ← run]
  simp [answers, Function.comp_def, Item.shift]

end Node.Fronts

/-- Whatever stands on the next line, a node is read alike, unless the line begins with a gap or a
point. There is one exception: a dotted name that is all there is before fails at a failure with
which the next line begins, although this comes after its end. -/
theorem parse_next_line {n : Node} (other : n ≠ .file) {source x : String} {t : n.Tree}
    (read : parse n source = .ok t)
    (first : ∀ c, x.toList.head? = some c → c ∉ Segment.skipped ∧ c ≠ '.') :
    (∀ span, (lex x).head? = some (.failure span) → n.EndsInName t → (∃ w, n.Fronts source t w []) →
      parse n (source ++ "\n" ++ x) =
        .error (.invalidToken (span.shift (source.utf8ByteSize + 1)))) ∧
    ((∀ span, (lex x).head? = some (.failure span) → n.EndsInName t →
      ¬ ∃ w, n.Fronts source t w []) →
      parse n (source ++ "\n" ++ x) = .ok t) := by
  refine ⟨fun span failure named ⟨w, whole⟩ => whole.next_line_failure other failure named,
    fun clear => ?_⟩
  obtain ⟨w, rest, fronts⟩ := Node.Fronts.of_parse read
  by_cases named : n.EndsInName t
  · cases rest with
    | nil =>
      exact fronts.next_line_whole other first fun span failure =>
        clear span failure named ⟨w, fronts⟩
    | cons i rest =>
      cases i with
      | token l => exact fronts.next_line_token other
      | failure span =>
        obtain ⟨_, sighted, -⟩ := (Node.stops_iff other).1 fronts.stops named
        cases sighted
  · exact fronts.next_line_unnamed other named

/-- A number is read in front of a line that begins with a failure. A name is not if it is all of
its line; in front of a bracket, it is. -/
theorem parse_next_line_failure :
    let name : FullIdent := ⟨[⟨.identifier, "a"⟩]⟩
    let number : SignedNumber := ⟨none, ⟨.decimalLiteral, "1"⟩⟩
    (∀ c, "#".toList.head? = some c → c ∉ Segment.skipped ∧ c ≠ '.') ∧
      (parse .signedNumber "1" = .ok number ∧
        parse .signedNumber ("1" ++ "\n" ++ "#") = .ok number) ∧
      (parse .fullIdent "a" = .ok name ∧
        parse .fullIdent ("a" ++ "\n" ++ "#") = .error (.invalidToken ⟨2, 3⟩)) ∧
      (parse .fullIdent "a ]" = .ok name ∧ parse .fullIdent ("a ]" ++ "\n" ++ "#") = .ok name) := by
  intro name number
  have first : ∀ c, "#".toList.head? = some c → c ∉ Segment.skipped ∧ c ≠ '.' := by
    rintro _ ⟨⟩
    decide
  have failure : (lex "#").head? = some (.failure ⟨0, 1⟩) := by decide +kernel
  have one : parse .signedNumber "1" = .ok number := by decide +kernel
  have alone : parse .fullIdent "a" = .ok name := by decide +kernel
  have bracket : parse .fullIdent "a ]" = .ok name := by decide +kernel
  have text : Node.fullIdent.phrase (tokens [⟨⟨.identifier, "a"⟩, ⟨0, 1⟩⟩]) name :=
    Grammar.text_name rfl
  have whole : Node.fullIdent.Fronts "a" name [⟨⟨.identifier, "a"⟩, ⟨0, 1⟩⟩] [] :=
    ⟨by decide +kernel, text, Node.stops_nil _ _⟩
  have before : Node.fullIdent.Fronts "a ]" name [⟨⟨.identifier, "a"⟩, ⟨0, 1⟩⟩]
      [.token ⟨⟨.rightBracket, "]"⟩, ⟨2, 3⟩⟩] :=
    ⟨by decide +kernel, text, _, rfl, by rintro _ ⟨⟩; nofun⟩
  refine ⟨first, ⟨one, ?_⟩, ⟨alone, ?_⟩, bracket, ?_⟩
  · exact (parse_next_line (n := .signedNumber) (by decide) one first).2 fun _ _ named => named.elim
  · exact (parse_next_line (n := .fullIdent) (by decide) alone first).1 _ failure trivial ⟨_, whole⟩
  · refine (parse_next_line (n := .fullIdent) (by decide) bracket first).2 fun _ _ _ ⟨w, all⟩ => ?_
    cases (before.unique all).2

/-- So a dotted name depends on what stands behind its end. -/
theorem name_fails_at_next_line :
    ¬ ∀ n : Node, n = .fullIdent ∨ n = .constant ∨ n = .signedNumber →
      ∀ (source x : String) (t : n.Tree), parse n source = .ok t →
        (∀ c, x.toList.head? = some c → c ∉ Segment.skipped ∧ c ≠ '.') →
        parse n (source ++ "\n" ++ x) = .ok t := by
  intro always
  have read : parse .fullIdent "a" = .ok ⟨[⟨.identifier, "a"⟩]⟩ := by decide +kernel
  have fails : parse .fullIdent ("a" ++ "\n" ++ "#") = .error (.invalidToken ⟨2, 3⟩) := by
    decide +kernel
  have first : ∀ c, "#".toList.head? = some c → c ∉ Segment.skipped ∧ c ≠ '.' := by
    rintro _ ⟨⟩
    decide
  cases fails.symm.trans (always .fullIdent (.inl rfl) "a" "#" _ read first)

end ProtoSchema
