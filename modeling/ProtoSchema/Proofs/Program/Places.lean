import ProtoSchema.Proofs.Acceptance.Earliest
import ProtoSchema.Proofs.Program.Path
import ProtoSchema.Proofs.Scan.LongestMatch

/-! # Errors point at what they talk about

An error is about one item of the source, in front of which there are only tokens, or about the end
behind the last token. Its place is the range of that item, or the empty range where the last item
ended, and what it tells about the item is what stands there in the source. -/

namespace ProtoSchema

/-- Where the last of some items ends. -/
def endOf (items : List Item) : Nat := (items.getLast?.map fun i => i.span.stop).getD 0

/-- How an error is about items that are read from the front. -/
inductive ParseError.About (items : List Item) : ParseError → Prop
  | failure {w : List Lexeme} {span rest} (h : items = w.map Item.token ++ .failure span :: rest) :
    About items (.invalidToken span)
  | token {w : List Lexeme} {l rest} {q : Complaint}
    (h : items = w.map Item.token ++ .token l :: rest)
    (fits : q.Fits (some l.token)) : About items (q.error ⟨some l.token, l.span⟩)
  | ended {w : List Lexeme} {q : Complaint} (h : items = w.map Item.token) (fits : q.Fits none) :
    About items (q.error ⟨none, .at (endOf items)⟩)
  | duplicate {w : List Lexeme} {rest} {k l k' : Lexeme} (h : items = w.map Item.token ++ rest)
    (first : k.token.kind = .keyword .packageKw) (second : k'.token.kind = .keyword .packageKw)
    (between : [k, l, k'].Sublist w) : About items (.duplicatePackage k.span k'.span)

namespace Cursor

theorem lastStop_filter (as : List (Option Item)) :
    lastStop (as.filter Option.isSome) = lastStop as := by
  induction as with
  | nil => rfl
  | cons a as ih =>
    cases a with
    | none => exact ih
    | some i => rfl

theorem lastStop_answers (w : List Lexeme) :
    lastStop (answers w).reverse = endOf (w.map Item.token) := by
  rcases w.eq_nil_or_concat with rfl | ⟨w, l, rfl⟩
  · rfl
  · simp [endOf, lastStop, Item.span]

end Cursor

/-- Lexemes that have been passed are the first items. -/
theorem items_passed {items : List Item} {w : List Lexeme} {k : Nat} {xs ys : List (Option Item)}
    (h : items.map some ++ List.replicate k none = xs ++ ys)
    (hw : xs.filter Option.isSome = answers w) : ∃ rest, items = w.map .token ++ rest := by
  cases ys with
  | nil =>
    refine ⟨[], ?_⟩
    have again : items.map some ++ List.replicate (k + 1) none = xs ++ none :: [] := by
      rw [List.replicate_succ', ← List.append_assoc, h, List.append_nil]
    rw [List.append_nil]
    exact items_ended again hw
  | cons y ys =>
    cases y with
    | none => exact ⟨[], by rw [List.append_nil]; exact items_ended h hw⟩
    | some i =>
      obtain ⟨-, rest, eq⟩ := items_split h hw
      exact ⟨i :: rest, eq⟩

open Cursor

/-- What a run reports is about its items. -/
theorem Node.error_about {n : Node} {items : List Item} {e : ParseError} {c' : Cursor}
    (run : n.parser (.ofItems items) = .error e c') : e.About items := by
  obtain ⟨d, path, arises⟩ := (n.traces _).error e c' run
  have tidy : d.Tidy := path.tidy rfl
  obtain ⟨w, used, moves⟩ := path.moves
  have answered : d.answered = used.reverse := by simpa [ofItems, ofAnswers] using moves.answered
  have taken : d.taken.reverse = w := by
    simpa [ofItems, ofAnswers] using congrArg List.reverse moves.taken
  obtain ⟨k, xs, filter, ahead⟩ := moves.ahead
  rw [Cursor.ofItems, ahead_ofAnswers] at ahead
  cases arises with
  | @failure _ span rest held pending =>
    rw [Cursor.ahead, held, pending] at ahead
    obtain ⟨-, rest, eq⟩ := items_split ahead filter
    exact .failure eq
  | @complaint _ q fits ended =>
    cases held : c'.held with
    | some l =>
      rw [Cursor.ahead, held] at ahead
      obtain ⟨-, rest, eq⟩ := items_split ahead filter
      rw [sighting, held]
      rw [held] at fits
      exact .token eq fits
    | none =>
      obtain ⟨before, last⟩ : ∃ before, used = before ++ [none] := by
        obtain ⟨before, h⟩ := List.head?_eq_some_iff.1 (answered ▸ ended held)
        exact ⟨before.reverse, by simpa using congrArg List.reverse h⟩
      obtain ⟨ys, passed, filter'⟩ := moves.passed
      obtain ⟨k', supply⟩ := moves.supply
      have passed' : used = ys := by simpa [ofItems, ofAnswers, held] using passed
      subst passed'
      change items.map some ++ _ = _ at supply
      rw [last, List.append_assoc] at supply
      have tokens : before.filter Option.isSome = answers w := by simpa [last] using filter'
      have all := items_ended supply tokens
      have stop : c'.stop = endOf items := by
        rw [tidy, answered, ← lastStop_filter, List.filter_reverse, filter',
          lastStop_answers, ← all]
      rw [sighting, held, stop]
      rw [held] at fits
      exact .ended all fits
  | duplicate first second between =>
    obtain ⟨rest, eq⟩ := items_passed ahead filter
    exact .duplicate eq first second (taken ▸ between)
  | fault broken => exact absurd run ((n.reads_node _).ne_fault (ready _) broken)

/-! ## Places in a source -/

/-- That an item is one of a source's, and that all items in front of it are tokens. -/
def Item.StandsIn (i : Item) (source : String) : Prop :=
  ∃ (w : List Lexeme) (rest : List Item), lex source = w.map .token ++ i :: rest

namespace ParseError

/-- What an error tells about an item that it points at. -/
def Tells (e : ParseError) (source : String) (i : Item) : Prop :=
  match e with
  | .invalidToken _ => ∃ span, i = .failure span
  | .unexpectedToken _ seen | .unknownSyntax seen | .invalidConstant seen | .expectedNumber seen
  | .invalidStatement seen => (∃ l, i = .token l) ∧ seen.text = slice source i.span
  | .invalidImport seen | .expectedIdentifier seen | .invalidFieldType seen =>
    ∃ l, i = .token l ∧ seen.description =
      if l.token.kind ∈ [.identifier, .stringLiteral, .decimalLiteral, .floatLiteral] then
        l.token.kind.description ++ " (" ++ slice source i.span ++ ")"
      else slice source i.span
  | .invalidSyntaxKind kind _ => ∃ l, i = .token l ∧ kind = l.token.kind
  | .missingSyntaxSemicolon _ => ∃ l, i = .token l
  | .oneofFieldWithLabel _ => (∃ l, i = .token l) ∧ slice source i.span = "repeated"
  | .duplicatePackage first second =>
    (∃ l, i = .token l) ∧ slice source first = "package" ∧ slice source second = "package" ∧
      first.stop < second.start ∧ i.span = second
  | .fault _ => False

/-- What an error tells about the end of the input. -/
def TellsEnd : ParseError → Prop
  | .unexpectedToken _ seen | .unknownSyntax seen | .invalidConstant seen | .expectedNumber seen =>
    seen.text = "end of input"
  | .invalidImport seen | .expectedIdentifier seen | .invalidFieldType seen =>
    seen.description = "end of input"
  | .missingSyntaxSemicolon _ => True
  | .invalidToken _ | .invalidSyntaxKind _ _ | .oneofFieldWithLabel _ | .invalidStatement _
  | .duplicatePackage _ _ | .fault _ => False

/-- The ranges at which an error's labels stand. -/
def places (e : ParseError) : List Span := e.labels.map Prod.snd

end ParseError

namespace Complaint

variable {q : Complaint} {source : String}

theorem places_error (q : Complaint) (seen : Sighting) : (q.error seen).places = [seen.span] := by
  cases q <;> rfl

theorem tells {l : Lexeme} (fits : q.Fits (some l.token))
    (text : l.token.text = slice source l.span)
    (fixed : ∀ t, l.token.kind.text? = some t → l.token.text = t) :
    (q.error ⟨some l.token, l.span⟩).Tells source (.token l) := by
  have described : l.token.description =
      if l.token.kind ∈ [.identifier, .stringLiteral, .decimalLiteral, .floatLiteral] then
        l.token.kind.description ++ " (" ++ slice source l.span ++ ")"
      else slice source l.span := by
    rw [← text, Token.description]
    cases l.token.kind <;> simp
  cases q with
  | invalidSyntaxKind kind => exact ⟨l, rfl, (Option.some.inj fits).symm⟩
  | missingSyntaxSemicolon => exact ⟨l, rfl⟩
  | oneofFieldWithLabel =>
    have kind : l.token.kind = .keyword .repeatedKw := Option.some.inj fits
    exact ⟨⟨l, rfl⟩, text.symm.trans (fixed _ (by rw [kind]; rfl))⟩
  | invalidImport => exact ⟨l, rfl, described⟩
  | expectedIdentifier => exact ⟨l, rfl, described⟩
  | invalidFieldType => exact ⟨l, rfl, described⟩
  | _ => exact ⟨⟨l, rfl⟩, text⟩

theorem tellsEnd {stop : Nat} (fits : q.Fits none) : (q.error ⟨none, .at stop⟩).TellsEnd := by
  cases q with
  | invalidSyntaxKind => cases fits
  | oneofFieldWithLabel => cases fits
  | invalidStatement => cases fits
  | missingSyntaxSemicolon => trivial
  | _ => rfl

theorem ne_invalidToken (q : Complaint) (seen : Sighting) (span : Span) :
    q.error seen ≠ .invalidToken span := by
  cases q <;> nofun

end Complaint

namespace Item.StandsIn

variable {i : Item} {source : String}

theorem mem (h : i.StandsIn source) : i ∈ lex source := by
  obtain ⟨w, rest, items⟩ := h
  simp [items]

theorem bounds (h : i.StandsIn source) : i.span.start < i.span.stop ∧
    i.span.stop ≤ source.utf8ByteSize ∧ OnBoundaries source i.span := by
  have tiling : Tiling 0 source.toList (lex source) := .of_cut 0 source.toList
  obtain ⟨before, chars, after, whole, full, span, -⟩ := tiling.exists_part h.mem
  rw [Nat.zero_add] at span
  have split : source.toList = (before ++ chars) ++ after := by simp [whole]
  have stop := isValid_of_append split
  rw [byteLength_append] at stop
  have positive : 0 < byteLength chars := by
    obtain ⟨c, cs, rfl⟩ := List.exists_cons_of_ne_nil full
    have := c.utf8Size_pos
    rw [byteLength_cons]
    omega
  rw [span, utf8ByteSize_eq_byteLength, whole]
  exact ⟨by simpa using positive, by simp, isValid_of_append whole, stop⟩

theorem slice_eq {l : Lexeme} (h : (Item.token l).StandsIn source) :
    l.token.text = slice source l.span := by
  have tiling : Tiling 0 source.toList (lex source) := .of_cut 0 source.toList
  obtain ⟨before, chars, after, whole, -, span, text⟩ := tiling.exists_part h.mem
  change l.span = _ at span
  rw [text l rfl, span, Nat.zero_add, ProtoSchema.slice_eq whole]

theorem text_eq {l : Lexeme} (h : (Item.token l).StandsIn source) {t : String}
    (fixed : l.token.kind.text? = some t) : l.token.text = t :=
  Token.Scans.text_eq (scans_of_mem_items h.mem) fixed

theorem of_mem {w : List Lexeme} {rest : List Item} {l : Lexeme}
    (items : lex source = w.map .token ++ rest) (h : l ∈ w) : (Item.token l).StandsIn source := by
  obtain ⟨v, u, rfl⟩ := List.append_of_mem h
  exact ⟨v, u.map .token ++ rest, by rw [items]; simp⟩

end Item.StandsIn

/-- A token ends before another one starts, if there is one between them. -/
theorem stop_lt_start_of_sublist {source : String} {w : List Lexeme} {rest : List Item}
    {k l k' : Lexeme} (items : lex source = w.map .token ++ rest) (between : [k, l, k'].Sublist w) :
    k.span.stop < k'.span.start := by
  have sorted : (lex source).Pairwise fun i j => i.span.stop ≤ j.span.start :=
    (Tiling.of_cut 0 source.toList).pairwise
  have three : ([k, l, k'].map Item.token).Sublist (lex source) := by
    rw [items]
    exact (between.map _).trans (List.sublist_append_left _ _)
  have sorted' := sorted.sublist three
  simp only [List.map_cons, List.map_nil, List.pairwise_cons, List.mem_cons] at sorted'
  have before := sorted'.1 _ (.inl rfl)
  have behind := sorted'.2.1 _ (.inl rfl)
  have stands : (Item.token l).StandsIn source := .of_mem items (between.subset (by simp))
  have nonempty := stands.bounds.1
  simp only [Item.span] at before behind nonempty
  omega

theorem endOf_valid {source : String} {w : List Lexeme} (h : lex source = w.map .token) :
    endOf (lex source) ≤ source.utf8ByteSize ∧
      (String.Pos.Raw.mk (endOf (lex source))).IsValid source := by
  rcases w.eq_nil_or_concat with rfl | ⟨w, l, rfl⟩
  · rw [h]
    exact ⟨Nat.zero_le _, @isValid_of_append source [] _ rfl⟩
  · have stands : (Item.token l).StandsIn source := ⟨w, [], by simp [h]⟩
    have stop : endOf (lex source) = l.span.stop := by simp [h, endOf, Item.span]
    obtain ⟨-, bound, -, valid⟩ := stands.bounds
    rw [stop]
    exact ⟨bound, valid⟩

theorem parse_eq_error {n : Node} {source : String} {e : ParseError} :
    parse n source = .error e ↔ ∃ c, n.parser (.ofSource source) = .error e c := by
  change outcome (n.parser (.ofSource source)) = .error e ↔ _
  cases n.parser (.ofSource source) <;> simp [outcome]

/-- Every error points at what it talks about. Its labels lie within the source and between its
characters. They stand at items in front of which there are only tokens, and what the error tells is
what stands there; the item is a failure just where the error says so. Or the source has nothing but
tokens, the place is the end of the last one, and the error tells of the end of the input. -/
theorem parse_error_points {n : Node} {source : String} {e : ParseError}
    (h : parse n source = .error e) :
    e.span ∈ e.places ∧
    (∀ s ∈ e.places, s.start ≤ s.stop ∧ s.stop ≤ source.utf8ByteSize ∧ OnBoundaries source s) ∧
    ((∃ i : Item, i.StandsIn source ∧ e.span = i.span ∧ e.Tells source i ∧
        ((∃ span, i = .failure span) ↔ ∃ span, e = .invalidToken span) ∧
        ∀ s ∈ e.places, ∃ j : Item, j.StandsIn source ∧ s = j.span) ∨
      ((∃ w : List Lexeme, lex source = w.map .token) ∧
        (∀ s ∈ e.places, s = .at (endOf (lex source))) ∧
        e.TellsEnd)) := by
  obtain ⟨c, run⟩ := parse_eq_error.1 h
  have within {s : Span} {i : Item} (stands : i.StandsIn source) (here : s = i.span) :
      s.start ≤ s.stop ∧ s.stop ≤ source.utf8ByteSize ∧ OnBoundaries source s := by
    obtain ⟨nonempty, bound, valid⟩ := stands.bounds
    rw [here]
    exact ⟨nonempty.le, bound, valid⟩
  cases Node.error_about run with
  | @failure w span rest items =>
    have stands : (Item.failure span).StandsIn source := ⟨w, rest, items⟩
    have only : ∀ s ∈ (ParseError.invalidToken span).places, s = span :=
      fun s => List.mem_singleton.1
    refine ⟨List.mem_singleton_self _, fun s hs => within stands (only s hs),
      .inl ⟨_, stands, rfl, ⟨span, rfl⟩, ⟨fun _ => ⟨span, rfl⟩, fun _ => ⟨span, rfl⟩⟩,
        fun s hs => ⟨_, stands, only s hs⟩⟩⟩
  | @token w l rest q items fits =>
    have stands : (Item.token l).StandsIn source := ⟨w, rest, items⟩
    have tells := q.tells fits stands.slice_eq fun t => stands.text_eq
    rw [q.places_error, q.span_error]
    refine ⟨List.mem_singleton_self _, fun s hs => within stands (List.mem_singleton.1 hs), .inl ⟨_,
      stands, rfl, tells, ⟨?_, ?_⟩, fun s hs => ⟨_, stands, List.mem_singleton.1 hs⟩⟩⟩
    · rintro ⟨span, eq⟩
      cases eq
    · rintro ⟨span, eq⟩
      exact absurd eq (q.ne_invalidToken _ _)
  | @ended w q items fits =>
    obtain ⟨bound, valid⟩ := endOf_valid items
    rw [q.places_error, q.span_error]
    refine ⟨List.mem_singleton_self _, fun s hs => ?_,
      .inr ⟨⟨w, items⟩, fun s => List.mem_singleton.1, q.tellsEnd fits⟩⟩
    rw [List.mem_singleton.1 hs]
    exact ⟨Nat.le_refl _, bound, valid, valid⟩
  | @duplicate w rest k l k' items first second between =>
    have stands {m : Lexeme} (hm : m ∈ [k, l, k']) : (Item.token m).StandsIn source :=
      .of_mem items (between.subset hm)
    have text {m : Lexeme} (hm : m ∈ [k, l, k']) (hk : m.token.kind = .keyword .packageKw) :
        slice source m.span = "package" := by
      rw [← (stands hm).slice_eq]
      exact (stands hm).text_eq (by rw [hk]; rfl)
    have order := stop_lt_start_of_sublist items between
    have places : ∀ s ∈ (ParseError.duplicatePackage k.span k'.span).places,
        ∃ j : Item, j.StandsIn source ∧ s = j.span := by
      intro s hs
      rcases List.mem_pair.1 hs with rfl | rfl
      · exact ⟨_, stands (m := k) (by simp), rfl⟩
      · exact ⟨_, stands (m := k') (by simp), rfl⟩
    have neither : (∃ span, Item.token k' = .failure span) ↔
        ∃ span, ParseError.duplicatePackage k.span k'.span = .invalidToken span := by simp
    refine ⟨List.mem_cons_of_mem _ (List.mem_singleton_self _), fun s hs => ?_,
      .inl ⟨_, stands (m := k') (by simp), rfl,
        ⟨⟨k', rfl⟩, text (by simp) first, text (by simp) second, order, rfl⟩, neither, places⟩⟩
    obtain ⟨j, hj, here⟩ := places s hs
    exact within hj here

/-- An import without a path is refused at its semicolon, and one that breaks off where it ends. -/
theorem parse_error_points_import :
    let semicolon : ParseError := .invalidImport ⟨some ⟨.semicolon, ";"⟩, ⟨7, 8⟩⟩
    let ended : ParseError := .invalidImport ⟨none, ⟨6, 6⟩⟩
    parse .imported "import ;" = .error semicolon ∧ parse .imported "import " = .error ended ∧
      (∃ i : Item, i.StandsIn "import ;" ∧ i.span = ⟨7, 8⟩ ∧ semicolon.Tells "import ;" i) ∧
      Span.at (endOf (lex "import ")) = ⟨6, 6⟩ := by
  intro semicolon ended
  have run : parse .imported "import ;" = .error semicolon := by rfl
  have run' : parse .imported "import " = .error ended := by rfl
  refine ⟨run, run', ?_, ?_⟩
  · obtain ⟨-, -, ⟨i, stands, here, tells, -⟩ | ⟨-, -, tells⟩⟩ := parse_error_points run
    · exact ⟨i, stands, here.symm, tells⟩
    · have other : ";" = "end of input" := tells
      exact absurd other (by decide)
  · obtain ⟨-, -, ⟨i, stands, here, -⟩ | ⟨-, places, -⟩⟩ := parse_error_points run'
    · have nonempty := stands.bounds.1
      rw [← here] at nonempty
      exact absurd nonempty (Nat.lt_irrefl 6)
    · exact (places _ (List.mem_singleton_self _)).symm

end ProtoSchema
