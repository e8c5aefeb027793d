import ProtoSchema.Proofs.Trace.Outline
import ProtoSchema.Proofs.Trace.Statement
import ProtoSchema.Trace

/-! # The trace as a history

A run records the blocks that its tokens close, also if it fails on the way. If it succeeds, its
braces are balanced and these blocks are those of the tree. -/

namespace ProtoSchema

variable {α β : Type}

/-- What is reported about balanced tokens: the blocks that they close are those of a forest. -/
structure Tells (forest : List Outline) (ts : List Token) (blocks : List Block) : Prop where
  logged : Logged ts blocks
  balanced : Balanced ts
  ordered : Postorder forest blocks

/-- The report on the head of a block, whose value is the name. -/
def Head (k : Keyword) : Report Token :=
  fun name ts es => es = [] ∧ ∃ word l, ts = [word, name, l] ∧
    word.kind = .keyword k ∧ name.kind = .identifier ∧ l.kind = .leftBrace

/-- The report on members up to a closing brace. -/
def UpToBrace (R : Report α) : Report α := fun a ts es =>
  ∃ us r, ts = us ++ [r] ∧ r.kind = .rightBrace ∧ R a us es

namespace Tells

variable {f g : List Outline} {ts us : List Token} {es fs : List Block}

theorem of_still {n : Nat} {a : α} (h : Still n a ts es) : Tells [] ts es := by
  refine ⟨h.logged, h.balanced, ?_⟩
  rw [h.1]
  exact .nil

theorem nil : Tells [] [] [] := of_still (Still.nil ())

theorem append (h : Tells f ts es) (h' : Tells g us fs) : Tells (f ++ g) (ts ++ us) (es ++ fs) :=
  ⟨h.logged.append h'.logged, h.balanced.append h'.balanced, h.ordered.append h'.ordered⟩

theorem perm (h : Tells f ts es) (same : f.Perm g) : Tells g ts es :=
  ⟨h.logged, h.balanced, h.ordered.perm same⟩

/-- A head, balanced tokens and a closing brace are a block. -/
theorem block {word name l r : Token} {k : Keyword} {b : Block} (h : Tells f ts es)
    (keyword : word.kind = .keyword k) (named : name.kind = .identifier)
    (opens : l.kind = .leftBrace) (closes : r.kind = .rightBrace)
    (told : Block.of? k name (countKind .semicolon ts) = some b) :
    Tells [.node b f] ([word, name, l] ++ (ts ++ [r])) (es ++ [b]) where
  logged := by
    have head : Logged [word, name, l] [] := .of_braceless (by simp [keyword, named, opens])
    have last : Closes ([] ++ [word, name, l] ++ ts ++ [r]) b :=
      .block keyword named opens h.balanced closes told
    simpa using (head.append h.logged).close closes last
  balanced := .other (by simp [keyword]) (by simp [keyword])
    (.other (by simp [named]) (by simp [named]) (.braces opens h.balanced closes .nil))
  ordered := h.ordered.close b

end Tells

theorem One.logged {k : TokenKind} {t : Token} {ts : List Token} {es : List Block}
    (h : One k t ts es) (other : k ≠ .rightBrace) : Logged ts es := by
  obtain ⟨rfl, kind, rfl⟩ := h
  exact .of_braceless (by simp [kind, other])

namespace Parser
open Cursor

theorem one_identifier : Reports none identifier (One .identifier) := by
  apply Reports.look
  intro t
  split
  · next h => exact .take h
  · exact .fail _

theorem head_blockHead (k : Keyword) : Reports none (blockHead k) (Head k) := by
  have opening (name : Token) : Reports none (do let _ ← expect .leftBrace; return name)
      fun a ts es => a = name ∧ es = [] ∧ ∃ l, ts = [l] ∧ l.kind = .leftBrace :=
    (Reports.expect .leftBrace).map fun l ts es h => ⟨rfl, h.2.2, l, h.1, h.2.1⟩
  have named : Reports none (do let name ← identifier; let _ ← expect .leftBrace; return name)
      fun name ts es => es = [] ∧ ∃ l, ts = [name, l] ∧ name.kind = .identifier ∧
        l.kind = .leftBrace := by
    refine one_identifier.bind opening (fun _ _ _ h => .inl (h.logged (by decide))) ?_
    rintro _ _ _ _ _ _ ⟨rfl, kind, rfl⟩ ⟨rfl, rfl, l, rfl, opens⟩
    exact ⟨rfl, l, rfl, kind, opens⟩
  refine (Reports.expect (.keyword k)).bind (fun _ => named)
    (fun _ _ _ h => .inl (h.logged (by simp))) ?_
  rintro word _ _ _ _ _ ⟨rfl, keyword, rfl⟩ ⟨rfl, l, rfl, kind, opens⟩
  exact ⟨rfl, word, l, rfl, keyword, kind, opens⟩

/-- What is reported about members grows with each of them. -/
theorem reports_members {member : Option TokenKind → Parser α} {R : Report α} {A : Report (List α)}
    (hm : ∀ t : Option Token, Reports (some t) (member (t.map Token.kind)) R)
    (logged : ∀ a ts es, R a ts es → Logged ts es) (start : A [] [] [])
    (more : ∀ as a ts us es fs, A as ts es → R a us fs → A (as ++ [a]) (ts ++ us) (es ++ fs)) :
    Reports none (members member) (UpToBrace A) := by
  have all : Reports none (members member) _ :=
    Reports.collect (S := fun ts es => es = [] ∧ ∃ r : Token, ts = [r] ∧ r.kind = .rightBrace)
      (fun found => .look fun t => ?_) logged start more
  · refine all.mono ?_
    rintro as _ _ ⟨us, _, fs, _, rfl, rfl, report, rfl, r, rfl, closes⟩
    exact ⟨us, r, rfl, closes, by simpa using report⟩
  · split
    · next h => exact (Reports.take h).map fun r ts es one => ⟨one.2.2, r, one.1, one.2.1⟩
    · exact (hm t).map fun _ _ _ report => report

/-- A block is reported if its members are. -/
theorem tells_block {k : Keyword} {body : Parser (List α)} {R : Report (List α)}
    {b : Token → List α → Block} {make : Token → List α → β} {f : List α → List Outline}
    (hb : Reports none body (UpToBrace R)) (tells : ∀ as ts es, R as ts es → Tells (f as) ts es)
    (told : ∀ name as ts es, R as ts es →
      Block.of? k name (countKind .semicolon ts) = some (b name as)) :
    Reports none (do
        let name ← blockHead k
        let as ← body
        close (b name as)
        return make name as)
      fun x ts es => ∃ name as, x = make name as ∧ Tells [.node (b name as) (f as)] ts es := by
  have closing (name : Token) (as : List α) :
      Reports none (do close (b name as); return make name as)
        fun x ts es => x = make name as ∧ ts = [] ∧ es = [b name as] := by
    constructor
    · rintro c _ _ - ⟨⟩
      exact ⟨[], [b name as], ⟨rfl, rfl⟩, rfl, rfl, rfl⟩
    · rintro c _ _ - ⟨⟩
  -- Behind the closing brace nothing can fail, so only the whole block needs to have its log.
  have rest (name : Token) : Reports none (do let as ← body; close (b name as); return make name as)
      fun x ts es => ∃ as fs, x = make name as ∧ UpToBrace R as ts fs ∧ es = fs ++ [b name as] := by
    refine hb.bind (closing name) (fun _ _ _ _ => .inr fun c e d failed => by cases failed) ?_
    rintro as _ ts _ es _ report ⟨rfl, rfl, rfl⟩
    exact ⟨as, es, rfl, by simpa using report, rfl⟩
  refine (head_blockHead k).bind rest ?_ ?_
  · rintro name _ _ ⟨rfl, word, l, rfl, keyword, named, opens⟩
    exact .inl (.of_braceless (by simp [keyword, named, opens]))
  · rintro name _ _ _ _ _ ⟨rfl, word, l, rfl, keyword, named, opens⟩
      ⟨as, fs, rfl, ⟨us, r, rfl, closes, report⟩, rfl⟩
    exact ⟨name, as, rfl, (tells as us fs report).block keyword named opens closes
      (told name as us fs report)⟩

/-- Every member of an enum and of a oneof ends with its only semicolon. -/
theorem counts_members {member : Option TokenKind → Parser α}
    (hm : ∀ t : Option Token, Reports (some t) (member (t.map Token.kind)) (Still 1)) :
    Reports none (members member) (UpToBrace fun as => Still as.length as) :=
  reports_members hm (fun _ _ _ still => still.logged) (.nil []) fun as a _ _ _ _ still still' => by
    simpa using still.append still' (as ++ [a])

theorem tells_enum : Reports none enum fun e ts es => Tells [e.outline] ts es := by
  refine (tells_block (f := fun _ => []) (counts_members still_enumMember)
    (fun _ _ _ still => .of_still still) fun _ _ _ _ _ => rfl).mono ?_
  rintro _ ts es ⟨name, as, rfl, tells⟩
  exact tells

theorem tells_oneof : Reports none oneof fun o ts es => Tells [o.outline] ts es := by
  refine (tells_block (b := fun name as => .oneof name as.length) (f := fun _ => [])
    (counts_members fun _ => still_oneofField.looked) (fun _ _ _ still => .of_still still)
    fun name as ts _ still => ?_).mono ?_
  · rw [still.2.2]
    rfl
  · rintro _ ts es ⟨name, as, rfl, tells⟩
    exact tells

theorem tells_messageMember {inner : Parser Message}
    (h : Reports none inner fun m ts es => Tells [m.outline] ts es) (t : Option Token) :
    Reports (some t) (messageMember inner (t.map Token.kind)) fun a ts es =>
      Tells a.outlines ts es := by
  unfold messageMember
  split
  · exact (h.map (g := MessageMember.message) fun _ _ _ tells => tells).looked
  · exact (tells_enum.map (g := MessageMember.enum) fun _ _ _ tells => tells).looked
  · exact (tells_oneof.map (g := MessageMember.oneof) fun _ _ _ tells => tells).looked
  · exact (still_optionStatement.map fun _ _ _ still => .of_still still).looked
  · next semicolon =>
    exact (Reports.still_semicolon semicolon).map fun _ _ _ still => .of_still still
  · exact (still_field.map fun _ _ _ still => .of_still still).looked

theorem tells_message : Reports none message fun m ts es => Tells [m.outline] ts es := by
  refine .nested fun inner h => ?_
  have body : Reports none (members (messageMember inner))
      (UpToBrace fun as ts es => Tells (as.flatMap MessageMember.outlines) ts es) :=
    reports_members (tells_messageMember h) (fun _ _ _ tells => tells.logged) .nil
      fun as a _ _ _ _ tells tells' => by simpa using tells.append tells'
  refine (tells_block body (fun as ts es tells => tells.perm (MessageBody.outlines_ofMembers as))
    fun _ _ _ _ _ => rfl).mono ?_
  rintro _ ts es ⟨name, as, rfl, tells⟩
  simpa [Message.outline] using tells

theorem tells_onlyPackage (earlier : List Statement) :
    Reports none (onlyPackage earlier) fun s ts es => Tells s.outlines ts es := by
  refine .get fun c => ?_
  refine still_package.bind (F := fun _ s ts es => Tells s.outlines ts es) (fun read => ?_)
    (fun _ _ _ still => .inl still.logged) fun _ s _ _ _ _ still tells => ?_
  · cases earlier.findSome? Statement.packageKeyword? with
    | some first => exact .throw _
    | none => exact .pure .nil
  · simpa using (Tells.of_still still).append tells

theorem tells_statement (earlier : List Statement) : Reports none (statement earlier)
    (Reports.Step (fun s ts es => Tells s.outlines ts es) fun ts es => ts = [] ∧ es = []) := by
  apply Reports.look
  intro t
  split
  · next h => exact (Reports.still_semicolon h).map fun _ _ _ still => .of_still still
  · exact (still_importStatement.map fun _ _ _ still => .of_still still).looked
  · exact ((tells_onlyPackage earlier).map (g := some) fun _ _ _ tells => tells).looked
  · exact (still_optionStatement.map fun _ _ _ still => .of_still still).looked
  · exact (tells_message.map (g := fun m => some (Statement.message m))
      fun _ _ _ tells => tells).looked
  · exact (tells_enum.map (g := fun e => some (Statement.enum e)) fun _ _ _ tells => tells).looked
  · exact .fail _
  · exact .pure ⟨rfl, rfl⟩

theorem tells_file : Reports none file fun f ts es => Tells f.outlines ts es := by
  have statements : Reports none (Parser.collect statement)
      fun ss ts es => Tells (ss.flatMap Statement.outlines) ts es := by
    refine (Reports.collect (A := fun ss ts es => Tells (ss.flatMap Statement.outlines) ts es)
      tells_statement (fun _ _ _ tells => tells.logged) .nil
      fun ss s _ _ _ _ tells tells' => ?_).mono ?_
    · simpa using tells.append tells'
    · rintro ss _ _ ⟨us, _, es, _, rfl, rfl, tells, rfl, rfl⟩
      simpa using tells
  refine still_syntaxDecl.bind (F := fun _ f ts es => Tells f.outlines ts es) (fun version => ?_)
    (fun _ _ _ still => .inl still.logged) fun _ f _ _ _ _ still tells => ?_
  · exact statements.map fun ss _ _ tells => tells.perm (File.outlines_ofStatements version ss)
  · simpa using (Tells.of_still still).append tells

end Parser

/-- A run tells the blocks of its tree. -/
theorem Node.reports (n : Node) :
    Reports none n.parser fun t ts es => Tells (n.outlines t) ts es := by
  cases n with
  | file => exact Parser.tells_file
  | syntaxDecl => exact Parser.still_syntaxDecl.mono fun _ _ _ still => .of_still still
  | imported => exact Parser.still_importStatement.mono fun _ _ _ still => .of_still still
  | package => exact Parser.still_package.mono fun _ _ _ still => .of_still still
  | option => exact Parser.still_optionStatement.mono fun _ _ _ still => .of_still still
  | fullIdent => exact Parser.still_fullIdent.mono fun _ _ _ still => .of_still still
  | constant => exact Parser.still_constant.mono fun _ _ _ still => .of_still still
  | signedNumber => exact Parser.still_signedNumber.mono fun _ _ _ still => .of_still still
  | field => exact Parser.still_field.mono fun _ _ _ still => .of_still still
  | enumField => exact Parser.still_enumField.mono fun _ _ _ still => .of_still still
  | enum => exact Parser.tells_enum
  | oneof => exact Parser.tells_oneof
  | message => exact Parser.tells_message

/-- The cursor with which a run ended. -/
def finalCursor : EStateM.Result ParseError Cursor α → Cursor
  | .ok _ c | .error _ c => c

/-- The tokens that a node takes from the start of a source, whether or not it can be read. -/
def takenTokens (n : Node) (source : String) : List Token :=
  tokens (finalCursor (n.parser (.ofSource source))).taken.reverse

/-- Level, message and values of an event. -/
abbrev Line := Event.Level × String × List (String × String)

def Event.line (e : Event) : Line := (e.level, e.message, e.values)

/-- What a trace says about a block that was closed. -/
def Block.line : Block → Line
  | .message name => (.trace, "parsed message", [("name", name.text)])
  | .enum name => (.trace, "parsed enum", [("name", name.text)])
  | .oneof name fields =>
    (.trace, "parsed oneof", [("name", name.text), ("fields", toString fields)])

theorem Block.line_closed (b : Block) : (Event.closed b).line = b.line := by cases b <;> rfl

/-- The trace of a run first tells the length of the source, then the blocks that the tokens close,
in their order, and last the error if there is one. If there is none, the blocks are those of the
tree, each behind those within it. -/
theorem trace_history (n : Node) (source : String) : ∃ blocks : List Block,
    List.Forall₂ Closes (closings (takenTokens n source)) blocks ∧
    (trace n source).map Event.line =
      (.debug, "parsing source", [("len", toString source.utf8ByteSize)]) ::
        blocks.map Block.line ++
        (match parse n source with
        | .ok _ => []
        | .error e => [(.debug, "parse failed", [("error", e.message)])]) ∧
    ∀ t, parse n source = .ok t → Postorder (n.outlines t) blocks := by
  have lines (es : List Block) : (es.map Event.closed).map Event.line = es.map Block.line := by
    simp [Block.line_closed]
  unfold parse trace takenTokens EStateM.run
  cases run : n.parser (.ofSource source) with
  | ok t d =>
    obtain ⟨w, es, goes, tells⟩ := n.reports.ok _ t d (Cursor.holds_none _) run
    obtain ⟨taken, closed⟩ : d.taken.reverse = w ∧ d.closed.reverse = es := by
      simp [goes.taken, goes.closed, Cursor.ofSource, Cursor.ofItems, Cursor.ofAnswers]
    refine ⟨es, ?_, ?_, ?_⟩
    · rw [finalCursor, taken]
      exact tells.logged
    · simp only [eventsOf, outcome, closed, List.map_cons, lines, List.append_nil]
      rfl
    · rintro _ ⟨⟩
      exact tells.ordered
  | error e d =>
    obtain ⟨w, es, goes, logged⟩ := n.reports.error _ e d (Cursor.holds_none _) run
    obtain ⟨taken, closed⟩ : d.taken.reverse = w ∧ d.closed.reverse = es := by
      simp [goes.taken, goes.closed, Cursor.ofSource, Cursor.ofItems, Cursor.ofAnswers]
    refine ⟨es, ?_, ?_, ?_⟩
    · rw [finalCursor, taken]
      exact logged
    · simp only [eventsOf, outcome, closed, List.map_cons, List.map_append, lines]
      rfl
    · rintro _ ⟨⟩

/-- The inner block is told before the outer one. -/
example : (trace .message "message A{oneof b{int32 c=1;}}").map Event.line =
    [(.debug, "parsing source", [("len", "30")]),
      (.trace, "parsed oneof", [("name", "b"), ("fields", "1")]),
      (.trace, "parsed message", [("name", "A")])] := by decide +kernel

end ProtoSchema
