import ProtoSchema.Proofs.Lookahead.Unread

/-! # Calls on a cursor

Between calls a cursor keeps its lookahead, and a call that fails leaves the cursor as it stands.
Each call is a chain of single acts: the source is asked while no token is held, the token that is
held is taken, or a block is recorded as closed. -/

namespace ProtoSchema

open Cursor

/-- What can be called on a cursor: its own operations, and reading a node. -/
inductive Call where
  | peek
  | peekKind
  | advance
  | expect (kind : TokenKind)
  | takeIf (kind : TokenKind)
  | read (node : Node)
deriving DecidableEq, Repr

namespace Call

/-- What a call answers. -/
abbrev Answer : Call → Type
  | .peek | .advance | .takeIf _ => Option Token
  | .peekKind => Option TokenKind
  | .expect _ => Token
  | .read n => n.Tree

def run : (k : Call) → Parser k.Answer
  | .peek => Cursor.peek
  | .peekKind => Cursor.peekKind
  | .advance => Cursor.advance
  | .expect kind => Cursor.expect kind
  | .takeIf kind => Cursor.takeIf kind
  | .read n => n.parser

/-- The tokens that a call takes, with its answer. -/
def phrase : (k : Call) → Phrase k.Answer
  | .peek | .peekKind => fun ts _ => ts = []
  | .advance => fun ts t => ts = t.toList
  | .expect kind => Phrase.kind kind
  | .takeIf kind => Phrase.optional (Phrase.kind kind)
  | .read n => n.phrase

/-- That a call does no more than look at the token in front of a cursor: it asks for no token, or
for one of another kind. -/
def OnlyLooks (k : Call) (c : Cursor) : Prop :=
  match k with
  | .peek | .peekKind => True
  | .expect kind | .takeIf kind => ∀ t, seen c.ahead = some (some t) → t.kind ≠ kind
  | .advance | .read _ => False

/-- The span that a call reports as an invalid token, if it ends in this way. -/
def invalid (k : Call) (c : Cursor) : List Span :=
  match k.run c with
  | .error (.invalidToken span) _ => [span]
  | _ => []

end Call

/-- The cursor behind some calls, whether these have succeeded or not. -/
def Cursor.after (c : Cursor) : List Call → Cursor
  | [] => c
  | k :: ks => (finalCursor (k.run c)).after ks

/-- The spans that some calls report as invalid tokens. -/
def Cursor.invalid (c : Cursor) : List Call → List Span
  | [] => []
  | k :: ks => k.invalid c ++ (finalCursor (k.run c)).invalid ks

/-! ## Acts -/

namespace Cursor

variable {α : Type}

/-- What a cursor does at once. It asks only while it holds no token. -/
inductive Act : Cursor → Cursor → Prop
  | ask {c r} (empty : c.held = none) (look : c.Look r) : Act c (finalCursor r)
  | take {c l} (held : c.held = some l) : Act c (c.release l)
  | close (c : Cursor) (block : Block) : Act c { c with closed := block :: c.closed }

abbrev Way : Cursor → Cursor → Prop := Relation.ReflTransGen Act

theorem Way.of_look {c : Cursor} {r} (h : c.Look r) : c.Way (finalCursor r) := by
  cases h with
  | held => exact .refl
  | token empty pending => exact .single (.ask empty (.token empty pending))
  | failure empty pending => exact .single (.ask empty (.failure empty pending))
  | ended empty pending => exact .single (.ask empty (.ended empty pending))
  | exhausted empty pending => exact .single (.ask empty (.exhausted empty pending))

theorem Path.way {c d : Cursor} (h : c.Path d) : c.Way d := by
  induction h with
  | refl => exact .refl
  | tail _ step ih =>
    refine ih.trans ?_
    cases step with
    | look look => exact Way.of_look look
    | release held => exact .single (.take held)
    | close block => exact .single (.close _ block)

/-- The failure that is reported is the last thing that was asked for. -/
theorem way_of_arises {e : ParseError} {c d : Cursor} (h : e.Arises c d) : c.Way d := by
  cases h with
  | failure held pending => exact Way.of_look (.failure held pending)
  | complaint => exact .refl
  | duplicate => exact .refl
  | fault => exact .refl

theorem Traces.way {c : Cursor} {p : Parser α} {Q : α → Cursor → Prop} (h : c.Traces p Q) :
    c.Way (finalCursor (p c)) := by
  cases run : p c with
  | ok a d => exact (h.ok a d run).1.way
  | error e d =>
    obtain ⟨d', path, arises⟩ := h.error e d run
    exact path.way.trans (way_of_arises arises)

end Cursor

namespace Call

theorem composed_advance : Composed none Cursor.advance := by
  refine .peek fun t => ?_
  cases t with
  | none => exact .pure none
  | some t => exact .map .take

theorem traces (k : Call) (c : Cursor) : c.Traces k.run fun _ _ => True := by
  cases k with
  | peek =>
    have look : c.Traces (Cursor.peek >>= pure) fun _ _ => True :=
      (Composed.peek fun t => .pure t).traces c.ready
    rwa [bind_pure] at look
  | peekKind => exact (Composed.peek fun t => .pure (t.map Token.kind)).traces c.ready
  | advance => exact composed_advance.traces c.ready
  | expect kind => exact (Composed.expect kind).traces c.ready
  | takeIf kind => exact (Composed.takeIf kind).traces c.ready
  | read n => exact n.traces c

/-- An operation of the cursor itself reads its phrase. -/
theorem reads {k : Call} (own : ∀ n, k ≠ .read n) (bound : Nat) :
    Reads bound none k.run k.phrase := by
  have still {α : Type} (seen : Option (Option Token)) (a : α) :
      Reads bound seen (pure a) fun ts _ => ts = [] := (Reads.pure a).mono fun _ _ h => h.1
  cases k with
  | peek =>
    have look := Reads.peek fun t => still (some t) t
    rwa [bind_pure] at look
  | peekKind => exact .peek fun t => still (some t) (t.map Token.kind)
  | advance =>
    refine .peek fun t => ?_
    cases t with
    | none => exact (Reads.pure none).mono fun ts a h => h.2 ▸ h.1
    | some t =>
      refine Reads.take.map.mono fun ts a taken => ?_
      obtain ⟨u, ⟨rfl, rfl⟩, rfl⟩ := Phrase.map_iff.1 taken
      rfl
  | expect kind => exact .expect kind
  | takeIf kind => exact .takeIf kind
  | read n => exact absurd rfl (own n)

theorem reports (k : Call) : ∃ R : Report k.Answer, Reports none k.run R := by
  have any {α : Type} (seen : Option (Option Token)) (a : α) :
      Reports seen (pure a) fun _ _ _ => True := .pure trivial
  cases k with
  | peek =>
    have look := Reports.peek fun t => any (some t) t
    rw [bind_pure] at look
    exact ⟨_, look⟩
  | peekKind => exact ⟨_, .peek fun t => any (some t) (t.map Token.kind)⟩
  | advance =>
    refine ⟨fun _ _ _ => True, .peek fun t => ?_⟩
    cases t with
    | none => exact any _ none
    | some t => exact (Reports.take rfl).map fun _ _ _ _ => trivial
  | expect kind => exact ⟨_, .expect kind⟩
  | takeIf kind =>
    refine ⟨fun _ _ _ => True, ?_⟩
    change Reports none (Cursor.takeIf kind) _
    rw [takeIf_eq]
    refine .peek fun t => ?_
    split
    · next same => exact (Reports.take same).map fun _ _ _ _ => trivial
    · exact any _ none
  | read n => exact ⟨_, n.reports⟩

theorem lawful (k : Call) : Parser.Lawful k.run where
  reads := by
    by_cases own : ∀ n, k ≠ .read n
    · exact ⟨_, reads own⟩
    · obtain ⟨n, rfl⟩ := not_forall_not.1 own
      exact n.lawful.reads
  traces := k.traces
  reports := k.reports

/-- What a call that succeeds has taken. -/
theorem phrase_of_run {k : Call} {c d : Cursor} {a : k.Answer} (run : k.run c = .ok a d) :
    ∃ w used, c.Moves w used d ∧ k.phrase (tokens w) a := by
  by_cases own : ∀ n, k ≠ .read n
  · obtain ⟨used, covers, -⟩ := (reads own _).run c c.ready
    rw [run] at covers
    obtain ⟨w, moves, text⟩ := covers
    exact ⟨w, used, moves, text⟩
  · obtain ⟨n, rfl⟩ := not_forall_not.1 own
    exact Node.phrase_of_run run

end Call

end ProtoSchema
