import ProtoSchema.Proofs.Acceptance.Exact

/-! # Every parse comes to an end

What grows less is the number of answers that are not taken, a token that is held among them. Each
step of a loop that finds something takes a token, and a message takes its head before it comes to a
message within. So both the steps of a loop and the depth of messages are bounded by this number,
wherever a parse starts, and a bound above it is never met. -/

namespace ProtoSchema.Parser
open Cursor Phrase

/-- The loops of the parsers: over the statements of a file, the members of a block, the options in
brackets behind the first one, and the segments of a name behind the first one. -/
inductive Loop where
  | statements
  | messageMembers
  | enumMembers
  | oneofFields
  | options
  | segments
deriving DecidableEq, Repr

namespace Loop

/-- What a loop finds. -/
abbrev Member : Loop → Type
  | .statements => Statement
  | .messageMembers => MessageMember
  | .enumMembers => EnumMember
  | .oneofFields => Field
  | .options => OptionSetting
  | .segments => Token

/-- What a loop repeats. -/
def step : (l : Loop) → List l.Member → Parser (Option l.Member)
  | .statements => statement
  | .messageMembers => fun _ => furtherMember (messageMember message)
  | .enumMembers => fun _ => furtherMember enumMember
  | .oneofFields => fun _ => furtherMember fun _ => oneofField
  | .options => fun _ => furtherOption
  | .segments => fun _ => segment

/-- The parsers in which there are loops repeat these steps. -/
theorem parsers_eq :
    file = (do
      let version ← syntaxDecl
      return .ofStatements version (← collect (step .statements))) ∧
    message = (do
      let name ← blockHead .messageKw
      let body ← collect (step .messageMembers)
      close (.message name)
      return ⟨name, .ofMembers body⟩) ∧
    enum = (do
      let name ← blockHead .enumKw
      let body ← collect (step .enumMembers)
      close (.enum name)
      return ⟨name, .ofMembers body⟩) ∧
    oneof = (do
      let name ← blockHead .oneofKw
      let fields ← collect (step .oneofFields)
      close (.oneof name fields.length)
      return ⟨name, fields⟩) ∧
    optionList = (do
      match ← takeIf .leftBracket with
      | none => return []
      | some _ =>
        let first ← optionSetting
        let rest ← collect (step .options)
        return first :: rest) ∧
    fullIdent = (do
      let first ← identifier
      let rest ← collect (step .segments)
      nameOf (first :: rest)) :=
  ⟨rfl, message_eq, rfl, rfl, rfl, rfl⟩

/-- Every step reads a member that is not empty, or what ends the loop. -/
theorem reads_step (l : Loop) : ∃ (P : Phrase l.Member) (β : Type) (Q : Phrase β), P.Advances ∧
    Q.Viable [] ∧ ∀ n found, Reads n none (l.step found) (orStop P Q) := by
  cases l with
  | statements => exact ⟨_, _, _, advances_statement, viable_pure (), fun _ => reads_statement⟩
  | messageMembers =>
    exact ⟨_, _, _, advances_messageMember advances_message, viable_kind _, fun _ _ =>
      reads_furtherMember fun t _ => reads_messageMember reads_message t⟩
  | enumMembers =>
    exact ⟨_, _, _, advances_enumMember, viable_kind _, fun _ _ =>
      reads_furtherMember fun t _ => reads_enumMember t⟩
  | oneofFields =>
    exact ⟨_, _, _, advances_fieldRest _, viable_kind _, fun _ _ =>
      reads_furtherMember fun _ _ => reads_oneofField.looked⟩
  | options =>
    exact ⟨_, _, _, (advances_kind .comma).bind_left, viable_kind _, fun _ _ => reads_furtherOption⟩
  | segments =>
    exact ⟨_, _, _, (advances_kind .dot).bind_left, viable_pure (), fun _ _ => reads_segment⟩

variable {l : Loop} {found : List l.Member} {c d : Cursor}

theorem size_le_of_step {o : Option l.Member} (go : l.step found c = .ok o d) :
    d.size ≤ c.size := by
  obtain ⟨P, β, Q, -, -, reads⟩ := l.reads_step
  exact (reads _ found).size_le_of_run (Nat.lt_succ_self _) go

theorem size_lt_of_step {a : l.Member} (go : l.step found c = .ok (some a) d) :
    d.size < c.size := by
  obtain ⟨P, β, Q, advances, -, reads⟩ := l.reads_step
  exact Reads.size_of_step advances (reads _ found) (Nat.lt_succ_self _) go

theorem size_of_iterates (way : Iterates l.step c found d) : d.size + found.length ≤ c.size :=
  way.size_le (fun _ _ _ _ _ => size_lt_of_step) (Nat.lt_succ_self _)

theorem ne_fault {k : Nat} (enough : c.size < k) (broken : Fault) :
    collectWithin l.step k found c ≠ .error (.fault broken) d := by
  obtain ⟨P, β, Q, advances, viable, reads⟩ := l.reads_step
  have within := Reads.collectWithin advances viable (reads k) (Nat.le_refl k) (Nat.le_refl k)
  exact (within found).ne_fault ⟨enough, nofun⟩ broken

theorem collectWithin_eq {k m : Nat} (hk : c.size < k) (hm : c.size < m) :
    collectWithin l.step k found c = collectWithin l.step m found c :=
  collectWithin_bound (fun _ _ _ _ _ => size_lt_of_step) (Nat.lt_succ_self _) hk hm

end Loop

/-- That a message which is read from a cursor comes to a message within it at another one: behind
its head and some members, when the loop has seen the keyword. -/
def Nests (c d : Cursor) : Prop :=
  ∃ name b found e, blockHead .messageKw c = .ok name b ∧
    Iterates (Loop.step .messageMembers) b found e ∧
    peekKind e = .ok (some (.keyword .messageKw)) d

theorem Nests.size_lt {c d : Cursor} (h : Nests c d) : d.size < c.size := by
  obtain ⟨name, b, found, e, head, way, look⟩ := h
  calc d.size
    _ ≤ e.size := size_le_of_peekKind look
    _ ≤ b.size := Nat.le_trans (Nat.le_add_right _ _) (Loop.size_of_iterates way)
    _ < c.size :=
      Reads.size_of_run (advances_blockHead _) (reads_blockHead _) (Nat.lt_succ_self _) head

/-- A message depends on what reads the messages within it at no other cursors than those. -/
theorem messageOf_congr {inner : Parser Message} {c : Cursor}
    (same : ∀ d, Nests c d → message d = inner d) : message c = messageOf inner c := by
  rw [message_eq]
  unfold messageOf
  cases head : blockHead .messageKw c with
  | error e b => rw [bind_of_error head, bind_of_error head]
  | ok name b =>
    have loop : collect (Loop.step .messageMembers) b =
        collect (fun _ => furtherMember (messageMember inner)) b := collect_congr fun found e way =>
      furtherMember_congr fun d look => same d ⟨name, b, found, e, head, way, look⟩
    have body : members (messageMember message) b = members (messageMember inner) b := loop
    rw [bind_of_ok head, bind_of_ok head]
    simp only [bind, EStateM.bind, body]

theorem nestedWithin_message {k : Nat} {c : Cursor} (enough : c.size < k) :
    message c = nestedWithin messageOf k c := by
  induction k generalizing c with
  | zero => exact absurd enough (Nat.not_lt_zero _)
  | succ k ih =>
    refine messageOf_congr fun d nests => ih ?_
    have := nests.size_lt
    omega

/-- A parse that starts at any cursor, whatever is still to come, ends with a tree or with an error
about the input. Each step of a loop that finds something leaves fewer answers that are not taken,
and so does each step from a message to one within it. With any bound above their number, the loops
and the recursion do not run out, and all these bounds come to the same. -/
theorem parse_terminates (c : Cursor) :
    (∀ (l : Loop) found o d, l.step found c = .ok o d →
      d.size ≤ c.size ∧ (o.isSome → d.size < c.size)) ∧
    (∀ d, Nests c d → d.size < c.size) ∧
    (∀ (l : Loop) found k, c.size < k →
      (∀ d, collectWithin l.step k found c ≠ .error (.fault .noProgress) d) ∧
      collectWithin l.step k found c = collectWithin l.step (c.size + 1) found c) ∧
    (∀ k, c.size < k → nestedWithin messageOf k c = message c) ∧
    ∀ n : Node, (∃ t d, n.parser c = .ok t d ∧ d.size ≤ c.size) ∨
      ∃ e d, n.parser c = .error e d ∧ e ≠ .fault .noProgress := by
  refine ⟨fun l found o d go => ⟨Loop.size_le_of_step go, ?_⟩, fun d => Nests.size_lt,
    fun l found k enough => ⟨fun d => Loop.ne_fault enough _, ?_⟩,
    fun k enough => (nestedWithin_message enough).symm, fun n => ?_⟩
  · intro some
    obtain ⟨a, rfl⟩ := Option.isSome_iff_exists.1 some
    exact Loop.size_lt_of_step go
  · exact Loop.collectWithin_eq enough (Nat.lt_succ_self _)
  · cases run : n.parser c with
    | ok t d => exact .inl ⟨t, d, rfl, (n.reads_node _).size_le_of_run (Nat.lt_succ_self _) run⟩
    | error e d =>
      refine .inr ⟨e, d, rfl, ?_⟩
      rintro rfl
      exact (n.reads_node _).ne_fault ⟨Nat.lt_succ_self _, nofun⟩ _ run

/-- Behind its head and an empty member, a message comes to one within it. Of its ten answers, in
which an end is reported before the source goes on, six are not taken there. -/
theorem parse_terminates_message :
    let name (text : String) : Token := ⟨.identifier, text⟩
    let answer (t : Token) : Option Item := some (.token ⟨t, .at 0⟩)
    let head (text : String) :=
      [.ofKind (.keyword .messageKw), name text, .ofKind .leftBrace].map answer
    let inner := head "B" ++ [none, answer (.ofKind .rightBrace), answer (.ofKind .rightBrace)]
    let c := Cursor.ofAnswers (head "A" ++ answer (.ofKind .semicolon) :: inner)
    c.size = 10 ∧ (∃ d, Nests c d ∧ d.size = 6 ∧ d.size < c.size) ∧
      nestedWithin messageOf 11 c = message c := by
  intro name answer head inner c
  obtain ⟨-, less, -, depth, -⟩ := parse_terminates c
  have size : c.size = 10 := rfl
  have nests : ∃ d, Nests c d ∧ d.size = 6 := ⟨_, ⟨_, _, _, _, rfl, .more .start rfl, rfl⟩, rfl⟩
  obtain ⟨d, nests, six⟩ := nests
  exact ⟨size, ⟨d, nests, six, less d nests⟩, depth 11 (by omega)⟩

end ProtoSchema.Parser
