import ProtoSchema.Proofs.Acceptance.Exact
import ProtoSchema.Proofs.Nesting.Past
import ProtoSchema.Proofs.Program.Path

/-! # Scopes

A file and the bodies of blocks are read member by member. Which node the next member is depends on
the token it starts with. Where some tokens end behind a whole member of a scope, in as many scopes
within each other as they open, the parser of the outermost scope has come to the next member of the
innermost one, where this one could end as well; and an error that arises there is the error of the
whole. -/

namespace ProtoSchema

/-- What holds members. -/
inductive Scope where
  | file
  | message
  | enum
  | oneof
deriving DecidableEq, Repr

namespace Scope

def node : Scope → Node
  | .file => .file
  | .message => .message
  | .enum => .enum
  | .oneof => .oneof

/-- The node that a scope reads where it finds a token, if it reads one. -/
def child : Scope → TokenKind → Option Node
  | .file, .keyword .importKw => some .imported
  | .file, .keyword .packageKw => some .package
  | .file, .keyword .optionKw => some .option
  | .file, .keyword .messageKw => some .message
  | .file, .keyword .enumKw => some .enum
  | .file, _ => none
  | .message, .keyword .messageKw => some .message
  | .message, .keyword .enumKw => some .enum
  | .message, .keyword .oneofKw => some .oneof
  | .message, .keyword .optionKw => some .option
  | .message, .semicolon | .message, .rightBrace => none
  | .message, _ => some .field
  | .enum, .keyword .optionKw => some .option
  | .enum, .semicolon | .enum, .rightBrace => none
  | .enum, _ => some .enumField
  | .oneof, .rightBrace | .oneof, .keyword .repeatedKw => none
  | .oneof, _ => some .field

/-- The tokens of a scope up to behind one of its members, or behind what stands in front of
them. -/
inductive Begins : Scope → List Token → Prop
  | file {us vs version statements} (head : Grammar.syntaxDecl us version)
    (members : Phrase.many Grammar.statement vs statements)
    (one : Grammar.packages statements ≤ 1) :
    Begins .file (us ++ vs)
  | message {us vs name members} (head : Grammar.blockHead .messageKw us name)
    (members : Phrase.many (Grammar.messageMember Grammar.message) vs members) :
    Begins .message (us ++ vs)
  | enum {us vs name members} (head : Grammar.blockHead .enumKw us name)
    (members : Phrase.many Grammar.enumMember vs members) : Begins .enum (us ++ vs)
  | oneof {us vs name fields} (head : Grammar.blockHead .oneofKw us name)
    (members : Phrase.many (Grammar.fieldRest false) vs fields) : Begins .oneof (us ++ vs)

/-- The tokens from the start of one scope up to a place between the members of another one, which
is the same or lies within it at any depth. -/
inductive Opens (outer : Scope) : Scope → List Token → Prop
  | here {ts} (begins : Begins outer ts) : Opens outer outer ts
  | within {middle inner us t vs} (opens : Opens outer middle us) (begins : Begins inner (t :: vs))
    (child : middle.child t.kind = some inner.node) : Opens outer inner (us ++ t :: vs)

/-- What a scope ends with behind its members. -/
def ending : Scope → List Lexeme
  | .file => []
  | _ => [⟨⟨.rightBrace, "\x7d"⟩, .at 0⟩]

/-- The members of a block end where a closing brace completes its text. -/
theorem block_closed_iff {α β : Type} {word : Keyword} {P : Phrase α} {f : Token → List α → β}
    {ts : List Token} {brace : Token} (hb : brace.kind = .rightBrace) {b : β} :
    (Grammar.blockHead word >>= fun name => Grammar.members P >>= fun as => pure (f name as))
        (ts ++ [brace]) b ↔
      ∃ us vs name as, Grammar.blockHead word us name ∧ Phrase.many P vs as ∧ b = f name as ∧
        ts = us ++ vs := by
  constructor
  · intro h
    obtain ⟨us, vs, last, name, as, head, members, -, rfl, whole⟩ := Grammar.block_iff.1 h
    rw [← List.append_assoc] at whole
    obtain ⟨rfl, -⟩ := List.append_inj' whole rfl
    exact ⟨us, vs, name, as, head, members, rfl, rfl⟩
  · rintro ⟨us, vs, name, as, head, members, rfl, rfl⟩
    exact Grammar.block_iff.2
      ⟨us, vs, brace, name, as, head, members, hb, rfl, List.append_assoc ..⟩

theorem begins_iff_phrase {s : Scope} {ts : List Token} :
    Begins s ts ↔ ∃ t, s.node.phrase (ts ++ tokens s.ending) t := by
  constructor
  · intro h
    cases h with
    | file head members one =>
      exact ⟨_, Grammar.fileWhere_iff.2 ⟨_, _, _, _, head, members, one, rfl, by simp [ending]⟩⟩
    | @message _ _ name members head body =>
      refine ⟨(⟨name, .ofMembers members⟩ : Message), ?_⟩
      change Grammar.message _ _
      rw [← Grammar.messageOf_message]
      exact (block_closed_iff rfl).2 ⟨_, _, _, _, head, body, rfl, rfl⟩
    | enum head members => exact ⟨_, (block_closed_iff rfl).2 ⟨_, _, _, _, head, members, rfl, rfl⟩⟩
    | oneof head members =>
      exact ⟨_, (block_closed_iff rfl).2 ⟨_, _, _, _, head, members, rfl, rfl⟩⟩
  · rintro ⟨t, h⟩
    cases s with
    | file =>
      obtain ⟨us, vs, version, statements, head, members, one, -, whole⟩ :=
        Grammar.fileWhere_iff.1 h
      simp only [ending, tokens_nil, List.append_nil] at whole
      exact whole ▸ .file head members one
    | message =>
      change Grammar.message _ _ at h
      rw [← Grammar.messageOf_message] at h
      obtain ⟨us, vs, name, members, head, body, -, rfl⟩ := (block_closed_iff rfl).1 h
      exact .message head body
    | enum =>
      obtain ⟨us, vs, name, members, head, body, -, rfl⟩ := (block_closed_iff rfl).1 h
      exact .enum head body
    | oneof =>
      obtain ⟨us, vs, name, members, head, body, -, rfl⟩ := (block_closed_iff rfl).1 h
      exact .oneof head body

/-- A scope is between its members exactly where its parser would accept its end. -/
theorem begins_iff {s : Scope} {p : List Lexeme} :
    Begins s (tokens p) ↔ ∃ t d, s.node.parser (.ofAnswers (answers (p ++ s.ending))) = .ok t d ∧
      d.taken = (p ++ s.ending).reverse := by
  have ahead :
      (Cursor.ofAnswers (answers (p ++ s.ending))).ahead = answers (p ++ s.ending) ++ [] := by simp
  rw [begins_iff_phrase, ← tokens_append]
  constructor
  · rintro ⟨t, h⟩
    obtain ⟨d, run, taken⟩ := Node.runs_of_phrase ahead h (Node.stops_nil _ t)
    exact ⟨t, d, run, taken.trans (List.append_nil _)⟩
  · rintro ⟨t, d, run, taken⟩
    obtain ⟨w, used, moves, h⟩ := Node.phrase_of_run run
    obtain rfl := Node.eq_of_taken moves (taken.trans (List.append_nil _).symm)
    exact ⟨t, h⟩

theorem child_ne_file {s : Scope} {k : TokenKind} {n : Node} (h : s.child k = some n) :
    n ≠ .file := by
  rintro rfl
  unfold child at h
  split at h <;> cases h

end Scope

open Cursor

variable {α β γ : Type}

/-! ## Passing errors on -/

/-- That an error with which a parser fails at one place is that of another one from where it
started. -/
def Passes (p : Parser α) (c : Cursor) (q : Parser β) (d : Cursor) : Prop :=
  ∀ e d', q d = .error e d' → p c = .error e d'

namespace Passes

variable {p : Parser α} {q : Parser β} {r : Parser γ} {c c₁ d : Cursor}

theorem refl (p : Parser α) (c : Cursor) : Passes p c p c := fun _ _ run => run

theorem trans (h : Passes p c q c₁) (h' : Passes q c₁ r d) : Passes p c r d :=
  fun e d' run => h e d' (h' e d' run)

theorem first {f : α → Parser γ} (h : Passes p c q d) : Passes (p >>= f) c q d :=
  fun e d' run => Parser.bind_of_error (h e d' run)

theorem behind {f : α → Parser γ} {a : α} (run : p c = .ok a c₁) (h : Passes (f a) c₁ q d) :
    Passes (p >>= f) c q d :=
  fun e d' run' => (Parser.bind_of_ok run).trans (h e d' run')

end Passes

/-- That a cursor has come to a token, which it holds, having taken some lexemes on its way. -/
structure Cursor.Comes (c : Cursor) (w : List Lexeme) (l : Lexeme) (r : List (Option Item))
    (d : Cursor) : Prop where
  path : c.Path d
  taken : d.taken = w.reverse ++ c.taken
  held : d.held = some l
  pending : d.pending = r

namespace Cursor

variable {c c₁ d : Cursor} {v w : List Lexeme} {l l' : Lexeme} {r r' : List (Option Item)}

theorem Comes.ahead (h : c.Comes w l r d) : d.ahead = some (.token l) :: r := by
  simp [Cursor.ahead, h.held, h.pending]

theorem Comes.behind (path : c.Path c₁) (taken : c₁.taken = v.reverse ++ c.taken)
    (h : c₁.Comes w l r d) : c.Comes (v ++ w) l r d where
  path := path.trans h.path
  taken := by rw [h.taken, taken, List.reverse_append, List.append_assoc]
  held := h.held
  pending := h.pending

/-- A cursor comes to the token that is ahead of it by looking. -/
theorem comes_of_ahead (h : c.ahead = some (.token l) :: r) :
    ∃ d, c.Comes [] l r d ∧ peek c = .ok (some l.token) d := by
  obtain ⟨d, run, held, taken, ahead⟩ := peek_ahead (c := c) (by rw [h]; rfl)
  have look := c.look_peek
  rw [run] at look
  rw [h] at ahead
  obtain ⟨l', hl, -⟩ := Option.map_eq_some_iff.1 held
  obtain ⟨rfl, pending⟩ : l' = l ∧ d.pending = r := by simpa [Cursor.ahead, hl, looked] using ahead
  exact ⟨d, ⟨.single (.look look), taken, hl, pending⟩, run⟩

end Cursor

namespace Parser

variable {P : Phrase α}

/-- A loop that has taken some members stands in front of the next one. -/
theorem passes_collectWithin {step : List α → Parser (Option α)}
    {I : List α → List α → Cursor → Prop} (hP : P.Advances)
    (more : ∀ {found v a as r c}, P (tokens v) a → I found (a :: as) c → c.ahead = answers v ++ r →
      ∃ a' d, step found c = .ok (some a') d ∧ c.Path d ∧ d.taken = v.reverse ++ c.taken ∧
        d.ahead = r ∧ I (a' :: found) as d)
    {ts : List Token} {as : List α} (h : Phrase.many P ts as) {w : List Lexeme}
    {r : List (Option Item)} {c : Cursor} {k : Nat} {found : List α} (hw : tokens w = ts)
    (hc : c.ahead = answers w ++ r) (hk : c.size < k) (start : I found as c) :
    ∃ found' d, c.Path d ∧ d.taken = w.reverse ++ c.taken ∧ d.ahead = r ∧
      Passes (collectWithin step k found) c (step found') d := by
  obtain ⟨k, rfl⟩ : ∃ m, k = m + 1 := Nat.exists_eq_succ_of_ne_zero (by omega)
  induction h generalizing w c k found with
  | nil =>
    obtain rfl := List.map_eq_nil_iff.1 hw
    exact ⟨found, c, .refl, rfl, hc, (Passes.refl _ c).first⟩
  | @cons us vs a as ha has ih =>
    obtain ⟨x, y, rfl, rfl, rfl⟩ := tokens_eq_append hw
    have nonempty : x ≠ [] := by
      rintro rfl
      exact hP a ha
    have := List.length_pos_iff.2 nonempty
    rw [answers_append, List.append_assoc] at hc
    obtain ⟨a', c₁, run, path, taken, ahead, further⟩ := more ha start hc
    have size : c.size = x.length + c₁.size := by
      rw [size_eq_length_ahead, size_eq_length_ahead, hc, ahead, List.length_append, length_answers]
    obtain ⟨k, rfl⟩ : ∃ m, k = m + 1 := Nat.exists_eq_succ_of_ne_zero (by omega)
    obtain ⟨found', d, path', taken', ahead', passes⟩ := ih rfl ahead further k (by omega)
    refine ⟨found', d, path.trans path', ?_, ahead', passes.behind run⟩
    rw [taken', taken, List.reverse_append, List.append_assoc]

theorem passes_member {m : Option TokenKind → Parser α} {c d : Cursor} {t : Token}
    (look : peek c = .ok (some t) d) (open' : t.kind ≠ .rightBrace) :
    Passes (furtherMember m) c (m (some t.kind)) d := by
  rw [furtherMember, peekKind_bind]
  refine .behind look ?_
  rw [Option.map_some]
  split
  · next brace => exact absurd (Option.some.inj brace) open'
  · exact (Passes.refl _ d).first

/-- A block that has taken its head and some members stands in front of the next one. -/
theorem passes_block {m : Option TokenKind → Parser α} {word : Keyword}
    {f : Token → List α → Parser β} (hA : P.Advances) (hK : P.Leads (· ≠ .rightBrace))
    (composed : ∀ t : Option Token, Composed (some t) (m (t.map Token.kind)))
    (accepts : ∀ n, Accepts n Eq (peekKind >>= m) P)
    {us vs : List Token} {name : Token} {as : List α} (head : Grammar.blockHead word us name)
    (members : Phrase.many P vs as) {w : List Lexeme} {l : Lexeme} {r : List (Option Item)}
    {c : Cursor} (hw : tokens w = us ++ vs) (hc : c.ahead = answers w ++ some (.token l) :: r)
    (open' : l.token.kind ≠ .rightBrace) :
    ∃ d, c.Comes w l r d ∧ Passes (blockHead word >>= fun name => Parser.members m >>= f name) c
      (m (some l.token.kind)) d := by
  obtain ⟨u, v, rfl, rfl, rfl⟩ := tokens_eq_append hw
  rw [answers_append, List.append_assoc] at hc
  obtain ⟨c₁, run, taken, ahead⟩ :=
    accepts_blockHead word u name _ _ (Nat.lt_succ_self _) head rfl c hc
  have path := (((composed_blockHead word).traces c.ready).ok name c₁ run).1
  obtain ⟨found, c₂, path', taken', ahead', passes⟩ :=
    passes_collectWithin (I := fun _ _ _ => True) hA (fun {found v a as r c} ha _ hc => by
      obtain ⟨d, run, taken, ahead⟩ :=
        accepts_member hA hK (accepts _) v (some a) r r (Nat.lt_succ_self _)
          (Phrase.map_iff.2 ⟨a, ha, rfl⟩) rfl c hc
      have path := (((composed_member composed).traces c.ready).ok _ _ run).1
      exact ⟨a, d, run, path, taken, ahead, trivial⟩)
      members rfl ahead (Nat.lt_succ_self _) trivial
  obtain ⟨d, comes, look⟩ := comes_of_ahead ahead'
  refine ⟨d, ?_, ?_⟩
  · have whole := (comes.behind path' taken').behind path taken
    rwa [List.append_nil] at whole
  · have loop : Passes (Parser.members m) c₁ (m (some l.token.kind)) d :=
      passes.trans (passes_member look open')
    exact .behind run loop.first

end Parser

end ProtoSchema
