import ProtoSchema.Proofs.Program.Basic
import ProtoSchema.Proofs.Reading.File

/-! # The way of a cursor

A run takes a cursor along a path of single steps. Where it fails, the error arises at the end of
the path: from the failure that comes next, or from a complaint about what stands there. A second
package statement is refused when all of it has been taken. -/

namespace ProtoSchema

namespace Cursor

/-- What a cursor can do at once. -/
inductive Step : Cursor → Cursor → Prop
  | look {c c' t} (h : c.Look (.ok t c')) : Step c c'
  | release {c l} (h : c.held = some l) : Step c (c.release l)
  | close (c : Cursor) (block : Block) : Step c { c with closed := block :: c.closed }

abbrev Path : Cursor → Cursor → Prop := Relation.ReflTransGen Step

theorem Step.moves {c c' : Cursor} (h : Step c c') : ∃ w used, c.Moves w used c' := by
  cases h with
  | look h =>
    obtain ⟨used, moves, -⟩ := Moves.of_look h
    exact ⟨[], used, moves⟩
  | release h => exact ⟨_, [], .release h⟩
  | close => exact ⟨[], [], ⟨rfl, rfl, Nat.le_refl _, ⟨0, by simp⟩, [], by simp, rfl⟩⟩

theorem Path.moves {c c' : Cursor} (h : Path c c') : ∃ w used, c.Moves w used c' := by
  induction h with
  | refl => exact ⟨[], [], .refl c⟩
  | tail _ step ih =>
    obtain ⟨v, as, moves⟩ := ih
    obtain ⟨w, bs, moves'⟩ := step.moves
    exact ⟨v ++ w, as ++ bs, moves.trans moves'⟩

/-- Where the last item of some answers ended. The latest answer is in front. -/
def lastStop : List (Option Item) → Nat
  | [] => 0
  | some i :: _ => i.span.stop
  | none :: as => lastStop as

/-- That a cursor knows where the last item it was given ended. -/
def Tidy (c : Cursor) : Prop := c.stop = lastStop c.answered

theorem Step.tidy {c c' : Cursor} (h : Step c c') (tidy : c.Tidy) : c'.Tidy := by
  cases h with
  | look h =>
    cases h with
    | held => exact tidy
    | token => rfl
    | ended => exact tidy
    | exhausted => exact tidy
  | release => exact tidy
  | close => exact tidy

theorem Path.tidy {c c' : Cursor} (h : Path c c') (tidy : c.Tidy) : c'.Tidy := by
  induction h with
  | refl => exact tidy
  | tail _ step ih => exact step.tidy ih

/-- That a cursor has taken a package keyword and something behind it. -/
def Knows (c : Cursor) (keyword : Span) : Prop :=
  ∃ k l : Lexeme, k.token.kind = .keyword .packageKw ∧ k.span = keyword ∧
    [k, l].Sublist c.taken.reverse

theorem Knows.path {c c' : Cursor} {keyword : Span} (h : c.Knows keyword) (path : Path c c') :
    c'.Knows keyword := by
  obtain ⟨k, l, kind, span, taken⟩ := h
  obtain ⟨w, used, moves⟩ := path.moves
  refine ⟨k, l, kind, span, ?_⟩
  rw [moves.taken, List.reverse_append, List.reverse_reverse]
  exact taken.trans (List.sublist_append_left _ _)

end Cursor

open Cursor

/-- How an error arises from a cursor, and the cursor that it leaves. -/
inductive ParseError.Arises : ParseError → Cursor → Cursor → Prop
  | failure {c span rest} (held : c.held = none)
    (pending : c.pending = some (.failure span) :: rest) :
    Arises (.invalidToken span) c (c.missed span rest)
  | complaint {c} {q : Complaint} (fits : q.Fits (c.held.map Lexeme.token))
    (ended : c.held = none → c.answered.head? = some none) : Arises (q.error c.sighting) c c
  | duplicate {c} {k l k' : Lexeme} (first : k.token.kind = .keyword .packageKw)
    (second : k'.token.kind = .keyword .packageKw) (taken : [k, l, k'].Sublist c.taken.reverse) :
    Arises (.duplicatePackage k.span k'.span) c c
  | fault (broken : Fault) (c : Cursor) : Arises (.fault broken) c c

variable {α β : Type}

/-- That a run takes a cursor along a path: to an answer for which a condition holds, or to where an
error arises. -/
structure Cursor.Traces (c : Cursor) (p : Parser α) (Q : α → Cursor → Prop) : Prop where
  ok : ∀ a d, p c = .ok a d → c.Path d ∧ Q a d
  error : ∀ e d', p c = .error e d' → ∃ d, c.Path d ∧ e.Arises d d'

theorem Cursor.ready (c : Cursor) : c.Ready (c.size + 1) none := ⟨Nat.lt_succ_self _, nofun⟩

namespace Cursor.Traces

variable {c d : Cursor} {Q : α → Cursor → Prop} {S : β → Cursor → Prop} {p : Parser α}
  {f : α → Parser β} {a : α} {e : ParseError}

theorem of_ok (run : p c = .ok a d) (path : c.Path d) (h : Q a d) : c.Traces p Q where
  ok := by
    intro a' d' run'
    cases run.symm.trans run'
    exact ⟨path, h⟩
  error e d' run' := by cases run.symm.trans run'

theorem of_error {d' : Cursor} (run : p c = .error e d') (path : c.Path d)
    (arises : e.Arises d d') : c.Traces p Q where
  ok a d run' := by cases run.symm.trans run'
  error := by
    intro e' d'' run'
    cases run.symm.trans run'
    exact ⟨d, path, arises⟩

theorem pure (h : Q a c) : c.Traces (pure a) Q := of_ok rfl .refl h

theorem get {f : Cursor → Parser α} (h : c.Traces (f c) Q) : c.Traces (get >>= f) Q :=
  ⟨h.ok, h.error⟩

theorem throw (h : e.Arises c c) : c.Traces (throw e) Q := of_error rfl .refl h

theorem bind (h : c.Traces p Q) (hf : ∀ a d, c.Path d → Q a d → d.Traces (f a) S) :
    c.Traces (p >>= f) S := by
  cases run : p c with
  | ok a d =>
    obtain ⟨path, ha⟩ := h.ok a d run
    have rest := hf a d path ha
    have whole : (p >>= f) c = f a d := Parser.bind_of_ok run
    cases run' : f a d with
    | ok b d' =>
      obtain ⟨path', hb⟩ := rest.ok b d' run'
      exact of_ok (whole.trans run') (path.trans path') hb
    | error e d' =>
      obtain ⟨d₁, path', arises⟩ := rest.error e d' run'
      exact of_error (whole.trans run') (path.trans path') arises
  | error e d =>
    obtain ⟨d₁, path, arises⟩ := h.error e d run
    exact of_error (Parser.bind_of_error run) path arises

/-- A look, and what is done with the token that is seen. -/
theorem peek {n : Nat} {f : Option Token → Parser α} (hc : c.Ready n none)
    (h : ∀ t d, c.Path d → d.Ready n (some t) → d.Traces (f t) Q) : c.Traces (peek >>= f) Q := by
  have look := c.look_peek
  refine bind (Q := fun t d => d.Ready n (some t)) ?_ h
  cases run : Cursor.peek c with
  | ok t d =>
    rw [run] at look
    exact of_ok run (.single (.look look)) (Reads.ready_of_look look hc)
  | error e d =>
    rw [run] at look
    cases look with
    | failure held pending => exact of_error run .refl (.failure held pending)

theorem fail {t : Option Token} {n : Nat} {q : Complaint} (hc : c.Ready n (some t))
    (fits : q.Fits t) : c.Traces (fail q.error) Q := by
  obtain ⟨found, ended⟩ := hc.2 _ rfl
  refine of_error rfl .refl (.complaint (found ▸ fits) fun held => ended ?_)
  rw [← found, held, Option.map_none]

end Cursor.Traces

theorem Composed.traces {seen : Option (Option Token)} {p : Parser α} (h : Composed seen p)
    {c : Cursor} {n : Nat} (hc : c.Ready n seen) : c.Traces p fun _ _ => True := by
  induction h generalizing c n with
  | pure a => exact .pure trivial
  | bind _ _ ih ih' => exact (ih hc).bind fun a d _ _ => ih' a d.ready
  | peek _ ih => exact .peek hc fun t d _ hd => ih t hd
  | take =>
    obtain ⟨l, held, -⟩ := Option.map_eq_some_iff.1 (hc.2 _ rfl).1
    exact .of_ok (take_eq_release held) (.single (.release held)) trivial
  | fail q fits => exact .fail hc fits
  | close block => exact .of_ok rfl (.single (.close c block)) trivial
  | fault broken => exact .throw (.fault broken c)
  | sized _ ih => exact ⟨(ih c.size hc).ok, (ih c.size hc).error⟩
  | looked _ ih => exact ih ⟨hc.1, nofun⟩

namespace Parser

/-- What a file remembers of package statements is where their keywords stand. -/
def Known (earlier : List Statement) (c : Cursor) : Prop :=
  ∀ s ∈ earlier, ∀ keyword ∈ s.packageKeyword?, c.Knows keyword

theorem Known.path {earlier : List Statement} {c c' : Cursor} (h : Known earlier c)
    (path : c.Path c') : Known earlier c' := fun s hs keyword hk => (h s hs keyword hk).path path

theorem Known.cons {earlier : List Statement} {s : Statement} {c : Cursor} (h : Known earlier c)
    (hs : ∀ keyword ∈ s.packageKeyword?, c.Knows keyword) : Known (s :: earlier) c := by
  intro t ht
  rcases List.mem_cons.1 ht with rfl | ht
  · exact hs
  · exact h t ht

/-- A package statement is its keyword, which had been held, and further tokens. -/
theorem taken_of_package {c c' : Cursor} {k : Lexeme} {read : Package} (held : c.held = some k)
    (run : package c = .ok read c') : k.token.kind = .keyword .packageKw ∧
      ∃ l w, c'.taken.reverse = c.taken.reverse ++ k :: l :: w := by
  obtain ⟨used, covers, -⟩ := (reads_package (n := c.size + 1)).run c c.ready
  rw [run] at covers
  obtain ⟨w, moves, us, vs, t, ⟨rfl, kind⟩, ⟨us', _, name, ht, -, rfl⟩, eq⟩ := covers
  -- the keyword is the first lexeme that is passed, so it is the one that was held
  obtain ⟨k', w, rfl, rfl, hw⟩ : ∃ k' w', w = k' :: w' ∧ k'.token = t ∧ tokens w' = us' ++ _ :=
    List.map_eq_cons_iff.1 eq
  obtain ⟨xs, passed, filter⟩ := moves.passed
  rw [held] at passed
  have same : k = k' := by
    cases xs with
    | nil => simp at filter
    | cons x xs =>
      obtain ⟨rfl, -⟩ := List.cons.inj passed
      simp only [Option.isSome_some, List.filter_cons_of_pos, answers_cons] at filter
      have inner := (List.cons.inj filter).1
      simpa using inner
  subst same
  refine ⟨kind, ?_⟩
  cases w with
  | nil =>
    have empty : us' = [] := (List.append_eq_nil_iff.1 hw.symm).1
    exact absurd (empty ▸ ht) ((Phrase.advances_kind _).bind_left name)
  | cons l w => exact ⟨l, w, by simp [moves.taken]⟩

theorem traces_onlyPackage {earlier : List Statement} {c : Cursor} {k : Lexeme}
    (held : c.held = some k) (known : Known earlier c) :
    c.Traces (onlyPackage earlier) fun s d => Known (s :: earlier) d := by
  have here : c.sighting.span = k.span := by rw [sighting, held]
  have package : c.Traces package fun read d => package c = .ok read d := by
    have path := composed_package.traces c.ready
    exact ⟨fun read d run => ⟨(path.ok read d run).1, run⟩, path.error⟩
  refine .get (package.bind fun read d path run => ?_)
  obtain ⟨kind, l, w, taken⟩ := taken_of_package held run
  rw [here]
  split
  · next first found =>
    obtain ⟨s, hs, keyword⟩ := List.exists_of_findSome?_eq_some found
    obtain ⟨k₁, l₁, kind₁, rfl, taken₁⟩ := known s hs first keyword
    refine .throw (.duplicate kind₁ kind (l := l₁) ?_)
    rw [taken]
    exact taken₁.append (List.singleton_sublist.2 List.mem_cons_self)
  · refine .pure ((known.path path).cons fun keyword hk => ?_)
    cases hk
    refine ⟨k, l, kind, rfl, ?_⟩
    rw [taken]
    exact (List.prefix_append [k, l] w).sublist.trans (List.sublist_append_right _ _)

theorem traces_statement {earlier : List Statement} {c : Cursor} (known : Known earlier c) :
    c.Traces (statement earlier) fun o d => ∀ s ∈ o, Known (s :: earlier) d := by
  have other {α : Type} {p : Parser α} {g : α → Statement} {d : Cursor} {t : Option Token}
      (plain : ∀ a, (g a).packageKeyword? = none) (path : c.Path d)
      (hd : d.Ready (c.size + 1) (some t)) (h : Composed (some t) p) :
      d.Traces (p >>= fun a => pure (some (g a))) fun o d => ∀ s ∈ o, Known (s :: earlier) d := by
    refine (h.traces hd).bind fun a d' path' _ => .pure ?_
    rintro s ⟨⟩
    refine (known.path (path.trans path')).cons fun keyword hk => ?_
    rw [plain] at hk
    cases hk
  rw [statement, peekKind_bind]
  refine .peek c.ready fun t d path hd => ?_
  split
  · next h => exact other (g := fun _ => .empty) (fun _ => rfl) path hd (.take_kind h)
  · exact other (g := .imported) (fun _ => rfl) path hd composed_importStatement.looked
  · next h =>
    obtain ⟨k, held, -⟩ : ∃ k, d.held = some k ∧ k.token.kind = .keyword .packageKw := by
      rw [← (hd.2 _ rfl).1, Option.map_map, Option.map_eq_some_iff] at h
      exact h
    refine (traces_onlyPackage held (known.path path)).bind fun s d' _ hs => .pure ?_
    rintro _ ⟨⟩
    exact hs
  · exact other (g := .option) (fun _ => rfl) path hd composed_optionStatement.looked
  · exact other (g := .message) (fun _ => rfl) path hd composed_message.looked
  · exact other (g := .enum) (fun _ => rfl) path hd composed_enum.looked
  · next kind _ _ _ _ _ _ h =>
    refine .fail (q := .invalidStatement) hd ?_
    cases t with
    | none => cases h
    | some t => rfl
  · exact .pure fun s hs => absurd hs (Option.not_mem_none s)

theorem traces_statements (k : Nat) {earlier : List Statement} {c : Cursor}
    (known : Known earlier c) : c.Traces (collectWithin statement k earlier) fun _ _ => True := by
  induction k generalizing earlier c with
  | zero => exact .throw (.fault .noProgress c)
  | succ k ih =>
    refine (traces_statement known).bind fun o d _ hs => ?_
    cases o with
    | none => exact .pure trivial
    | some s => exact ih (hs s rfl)

theorem traces_file (c : Cursor) : c.Traces file fun _ _ => True := by
  refine (composed_syntaxDecl.traces c.ready).bind fun version d _ _ => ?_
  have known : Known [] d := List.forall_mem_nil _
  have statements := traces_statements (d.size + 1) known
  have all : d.Traces (collect statement) fun _ _ => True := ⟨statements.ok, statements.error⟩
  exact all.bind fun _ d' _ _ => .pure trivial

end Parser

/-- A run takes its cursor along a path, and an error arises at the end of it. -/
theorem Node.traces (n : Node) (c : Cursor) : c.Traces n.parser fun _ _ => True := by
  by_cases h : n = .file
  · subst h
    exact Parser.traces_file c
  · exact (Node.composed h).traces c.ready

end ProtoSchema
