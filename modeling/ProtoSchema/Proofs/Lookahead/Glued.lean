import ProtoSchema.Proofs.Acceptance.Earliest
import ProtoSchema.Proofs.Lookahead.Unread
import ProtoSchema.Proofs.Scan.Closing

/-! # Text behind a closed node

A node that ends with a semicolon or a closing brace is read in the same way whatever text stands
behind this mark, even right behind it. What remains are the items of that text. -/

namespace ProtoSchema

open Cursor

/-- The mark that closes a node, if there is one. -/
def Node.closing : Node → Option TokenKind
  | .file | .fullIdent | .constant | .signedNumber => none
  | .enum | .oneof | .message => some .rightBrace
  | _ => some .semicolon

theorem Node.closing_eq_some {n : Node} {k : TokenKind} (h : n.closing = some k) :
    n.lastKinds = [k] ∧ k ∈ [.semicolon, .rightBrace] := by
  cases n <;> cases h <;> exact ⟨rfl, by decide⟩

theorem Node.steady_of_run {n : Node} {xs : List (Option Item)} {t : n.Tree} {d : Cursor}
    (run : n.parser (.ofAnswers xs) = .ok t d) : ∃ w used, (Cursor.ofAnswers xs).Moves w used d ∧
      ∀ ys, n.parser (.ofAnswers (used ++ ys)) = .ok t (d.facing ys) := by
  have clean (span : Span) (d' : Cursor) :
      n.parser (.ofAnswers xs) ≠ .error (.invalidToken span) d' := by
    rw [run]
    nofun
  obtain ⟨w, used, moves, steady⟩ := n.lawful.steady_of_clean clean
  rw [run] at moves steady
  exact ⟨w, used, moves, steady⟩

/-- The items up to the one that was given and taken last are those that were taken. -/
theorem items_of_released {d : Cursor} {w : List Lexeme} {used : List (Option Item)} {l : Lexeme}
    {items : List Item} (moves : (Cursor.ofItems items).Moves w used d) (released : d.Released l) :
    ∃ front rest, used = answers (front ++ [l]) ∧ items = front.map .token ++ .token l :: rest := by
  have answered : d.answered = used.reverse := moves.answered.trans (List.append_nil _)
  have taken : d.taken = w.reverse := moves.taken.trans (List.append_nil _)
  obtain ⟨given, last⟩ := List.head?_eq_some_iff.1 (answered ▸ released.answered)
  obtain ⟨front, top⟩ := List.head?_eq_some_iff.1 (taken ▸ released.taken)
  obtain rfl : used = given.reverse ++ [some (.token l)] := by
    simpa using congrArg List.reverse last
  obtain rfl : w = front.reverse ++ [l] := by simpa using congrArg List.reverse top
  obtain ⟨as, passed, filter⟩ := moves.passed
  obtain ⟨k, supply⟩ := moves.supply
  rw [released.held] at passed
  obtain rfl : _ = as := by simpa [ofItems, ofAnswers] using passed
  have before : given.reverse.filter Option.isSome = answers front.reverse := by
    rw [List.filter_append, answers_append] at filter
    exact List.append_inj_left' filter rfl
  rw [List.append_assoc] at supply
  obtain ⟨same, rest, whole⟩ := items_split supply before
  exact ⟨front.reverse, rest, by rw [same, answers_append]; rfl, whole⟩

/-- A node that is closed by a mark is read in the same way in front of every text, which may be
glued to the mark, and leaves the items of this text. -/
theorem parse_glued {n : Node} {k : TokenKind} (closed : n.closing = some k) {source : String}
    {t : n.Tree} (read : parse n source = .ok t) :
    ∃ l, (finalCursor (n.parser (.ofSource source))).taken.head? = some l ∧ l.token.kind = k ∧
      .token l ∈ lex source ∧ ∀ x : String,
        let glued := slice source ⟨0, l.span.stop⟩ ++ x
        let d := finalCursor (n.parser (.ofSource glued))
        parse n glued = .ok t ∧ d.held = none ∧
          d.pending = ((lex x).map (Item.shift l.span.stop)).map some := by
  rw [parse, EStateM.run] at read
  cases run : n.parser (.ofSource source) with
  | error e d =>
    rw [run] at read
    cases read
  | ok t' d =>
    rw [run] at read
    cases read
    obtain ⟨kinds, closing⟩ := Node.closing_eq_some closed
    obtain ⟨l, released, kind⟩ :=
      Node.lands (by simp [kinds]) _ t d (fresh_ofAnswers _) (holds_none _) run
    rw [kinds, List.mem_singleton] at kind
    obtain ⟨w, used, moves, steady⟩ := Node.steady_of_run run
    obtain ⟨front, rest, rfl, items⟩ := items_of_released moves released
    refine ⟨l, released.taken, kind, by simp [items], fun x => ?_⟩
    -- up to the closing mark, the characters are read as before
    obtain ⟨u, m, rest', whole, -, stop, again⟩ := Segment.items_upTo (kind ▸ closing) items
    have text : slice source ⟨0, l.span.stop⟩ = String.ofList (u ++ [m]) := by
      have cut : source.toList = [] ++ ((u ++ [m]) ++ rest') := by simpa using whole
      simpa [stop] using slice_eq cut
    have glued : lex (slice source ⟨0, l.span.stop⟩ ++ x) =
        front.map .token ++ .token l :: (lex x).map (.shift l.span.stop) := by
      have further := Segment.items_shift l.span.stop 0 (Segment.cut x.toList)
      rw [Nat.add_zero] at further
      rw [lex, text, String.toList_append, String.toList_ofList, List.append_assoc,
        List.singleton_append, again, further, lex]
    have run' : n.parser (.ofSource (slice source ⟨0, l.span.stop⟩ ++ x)) =
        .ok t (d.facing (((lex x).map (.shift l.span.stop)).map some)) := by
      rw [← steady, ofSource, ofItems, glued]
      simp [answers, Function.comp_def]
    simp only [parse, EStateM.run, run']
    exact ⟨rfl, released.held, rfl⟩

/-- A package statement is read in front of every text that is glued to it, such as a comment that
is never closed. -/
theorem parse_glued_package :
    Node.package.closing = some .semicolon ∧
      parse .package "package a; b" = .ok ⟨⟨[⟨.identifier, "a"⟩]⟩⟩ ∧
      ∀ x : String, parse .package ("package a;" ++ x) = .ok ⟨⟨[⟨.identifier, "a"⟩]⟩⟩ ∧
        (finalCursor (Node.package.parser (.ofSource ("package a;" ++ x)))).pending =
          ((lex x).map (Item.shift 10)).map some := by
  have read : parse .package "package a; b" = .ok ⟨⟨[⟨.identifier, "a"⟩]⟩⟩ := by decide +kernel
  refine ⟨rfl, read, fun x => ?_⟩
  obtain ⟨l, last, -, -, glued⟩ := parse_glued (n := .package) rfl read
  have mark : (finalCursor (Node.package.parser (.ofSource "package a; b"))).taken.head? =
      some ⟨⟨.semicolon, ";"⟩, ⟨9, 10⟩⟩ := by decide +kernel
  obtain rfl := Option.some.inj (mark.symm.trans last)
  have text : slice "package a; b" ⟨0, 10⟩ = "package a;" := by decide +kernel
  obtain ⟨again, -, left⟩ := glued x
  rw [text] at again left
  exact ⟨again, left⟩

end ProtoSchema
