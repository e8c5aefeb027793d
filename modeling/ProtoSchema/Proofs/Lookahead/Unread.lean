import ProtoSchema.Proofs.Lookahead.Offender
import ProtoSchema.Proofs.Lookahead.Steady

/-! # What has not been read does not matter

A run depends on the answers that it was given and on no others: with any others behind them, it
ends in the same way and leaves the same cursor in front of these. It has looked at most one token
ahead, and behind a node that its last token ends at none. -/

namespace ProtoSchema

open Cursor

namespace Node

theorem lawful (n : Node) : Parser.Lawful n.parser where
  reads := ⟨_, n.reads_node⟩
  traces := n.traces
  reports := ⟨_, n.reports⟩

/-- What holds of a tree that was read and of the cursor that was left behind it. -/
structure Leaves (n : Node) (t : n.Tree) (d : Cursor) : Prop where
  text : n.phrase (tokens d.taken.reverse) t
  passed : ∃ as, d.answered.reverse = as ++ answers d.held.toList ∧
    as.filter Option.isSome = answers d.taken.reverse
  ends : n.lastKinds ≠ [] → d.held = none
  name : n = .fullIdent → ∀ l, d.held = some l → l.token.kind ≠ .dot

theorem leaves_of_run {n : Node} {xs : List (Option Item)} {t : n.Tree} {d : Cursor}
    (run : n.parser (.ofAnswers xs) = .ok t d) : n.Leaves t d := by
  obtain ⟨w, used, moves, text⟩ := phrase_of_run run
  have taken : d.taken.reverse = w := by simpa [ofAnswers] using congrArg List.reverse moves.taken
  have answered : d.answered.reverse = used := by
    simpa [ofAnswers] using congrArg List.reverse moves.answered
  refine ⟨taken ▸ text, ?_, fun ends => ?_, ?_⟩
  · obtain ⟨as, passed, filter⟩ := moves.passed
    exact ⟨as, by simpa [answered, ofAnswers] using passed, taken ▸ filter⟩
  · obtain ⟨l, released, -⟩ := Node.lands ends _ t d (fresh_ofAnswers xs) (holds_none _) run
    exact released.held
  · rintro rfl
    exact Parser.held_of_fullIdent run

/-- A run that has not been told the end behind the last answer depends on the answers that it was
given, and no others: with any others behind these, it ends in the same way and leaves the same
cursor, but for what is still to come. It has looked at most one token ahead, and at none where the
node ends with its last token; and where it fails, the answer that it was given last is what it
fails at. -/
theorem unread_irrelevant (n : Node) (xs : List (Option Item))
    (told : (finalCursor (n.parser (.ofAnswers xs))).answered.length ≤ xs.length) :
    let r := n.parser (.ofAnswers xs)
    let used := xs.take (finalCursor r).answered.length
    (finalCursor r).answered = used.reverse ∧
    (∀ ys, n.parser (.ofAnswers (used ++ ys)) = resultFacing ys r) ∧
    (∀ t d, r = .ok t d → n.Leaves t d) ∧
    (∀ e d, r = .error e d → ∃ a, d.answered.head? = some a ∧ e.Offends d a) := by
  intro r used
  obtain ⟨front, asks, steady⟩ := n.lawful.steady (.ofAnswers xs)
  have answered : (finalCursor r).answered = front.reverse :=
    asks.answered.trans (List.append_nil _)
  have few : front.length ≤ xs.length := by rwa [answered, List.length_reverse] at told
  obtain rfl : used = front := by
    have whole : xs = front ++ (finalCursor r).pending := asks.pending few
    rw [← List.length_reverse, ← answered] at few
    simp only [used, answered, List.length_reverse]
    rw [whole, List.take_left]
  exact ⟨answered, steady, fun t d run => leaves_of_run run,
    fun e d run => offends (fresh_ofAnswers xs) run⟩

/-- A package statement goes alike in front of a failure, of another one or of nothing at all. -/
theorem unread_irrelevant_package :
    let keyword : Lexeme := ⟨⟨.keyword .packageKw, "package"⟩, ⟨0, 7⟩⟩
    let name : Lexeme := ⟨⟨.identifier, "a"⟩, ⟨8, 9⟩⟩
    let semicolon : Lexeme := ⟨⟨.semicolon, ";"⟩, ⟨9, 10⟩⟩
    let statement := answers [keyword, name, semicolon]
    let xs := statement ++ [some (Item.failure ⟨10, 11⟩)]
    (finalCursor (Node.package.parser (.ofAnswers xs))).answered.length ≤ xs.length ∧
      ∀ ys, Node.package.parser (.ofAnswers (statement ++ ys)) =
        .ok ⟨⟨[name.token]⟩⟩ ⟨ys, none, 10, statement.reverse, [semicolon, name, keyword], []⟩ := by
  intro keyword name semicolon statement xs
  have told : (finalCursor (Node.package.parser (.ofAnswers xs))).answered.length ≤ xs.length := by
    decide
  exact ⟨told, fun ys => (unread_irrelevant .package xs told).2.1 ys⟩

end Node

end ProtoSchema
