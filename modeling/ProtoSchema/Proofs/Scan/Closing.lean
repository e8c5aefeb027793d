import ProtoSchema.Proofs.Scan.Relaying

/-! # What stands behind a closing mark

No token goes on with a semicolon or a closing brace, and neither of them goes on with anything.
What is read up to such a mark is therefore read in front of every text, and behind it the text is
read as if it stood alone, only further on. -/

namespace ProtoSchema

/-- The range that many bytes further on. -/
def Span.shift (n : Nat) (s : Span) : Span := ⟨n + s.start, n + s.stop⟩

def Item.shift (n : Nat) : Item → Item
  | .token l => .token ⟨l.token, l.span.shift n⟩
  | .failure s => .failure (s.shift n)

/-- Whether a gap is whole depends on the next character only. -/
theorem Gap.congr {gap after after' : List Char} (h : Gap gap after)
    (same : after'.head? = after.head?) : Gap gap after' := by
  induction h with
  | nil => exact .nil
  | blank hc _ ih => exact .blank hc (ih same)
  | @line body cs after hb he _ ih =>
    have head : (cs ++ after').head? = (cs ++ after).head? := by simp [List.head?_append, same]
    exact .line hb (head ▸ he) (ih same)
  | block first _ ih => exact .block first (ih same)

namespace Segment

/-- The items of a text that stands further on. -/
theorem items_shift (n p : Nat) (ss : List Segment) :
    items (n + p) ss = (items p ss).map (.shift n) := by
  induction ss generalizing p with
  | nil => rfl
  | cons s ss ih =>
    have one : (s.item? (n + p)).toList = (s.item? p).toList.map (.shift n) := by
      cases kind : s.kind <;> simp [item?, kind, Item.shift, Span.shift, Nat.add_assoc]
    rw [items, items, one, Nat.add_assoc, ih, List.map_append]

/-- The items of a gap and a token in front of a text. -/
theorem items_gap_token {gap bs rest : List Char} {c : Char} {k : TokenKind}
    (skipped : Gap gap (c :: bs ++ rest))
    (scanned : scan c (bs ++ rest) = (.token k, bs.length)) (p : Nat) :
    items p (cut (gap ++ (c :: bs ++ rest))) =
      .token ⟨⟨k, String.ofList (c :: bs)⟩,
        ⟨p + byteLength gap, p + byteLength gap + byteLength (c :: bs)⟩⟩ ::
        items (p + byteLength gap + byteLength (c :: bs)) (cut rest) := by
  rw [items_gap skipped, List.cons_append, items_token scanned, List.take_left, List.drop_left]

theorem closing_of_scan {c : Char} {bs rest : List Char} {k : TokenKind}
    (scanned : scan c (bs ++ rest) = (.token k, bs.length))
    (closing : k ∈ [.semicolon, .rightBrace]) :
    bs = [] ∧ goesOn c = false := by
  have longest := decides_scan c (bs ++ rest)
  rw [scanned] at longest
  change Longest k (c :: (bs ++ rest).take bs.length) (c :: (bs ++ rest)) at longest
  rw [List.take_left] at longest
  have declared := longest.declared
  rcases List.mem_pair.1 closing with rfl | rfl
  · obtain ⟨rfl, rfl⟩ := List.cons.inj (Set.mem_singleton_iff.1 declared)
    exact ⟨rfl, by decide⟩
  · obtain ⟨rfl, rfl⟩ := List.cons.inj (Set.mem_singleton_iff.1 declared)
    exact ⟨rfl, by decide⟩

/-- A text up to a semicolon or a closing brace, in front of which there are only tokens, is read
alike in front of every other text. -/
theorem items_upTo {w : List Lexeme} {p : Nat} {cs : List Char} {l : Lexeme} {is : List Item}
    (closing : l.token.kind ∈ [.semicolon, .rightBrace])
    (h : items p (cut cs) = w.map .token ++ .token l :: is) :
    ∃ u m rest, cs = u ++ m :: rest ∧ goesOn m = false ∧ l.span.stop = p + byteLength (u ++ [m]) ∧
      ∀ x, items p (cut (u ++ m :: x)) = w.map .token ++ .token l :: items l.span.stop (cut x) := by
  induction w generalizing p cs with
  | nil =>
    obtain ⟨gap, m, bs, rest, rfl, skipped, -, -, scanned, -⟩ := items_front h
    obtain ⟨rfl, last⟩ := closing_of_scan scanned closing
    have old := items_gap_token skipped scanned p
    obtain ⟨same, -⟩ := List.cons.inj (old.symm.trans h)
    have same := Item.token.inj same
    have stop : l.span.stop = p + byteLength gap + byteLength [m] := by rw [← same]
    refine ⟨gap, m, rest, rfl, last, by rw [stop, byteLength_append, Nat.add_assoc], fun x => ?_⟩
    have ends : l.token.kind.EndsBefore x := by
      rcases List.mem_pair.1 closing with kind | kind <;> rw [kind] <;> exact fun _ _ => rfl
    have scanned' := scan_append scanned ends
    have skipped' : Gap gap ([m] ++ x) := skipped.congr rfl
    rw [List.take_left] at scanned'
    have new := items_gap_token skipped' scanned' p
    rw [same, ← stop] at new
    exact new
  | cons l' w ih =>
    obtain ⟨gap, c, bs, rest, rfl, skipped, -, -, scanned, further⟩ := items_front h
    obtain ⟨u, m, rest, rfl, last, stop, again⟩ := ih further
    have old := items_gap_token skipped scanned p
    obtain ⟨same, -⟩ := List.cons.inj (old.symm.trans h)
    have same := Item.token.inj same
    have stop' : l'.span.stop = p + byteLength gap + byteLength (c :: bs) := by rw [← same]
    refine ⟨gap ++ (c :: bs ++ u), m, rest, by simp, last, by simp [stop, stop', Nat.add_assoc],
      fun x => ?_⟩
    have scanned' : scan c (bs ++ (u ++ m :: x)) = (.token l'.token.kind, bs.length) :=
      scan_upTo scanned fun e he => by
        cases he
        exact last
    have skipped' : Gap gap (c :: bs ++ (u ++ m :: x)) := skipped.congr rfl
    have new := items_gap_token skipped' scanned' p
    rw [same, ← stop', again] at new
    simpa using new

end Segment

end ProtoSchema
