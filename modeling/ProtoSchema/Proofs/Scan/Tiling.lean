import Mathlib.Data.String.Basic
import ProtoSchema.Proofs.Scan.Gap

/-! # Lexing loses and invents nothing

The items of a source lie one behind the other in its text, with nothing but gaps around them. This
is said of characters first and then of bytes: the positions of items are counted in bytes, and
every one of them is the start or the end of a character. -/

namespace ProtoSchema

/-- A text with its items from a byte position on: gaps and items take turns, and no item is
empty. -/
inductive Tiling : Nat → List Char → List Item → Prop
  | done {p gap} (h : Gap gap []) : Tiling p gap []
  | item {p g chars rest i is} (h : Gap g (chars ++ rest)) (full : chars ≠ [])
    (span : i.span = ⟨p + byteLength g, p + byteLength g + byteLength chars⟩)
    (text : ∀ l, i = .token l → l.token.text = String.ofList chars)
    (further : Tiling (p + byteLength g + byteLength chars) rest is) :
    Tiling p (g ++ (chars ++ rest)) (i :: is)

namespace Segment

/-- A text is cut from its front on. -/
theorem cut_induction {motive : List Char → Prop} (nil : motive [])
    (cons : ∀ c cs, motive (cs.drop (scan c cs).2) → motive (c :: cs)) (cs : List Char) :
    motive cs := by
  induction h : cs.length using Nat.strongRecOn generalizing cs with
  | _ n ih =>
    cases cs with
    | nil => exact nil
    | cons c cs =>
      refine cons c cs (ih _ ?_ _ rfl)
      simp only [List.length_cons] at h
      simp only [List.length_drop]
      omega

/-- Only blanks and comments are skipped. -/
theorem trivia_of_scan {c : Char} {cs : List Char} (h : (scan c cs).1 = .trivia) :
    Trivia.scan c cs = some (.trivia, (scan c cs).2) := by
  unfold scan at h ⊢
  cases hs : scan? c cs with
  | none =>
    rw [hs] at h
    cases h
  | some r =>
    obtain ⟨kind, n⟩ := r
    rw [hs] at h
    cases h
    simp only [scan?, Option.orElse_eq_orElse, Option.orElse_eq_or, Option.or_eq_some_iff] at hs
    rcases hs with hs | ⟨-, hs | ⟨-, hs | ⟨-, hs | ⟨-, hs⟩⟩⟩⟩
    · exact hs
    · unfold Word.scan at hs
      split at hs <;> cases hs
    · unfold Number.scan at hs
      split at hs
      · cases hs
      · split at hs <;> cases hs
    · unfold Quoted.scan at hs
      split at hs
      · dsimp only at hs
        split at hs <;> cases hs
      · cases hs
    · obtain ⟨m, -, e⟩ := Option.map_eq_some_iff.1 hs
      cases e

end Segment

namespace Tiling

/-- A gap in front of a text that is tiled. -/
theorem skip {p : Nat} {gap rest : List Char} {is : List Item} (h : Gap gap rest)
    (further : Tiling (p + byteLength gap) rest is) : Tiling p (gap ++ rest) is := by
  generalize hq : p + byteLength gap = q at further
  cases further with
  | done h' => exact .done (Gap.append (by simpa using h) h')
  | @item _ gap' chars rest' i is h' full span text further =>
    subst hq
    rw [← List.append_assoc gap]
    refine .item (h.append h') full ?_ text ?_
    · rw [span, byteLength_append, Nat.add_assoc p]
    · rwa [byteLength_append, ← Nat.add_assoc p]

theorem of_cut (p : Nat) (cs : List Char) : Tiling p cs (Segment.items p (Segment.cut cs)) := by
  induction cs using Segment.cut_induction generalizing p with
  | nil => exact .done .nil
  | cons c cs ih =>
    have further := ih (p + (Segment.first c cs).width)
    have whole : c :: cs = (Segment.first c cs).chars ++ cs.drop (Segment.scan c cs).2 := by
      simp [Segment.first]
    have full : (Segment.first c cs).chars ≠ [] := List.cons_ne_nil _ _
    have shown (i : Item) (hi : (Segment.first c cs).item? p = some i)
        (span : i.span = ⟨p, p + (Segment.first c cs).width⟩)
        (text : ∀ l, i = .token l → l.token.text = (Segment.first c cs).text) :
        Tiling p (c :: cs) (Segment.items p (Segment.cut (c :: cs))) := by
      rw [Segment.cut_cons, Segment.items, hi, whole]
      exact .item (g := []) .nil full (by simpa [Segment.width] using span) text
        (by simpa [Segment.width] using further)
    cases kind : (Segment.scan c cs).1 with
    | trivia =>
      have skipped : (Segment.first c cs).item? p = none := by
        simp [Segment.item?, Segment.first, kind]
      rw [Segment.cut_cons, Segment.items, skipped, whole]
      exact skip (Trivia.gap_of_scan (Segment.trivia_of_scan kind)) further
    | token k =>
      refine shown (.token ⟨⟨k, (Segment.first c cs).text⟩, ⟨p, _⟩⟩) ?_ rfl ?_
      · simp [Segment.item?, Segment.first, kind]
      · rintro l ⟨⟩
        rfl
    | failure =>
      refine shown (.failure ⟨p, _⟩) ?_ rfl fun l h => by cases h
      simp [Segment.item?, Segment.first, kind]

variable {p : Nat} {cs : List Char} {is : List Item}

/-- Every item takes a part of the text that is not empty, and a token has this part as its text. -/
theorem exists_part (h : Tiling p cs is) {i : Item} (hi : i ∈ is) :
    ∃ before chars after, cs = before ++ (chars ++ after) ∧ chars ≠ [] ∧
      i.span = ⟨p + byteLength before, p + byteLength before + byteLength chars⟩ ∧
      ∀ l, i = .token l → l.token.text = String.ofList chars := by
  induction h with
  | done => cases hi
  | @item p gap chars rest j is _ full span text _ ih =>
    rcases List.mem_cons.1 hi with rfl | hi
    · exact ⟨gap, chars, rest, rfl, full, span, text⟩
    · obtain ⟨before, chars', after, rfl, full', span', text'⟩ := ih hi
      refine ⟨gap ++ (chars ++ before), chars', after, by simp, full', ?_, text'⟩
      simp [span', Nat.add_assoc]

theorem pairwise (h : Tiling p cs is) : is.Pairwise fun i j => i.span.stop ≤ j.span.start := by
  induction h with
  | done => exact .nil
  | item _ _ span _ further ih =>
    refine .cons (fun j hj => ?_) ih
    obtain ⟨before, _, _, -, -, span', -⟩ := further.exists_part hj
    rw [span, span']
    exact Nat.le_add_right _ _

end Tiling

/-- The ranges around some items: before the first one, between each two that follow each other, and
behind the last one up to the end of the text. -/
def gaps (size : Nat) : Nat → List Item → List Span
  | p, [] => [⟨p, size⟩]
  | p, i :: is => ⟨p, i.span.start⟩ :: gaps size i.span.stop is

theorem Tiling.exists_gap {p : Nat} {cs : List Char} {is : List Item} (h : Tiling p cs is)
    {g : Span} (hg : g ∈ gaps (p + byteLength cs) p is) :
    ∃ before gap after, cs = before ++ (gap ++ after) ∧ Gap gap after ∧
      g = ⟨p + byteLength before, p + byteLength before + byteLength gap⟩ := by
  induction h with
  | @done p gap h =>
    refine ⟨[], gap, [], by simp, h, ?_⟩
    simpa [gaps] using hg
  | @item p gap chars rest i is h _ span _ _ ih =>
    rcases List.mem_cons.1 hg with rfl | hg
    · refine ⟨[], gap, chars ++ rest, rfl, h, ?_⟩
      simp [span]
    · have size : p + byteLength (gap ++ (chars ++ rest)) =
          p + byteLength gap + byteLength chars + byteLength rest := by
        simp [Nat.add_assoc]
      rw [size, span] at hg
      obtain ⟨before, gap', after, rfl, h', rfl⟩ := ih hg
      refine ⟨gap ++ (chars ++ before), gap', after, by simp, h', ?_⟩
      simp [Nat.add_assoc]

/-! ## Bytes -/

theorem utf8Len_eq_byteLength (cs : List Char) : String.utf8Len cs = byteLength cs := by
  induction cs with
  | nil => rfl
  | cons c cs ih => rw [String.utf8Len_cons, byteLength_cons, ih, Nat.add_comm]

theorem utf8ByteSize_eq_byteLength (source : String) :
    source.utf8ByteSize = byteLength source.toList := by
  rw [← utf8Len_eq_byteLength, ← String.utf8ByteSize_ofList, String.ofList_toList]

/-- The text of a source in a range of bytes. -/
def slice (source : String) (s : Span) : String :=
  String.Pos.Raw.extract source ⟨s.start⟩ ⟨s.stop⟩

theorem slice_eq {source : String} {before chars after : List Char}
    (h : source.toList = before ++ (chars ++ after)) :
    slice source ⟨byteLength before, byteLength before + byteLength chars⟩ =
      String.ofList chars := by
  have valid := String.extract_of_valid before chars after
  rw [List.append_assoc, ← h, String.ofList_toList, utf8Len_eq_byteLength,
    utf8Len_eq_byteLength] at valid
  exact valid

/-- That a range starts and stops at characters of a source. -/
def OnBoundaries (source : String) (s : Span) : Prop :=
  (String.Pos.Raw.mk s.start).IsValid source ∧ (String.Pos.Raw.mk s.stop).IsValid source

theorem isValid_of_append {source : String} {before after : List Char}
    (h : source.toList = before ++ after) :
    (String.Pos.Raw.mk (byteLength before)).IsValid source := by
  rw [String.Pos.Raw.isValid_iff_exists_append]
  refine ⟨String.ofList before, String.ofList after, ?_, ?_⟩
  · rw [← String.ofList_append, ← h, String.ofList_toList]
  · rw [String.Pos.Raw.ext_iff]
    simp [utf8Len_eq_byteLength]

/-! ## The lexer -/

namespace Lexer

/-- The lexer after a number of items have been asked for. -/
def after : Nat → Lexer → Lexer
  | 0, l => l
  | k + 1, l => after k l.next.2

theorem next_after (k : Nat) (l : Lexer) : (l.after k).next.1 = l.pending[k]? := by
  induction k generalizing l with
  | zero => cases h : l.pending <;> simp [after, next, h]
  | succ k ih =>
    rw [after, ih]
    cases h : l.pending <;> simp [next, h]

end Lexer

/-- Lexing loses and invents nothing. The items of a source take ranges of bytes that are not empty,
lie within the source and between its characters and follow each other; the text of a token is the
slice at its range; and what lies around the items are gaps. A lexer hands out these items and from
then on reports the end. -/
theorem lex_lossless (source : String) :
    (∀ i ∈ lex source, i.span.start < i.span.stop ∧ i.span.stop ≤ source.utf8ByteSize ∧
      OnBoundaries source i.span) ∧
    ((lex source).Pairwise fun i j => i.span.stop ≤ j.span.start) ∧
    (∀ l, .token l ∈ lex source → l.token.text = slice source l.span) ∧
    (∀ g ∈ gaps source.utf8ByteSize 0 (lex source),
      Gap (slice source g).toList (slice source ⟨g.stop, source.utf8ByteSize⟩).toList) ∧
    ∀ k, ((Lexer.ofSource source).after k).next.1 = (lex source)[k]? := by
  have tiling : Tiling 0 source.toList (lex source) := Tiling.of_cut 0 source.toList
  refine ⟨fun i hi => ?_, tiling.pairwise, fun l hl => ?_, fun g hg => ?_, fun k => ?_⟩
  · obtain ⟨before, chars, after, whole, full, span, -⟩ := tiling.exists_part hi
    rw [Nat.zero_add] at span
    have positive : 0 < byteLength chars := by
      obtain ⟨c, cs, rfl⟩ := List.exists_cons_of_ne_nil full
      have := c.utf8Size_pos
      rw [byteLength_cons]
      omega
    rw [span, utf8ByteSize_eq_byteLength, whole]
    refine ⟨by simpa using positive, by simp, isValid_of_append whole, ?_⟩
    have split : source.toList = (before ++ chars) ++ after := by simp [whole]
    have valid := isValid_of_append split
    rwa [byteLength_append] at valid
  · obtain ⟨before, chars, after, whole, -, span, text⟩ := tiling.exists_part hl
    change l.span = _ at span
    rw [text l rfl, span, Nat.zero_add, slice_eq whole]
  · rw [utf8ByteSize_eq_byteLength, ← Nat.zero_add (byteLength _)] at hg
    obtain ⟨before, gap, after, whole, h, rfl⟩ := tiling.exists_gap hg
    have rest : source.toList = (before ++ gap) ++ (after ++ []) := by simp [whole]
    have size : source.utf8ByteSize = byteLength (before ++ gap) + byteLength after := by
      rw [utf8ByteSize_eq_byteLength, whole]
      simp [Nat.add_assoc]
    rw [Nat.zero_add, slice_eq whole, size, ← byteLength_append, slice_eq rest]
    simpa using h
  · exact Lexer.next_after k (Lexer.ofSource source)

end ProtoSchema
