import Mathlib.Data.List.TakeWhile
import ProtoSchema.Lexer

/-! # Gaps

Between the items of a source stand blanks and comments. A line comment runs up to the end of its
line, so whether it is whole depends on the text that follows. A block comment runs through the
first closing mark that starts behind its two opening characters. -/

namespace ProtoSchema

/-- A text of blanks and comments in front of another text. -/
inductive Gap : List Char → List Char → Prop
  | nil {after} : Gap [] after
  | blank {c cs after} (hc : c ∈ [' ', '\t', '\n', '\x0b', '\x0c', '\r']) (rest : Gap cs after) :
    Gap (c :: cs) after
  | line {body cs after} (hb : '\n' ∉ body) (he : ∀ c, (cs ++ after).head? = some c → c = '\n')
    (rest : Gap cs after) : Gap ('/' :: '/' :: (body ++ cs)) after
  | block {body cs after} (first : ¬ ['*', '/'] <:+: body ++ ['*']) (rest : Gap cs after) :
    Gap ('/' :: '*' :: (body ++ '*' :: '/' :: cs)) after

namespace Gap

theorem append {gap cs after : List Char} (h : Gap gap (cs ++ after)) (h' : Gap cs after) :
    Gap (gap ++ cs) after := by
  generalize hd : cs ++ after = d at h
  induction h with
  | nil => exact h'
  | blank hc _ ih => exact .blank hc (ih hd)
  | @line body bs _ hb he _ ih =>
    subst hd
    have rest := Gap.line hb (by simpa using he) (ih rfl)
    simpa using rest
  | @block body bs _ first _ ih =>
    have rest := Gap.block first (ih hd)
    simpa using rest

theorem of_blanks {cs after : List Char} (h : ∀ c ∈ cs, Trivia.isBlank c) : Gap cs after := by
  induction cs with
  | nil => exact .nil
  | cons c cs ih =>
    refine .blank ?_ (ih fun d hd => h d (List.mem_cons_of_mem c hd))
    have hc := h c List.mem_cons_self
    simp only [Trivia.isBlank, Bool.or_eq_true, beq_iff_eq] at hc
    simpa [or_assoc] using hc

end Gap

namespace Trivia

/-- The first closing mark of a block comment is the first one that there is. -/
theorem closing?_eq_some {cs : List Char} {n : Nat} (h : closing? cs = some n) :
    ∃ body rest, cs = body ++ '*' :: '/' :: rest ∧ n = body.length + 2 ∧
      ¬ ['*', '/'] <:+: body ++ ['*'] := by
  fun_induction closing? cs generalizing n with
  | case1 rest =>
    cases h
    exact ⟨[], rest, rfl, rfl, by decide⟩
  | case2 c cs other ih =>
    obtain ⟨m, hm, rfl⟩ := Option.map_eq_some_iff.1 h
    obtain ⟨body, rest, rfl, rfl, first⟩ := ih hm
    refine ⟨c :: body, rest, rfl, rfl, fun inside => ?_⟩
    rcases List.infix_cons_iff.1 inside with front | inside
    · obtain ⟨star, back⟩ := List.cons_prefix_cons.1 front
      cases body with
      | nil => simp at back
      | cons b body =>
        obtain ⟨slash, -⟩ := List.cons_prefix_cons.1 back
        exact other _ star.symm (by rw [← slash]; rfl)
    · exact first inside
  | case3 => cases h

/-- A line comment is followed by the line's end or by nothing. -/
theorem head_line (line : List Char) (c : Char)
    (h : (line.dropWhile (· != '\n')).head? = some c) : c = '\n' := by
  have stopped := List.head?_dropWhile_not (· != '\n') line
  rw [h] at stopped
  simpa using stopped

theorem gap_of_scan {c : Char} {cs : List Char} {n : Nat} (h : scan c cs = some (.trivia, n)) :
    Gap (c :: cs.take n) (cs.drop n) := by
  unfold scan at h
  split at h
  · next blank =>
    cases h
    rw [take_runLength]
    refine .of_blanks fun d hd => ?_
    rcases List.mem_cons.1 hd with rfl | hd
    · exact blank
    · exact List.mem_takeWhile_imp hd
  · next blank =>
    split at h
    · next line =>
      cases h
      rw [List.take_succ_cons, List.drop_succ_cons, take_runLength, drop_runLength]
      have inside : '\n' ∉ line.takeWhile (· != '\n') := fun h => by
        simpa using List.mem_takeWhile_imp h
      simpa using Gap.line inside (by simpa using head_line line) .nil
    · next comment =>
      split at h
      · next n hn =>
        cases h
        obtain ⟨body, rest, rfl, rfl, first⟩ := closing?_eq_some hn
        have whole : Gap _ rest := Gap.block first .nil
        simpa [List.take_length_add_append] using whole
      · cases h
    · cases h

end Trivia

end ProtoSchema
