import Mathlib.Logic.Relation
import Mathlib.Data.List.Basic

/-! # Sorting by neighbours

A list whose members have sorts is put in order, sort by sort, when two neighbours of different
sorts may change places. Members without a sort may be left out. The order within a sort is kept. -/

namespace ProtoSchema

open Relation (ReflTransGen)

section Sorting

variable {α σ : Type} (sort : α → Option σ)

/-- A single change: a member without a sort is left out, or two neighbours change places. -/
inductive Sorts : List α → List α → Prop
  | drop {front back a} (h : sort a = none) : Sorts (front ++ a :: back) (front ++ back)
  | swap {front back a b} (h : sort a ≠ sort b) :
    Sorts (front ++ a :: b :: back) (front ++ b :: a :: back)

/-- The members of the given sorts, sort by sort. -/
def inOrder [DecidableEq σ] (order : List σ) (as : List α) : List α :=
  order.flatMap fun s => as.filter fun a => sort a = some s

variable {sort} {as bs : List α}

theorem Sorts.cons (h : Sorts sort as bs) (a : α) : Sorts sort (a :: as) (a :: bs) := by
  cases h with
  | @drop front back b h => exact @Sorts.drop _ _ _ (a :: front) back b h
  | @swap front back b c h => exact @Sorts.swap _ _ _ (a :: front) back b c h

theorem sorts_cons (h : ReflTransGen (Sorts sort) as bs) (a : α) :
    ReflTransGen (Sorts sort) (a :: as) (a :: bs) := h.lift (a :: ·) fun _ _ h => h.cons a

/-- A member passes those of other sorts. -/
theorem sorts_pass {a : α} (h : ∀ b ∈ as, sort a ≠ sort b) (bs : List α) :
    ReflTransGen (Sorts sort) (a :: (as ++ bs)) (as ++ a :: bs) := by
  induction as with
  | nil => exact .refl
  | cons b as ih =>
    obtain ⟨differ, rest⟩ := List.forall_mem_cons.1 h
    have first : Sorts sort (a :: b :: (as ++ bs)) (b :: a :: (as ++ bs)) :=
      @Sorts.swap _ _ _ [] _ a b differ
    exact .head first (sorts_cons (ih rest) b)

variable [DecidableEq σ] {order : List σ}

theorem inOrder_cons_of_not_mem {a : α} (h : ∀ s ∈ order, sort a ≠ some s) :
    inOrder sort order (a :: as) = inOrder sort order as := by
  refine List.flatMap_congr fun s hs => ?_
  rw [List.filter_cons_of_neg]
  simpa using h s hs

/-- A member goes to the front of its sort. -/
theorem sorts_insert {a : α} {s : σ} (ha : sort a = some s) (nodup : order.Nodup) (hs : s ∈ order)
    (as : List α) :
    ReflTransGen (Sorts sort) (a :: inOrder sort order as) (inOrder sort order (a :: as)) := by
  obtain ⟨before, behind, rfl⟩ := List.append_of_mem hs
  rw [List.nodup_append, List.nodup_cons] at nodup
  obtain ⟨-, ⟨notBehind, -⟩, apart⟩ := nodup
  have front : inOrder sort before (a :: as) = inOrder sort before as :=
    inOrder_cons_of_not_mem fun t ht he => by
      obtain rfl : s = t := by simpa [ha] using he
      exact apart s ht s List.mem_cons_self rfl
  have back : inOrder sort behind (a :: as) = inOrder sort behind as :=
    inOrder_cons_of_not_mem fun t ht he => by
      obtain rfl : s = t := by simpa [ha] using he
      exact notBehind ht
  have split (cs : List α) : inOrder sort (before ++ s :: behind) cs = inOrder sort before cs ++
      ((cs.filter fun c => sort c = some s) ++ inOrder sort behind cs) := by
    simp [inOrder]
  rw [split, split, front, back, List.filter_cons_of_pos (by simpa using ha), List.cons_append]
  refine sorts_pass (fun b hb same => ?_) _
  obtain ⟨t, ht, hb⟩ := List.mem_flatMap.1 hb
  obtain ⟨-, hb⟩ := List.mem_filter.1 hb
  have eq : some s = some t := (ha.symm.trans same).trans (by simpa using hb)
  cases eq
  exact apart s ht s List.mem_cons_self rfl

/-- Every list of members with sorts can be put in order. -/
theorem sorts_inOrder (nodup : order.Nodup) (as : List α)
    (all : ∀ a ∈ as, ∀ s ∈ sort a, s ∈ order) :
    ReflTransGen (Sorts sort) as (inOrder sort order as) := by
  induction as with
  | nil =>
    have none : inOrder sort order ([] : List α) = [] := by simp [inOrder]
    rw [none]
  | cons a as ih =>
    obtain ⟨first, rest⟩ := List.forall_mem_cons.1 all
    refine (sorts_cons (ih rest) a).trans ?_
    cases ha : sort a with
    | none =>
      rw [inOrder_cons_of_not_mem fun s _ => by simp [ha]]
      exact .single (@Sorts.drop _ _ _ [] _ a ha)
    | some s => exact sorts_insert ha nodup (first s ha) as

end Sorting

end ProtoSchema
