import Mathlib.Data.List.Forall2
import Mathlib.Data.List.Infix
import ProtoSchema.Cursor.Basic

/-! # Braces

Braces in a list of tokens belong together by nesting: an opening one and a closing one do so if
between them every brace has its partner. A closing brace ends the block whose keyword and name
stand in front of its opening brace. Which brace that is, and so which block, the tokens decide. -/

namespace ProtoSchema

/-- Tokens among which every brace has its partner. -/
inductive Balanced : List Token → Prop
  | nil : Balanced []
  | other {t ts} (opens : t.kind ≠ .leftBrace) (closes : t.kind ≠ .rightBrace)
    (rest : Balanced ts) : Balanced (t :: ts)
  | braces {l us r vs} (opens : l.kind = .leftBrace) (inner : Balanced us)
    (closes : r.kind = .rightBrace) (rest : Balanced vs) : Balanced (l :: (us ++ r :: vs))

/-- The number of tokens of a kind. -/
def countKind (k : TokenKind) (ts : List Token) : Nat := ts.countP (·.kind = k)

@[simp] theorem countKind_nil (k : TokenKind) : countKind k [] = 0 := rfl

@[simp] theorem countKind_append (k : TokenKind) (ts us : List Token) :
    countKind k (ts ++ us) = countKind k ts + countKind k us := List.countP_append

theorem countKind_cons (k : TokenKind) (t : Token) (ts : List Token) :
    countKind k (t :: ts) = (if t.kind = k then 1 else 0) + countKind k ts := by
  simp [countKind, List.countP_cons, Nat.add_comm]

/-- The block that a keyword and a name announce. A oneof tells how many semicolons it holds. -/
def Block.of? (word : Keyword) (name : Token) (semicolons : Nat) : Option Block :=
  match word with
  | .messageKw => some (.message name)
  | .enumKw => some (.enum name)
  | .oneofKw => some (.oneof name semicolons)
  | _ => none

/-- The block that ends with some tokens, of which the last is its closing brace. -/
inductive Closes : List Token → Block → Prop
  | block {front word name l inner r k b} (keyword : word.kind = .keyword k)
    (named : name.kind = .identifier) (opens : l.kind = .leftBrace) (nested : Balanced inner)
    (closes : r.kind = .rightBrace)
    (told : Block.of? k name (countKind .semicolon inner) = some b) :
    Closes (front ++ [word, name, l] ++ inner ++ [r]) b

/-- The parts of a token list that reach from its front through a closing brace, the shortest
first. -/
def closings (ts : List Token) : List (List Token) :=
  ts.inits.filter fun u => u.getLast?.map Token.kind = some .rightBrace

/-- That the blocks which some tokens close are these, in this order. -/
def Logged (ts : List Token) (blocks : List Block) : Prop :=
  List.Forall₂ Closes (closings ts) blocks

namespace Balanced

variable {ts us : List Token}

theorem append (h : Balanced ts) (h' : Balanced us) : Balanced (ts ++ us) := by
  induction h with
  | nil => exact h'
  | other opens closes _ ih => exact .other opens closes ih
  | braces opens inner closes _ _ ih =>
    rw [List.cons_append, List.append_assoc, List.cons_append]
    exact .braces opens inner closes ih

theorem of_braceless (h : ∀ t ∈ ts, t.kind ≠ .leftBrace ∧ t.kind ≠ .rightBrace) : Balanced ts := by
  induction ts with
  | nil => exact .nil
  | cons t ts ih =>
    obtain ⟨opens, closes⟩ := h t List.mem_cons_self
    exact .other opens closes (ih fun u hu => h u (List.mem_cons_of_mem t hu))

theorem count_eq (h : Balanced ts) : countKind .leftBrace ts = countKind .rightBrace ts := by
  induction h with
  | nil => rfl
  | other opens closes _ ih => simpa [countKind_cons, opens, closes] using ih
  | braces opens _ closes _ ih ih' =>
    simp only [countKind_cons, countKind_append, opens, closes, ih, ih']
    simp
    omega

/-- At the end of balanced tokens, no brace waits for its partner. -/
theorem count_le_of_suffix (h : Balanced ts) (hu : us <:+ ts) :
    countKind .leftBrace us ≤ countKind .rightBrace us := by
  induction h generalizing us with
  | nil => simp [List.suffix_nil.1 hu]
  | @other t ts opens closes rest ih =>
    rcases List.suffix_cons_iff.1 hu with rfl | hu
    · exact (Balanced.other opens closes rest).count_eq.le
    · exact ih hu
  | @braces l inner r vs opens inside closes rest ih ih' =>
    rcases List.suffix_cons_iff.1 hu with rfl | hu
    · exact (Balanced.braces opens inside closes rest).count_eq.le
    obtain ⟨ys, eq⟩ := hu
    rcases List.append_eq_append_iff.1 eq with ⟨zs, rfl, rfl⟩ | ⟨zs, -, eq⟩
    · have short := ih (List.suffix_append ys zs)
      have whole := rest.count_eq
      simp only [countKind_append, countKind_cons, closes]
      simp
      omega
    rcases List.suffix_cons_iff.1 ⟨zs, eq.symm⟩ with rfl | hu
    · have whole := rest.count_eq
      simp only [countKind_cons, closes]
      simp
      omega
    · exact ih' hu

/-- Behind an opening brace, balanced tokens do not hold another one whose partner is missing. -/
theorem eq_nil_of_braces {xs inner inner' : List Token} {l l' : Token} (nested : Balanced inner)
    (opens' : l'.kind = .leftBrace) (nested' : Balanced inner')
    (eq : l :: inner = xs ++ l' :: inner') : xs = [] := by
  cases xs with
  | nil => rfl
  | cons x xs =>
    obtain ⟨-, rfl⟩ := List.cons.inj eq
    have outer := nested.count_le_of_suffix (List.suffix_append xs _)
    have same := nested'.count_eq
    simp only [countKind_cons, opens'] at outer
    simp at outer
    omega

end Balanced

/-- The opening brace that belongs to a closing one is determined. -/
theorem braces_unique {front front' inner inner' : List Token} {l l' r r' : Token}
    (eq : front ++ [l] ++ inner ++ [r] = front' ++ [l'] ++ inner' ++ [r'])
    (opens : l.kind = .leftBrace) (nested : Balanced inner) (opens' : l'.kind = .leftBrace)
    (nested' : Balanced inner') : front = front' ∧ l = l' ∧ inner = inner' := by
  obtain ⟨eq, -⟩ := List.append_inj' eq rfl
  rw [List.append_assoc, List.append_assoc, List.singleton_append, List.singleton_append] at eq
  have none : front = front' := by
    rcases List.append_eq_append_iff.1 eq with ⟨xs, rfl, behind⟩ | ⟨xs, rfl, behind⟩
    · rw [nested.eq_nil_of_braces opens' nested' behind, List.append_nil]
    · rw [nested'.eq_nil_of_braces opens nested behind, List.append_nil]
  subst none
  simpa using eq

namespace Closes

variable {ts us : List Token} {b b' : Block}

theorem behind (h : Closes us b) (ts : List Token) : Closes (ts ++ us) b := by
  obtain ⟨keyword, named, opens, nested, closes, told⟩ := h
  simp only [← List.append_assoc]
  exact .block keyword named opens nested closes told

/-- Some tokens end with at most one block. -/
theorem unique (h : Closes ts b) (h' : Closes ts b') : b = b' := by
  have split (front inner : List Token) (word name l r : Token) :
      front ++ [word, name, l] ++ inner ++ [r] = front ++ [word, name] ++ [l] ++ inner ++ [r] := by
        simp
  obtain ⟨keyword, named, opens, nested, closes, told⟩ := h
  generalize same : _ ++ [_] = ts at h'
  obtain ⟨keyword', named', opens', nested', closes', told'⟩ := h'
  rw [split, split] at same
  obtain ⟨heads, -, rfl⟩ := braces_unique same opens nested opens' nested'
  obtain ⟨-, heads⟩ := List.append_inj' heads rfl
  obtain ⟨rfl, rfl, -⟩ : _ = _ ∧ _ = _ ∧ True := by simpa using heads
  obtain rfl := TokenKind.keyword.inj (keyword.symm.trans keyword')
  exact Option.some.inj (told.symm.trans told')

end Closes

theorem closings_append (ts us : List Token) :
    closings (ts ++ us) = closings ts ++ (closings us).map (ts ++ ·) := by
  have head : us.inits = [] :: us.inits.tail := by cases us <;> simp
  have nonempty (u : List Token) (hu : u ∈ us.inits.tail) : u ≠ [] := by
    cases us with
    | nil => simp at hu
    | cons v us =>
      simp only [List.inits_cons, List.tail_cons, List.mem_map] at hu
      obtain ⟨w, -, rfl⟩ := hu
      exact List.cons_ne_nil v w
  unfold closings
  rw [List.inits_append, List.filter_append, head, List.filter_cons_of_neg (by simp),
    List.tail_cons, List.filter_map]
  congr 2
  refine List.filter_congr fun u hu => ?_
  simp [List.getLast?_append_of_ne_nil ts (nonempty u hu)]

theorem closings_singleton {r : Token} (h : r.kind = .rightBrace) : closings [r] = [[r]] := by
  simp [closings, h]

theorem closings_eq_nil {ts : List Token} (h : ∀ t ∈ ts, t.kind ≠ .rightBrace) :
    closings ts = [] := by
  rw [closings, List.filter_eq_nil_iff]
  intro u hu closed
  obtain ⟨t, last, kind⟩ := Option.map_eq_some_iff.1 (of_decide_eq_true closed)
  exact h t (((List.mem_inits u ts).1 hu).subset (List.mem_of_getLast? last)) kind

namespace Logged

variable {ts us : List Token} {es fs : List Block} {r : Token} {b : Block}

theorem of_braceless (h : ∀ t ∈ ts, t.kind ≠ .rightBrace) : Logged ts [] := by
  rw [Logged, closings_eq_nil h]
  exact .nil

theorem append (h : Logged ts es) (h' : Logged us fs) : Logged (ts ++ us) (es ++ fs) := by
  rw [Logged, closings_append]
  refine List.rel_append h (List.forall₂_map_left_iff.2 ?_)
  exact h'.imp fun u b closes => closes.behind ts

/-- A block that is closed comes last. -/
theorem close (h : Logged ts es) (brace : r.kind = .rightBrace) (last : Closes (ts ++ [r]) b) :
    Logged (ts ++ [r]) (es ++ [b]) := by
  rw [Logged, closings_append, closings_singleton brace]
  exact List.rel_append h (.cons last .nil)

theorem unique (h : Logged ts es) (h' : Logged ts fs) : es = fs := by
  have single : Relator.RightUnique Closes := fun _ _ _ => Closes.unique
  exact single.forall₂ h h'

end Logged

end ProtoSchema
