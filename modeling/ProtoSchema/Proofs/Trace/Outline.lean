import Mathlib.Data.List.Perm.Basic
import ProtoSchema.Node

/-! # The blocks of a tree

Messages, enums and oneofs are the blocks of a tree. Messages hold further blocks, so they form a
forest. Blocks are closed from the inside to the outside, and what stands side by side is closed in
the order in which it stands, which the tree does not tell in full. -/

namespace ProtoSchema

/-- A block with the blocks in it. -/
inductive Outline where
  | node (block : Block) (inner : List Outline)

/-- The orders of the blocks of a forest in which every block comes right behind those within it. -/
inductive Postorder : List Outline → List Block → Prop
  | nil : Postorder [] []
  | node {forest block inner rest es fs} (first : forest.Perm (.node block inner :: rest))
    (within : Postorder inner es) (further : Postorder rest fs) :
    Postorder forest (es ++ block :: fs)

namespace Postorder

variable {f g : List Outline} {es fs : List Block}

theorem perm (h : Postorder f es) (same : f.Perm g) : Postorder g es := by
  cases h with
  | nil =>
    obtain rfl := same.nil_eq
    exact .nil
  | node first within further => exact .node (same.symm.trans first) within further

theorem append (h : Postorder f es) (h' : Postorder g fs) : Postorder (f ++ g) (es ++ fs) := by
  induction h with
  | nil => exact h'
  | node first within _ _ ih =>
    rw [List.append_assoc, List.cons_append]
    exact .node (first.append_right g) within ih

/-- A block is closed when all in it is. -/
theorem close (h : Postorder f es) (block : Block) : Postorder [.node block f] (es ++ [block]) :=
  .node (.refl _) h .nil

end Postorder

def Enum.outline (e : Enum) : Outline := .node (.enum e.name) []

def Oneof.outline (o : Oneof) : Outline := .node (.oneof o.name o.fields.length) []

mutual

def Message.outline : Message → Outline
  | ⟨name, body⟩ => .node (.message name) body.outlines

/-- The blocks of a message body, sort by sort. -/
def MessageBody.outlines : MessageBody → List Outline
  | ⟨_, enums, messages, oneofs, _⟩ =>
    Message.outlineList messages ++ (enums.map Enum.outline ++ oneofs.map Oneof.outline)

def Message.outlineList : List Message → List Outline
  | [] => []
  | m :: rest => m.outline :: Message.outlineList rest

end

theorem Message.outlineList_eq_map (ms : List Message) : outlineList ms = ms.map outline := by
  induction ms with
  | nil => simp [outlineList]
  | cons m rest ih => simp [outlineList, ih]

def File.outlines (f : File) : List Outline :=
  f.messages.map Message.outline ++ f.enums.map Enum.outline

/-- The blocks of the tree of a node. -/
def Node.outlines : (n : Node) → n.Tree → List Outline
  | .file, f => f.outlines
  | .enum, e => [e.outline]
  | .oneof, o => [o.outline]
  | .message, m => [m.outline]
  | _, _ => []

/-! ## Members in the order in which they are written -/

def MessageMember.outlines : MessageMember → List Outline
  | .message m => [m.outline]
  | .enum e => [e.outline]
  | .oneof o => [o.outline]
  | _ => []

def Statement.outlines : Statement → List Outline
  | .message m => [m.outline]
  | .enum e => [e.outline]
  | _ => []

theorem flatMap_eq_map_filterMap {α β γ : Type} (f : β → γ) (g : α → Option β) (as : List α) :
    as.flatMap (fun a => ((g a).map f).toList) = (as.filterMap g).map f := by
  rw [List.map_filterMap, List.filterMap_eq_flatMap_toList]

theorem MessageBody.outlines_ofMembers (members : List MessageMember) :
    (members.flatMap MessageMember.outlines).Perm (MessageBody.ofMembers members).outlines := by
  have parts (a : MessageMember) : a.outlines = (a.message?.map Message.outline).toList ++
      ((a.enum?.map Enum.outline).toList ++ (a.oneof?.map Oneof.outline).toList) := by
    cases a <;> rfl
  simp only [ofMembers, outlines, Message.outlineList_eq_map, ← flatMap_eq_map_filterMap]
  rw [funext parts]
  refine (List.flatMap_append_perm ..).symm.trans (List.Perm.append_left _ ?_)
  exact (List.flatMap_append_perm ..).symm

theorem File.outlines_ofStatements (version : SyntaxDecl) (statements : List Statement) :
    (statements.flatMap Statement.outlines).Perm
      (File.ofStatements version statements).outlines := by
  have parts (s : Statement) : s.outlines = (s.message?.map Message.outline).toList ++
      (s.enum?.map Enum.outline).toList := by
    cases s <;> rfl
  simp only [ofStatements, outlines, ← flatMap_eq_map_filterMap]
  rw [funext parts]
  exact (List.flatMap_append_perm ..).symm

end ProtoSchema
