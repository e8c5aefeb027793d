import ProtoSchema.Tree.Basic

/-! # Equality of trees

Equality of trees is decided member by member. Messages hold messages, so their case is settled
together with that of their bodies and of lists of them. -/

namespace ProtoSchema

mutual

def Message.decEq : (a b : Message) → Decidable (a = b)
  | ⟨name, body⟩, ⟨name', body'⟩ =>
    match decEq name name', MessageBody.decEq body body' with
    | isTrue hn, isTrue hb => isTrue (by rw [hn, hb])
    | isFalse hn, _ => isFalse (by intro h; cases h; exact hn rfl)
    | _, isFalse hb => isFalse (by intro h; cases h; exact hb rfl)

def MessageBody.decEq : (a b : MessageBody) → Decidable (a = b)
  | ⟨fields, enums, messages, oneofs, options⟩, ⟨fields', enums', messages', oneofs', options'⟩ =>
    match decEq (fields, enums, oneofs, options) (fields', enums', oneofs', options'),
      Message.decEqList messages messages' with
    | isTrue hr, isTrue hm => isTrue (by cases hr; rw [hm])
    | isFalse hr, _ => isFalse (by intro h; cases h; exact hr rfl)
    | _, isFalse hm => isFalse (by intro h; cases h; exact hm rfl)

def Message.decEqList : (as bs : List Message) → Decidable (as = bs)
  | [], [] => isTrue rfl
  | a :: as, b :: bs =>
    match Message.decEq a b, Message.decEqList as bs with
    | isTrue h, isTrue hs => isTrue (by rw [h, hs])
    | isFalse h, _ => isFalse (by intro e; cases e; exact h rfl)
    | _, isFalse hs => isFalse (by intro e; cases e; exact hs rfl)
  | [], _ :: _ => isFalse nofun
  | _ :: _, [] => isFalse nofun

end

instance : DecidableEq Message := Message.decEq

instance : DecidableEq MessageBody := MessageBody.decEq

deriving instance DecidableEq for File

end ProtoSchema
