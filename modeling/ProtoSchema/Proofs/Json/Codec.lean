import ProtoSchema.Proofs.Json.Record
import Mathlib.Logic.Equiv.Defs

/-! # Codecs of a shape

A writer and a reader make a codec where the values that are read as something are just the
spellings of what is written for it. Codecs of lists, optional values, records and variants are made
of those of their parts. How deep values are is counted, as messages are read to a certain depth. -/

namespace ProtoSchema
open Json

variable {α β : Type} {n : Nat} {s : Shape} {v w : Json} {write : α → Json} {read : Json → Option α}
  {k : Key} {fs : List (Key × Shape)} {members : β → List (String × Json)}
  {values : List Json → Option β}

namespace Json

/-- That a value has no key twice and is at most so deep. -/
structure Within (n : Nat) (v : Json) : Prop where
  unique : v.UniqueKeys
  depth_le : v.depth ≤ n

theorem Within.mono {m : Nat} (h : Within m v) (le : m ≤ n) : Within n v :=
  ⟨h.unique, Nat.le_trans h.depth_le le⟩

theorem within_null : Within n .null := ⟨.null, Nat.zero_le n⟩

theorem Within.item {items : List Json} (h : Within n (.array items)) (hw : w ∈ items) :
    Within (n - 1) w := by
  have deep := h.depth_le
  have := depth_lt_of_mem hw
  exact ⟨uniqueKeys_array.1 h.unique w hw, by omega⟩

theorem Within.member {members : List (String × Json)} {name : String}
    (h : Within n (.object members)) (hw : (name, w) ∈ members) : Within (n - 1) w := by
  have deep := h.depth_le
  have := depth_lt_of_mem_members hw
  exact ⟨(uniqueKeys_object.1 h.unique).2 _ hw, by omega⟩

theorem Within.value {members : List (String × Json)} {key : Key} (h : Within n (.object members))
    (found : key.value? members = some w) : Within (n - 1) w := by
  have unique := (uniqueKeys_object.1 h.unique).1
  rcases (Key.value?_eq_some_iff unique).1 found with present | ⟨-, rfl, -⟩
  · exact h.member present
  · exact within_null

theorem Within.row {rows : Bool} {keys : List Key} {vals : List Json} (h : Within n v)
    (found : v.row rows keys = some vals) : ∀ w ∈ vals, Within (n - 1) w := by
  cases v with
  | object members =>
    replace found := row_object_eq_some_iff.1 found
    induction found with
    | nil => simp
    | cons value _ ih => exact List.forall_mem_cons.2 ⟨h.value value, ih⟩
  | array items =>
    obtain ⟨-, -, rfl⟩ := row_array_eq_some_iff.1 found
    exact fun w hw => h.item hw
  | _ => cases rows <;> simp [Json.row, record, openRecord] at found

theorem variant_eq_some_iff {m : String × Json} : v.variant = some m ↔ v = .object [m] := by
  rcases v with _ | _ | _ | _ | _ | (_ | ⟨m', _ | _⟩) <;> simp [variant]

end Json

/-- Reads the only value of a row. -/
def single? (read : Json → Option α) : List Json → Option α
  | [v] => read v
  | _ => none

/-- Reads the first value of a row and the others. -/
def pair? (first : Json → Option α) (others : List Json → Option β) : List Json → Option (α × β)
  | v :: vals => do return (← first v, ← others vals)
  | [] => none

@[simp] theorem single?_singleton (read : Json → Option α) : single? read [v] = read v := rfl

@[simp] theorem single?_nil (read : Json → Option α) : single? read [] = none := rfl

@[simp] theorem single?_cons_cons (read : Json → Option α) (vals : List Json) :
    single? read (v :: w :: vals) = none := rfl

@[simp] theorem pair?_nil (first : Json → Option α) : pair? first values [] = none := rfl

@[simp] theorem pair?_cons (first : Json → Option α) (vals : List Json) :
    pair? first values (v :: vals) =
      (first v).bind fun a => (values vals).bind fun b => some (a, b) := rfl

/-- That a reader reads just the spellings of what a writer writes, from values that are at most so
deep. -/
structure Codec (n : Nat) (s : Shape) (write : α → Json) (read : Json → Option α) : Prop where
  read_iff : ∀ {v}, Within n v → ∀ x, read v = some x ↔ Respells s (write x) v
  self : ∀ {x}, (write x).depth ≤ n → (write x).UniqueKeys ∧ Respells s (write x) (write x)

/-- The same for the values of a record's fields in a row. -/
structure RowCodec (n : Nat) (fs : List (Key × Shape)) (write : α → List (String × Json))
    (read : List Json → Option α) : Prop where
  read_iff : ∀ {vals}, (∀ w ∈ vals, Within n w) →
    ∀ x, read vals = some x ↔ RespellsRow fs (write x) vals
  self : ∀ {x}, (∀ m ∈ write x, m.2.depth ≤ n) →
    (∀ m ∈ write x, m.2.UniqueKeys) ∧ RespellsRow fs (write x) ((write x).map Prod.snd)

namespace RowCodec

theorem last (h : Codec n s write read) :
    RowCodec n [(k, s)] (fun x => [(k.name, write x)]) (single? read) where
  read_iff {vals} hvals x := by
    rcases vals with _ | ⟨v, _ | _⟩
    · simp
    · simpa using h.read_iff (hvals v List.mem_cons_self) x
    · simp
  self {x} hx := by simpa using h.self (by simpa using hx)

theorem cons (h : Codec n s write read) (rest : RowCodec n fs members values) :
    RowCodec n ((k, s) :: fs) (fun p => (k.name, write p.1) :: members p.2)
      (pair? read values) where
  read_iff {vals} hvals p := by
    cases vals with
    | nil => simp
    | cons v vals =>
      obtain ⟨hv, hvals⟩ := List.forall_mem_cons.1 hvals
      obtain ⟨a, b⟩ := p
      simp [Option.bind_eq_some_iff, h.read_iff hv, rest.read_iff hvals]
  self {p} hp := by
    obtain ⟨first, others⟩ := List.forall_mem_cons.1 hp
    obtain ⟨unique, spelled⟩ := h.self first
    obtain ⟨uniques, row⟩ := rest.self others
    exact ⟨List.forall_mem_cons.2 ⟨unique, uniques⟩, .cons spelled row⟩

end RowCodec

namespace Codec

theorem of_le {m : Nat} (h : Codec n s write read) (le : m ≤ n) : Codec m s write read :=
  ⟨fun hv => h.read_iff (hv.mono le), fun hx => h.self (Nat.le_trans hx le)⟩

theorem string : Codec n .string Json.string string? where
  read_iff {v} _ x := by cases v <;> simp [string?]
  self _ := ⟨.string _, .string _⟩

theorem bool : Codec n .bool Json.bool bool? where
  read_iff {v} _ x := by cases v <;> simp [bool?]
  self _ := ⟨.bool _, .bool _⟩

theorem list (h : Codec n s write read) : Codec n (.list s) (ofList write) (list? read) where
  read_iff {v} hv xs := by
    cases v with
    | array items =>
      have inner : ∀ w ∈ items, Within n w := fun w hw => (hv.item hw).mono (Nat.sub_le n 1)
      rw [ofList, respells_list, list?, mapM_eq_some_iff, List.forall₂_map_left_iff]
      constructor
      · intro read
        exact .flip <| ((List.forall₂_and_left _ _).2 ⟨inner, read⟩).imp fun w x hx =>
          (h.read_iff hx.1 x).1 hx.2
      · intro spelled
        exact ((List.forall₂_and_left _ _).2 ⟨inner, spelled.flip⟩).imp fun w x hx =>
          (h.read_iff hx.1 x).2 hx.2
    | _ =>
      constructor
      · simp [list?]
      · rintro ⟨⟩
  self {xs} hxs := by
    have items : ∀ x ∈ xs, (write x).UniqueKeys ∧ Respells s (write x) (write x) := fun x hx =>
      h.self (Nat.le_of_lt (Nat.lt_of_lt_of_le (depth_lt_of_mem (List.mem_map_of_mem hx)) hxs))
    constructor
    · exact .array (List.forall_mem_map.2 fun x hx => (items x hx).1)
    · rw [ofList, respells_list]
      exact List.forall₂_same.2 (List.forall_mem_map.2 fun x hx => (items x hx).2)

theorem nullable (h : Codec n s write read) (full : ∀ s', s ≠ .nullable s') :
    Codec n (.nullable s) (ofOption write) (nullable? read) := by
  have empty {v : Json} : ¬ Respells s .null v := fun h => by
    obtain ⟨s', rfl⟩ := h.null_written
    exact full s' rfl
  have written {x : α} : write x ≠ .null := fun e =>
    empty (e ▸ (h.self (x := x) (e ▸ Nat.zero_le n)).2)
  constructor
  · intro v hv x
    cases x with
    | none => cases v <;> simp [nullable?, ofOption, empty]
    | some x => cases v <;> simp [nullable?, ofOption, written, h.read_iff hv]
  · intro x hx
    cases x with
    | none => exact ⟨.null, .null s⟩
    | some x => exact (h.self hx).imp_right (.value written)

/-- The codec of a record, made of that of its fields in a row. -/
theorem record {rows : Bool} {record : List Json → Option α}
    (row : RowCodec (n - 1) fs members values) (form : β ≃ α)
    (names : (fs.map (·.1.name)).Nodup) (hw : ∀ b, write (form b) = .object (members b))
    (hr : ∀ v, read v = (v.row rows (fs.map Prod.fst)).bind record)
    (hrow : ∀ vals, record vals = do return form (← values vals)) :
    Codec n (.record rows fs) write read where
  read_iff {v} hv x := by
    obtain ⟨b, rfl⟩ := form.surjective x
    rw [hr, hw, respells_record_iff names hv.unique, Option.bind_eq_some_iff]
    refine exists_congr fun vals => and_congr_right fun found => ?_
    rw [hrow, ← row.read_iff (hv.row found) b]
    simp [Option.bind_eq_some_iff]
  self {x} hx := by
    obtain ⟨b, rfl⟩ := form.surjective x
    rw [hw] at hx ⊢
    obtain ⟨unique, spelled⟩ := row.self fun m (hm : (m.1, m.2) ∈ members b) => by
      have := depth_lt_of_mem_members hm
      omega
    exact ⟨.object (spelled.names ▸ names) unique, spelled.self⟩

/-- The codec of a variant, made of those of its cases. -/
theorem variant {cs : List (String × Shape)} {content : String × Json → Option α}
    (hr : ∀ v, read v = v.variant.bind content)
    (h : ∀ {name w}, Within (n - 1) w → ∀ x, content (name, w) = some x ↔
      ∃ s j, (name, s) ∈ cs ∧ write x = .object [(name, j)] ∧ Respells s j w)
    (self : ∀ x, ∃ name s j, (name, s) ∈ cs ∧ write x = .object [(name, j)] ∧
      (j.depth ≤ n - 1 → j.UniqueKeys ∧ Respells s j j)) :
    Codec n (.variant cs) write read where
  read_iff {v} hv x := by
    rw [hr, Option.bind_eq_some_iff]
    constructor
    · rintro ⟨⟨name, w⟩, one, picked⟩
      obtain rfl := variant_eq_some_iff.1 one
      obtain ⟨s, j, case, hj, spelled⟩ := (h (hv.member List.mem_cons_self) x).1 picked
      exact hj ▸ .variant case spelled
    · intro spelled
      generalize hx : write x = j at spelled
      cases spelled with
      | @variant _ name s j w case spelled =>
        exact ⟨(name, w), rfl, (h (hv.member List.mem_cons_self) x).2 ⟨s, j, case, hx, spelled⟩⟩
  self {x} hx := by
    obtain ⟨name, s, j, case, hj, inner⟩ := self x
    rw [hj] at hx ⊢
    have := depth_lt_of_mem_members (List.mem_singleton_self (name, j))
    obtain ⟨unique, spelled⟩ := inner (by omega)
    exact ⟨by simpa using unique, .variant case spelled⟩

theorem message (h : Codec n .ofMessage write read) : Codec n .message write read where
  read_iff hv x := (h.read_iff hv x).trans respells_message.symm
  self hx := (h.self hx).imp_right respells_message.2

end Codec

end ProtoSchema
