import ProtoSchema.Proofs.Json.Shape
import Mathlib.Data.List.Perm.Basic
import Mathlib.Data.List.Nodup

/-! # Records

The values of a record's fields are found by their names, whatever the order of the members, or they
are the items of an array. Both ways, a value spells a record just where the row of values found in
it does. -/

namespace ProtoSchema
open Json

theorem mapM_eq_some_iff {α β : Type} {f : α → Option β} {as : List α} {bs : List β} :
    as.mapM f = some bs ↔ List.Forall₂ (fun a b => f a = some b) as bs := by
  induction as generalizing bs with
  | nil => simp [eq_comm]
  | cons a as ih =>
    simp only [List.mapM_cons, Option.bind_eq_bind, Option.bind_eq_some_iff, Option.pure_def,
      Option.some.injEq, ih, List.forall₂_cons_left_iff]
    constructor
    · rintro ⟨b, hb, bs, hbs, rfl⟩
      exact ⟨b, bs, hb, hbs, rfl⟩
    · rintro ⟨b, bs, hb, hbs, rfl⟩
      exact ⟨b, hb, bs, hbs, rfl⟩

namespace Json

variable {members : List (String × Json)} {name : String} {key : Key} {v : Json}

theorem lookup?_eq_none_iff : lookup? name members = none ↔ name ∉ members.map Prod.fst := by
  rw [lookup?, Option.map_eq_none_iff, List.find?_eq_none, List.mem_map]
  simp only [beq_iff_eq]
  exact ⟨fun h ⟨m, hm, e⟩ => h m hm e, fun h m hm e => h ⟨m, hm, e⟩⟩

theorem lookup?_eq_some_iff (unique : (members.map Prod.fst).Nodup) :
    lookup? name members = some v ↔ (name, v) ∈ members := by
  constructor
  · intro h
    obtain ⟨⟨key, w⟩, found, rfl⟩ := Option.map_eq_some_iff.1 h
    obtain rfl : key = name := by simpa using List.find?_some found
    exact List.mem_of_find?_eq_some found
  · intro h
    obtain ⟨w, found⟩ : ∃ w, lookup? name members = some w := by
      rw [← Option.ne_none_iff_exists', ne_eq, lookup?_eq_none_iff, not_not]
      exact List.mem_map_of_mem h
    obtain ⟨⟨key, w'⟩, first, rfl⟩ := Option.map_eq_some_iff.1 found
    obtain rfl : key = name := by simpa using List.find?_some first
    have := List.inj_on_of_nodup_map unique (List.mem_of_find?_eq_some first) h rfl
    rw [found, this]

theorem Key.value?_eq_some_iff (unique : (members.map Prod.fst).Nodup) :
    key.value? members = some v ↔ (key.name, v) ∈ members ∨
      key = .optional key.name ∧ v = .null ∧ key.name ∉ members.map Prod.fst := by
  cases key with
  | required name => simp [value?, Key.name, lookup?_eq_some_iff unique]
  | optional name =>
    rw [value?, Option.or_eq_some_iff, lookup?_eq_some_iff unique, lookup?_eq_none_iff]
    simp [Key.name, and_comm, eq_comm]

theorem depth_lt_of_mem {items : List Json} (h : v ∈ items) : v.depth < (array items).depth := by
  suffices v.depth ≤ depthOfItems items by simpa [depth] using Nat.lt_succ_of_le this
  induction items with
  | nil => simp at h
  | cons j rest ih =>
    rcases List.mem_cons.1 h with rfl | h
    · exact Nat.le_max_left ..
    · exact Nat.le_trans (ih h) (Nat.le_max_right ..)

theorem depth_lt_of_mem_members (h : (name, v) ∈ members) : v.depth < (object members).depth := by
  suffices v.depth ≤ depthOfMembers members by simpa [depth] using Nat.lt_succ_of_le this
  induction members with
  | nil => simp at h
  | cons m rest ih =>
    rcases List.mem_cons.1 h with rfl | h
    · exact Nat.le_max_left ..
    · exact Nat.le_trans (ih h) (Nat.le_max_right ..)

/-- The values of the fields of a record, in an array only where they may stand in a row. -/
def row (rows : Bool) (keys : List Key) (v : Json) : Option (List Json) :=
  if rows then v.record keys else v.openRecord keys

variable {rows : Bool} {keys : List Key} {vals : List Json}

theorem row_object_eq_some_iff : (object members).row rows keys = some vals ↔
    List.Forall₂ (fun k w => k.value? members = some w) keys vals := by
  cases rows <;> simp [row, record, openRecord, mapM_eq_some_iff]

theorem row_array_eq_some_iff {items : List Json} : (array items).row rows keys = some vals ↔
    rows = true ∧ items.length = keys.length ∧ items = vals := by
  cases rows <;> simp [row, record, openRecord]

end Json

section

variable {fs : List (Key × Shape)} {js ms vs : List (String × Json)} {vals : List Json}

/-- That of some members just those are picked that have the name of a field. -/
structure Picks (fs : List (Key × Shape)) (vs ms : List (String × Json)) : Prop where
  kept : ∀ m ∈ ms, m ∈ vs
  known : ∀ m ∈ vs, ∀ f ∈ fs, m.1 = f.1.name → m ∈ ms

theorem RespellsFields.names (h : RespellsFields fs js ms) :
    (ms.map Prod.fst).Sublist (fs.map (·.1.name)) := by
  induction fs generalizing js ms with
  | nil =>
    cases h
    exact .slnil
  | cons f fs ih =>
    cases h with
    | kept first rest => exact (ih rest).cons_cons _
    | dropped rest => exact (ih rest).cons _

theorem RespellsRow.names (h : RespellsRow fs js vals) : js.map Prod.fst = fs.map (·.1.name) := by
  induction fs generalizing js vals with
  | nil =>
    cases h
    rfl
  | cons f fs ih =>
    cases h with
    | cons first rest => simp [ih rest]

theorem RespellsRow.fields (h : RespellsRow fs js (js.map Prod.snd)) : RespellsFields fs js js := by
  induction fs generalizing js with
  | nil =>
    cases h
    exact .nil
  | cons f fs ih =>
    generalize hv : js.map Prod.snd = vals at h
    cases h with
    | @cons k s _ j js v vs first rest =>
      obtain ⟨rfl, rfl⟩ := List.cons.inj hv
      exact .kept first (ih rest)

/-- A record whose fields are written as spelled is itself so. -/
theorem RespellsRow.self {rows : Bool} (h : RespellsRow fs js (js.map Prod.snd)) :
    Respells (.record rows fs) (.object js) (.object js) :=
  .object h.fields (fun m (hm : m ∈ []) => absurd hm List.not_mem_nil) (by rw [List.append_nil])

theorem RespellsRow.length_eq (h : RespellsRow fs js vals) : vals.length = fs.length := by
  induction fs generalizing js vals with
  | nil =>
    cases h
    rfl
  | cons f fs ih =>
    cases h with
    | cons first rest => simp [ih rest]

theorem RespellsFields.exists_row (h : RespellsFields fs js ms) (picks : Picks fs vs ms)
    (names : (fs.map (·.1.name)).Nodup) (unique : (vs.map Prod.fst).Nodup) :
    ∃ vals, List.Forall₂ (fun f w => f.1.value? vs = some w) fs vals ∧ RespellsRow fs js vals := by
  induction fs generalizing js ms with
  | nil =>
    cases h
    exact ⟨[], .nil, .nil⟩
  | cons f fs ih =>
    obtain ⟨new, names'⟩ := List.nodup_cons.1 names
    cases h with
    | @kept k s _ j js v ms first rest =>
      have others : Picks fs vs ms :=
        { kept := fun m hm => picks.kept m (List.mem_cons_of_mem _ hm)
          known := fun m hm f hf e => by
            rcases List.mem_cons.1 (picks.known m hm f (List.mem_cons_of_mem _ hf) e) with rfl | h
            · exact absurd (List.mem_map.2 ⟨f, hf, e.symm⟩) new
            · exact h }
      obtain ⟨vals, found, row⟩ := ih rest others names'
      have value : k.value? vs = some v :=
        (Key.value?_eq_some_iff unique).2 (.inl (picks.kept _ List.mem_cons_self))
      exact ⟨v :: vals, .cons value found, .cons first row⟩
    | @dropped name s _ js ms rest =>
      have others : Picks fs vs ms :=
        ⟨picks.kept, fun m hm f hf => picks.known m hm f (List.mem_cons_of_mem _ hf)⟩
      obtain ⟨vals, found, row⟩ := ih rest others names'
      have absent : name ∉ vs.map Prod.fst := fun h => by
        obtain ⟨m, hm, rfl⟩ := List.mem_map.1 h
        have known := picks.known m hm _ List.mem_cons_self rfl
        exact new (rest.names.subset (List.mem_map_of_mem known))
      have value : (Key.optional name).value? vs = some .null :=
        (Key.value?_eq_some_iff unique).2 (.inr ⟨rfl, rfl, absent⟩)
      exact ⟨.null :: vals, .cons value found, .cons (.null s) row⟩

theorem RespellsRow.exists_fields (h : RespellsRow fs js vals) (unique : (vs.map Prod.fst).Nodup)
    (found : List.Forall₂ (fun f w => f.1.value? vs = some w) fs vals) :
    ∃ ms, RespellsFields fs js ms ∧ Picks fs vs ms := by
  induction fs generalizing js vals with
  | nil =>
    cases h
    exact ⟨[], .nil, by simp, by simp⟩
  | cons f fs ih =>
    cases h with
    | @cons k s _ j js v vals first rest =>
      obtain ⟨value, found⟩ := List.forall₂_cons.1 found
      obtain ⟨ms, fields, picks⟩ := ih rest found
      rcases (Key.value?_eq_some_iff unique).1 value with present | ⟨optional, rfl, absent⟩
      · refine ⟨(k.name, v) :: ms, .kept first fields,
          List.forall_mem_cons.2 ⟨present, picks.kept⟩, ?_⟩
        intro m hm f hf e
        rcases List.mem_cons.1 hf with rfl | hf
        · exact List.mem_cons.2 (.inl (List.inj_on_of_nodup_map unique hm present e))
        · exact List.mem_cons_of_mem _ (picks.known m hm f hf e)
      · obtain ⟨rfl, s', rfl⟩ := first.of_null
        generalize k.name = name at optional absent
        subst optional
        refine ⟨ms, .dropped fields, picks.kept, ?_⟩
        intro m hm f hf e
        rcases List.mem_cons.1 hf with rfl | hf
        · exact absurd (List.mem_map.2 ⟨m, hm, e⟩) absent
        · exact picks.known m hm f hf e

theorem RespellsFields.picks_iff (h : RespellsFields fs js ms) (names : (fs.map (·.1.name)).Nodup)
    (unique : (vs.map Prod.fst).Nodup) :
    Picks fs vs ms ↔ ∃ more, (∀ m ∈ more, ∀ f ∈ fs, m.1 ≠ f.1.name) ∧ (ms ++ more).Perm vs := by
  constructor
  · intro picks
    obtain ⟨more, mem_more, unique_more⟩ : ∃ more : List (String × Json),
        (∀ m, m ∈ more ↔ m ∈ vs ∧ ∀ f ∈ fs, m.1 ≠ f.1.name) ∧ more.Nodup :=
      ⟨vs.filter fun m => fs.all (m.1 ≠ ·.1.name), by simp, (unique.of_map _).filter _⟩
    have disjoint : ms.Disjoint more := fun m hm hmore => by
      obtain ⟨f, hf, e⟩ := List.mem_map.1 (h.names.subset (List.mem_map_of_mem hm))
      exact ((mem_more m).1 hmore).2 f hf e.symm
    have nodup := List.nodup_append'.2 ⟨(names.sublist h.names).of_map _, unique_more, disjoint⟩
    refine ⟨more, fun m hm => ((mem_more m).1 hm).2, ?_⟩
    refine (List.perm_ext_iff_of_nodup nodup (unique.of_map _)).2 fun m => ?_
    rw [List.mem_append, mem_more]
    constructor
    · rintro (hm | ⟨hm, -⟩)
      exacts [picks.kept m hm, hm]
    · intro hm
      by_cases field : ∃ f ∈ fs, m.1 = f.1.name
      · obtain ⟨f, hf, e⟩ := field
        exact .inl (picks.known m hm f hf e)
      · exact .inr ⟨hm, fun f hf e => field ⟨f, hf, e⟩⟩
  · rintro ⟨more, unknown, order⟩
    refine ⟨fun m hm => order.mem_iff.1 (List.mem_append_left _ hm), fun m hm f hf e => ?_⟩
    exact (List.mem_append.1 (order.mem_iff.2 hm)).resolve_right fun hm => unknown m hm f hf e

/-- A value spells a record just where the values found for its fields spell theirs. -/
theorem respells_record_iff {rows : Bool} {v : Json} (names : (fs.map (·.1.name)).Nodup)
    (hv : v.UniqueKeys) :
    Respells (.record rows fs) (.object js) v ↔
      ∃ vals, v.row rows (fs.map Prod.fst) = some vals ∧ RespellsRow fs js vals := by
  cases v with
  | object vs =>
    obtain ⟨unique, -⟩ := uniqueKeys_object.1 hv
    simp only [row_object_eq_some_iff, List.forall₂_map_left_iff]
    constructor
    · intro h
      cases h with
      | object fields unknown order =>
        exact fields.exists_row ((fields.picks_iff names unique).2 ⟨_, unknown, order⟩) names unique
    · rintro ⟨vals, values, row⟩
      obtain ⟨ms, fields, picks⟩ := row.exists_fields unique values
      obtain ⟨more, unknown, order⟩ := (fields.picks_iff names unique).1 picks
      exact .object fields unknown order
  | array items =>
    simp only [row_array_eq_some_iff, List.length_map]
    constructor
    · intro h
      cases h with
      | array row => exact ⟨items, ⟨rfl, row.length_eq, rfl⟩, row⟩
    · rintro ⟨_, ⟨rfl, -, rfl⟩, row⟩
      exact .array row
  | _ =>
    constructor
    · intro h
      cases h
    · rintro ⟨vals, values, -⟩
      cases rows <;> simp [Json.row, record, openRecord] at values

end

end ProtoSchema
