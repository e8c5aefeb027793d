import ProtoSchema.Json.Part
import Mathlib.Data.List.Forall2

/-! # Spellings of a value

The shape of a type says how its values are written as JSON. Wherever a record, an optional field or
a kind stands in a written value, it may be spelled in some other ways as well; nothing else may
change. -/

namespace ProtoSchema

/-- How the values of a type are written. A record whose fields may also stand in a row can be an
array. Messages hold messages, so their shape is named where it is used. -/
inductive Shape where
  | string
  | bool
  | kind
  | list (item : Shape)
  | nullable (value : Shape)
  | record (rows : Bool) (fields : List (Json.Key × Shape))
  | variant (cases : List (String × Shape))
  | message

namespace Shape

def token : Shape := .record true [(.required "kind", .kind), (.required "text", .string)]

def fullIdent : Shape := .record true [(.required "identifiers", .list token)]

def signedNumber : Shape :=
  .record true [(.optional "sign", .nullable token), (.required "number", token)]

def constant : Shape :=
  .variant [("String", token), ("Identifier", fullIdent), ("Number", signedNumber)]

/-- What belongs to an extended option name. It has no rows. -/
def extension : Shape :=
  .record false [(.required "prefix", fullIdent), (.optional "suffix", .nullable fullIdent)]

def optionName : Shape := .variant [("Name", fullIdent), ("Prefix", extension)]

def optionSetting : Shape :=
  .record true [(.required "name", optionName), (.required "value", constant)]

def fieldType : Shape :=
  .variant [("Scalar", token), ("Named", fullIdent), ("Absolute", fullIdent)]

def field : Shape :=
  .record true [(.required "repeated", .bool), (.required "ty", fieldType),
    (.required "name", token), (.required "number", token),
    (.required "options", .list optionSetting)]

def enumField : Shape :=
  .record true [(.required "name", token), (.required "number", signedNumber),
    (.required "options", .list optionSetting)]

def enumBody : Shape :=
  .record true [(.required "options", .list optionSetting), (.required "fields", .list enumField)]

def enum : Shape := .record true [(.required "name", token), (.required "def", enumBody)]

def oneof : Shape := .record true [(.required "name", token), (.required "fields", .list field)]

def messageBody : Shape :=
  .record true [(.required "fields", .list field), (.required "enums", .list enum),
    (.required "messages", .list message), (.required "one_ofs", .list oneof),
    (.required "options", .list optionSetting)]

/-- The shape that messages have. -/
def ofMessage : Shape := .record true [(.required "name", token), (.required "def", messageBody)]

def syntaxDecl : Shape := .record true [(.required "value", token)]

def imported : Shape :=
  .record true [(.required "path", token), (.optional "modifier", .nullable token)]

def package : Shape := .record true [(.required "name", fullIdent)]

def file : Shape :=
  .record true [(.required "syntax", syntaxDecl), (.optional "package", .nullable package),
    (.required "imports", .list imported), (.required "options", .list optionSetting),
    (.required "messages", .list message), (.required "enums", .list enum)]

end Shape

def Node.shape : Node → Shape
  | .file => .file
  | .syntaxDecl => .syntaxDecl
  | .imported => .imported
  | .package => .package
  | .option => .optionSetting
  | .fullIdent => .fullIdent
  | .constant => .constant
  | .signedNumber => .signedNumber
  | .field => .field
  | .enumField => .enumField
  | .enum => .enum
  | .oneof => .oneof
  | .message => .message

def Part.shape : Part → Shape
  | .node n => n.shape
  | .token => .token
  | .tokenKind => .kind
  | .optionName => .optionName
  | .fieldType => .fieldType
  | .enumBody => .enumBody
  | .messageBody => .messageBody

namespace Json

/-- That no object in a value has a key twice. -/
inductive UniqueKeys : Json → Prop
  | null : UniqueKeys .null
  | bool (b : Bool) : UniqueKeys (.bool b)
  | number (mantissa : Int) (exponent : Nat) : UniqueKeys (.number mantissa exponent)
  | string (s : String) : UniqueKeys (.string s)
  | array {items : List Json} (inner : ∀ j ∈ items, UniqueKeys j) : UniqueKeys (.array items)
  | object {members : List (String × Json)} (unique : (members.map Prod.fst).Nodup)
    (inner : ∀ m ∈ members, UniqueKeys m.2) : UniqueKeys (.object members)

attribute [simp] UniqueKeys.null UniqueKeys.bool UniqueKeys.number UniqueKeys.string

@[simp] theorem uniqueKeys_array {items : List Json} :
    UniqueKeys (.array items) ↔ ∀ j ∈ items, UniqueKeys j :=
  ⟨fun h => by cases h; assumption, .array⟩

@[simp] theorem uniqueKeys_object {members : List (String × Json)} :
    UniqueKeys (.object members) ↔ (members.map Prod.fst).Nodup ∧ ∀ m ∈ members, UniqueKeys m.2 :=
  ⟨fun h => by cases h; exact ⟨‹_›, ‹_›⟩, fun h => .object h.1 h.2⟩

def Key.name : Key → String
  | .required name | .optional name => name

@[simp] theorem Key.name_required (name : String) : (required name).name = name := rfl
@[simp] theorem Key.name_optional (name : String) : (optional name).name = name := rfl

end Json

open Json

mutual

/-- How a written value of some shape may be spelled. -/
inductive Respells : Shape → Json → Json → Prop
  | string (s : String) : Respells .string (.string s) (.string s)
  | bool (b : Bool) : Respells .bool (.bool b) (.bool b)
  | kind (name : String) : Respells .kind (.string name) (.string name)
  /-- The name of a kind may be the key of a `null`. -/
  | kindKey (name : String) : Respells .kind (.string name) (.object [(name, .null)])
  | list {s js vs} (items : RespellsList s js vs) : Respells (.list s) (.array js) (.array vs)
  | null (s : Shape) : Respells (.nullable s) .null .null
  | value {s j v} (full : v ≠ .null) (h : Respells s j v) : Respells (.nullable s) j v
  /-- The members of a record may stand in any order and among unknown ones. -/
  | object {rows fs js ms more vs} (fields : RespellsFields fs js ms)
    (unknown : ∀ m ∈ more, ∀ f ∈ fs, m.1 ≠ f.1.name) (order : (ms ++ more).Perm vs) :
    Respells (.record rows fs) (.object js) (.object vs)
  /-- A record may be the array of its fields' values. -/
  | array {fs js vs} (row : RespellsRow fs js vs) :
      Respells (.record true fs) (.object js) (.array vs)
  | variant {cs name s j v} (case : (name, s) ∈ cs) (h : Respells s j v) :
    Respells (.variant cs) (.object [(name, j)]) (.object [(name, v)])
  | message {j v} (h : Respells .ofMessage j v) : Respells .message j v

inductive RespellsList : Shape → List Json → List Json → Prop
  | nil {s} : RespellsList s [] []
  | cons {s j js v vs} (first : Respells s j v) (rest : RespellsList s js vs) :
    RespellsList s (j :: js) (v :: vs)

/-- How the fields of a record may be spelled, in their order. -/
inductive RespellsRow : List (Key × Shape) → List (String × Json) → List Json → Prop
  | nil : RespellsRow [] [] []
  | cons {k s fs j js v vs} (first : Respells s j v) (rest : RespellsRow fs js vs) :
    RespellsRow ((k, s) :: fs) ((k.name, j) :: js) (v :: vs)

/-- How the fields of a record may be spelled with their names. An optional one that is `null` may
be left out. -/
inductive RespellsFields : List (Key × Shape) → List (String × Json) → List (String × Json) → Prop
  | nil : RespellsFields [] [] []
  | kept {k s fs j js v ms} (first : Respells s j v) (rest : RespellsFields fs js ms) :
    RespellsFields ((k, s) :: fs) ((k.name, j) :: js) ((k.name, v) :: ms)
  | dropped {name s fs js ms} (rest : RespellsFields fs js ms) :
    RespellsFields ((.optional name, .nullable s) :: fs) ((name, .null) :: js) ms

end

variable {s : Shape} {k : Key} {fs : List (Key × Shape)} {j v : Json} {js : List (String × Json)}
  {vs : List Json}

@[simp] theorem respells_string {t : String} : Respells .string (.string t) v ↔ v = .string t :=
  ⟨fun h => by cases h; rfl, fun h => h ▸ .string t⟩

@[simp] theorem respells_bool {b : Bool} : Respells .bool (.bool b) v ↔ v = .bool b :=
  ⟨fun h => by cases h; rfl, fun h => h ▸ .bool b⟩

@[simp] theorem respells_kind {name : String} :
    Respells .kind (.string name) v ↔ v = .string name ∨ v = .object [(name, .null)] := by
  constructor
  · intro h
    cases h with
    | kind => exact .inl rfl
    | kindKey => exact .inr rfl
  · rintro (rfl | rfl)
    exacts [.kind name, .kindKey name]

@[simp] theorem respellsRow_nil : RespellsRow [] js vs ↔ js = [] ∧ vs = [] :=
  ⟨fun h => by cases h; exact ⟨rfl, rfl⟩, fun h => h.1 ▸ h.2 ▸ .nil⟩

@[simp] theorem respellsRow_cons {name : String} :
    RespellsRow ((k, s) :: fs) ((name, j) :: js) (v :: vs) ↔
    name = k.name ∧ Respells s j v ∧ RespellsRow fs js vs := by
  constructor
  · rintro ⟨⟩
    exact ⟨rfl, ‹_›, ‹_›⟩
  · rintro ⟨rfl, first, rest⟩
    exact .cons first rest

@[simp] theorem not_respellsRow_nil {f : Key × Shape} : ¬ RespellsRow (f :: fs) js [] := nofun

theorem respellsList_iff {js vs : List Json} :
    RespellsList s js vs ↔ List.Forall₂ (Respells s) js vs := by
  induction js generalizing vs with
  | nil =>
    constructor
    · rintro ⟨⟩
      exact .nil
    · rintro ⟨⟩
      exact .nil
  | cons j js ih =>
    constructor
    · rintro ⟨⟩
      exact .cons ‹_› (ih.1 ‹_›)
    · rintro ⟨⟩
      exact .cons ‹_› (ih.2 ‹_›)

@[simp] theorem respells_list {items : List Json} :
    Respells (.list s) (.array items) (.array vs) ↔ List.Forall₂ (Respells s) items vs := by
  rw [← respellsList_iff]
  exact ⟨fun h => by cases h; assumption, .list⟩

/-- Only `null` is spelled `null`, and only where it may stand. -/
theorem Respells.of_null (h : Respells s j .null) : j = .null ∧ ∃ s', s = .nullable s' := by
  cases h with
  | null s' => exact ⟨rfl, s', rfl⟩
  | value full => exact absurd rfl full
  | message h => cases h

theorem Respells.null_written (h : Respells s .null v) : ∃ s', s = .nullable s' := by
  cases h with
  | null s' | @value s' => exact ⟨s', rfl⟩
  | message h => cases h

@[simp] theorem respells_nullable :
    Respells (.nullable s) j v ↔ j = .null ∧ v = .null ∨ v ≠ .null ∧ Respells s j v := by
  constructor
  · intro h
    cases h with
    | null => exact .inl ⟨rfl, rfl⟩
    | value full h => exact .inr ⟨full, h⟩
  · rintro (⟨rfl, rfl⟩ | ⟨full, h⟩)
    exacts [.null s, .value full h]

@[simp] theorem respells_message : Respells .message j v ↔ Respells .ofMessage j v :=
  ⟨fun h => by cases h; assumption, .message⟩

theorem Respells.depth_pos {rows : Bool} (h : Respells (.record rows fs) j v) : 0 < v.depth := by
  cases h <;> simp [depth]

end ProtoSchema
