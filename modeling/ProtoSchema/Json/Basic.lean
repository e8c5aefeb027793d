/-! # JSON values

JSON as a tree, and the two shapes in which structured data is read from it. A record is an object
with a member for each of its fields, or the array of their values in their order. A variant is an
object with one member, whose key says which case it is. -/

namespace ProtoSchema

/-- A JSON value. A number is `mantissa` divided by ten to the power of `exponent`; the order of the
members of an object is that of its text. -/
inductive Json where
  | null
  | bool (value : Bool)
  | number (mantissa : Int) (exponent : Nat)
  | string (value : String)
  | array (items : List Json)
  | object (members : List (String × Json))
deriving Inhabited

namespace Json

mutual

/-- How deep arrays and objects are nested in a value. -/
def depth : Json → Nat
  | .array items => depthOfItems items + 1
  | .object members => depthOfMembers members + 1
  | _ => 0

def depthOfItems : List Json → Nat
  | [] => 0
  | j :: rest => max j.depth (depthOfItems rest)

def depthOfMembers : List (String × Json) → Nat
  | [] => 0
  | (_, j) :: rest => max j.depth (depthOfMembers rest)

end

/-- The first member of a given key. -/
def lookup? (key : String) (members : List (String × Json)) : Option Json :=
  (members.find? (·.1 == key)).map Prod.snd

/-- A field of a record. The value of an optional one is `null` where it is left out. -/
inductive Key where
  | required (name : String)
  | optional (name : String)
deriving DecidableEq

/-- The value of a field among the members of an object. -/
def Key.value? (members : List (String × Json)) : Key → Option Json
  | .required name => lookup? name members
  | .optional name => (lookup? name members).or (some .null)

/-- The values of the fields of a record that is written as an object, whatever else is in it. -/
def openRecord (keys : List Key) : Json → Option (List Json)
  | .object members => keys.mapM (Key.value? members)
  | _ => none

/-- The values of the fields of a record, which may also be written as an array. -/
def record (keys : List Key) : Json → Option (List Json)
  | .array items => if items.length = keys.length then some items else none
  | j => openRecord keys j

/-- The case of a variant and what belongs to it. -/
def variant : Json → Option (String × Json)
  | .object [m] => some m
  | _ => none

def bool? : Json → Option Bool
  | .bool b => some b
  | _ => none

def string? : Json → Option String
  | .string s => some s
  | _ => none

/-- A list whose members are read by a reader. -/
def list? (read : Json → Option α) : Json → Option (List α)
  | .array items => items.mapM read
  | _ => none

/-- A value that may be `null`. -/
def nullable? (read : Json → Option α) : Json → Option (Option α)
  | .null => some none
  | j => (read j).map some

def ofList (write : α → Json) (items : List α) : Json := .array (items.map write)

def ofOption (write : α → Json) : Option α → Json
  | none => .null
  | some a => write a

end Json

end ProtoSchema
