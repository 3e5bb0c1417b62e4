/-!
JSON values. An object keeps its entries as they are written, in order and with repeated keys, so
that a reader of an object can decide what a repetition means.
-/

set_option autoImplicit false

namespace VueOptions

inductive Json
  | null
  | bool (value : Bool)
  /-- A whole number without a sign. -/
  | natural (value : Nat)
  /-- Any other number, as it is written. -/
  | number (text : String)
  | string (value : String)
  | array (items : List Json)
  | object (entries : List (String × Json))
  deriving Inhabited

namespace Json

def ofText? : Option String → Json
  | some s => .string s
  | none => .null

def ofFlag? : Option Bool → Json
  | some b => .bool b
  | none => .null

def text? : Json → Option String
  | .string s => some s
  | _ => none

def texts? : Json → Option (List String)
  | .array items => items.mapM text?
  | _ => none

def valuesOf (key : String) (entries : List (String × Json)) : List Json :=
  (entries.filter fun e => e.1 == key).map fun e => e.2

/-- The value of a key that may stand once in an object, or a default. -/
def field? {α : Type} (entries : List (String × Json)) (key : String) (default : α)
    (read : Json → Option α) : Option α :=
  match valuesOf key entries with
  | [] => some default
  | [v] => read v
  | _ => none

end Json

end VueOptions
