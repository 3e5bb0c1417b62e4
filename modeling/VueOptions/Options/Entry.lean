import VueOptions.Source.Member
import VueOptions.Options.Error
import VueOptions.Text.Quoted
import VueOptions.Text.Kebab

/-!
The entries of an options object, and how each is read from a class, a field or a method.
-/

set_option autoImplicit false

namespace VueOptions.Options

open Source (Parameter Expression Entry Field Method ClassHeader Decorator)

structure Component where
  name : String
  imported : List String
  deriving DecidableEq, Repr

structure Mixin where
  name : String
  deriving DecidableEq, Repr

structure PropField where
  name : String
  isReadonly : Bool
  isRequired : Bool
  propType : Option String
  nativeType : String
  default : Option String
  validator : Option String
  deriving DecidableEq, Repr

structure DataField where
  name : String
  value : Option String
  type : Option String
  isReadonly : Bool
  deriving DecidableEq, Repr

structure RefField where
  name : String
  type : Option String
  isReadonly : Bool
  deriving DecidableEq, Repr

structure Hook where
  name : String
  parameters : List Parameter
  returnType : String
  statements : List String
  isAsync : Bool
  deriving DecidableEq, Repr

structure PlainMethod where
  name : String
  parameters : List Parameter
  returnType : Option String
  statements : Option (List String)
  isAsync : Bool
  deriving DecidableEq, Repr

structure Getter where
  name : String
  returnType : Option String
  statements : List String
  deriving DecidableEq, Repr

/-- The event that a method triggers: a name, or an expression that gives one. -/
inductive Event
  | name (value : String)
  | expression (text : String)
  deriving DecidableEq, Repr

/-- A method that triggers an event; the trigger is part of its statements. -/
structure Emit where
  name : String
  event : Event
  parameters : List Parameter
  returnType : String
  statements : List String
  isAsync : Bool
  deriving DecidableEq, Repr

structure Watcher where
  path : String
  handler : PlainMethod
  immediate : Option Bool
  deep : Option Bool
  deriving DecidableEq, Repr

namespace Component

def importedBy (d : Decorator) : List String :=
  match d.values.head? with
  | some (.object _ entries) =>
    match (Entry.pairs entries).find? fun p => p.1 == "components" with
    | some (_, .object _ components) => components.map Entry.text
    | _ => []
  | _ => []

def ofClass (h : ClassHeader) (d : Decorator) : Component := ⟨h.label, importedBy d⟩

end Component

namespace PropField

/-- What the first argument of a decorator says: an object gives options, of which the last one with
a name counts, and anything else is the type. -/
def withOption (p : PropField) : String × Expression → PropField
  | (key, value) =>
    if key == "type" then { p with propType := some value.text }
    else if key == "default" then { p with default := some value.text }
    else if key == "validator" then { p with validator := some value.text }
    else if key == "required" then
      { p with isRequired := match value with
          | .boolean _ b => b
          | _ => false }
    else p

def ofField (f : Field) (d : Decorator) : PropField :=
  let bare : PropField :=
    { name := f.key.label
      isReadonly := f.isReadonly
      isRequired := false
      propType := none
      nativeType := f.type.getD "any"
      default := none
      validator := none }
  match d.values.head? with
  | some (.object _ entries) => (Entry.pairs entries).foldl withOption bare
  | some e => { bare with propType := some e.text }
  | none => bare

end PropField

def DataField.ofField (f : Field) : DataField := ⟨f.key.label, f.value, f.type, f.isReadonly⟩

def RefField.ofField (f : Field) : RefField := ⟨f.key.label, f.type, f.isReadonly⟩

def PlainMethod.ofMethod (m : Method) : PlainMethod :=
  { name := m.key.label
    parameters := m.parameters
    returnType := m.returnType
    statements := m.body.map fun b => b.statements
    isAsync := m.isAsync }

def Hook.ofMethod (m : Method) : Hook :=
  let p := PlainMethod.ofMethod m
  { name := p.name
    parameters := p.parameters
    returnType := p.returnType.getD "void"
    statements := p.statements.getD []
    isAsync := p.isAsync }

def Getter.ofMethod (m : Method) : Getter :=
  let p := PlainMethod.ofMethod m
  ⟨p.name, p.returnType, p.statements.getD []⟩

namespace Event

def argument : Event → String
  | .name value => Text.singleQuoted value
  | .expression text => text

def key : Event → String
  | .name value => Text.singleQuoted value
  | .expression text => "[" ++ text ++ "]"

/-- The event of a method: what its decorator says, or else its name in lower case. -/
def ofDecorator (name : String) (d : Decorator) : Event :=
  match d.values.head? with
  | some (.string _ value) => .name value
  | some e => .expression e.text
  | none => .name (Text.hyphenate name)

end Event

end VueOptions.Options
