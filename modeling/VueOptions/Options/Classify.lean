import VueOptions.Options.Dialect
import VueOptions.Options.Signature
import VueOptions.Options.Table
import VueOptions.Options.Watcher
import VueOptions.Source.Module

/-!
Classification: passes over the nodes of a module fill the table. Each pass looks at one shape of
node; it leaves the table alone, gives a new one, or refuses the node. All nodes are offered to one
pass before the next pass begins.
-/

set_option autoImplicit false

namespace VueOptions.Options

open Source

inductive Pass
  | component
  | mixins
  | data
  | decoratedField
  | decoratedMethod
  | method
  | computed
  deriving DecidableEq, Repr

namespace Pass

def all : List Pass :=
  [.component, .mixins, .data, .decoratedField, .decoratedMethod, .method, .computed]

def label : Pass → String
  | .component => "component"
  | .mixins => "mixins"
  | .data => "data"
  | .decoratedField => "decorated field"
  | .decoratedMethod => "decorated method"
  | .method => "method"
  | .computed => "computed"

def ofLabel? (s : String) : Option Pass := all.find? fun p => p.label == s

/-- What a pass makes of a node: no change, a new table, or a refusal. -/
abbrev Outcome := Except Fault (Option Table)

def same : Outcome := .ok none

def updated (t : Table) : Outcome := .ok (some t)

def classifyComponent (d : Dialect) (t : Table) : Node → Outcome
  | .header h =>
    match h.decorators with
    | [] => same
    | [decorator] =>
      if decorator.name != d.componentDecorator then
        .error (.unknownDecorator .header h.label decorator.name)
      else match t.component with
        | some first => .error (.severalComponents first.name h.label)
        | none => updated (t.withComponent (Component.ofClass h decorator))
    | decorators => .error (.severalDecorators .header h.label (decorators.map Decorator.name))
  | _ => same

def classifyMixins (d : Dialect) (t : Table) : Node → Outcome
  | .header h =>
    match h.superClass with
    | some (.call _ callee arguments) =>
      if d.isMixinsHelper callee then
        updated (t.withMixins ((arguments.filterMap Argument.value?).map fun e => ⟨e.text⟩))
      else .error (.unknownHeritage h.label callee)
    | _ => same
  | _ => same

def classifyData (t : Table) : Node → Outcome
  | .field f =>
    if f.decorators.isEmpty && !f.isStatic then updated (t.withData (DataField.ofField f)) else same
  | _ => same

def classifyDecoratedField (d : Dialect) (t : Table) : Node → Outcome
  | .field f =>
    match f.decorators with
    | [] => same
    | [decorator] =>
      if decorator.name == d.refDecorator then updated (t.withRef (RefField.ofField f))
      else if decorator.name == d.propDecorator then
        updated (t.withProp (PropField.ofField f decorator))
      else .error (.unsupportedDecorator .field f.key.label decorator.name)
    | decorators => .error (.severalDecorators .field f.key.label (decorators.map Decorator.name))
  | _ => same

/-- A method with one decorator, which has to mark a watcher or an emit. Accessors and constructors
may have none. -/
def classifyDecoratedMethod (d : Dialect) (t : Table) : Node → Outcome
  | .method m =>
    match m.decorators with
    | [] => same
    | [decorator] =>
      if m.role == .method && decorator.name == d.watchDecorator then
        match Watcher.ofMethod m decorator with
        | .ok w => updated (t.withWatcher w)
        | .error fault => .error fault
      else if m.role == .method && decorator.name == d.emitDecorator then
        updated (t.withEmit (Emit.ofMethod m decorator))
      else .error (.unsupportedDecorator .method m.key.label decorator.name)
    | decorators => .error (.severalDecorators .method m.key.label (decorators.map Decorator.name))
  | _ => same

def isInstance (m : Method) : Bool := !m.isStatic && m.body.isSome

/-- A method without a decorator: a hook if it is called like one. -/
def classifyMethod (d : Dialect) (t : Table) : Node → Outcome
  | .method m =>
    if m.decorators.isEmpty && m.role == .method && isInstance m then
      if d.target.isHook m.key.label then updated (t.withHook (Hook.ofMethod m))
      else updated (t.withMethod (PlainMethod.ofMethod m))
    else same
  | _ => same

def classifyComputed (t : Table) : Node → Outcome
  | .method m =>
    if m.decorators.isEmpty && m.role == .get && isInstance m then
      updated (t.withGetter (Getter.ofMethod m))
    else same
  | _ => same

def apply (d : Dialect) (p : Pass) (t : Table) (n : Node) : Outcome :=
  match p with
  | .component => classifyComponent d t n
  | .mixins => classifyMixins d t n
  | .data => classifyData t n
  | .decoratedField => classifyDecoratedField d t n
  | .decoratedMethod => classifyDecoratedMethod d t n
  | .method => classifyMethod d t n
  | .computed => classifyComputed t n

def step (d : Dialect) (p : Pass) (t : Table) (n : Node) : Except Fault Table :=
  (apply d p t n).map fun t' => t'.getD t

def sweep (d : Dialect) (nodes : List Node) (t : Table) (p : Pass) : Except Fault Table :=
  nodes.foldlM (step d p) t

end Pass

namespace Table

def ofNodes (d : Dialect) (passes : List Pass) (nodes : List Node) : Except Fault Table :=
  passes.foldlM (Pass.sweep d nodes) empty

def ofModule (d : Dialect) (m : Module) : Except Fault Table := do
  let t ← ofNodes d Pass.all m.nodes
  if t.isEmpty then .error .noComponent else .ok t

def ofScript (d : Dialect) (script : String) : Except Fault Table :=
  match Module.parse? script with
  | none => .error .unreadable
  | some m => ofModule d m

end Table

end VueOptions.Options
