import VueOptions.Json.Printer
import VueOptions.Options.Table

/-!
Tables as JSON values.
-/

set_option autoImplicit false

namespace VueOptions.Options

open Source (Parameter)

def textsJson (texts : List String) : Json := .array (texts.map Json.string)

def parameterJson (p : Parameter) : Json :=
  .object [("name", .string p.name), ("type", Json.ofText? p.type)]

def parametersJson (ps : List Parameter) : Json := .array (ps.map parameterJson)

def Component.toJson (c : Component) : Json :=
  .object [("name", .string c.name), ("imported_components", textsJson c.imported)]

def Mixin.toJson (m : Mixin) : Json := .object [("name", .string m.name)]

def PropField.toJson (p : PropField) : Json :=
  .object [("name", .string p.name), ("is_readonly", .bool p.isReadonly),
    ("is_required", .bool p.isRequired), ("prop_type", Json.ofText? p.propType),
    ("native_type", .string p.nativeType), ("default_value", Json.ofText? p.default),
    ("validator", Json.ofText? p.validator)]

def DataField.toJson (f : DataField) : Json :=
  .object [("name", .string f.name), ("value", Json.ofText? f.value), ("type", Json.ofText? f.type),
    ("is_readonly", .bool f.isReadonly)]

def RefField.toJson (r : RefField) : Json :=
  .object [("name", .string r.name), ("type", Json.ofText? r.type),
    ("is_readonly", .bool r.isReadonly)]

def Hook.toJson (h : Hook) : Json :=
  .object [("name", .string h.name), ("parameters", parametersJson h.parameters),
    ("return_type", .string h.returnType), ("statements", textsJson h.statements),
    ("is_async", .bool h.isAsync)]

def PlainMethod.toJson (m : PlainMethod) : Json :=
  .object [("name", .string m.name), ("parameters", parametersJson m.parameters),
    ("return_type", Json.ofText? m.returnType),
    ("statements", match m.statements with
      | some statements => textsJson statements
      | none => .null),
    ("is_async", .bool m.isAsync)]

def Getter.toJson (g : Getter) : Json :=
  .object [("name", .string g.name), ("return_type", Json.ofText? g.returnType),
    ("statements", textsJson g.statements)]

def Event.toJson : Event → Json
  | .name value => .object [("kind", .string "name"), ("value", .string value)]
  | .expression text => .object [("kind", .string "expression"), ("value", .string text)]

def Emit.toJson (e : Emit) : Json :=
  .object [("name", .string e.name), ("event", e.event.toJson),
    ("parameters", parametersJson e.parameters), ("return_type", .string e.returnType),
    ("statements", textsJson e.statements), ("is_async", .bool e.isAsync)]

def Watcher.toJson (w : Watcher) : Json :=
  .object [("name", .string w.path), ("handler", w.handler.toJson),
    ("immediate", Json.ofFlag? w.immediate), ("deep", Json.ofFlag? w.deep)]

def Table.toJson (t : Table) : Json :=
  .object [
    ("component", match t.component with
      | some c => c.toJson
      | none => .null),
    ("mixins", .array (t.mixins.map Mixin.toJson)),
    ("props", .array (t.props.map PropField.toJson)),
    ("data", .array (t.data.map DataField.toJson)),
    ("refs", .array (t.refs.map RefField.toJson)),
    ("hooks", .array (t.hooks.map Hook.toJson)),
    ("methods", .array (t.methods.map PlainMethod.toJson)),
    ("getters", .array (t.getters.map Getter.toJson)),
    ("emits", .array (t.emits.map Emit.toJson)),
    ("watch", .array (t.watchers.map Watcher.toJson))]

end VueOptions.Options
