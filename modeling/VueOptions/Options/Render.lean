import VueOptions.Layout.Writer
import VueOptions.Options.Signature
import VueOptions.Options.Table

/-!
Entries as they are written into an options object. Each entry is a list of actions of its own, and a
section is made of the actions of its entries one after another.
-/

set_option autoImplicit false

namespace VueOptions.Options

open Layout

def blockEntry (head : String) (body : List Action) : List Action :=
  [.write head, .block body, .write ",", .newLine]

def functionEntry (head : String) (statements : List String) : List Action :=
  blockEntry head (statements.flatMap Action.line)

def Component.render (c : Component) : List Action :=
  Action.line ("name: " ++ Text.singleQuoted c.name ++ ",")
    ++ if c.imported.isEmpty then []
      else .blankLine :: blockEntry "components: "
        (c.imported.flatMap fun text => Action.line (text ++ ","))

def Mixin.render (m : Mixin) : List Action := [.write m.name]

def PropField.render (p : PropField) : List Action :=
  blockEntry (p.name ++ ": ")
    ((match p.propType with
      | some type => Action.line ("type: " ++ type ++ " as PropType<" ++ p.nativeType ++ ">,")
      | none => [])
    ++ (if p.isRequired then Action.line "required: true," else [])
    ++ (match p.default with
      | some value => Action.line ("default: " ++ value ++ ",")
      | none => [])
    ++ (match p.validator with
      | some value => Action.line ("validator: " ++ value ++ ",")
      | none => []))

def DataField.render (f : DataField) : List Action :=
  Action.line (f.name ++ ": " ++ f.value.getD "undefined" ++ ",")

def DataField.typeEntry (f : DataField) : String :=
  (if f.isReadonly then "readonly " else "") ++ f.name ++ ": " ++ f.type.getD "any"

def DataField.renderType (f : DataField) : List Action := Action.line f.typeEntry

def RefField.render (r : RefField) : List Action :=
  match r.type with
  | some type => functionEntry (r.name ++ " (): " ++ type ++ " ")
      ["return this.$refs." ++ r.name ++ " as " ++ type]
  | none => functionEntry (r.name ++ " () ") ["return this.$refs." ++ r.name]

def Getter.render (g : Getter) : List Action :=
  functionEntry (match g.returnType with
    | some type => g.name ++ "(): " ++ type ++ " "
    | none => g.name ++ "() ") g.statements

def PlainMethod.render (m : PlainMethod) : List Action :=
  functionEntry (signature m.isAsync m.name m.parameters m.returnType) (m.statements.getD [])

def Hook.render (h : Hook) : List Action :=
  functionEntry (signature h.isAsync h.name h.parameters (some h.returnType)) h.statements

def Emit.render (e : Emit) : List Action :=
  functionEntry (signature e.isAsync e.name e.parameters
    (some (if e.isAsync then "Promise<void>" else "void"))) e.statements

def Emit.renderValidator (e : Emit) : List Action :=
  functionEntry (signature false e.event.key e.parameters (some "boolean"))
    ["// TODO add validator", "return true"]

def flagText (b : Bool) : String := if b then "true" else "false"

/-- A watched path; the handler is named here and written among the methods. -/
def Watcher.render (w : Watcher) : List Action :=
  blockEntry (Text.singleQuoted w.path ++ ": ")
    (Action.line ("handler: " ++ Text.singleQuoted w.handler.name ++ ",")
    ++ (match w.immediate with
      | some b => Action.line ("immediate: " ++ flagText b ++ ",")
      | none => [])
    ++ (match w.deep with
      | some b => Action.line ("deep: " ++ flagText b ++ ",")
      | none => []))

def sectionWhen (isPresent : Bool) (actions : List Action) : List Action :=
  if isPresent then .blankLine :: actions else []

def Table.renderOptions (t : Table) : List Action :=
  (match t.component with
    | some c => c.render
    | none => [])
  ++ sectionWhen (!t.mixins.isEmpty)
    (.write "mixins: [" :: [Action.write ", "].intercalate (t.mixins.map Mixin.render)
      ++ [.write "],", .newLine])
  ++ sectionWhen (!t.props.isEmpty) (blockEntry "props: " (t.props.flatMap PropField.render))
  ++ sectionWhen (!t.data.isEmpty) (blockEntry "data (): Data "
    [.write "return ", .block (t.data.flatMap DataField.render), .newLine])
  ++ sectionWhen (!t.hooks.isEmpty) (t.hooks.flatMap Hook.render)
  ++ sectionWhen (!t.watchers.isEmpty) (blockEntry "watch: " (t.watchers.flatMap Watcher.render))
  ++ sectionWhen t.hasComputed (blockEntry "computed: "
    (t.getters.flatMap Getter.render ++ t.refs.flatMap RefField.render))
  ++ sectionWhen t.hasMethods (blockEntry "methods: "
    (t.methods.flatMap PlainMethod.render ++ t.emits.flatMap Emit.render
      ++ t.watchers.flatMap fun w => w.handler.render))
  ++ sectionWhen (!t.emits.isEmpty) (blockEntry "emits: " (t.emits.flatMap Emit.renderValidator))

end VueOptions.Options
