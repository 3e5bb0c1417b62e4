import VueOptions.Layout.HouseStyle
import VueOptions.Options.Classify
import VueOptions.Options.Render

/-!
The output module: imports, carried-over declarations, the type of the data, and the component; then
house style.
-/

set_option autoImplicit false

namespace VueOptions.Options

open Layout Source

/-- The imports: those that the output itself needs, then those of the module that do not only feed
decorators. -/
def renderImports (d : Dialect) (m : Module) (t : Table) : List Action :=
  let kept := m.imports.filter fun i => !d.isDecoratorSource i.1
  Action.line "import \x7b defineComponent \x7d from 'vue'"
    ++ (if t.props.isEmpty then [] else Action.line "import type \x7b PropType \x7d from 'vue'")
    ++ sectionWhen (!kept.isEmpty) (kept.flatMap fun i => Action.line i.2)

/-- The statements that are carried over: type aliases, then interfaces, then all others. -/
def carriedInOrder (m : Module) : List String :=
  [CarriedKind.typeAlias, .interface, .other].flatMap fun kind =>
    (m.carried.filter fun c => c.1 == kind).map fun c => c.2

def renderDataType (t : Table) : List Action :=
  sectionWhen (!t.data.isEmpty)
    [.write "type Data = ", .block (t.data.flatMap DataField.renderType), .newLine]

def renderModule (d : Dialect) (m : Module) (t : Table) : List Action :=
  renderImports d m t
    ++ (carriedInOrder m).flatMap (fun text => .blankLine :: Action.line text)
    ++ renderDataType t
    ++ [.blankLine, .write "export default defineComponent(", .block t.renderOptions, .write ")",
      .newLine]

def generate (d : Dialect) (m : Module) (t : Table) : String :=
  String.ofList (normalize (Writer.print d.indentWidth (renderModule d m t)) d.indentWidth)

def compileScript (d : Dialect) (script : String) : Except Fault String :=
  match Module.parse? script with
  | none => .error .unreadable
  | some m => (Table.ofModule d m).map (generate d m)

end VueOptions.Options
