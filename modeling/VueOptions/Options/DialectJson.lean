import VueOptions.Json.Value
import VueOptions.Options.Dialect

/-!
Dialects as JSON objects. A missing entry stands for its default, an entry of the wrong type or one
that is repeated makes the object unusable, and entries with other keys are passed over.
-/

set_option autoImplicit false

namespace VueOptions.Options

/-- A version: its label, or an object with the label as its only key and nothing as its value. -/
def Target.ofJson? : Json → Option Target
  | .string s => ofLabel? s
  | .object [(s, .null)] => ofLabel? s
  | _ => none

def widthOfJson? : Json → Option Nat
  | .natural n => some n
  | _ => none

namespace Dialect

def ofEntries? (entries : List (String × Json)) : Option Dialect := do
  let standard : Dialect := {}
  let text := fun key default => Json.field? entries key default Json.text?
  let texts := fun key default => Json.field? entries key default Json.texts?
  pure {
    componentDecorator := ← text "component_decorator" standard.componentDecorator
    propDecorator := ← text "prop_decorator" standard.propDecorator
    refDecorator := ← text "ref_decorator" standard.refDecorator
    watchDecorator := ← text "watch_decorator" standard.watchDecorator
    emitDecorator := ← text "emit_decorator" standard.emitDecorator
    mixinsHelpers := ← texts "mixins_helpers" standard.mixinsHelpers
    decoratorSources := ← texts "decorator_import_sources" standard.decoratorSources
    target := ← Json.field? entries "target" standard.target Target.ofJson?
    indentWidth := ← Json.field? entries "indent_width" standard.indentWidth widthOfJson? }

def ofJson? : Json → Option Dialect
  | .object entries => ofEntries? entries
  | _ => none

def toJson (d : Dialect) : Json :=
  .object [("component_decorator", .string d.componentDecorator),
    ("prop_decorator", .string d.propDecorator), ("ref_decorator", .string d.refDecorator),
    ("watch_decorator", .string d.watchDecorator), ("emit_decorator", .string d.emitDecorator),
    ("mixins_helpers", .array (d.mixinsHelpers.map Json.string)),
    ("decorator_import_sources", .array (d.decoratorSources.map Json.string)),
    ("target", .string d.target.label), ("indent_width", .natural d.indentWidth)]

end Dialect

end VueOptions.Options
