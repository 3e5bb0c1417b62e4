/-!
The dialect of the class components that are read: the names of the decorators and helpers, the
modules that only feed them, and the framework version whose lifecycle hooks are meant.
-/

set_option autoImplicit false

namespace VueOptions.Options

inductive Target
  | vue2
  | vue3
  deriving DecidableEq, Repr

namespace Target

def hooks : Target → List String
  | .vue2 => ["beforeCreate", "created", "beforeMount", "mounted", "beforeUpdate", "updated",
      "activated", "deactivated", "beforeDestroy", "destroyed", "errorCaptured", "serverPrefetch"]
  | .vue3 => ["beforeCreate", "created", "beforeMount", "mounted", "beforeUpdate", "updated",
      "activated", "deactivated", "beforeUnmount", "unmounted", "errorCaptured", "renderTracked",
      "renderTriggered", "serverPrefetch"]

def isHook (t : Target) (name : String) : Bool := t.hooks.contains name

def label : Target → String
  | .vue2 => "vue2"
  | .vue3 => "vue3"

def ofLabel? (s : String) : Option Target :=
  if s == "vue2" then some .vue2 else if s == "vue3" then some .vue3 else none

/-- What is said about a label that names no version. -/
def unknownMessage (s : String) : String :=
  "unknown target `" ++ s ++ "` (expected vue2 or vue3)"

end Target

/-- Names that mark components and their members, and how the output is laid out. -/
structure Dialect where
  componentDecorator : String := "Component"
  propDecorator : String := "Prop"
  refDecorator : String := "Ref"
  watchDecorator : String := "Watch"
  emitDecorator : String := "Emit"
  /-- Functions whose call in a heritage clause lists mixins. -/
  mixinsHelpers : List String := ["Mixins", "mixins"]
  /-- Modules whose imports are dropped. -/
  decoratorSources : List String :=
    ["vue-property-decorator", "vue-class-component", "vue-facing-decorator"]
  target : Target := .vue3
  /-- Spaces for each level of indentation. -/
  indentWidth : Nat := 4
  deriving DecidableEq, Repr

namespace Dialect

def isMixinsHelper (d : Dialect) (name : String) : Bool := d.mixinsHelpers.contains name

def isDecoratorSource (d : Dialect) (source : String) : Bool := d.decoratorSources.contains source

end Dialect

end VueOptions.Options
