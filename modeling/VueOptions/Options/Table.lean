import VueOptions.Options.Entry

/-!
The table of a component: its entries by kind, in source order within each kind.
-/

set_option autoImplicit false

namespace VueOptions.Options

structure Table where
  component : Option Component := none
  mixins : List Mixin := []
  props : List PropField := []
  data : List DataField := []
  refs : List RefField := []
  hooks : List Hook := []
  methods : List PlainMethod := []
  getters : List Getter := []
  emits : List Emit := []
  watchers : List Watcher := []
  deriving DecidableEq, Repr

namespace Table

def empty : Table := {}

/-- Whether no component has been found, whatever else is known. -/
def isEmpty (t : Table) : Bool := t.component.isNone

def withComponent (t : Table) (c : Component) : Table := { t with component := some c }

def withMixins (t : Table) (ms : List Mixin) : Table := { t with mixins := t.mixins ++ ms }

def withProp (t : Table) (p : PropField) : Table := { t with props := t.props ++ [p] }

def withData (t : Table) (d : DataField) : Table := { t with data := t.data ++ [d] }

def withRef (t : Table) (r : RefField) : Table := { t with refs := t.refs ++ [r] }

def withHook (t : Table) (h : Hook) : Table := { t with hooks := t.hooks ++ [h] }

def withMethod (t : Table) (m : PlainMethod) : Table := { t with methods := t.methods ++ [m] }

def withGetter (t : Table) (g : Getter) : Table := { t with getters := t.getters ++ [g] }

def withEmit (t : Table) (e : Emit) : Table := { t with emits := t.emits ++ [e] }

def withWatcher (t : Table) (w : Watcher) : Table := { t with watchers := t.watchers ++ [w] }

/-- Whether there are computed values; references are written as such. -/
def hasComputed (t : Table) : Bool := !t.getters.isEmpty || !t.refs.isEmpty

/-- Whether there are methods; emits and the handlers of watchers are written as such. -/
def hasMethods (t : Table) : Bool := !t.methods.isEmpty || !t.emits.isEmpty || !t.watchers.isEmpty

end Table

end VueOptions.Options
