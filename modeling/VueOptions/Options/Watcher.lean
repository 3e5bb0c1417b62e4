import VueOptions.Options.Entry

/-!
Reading a watcher off a method and its decorator: the first argument is the watched path, the second
one may hold flags.
-/

set_option autoImplicit false

namespace VueOptions.Options

open Source (Expression Entry Method Decorator)

structure WatchFlags where
  immediate : Option Bool := none
  deep : Option Bool := none
  deriving DecidableEq, Repr

namespace WatchFlags

def set (flags : WatchFlags) : String × Expression → Except WatchFault WatchFlags
  | (key, .boolean _ value) =>
    if key == "immediate" then .ok { flags with immediate := some value }
    else if key == "deep" then .ok { flags with deep := some value }
    else .error (.unknownOption key)
  | (key, value) => .error (.flagNotLiteral key value.text)

def ofArgument : Option Expression → Except WatchFault WatchFlags
  | none => .ok {}
  | some (.object _ entries) => (Entry.pairs entries).foldlM set {}
  | some e => .error (.optionsNotObject e.text)

end WatchFlags

namespace Watcher

def pathOf : Option Expression → Except WatchFault String
  | none => .error .missingPath
  | some (.string _ value) => .ok value
  | some e => .error (.pathNotLiteral e.text)

def ofDecorator (d : Decorator) : Except WatchFault (String × WatchFlags) := do
  let path ← pathOf d.values[0]?
  let flags ← WatchFlags.ofArgument d.values[1]?
  return (path, flags)

def ofMethod (m : Method) (d : Decorator) : Except Fault Watcher :=
  let handler := PlainMethod.ofMethod m
  match ofDecorator d with
  | .ok (path, flags) => .ok ⟨path, handler, flags.immediate, flags.deep⟩
  | .error fault => .error (.watchOptions handler.name fault)

end Watcher

end VueOptions.Options
