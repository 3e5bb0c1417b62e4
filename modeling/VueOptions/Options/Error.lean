/-!
What can go wrong with a component, and how it is said.
-/

set_option autoImplicit false

namespace VueOptions.Options

inductive Bearer
  | header
  | field
  | method
  deriving DecidableEq, Repr

def Bearer.label : Bearer → String
  | .header => "class"
  | .field => "field"
  | .method => "method"

inductive WatchFault
  /-- No path is given. -/
  | missingPath
  /-- The path is an expression and no string literal. -/
  | pathNotLiteral (found : String)
  /-- The options are an expression and no object literal. -/
  | optionsNotObject (found : String)
  /-- An option is an expression and no boolean literal. -/
  | flagNotLiteral (key found : String)
  /-- An option has no meaning. -/
  | unknownOption (key : String)
  deriving DecidableEq, Repr

def WatchFault.message : WatchFault → String
  | .missingPath => "missing watched path"
  | .pathNotLiteral found => "watched path must be a string literal, found `" ++ found ++ "`"
  | .optionsNotObject found => "options must be an object literal, found `" ++ found ++ "`"
  | .flagNotLiteral key found =>
    "`" ++ key ++ "` must be a boolean literal, found `" ++ found ++ "`"
  | .unknownOption key => "unknown option `" ++ key ++ "`"

inductive Fault
  | noScript
  | noComponent
  | severalDecorators (bearer : Bearer) (name : String) (decorators : List String)
  | unknownDecorator (bearer : Bearer) (name decorator : String)
  | unknownHeritage (name callee : String)
  | unsupportedDecorator (bearer : Bearer) (name decorator : String)
  | severalComponents (first second : String)
  | watchOptions (handler : String) (fault : WatchFault)
  | unreadable
  deriving DecidableEq, Repr

def Fault.message : Fault → String
  | .noScript => "No script tag found"
  | .noComponent => "No class found"
  | .severalDecorators bearer name decorators =>
    bearer.label ++ " `" ++ name ++ "` with more than 1 decorator: " ++ ", ".intercalate decorators
  | .unknownDecorator bearer name decorator =>
    bearer.label ++ " `" ++ name ++ "` with unknown decorator: " ++ decorator
  | .unknownHeritage name callee =>
    "class `" ++ name ++ "` with unknown heritage clause: " ++ callee
  | .unsupportedDecorator bearer name decorator =>
    bearer.label ++ " `" ++ name ++ "` with unsupported decorator: " ++ decorator
  | .severalComponents first second =>
    "more than one component class in module: `" ++ first ++ "` and `" ++ second ++ "`"
  | .watchOptions handler fault =>
    "invalid options for watcher `" ++ handler ++ "`: " ++ fault.message
  | .unreadable => "failed to parse script"

end VueOptions.Options
