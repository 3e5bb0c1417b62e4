import VueOptions.Options.Entry
import VueOptions.Text.Blank

/-!
Parameters as they are declared and passed on, the heads of functions, and the call that triggers an
event.
-/

set_option autoImplicit false

namespace VueOptions.Options

open Source (Parameter Method Decorator)

def declaration (p : Parameter) : String :=
  match p.type with
  | some type => p.name ++ ": " ++ type
  | none => p.name

/-- A parameter as it is passed on: a pattern as it stands, and else the name before a type or a
default, without its question mark. -/
def argument (p : Parameter) : String :=
  match p.name.toList with
  | '\x7b' :: _ => p.name
  | '[' :: _ => p.name
  | cs =>
    String.ofList (Text.dropEndWhile (· == '?')
      (Text.trim (cs.takeWhile fun c => !(c == '=' || c == ':'))))

def signature (isAsync : Bool) (name : String) (parameters : List Parameter)
    (returnType : Option String) : String :=
  (if isAsync then "async " else "") ++ name ++ " (" ++ ", ".intercalate (parameters.map declaration)
    ++ ")" ++ (match returnType with
      | some type => ": " ++ type
      | none => "") ++ " "

def trigger (event : Event) (payload : Option String) (parameters : List Parameter) : String :=
  "this.$emit(" ++ ", ".intercalate
    (event.argument :: payload.toList ++ parameters.map argument) ++ ")"

def mergeTrigger (statements : List String) (trailing : Option (Option String)) (event : Event)
    (parameters : List Parameter) : List String :=
  match trailing, statements with
  | some payload, _ :: _ => statements.dropLast ++ [trigger event payload parameters]
  | _, _ => statements ++ [trigger event none parameters]

def Emit.ofMethod (m : Method) (d : Decorator) : Emit :=
  let p := PlainMethod.ofMethod m
  let event := Event.ofDecorator p.name d
  { name := p.name
    event := event
    parameters := p.parameters
    returnType := p.returnType.getD "void"
    statements := mergeTrigger (p.statements.getD []) (m.body.bind fun b => b.trailing) event
      p.parameters
    isAsync := p.isAsync }

end VueOptions.Options
