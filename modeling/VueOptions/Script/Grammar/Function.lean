import VueOptions.Script.Grammar.Type

/-!
Functions: bodies, whose leading strings are directives and not statements, and what a declaration,
an expression and a method have in common.
-/

set_option autoImplicit false

namespace VueOptions.Script.Grammar

open Parse

/-- Read statements that are strings at the front of a body as directives. -/
def markDirectives : List Tree → List Tree
  | .node .expressionStatement s [.node (.string v) s' cs] :: ts =>
    .node .directive s [.node (.string v) s' cs] :: markDirectives ts
  | ts => ts

def statements (g : Grammar) : Parse (List Tree) := do
  expect .lbrace
  let found ← itemsUntil .rbrace (g (.statement false))
  expect .rbrace
  return found

def functionBody (g : Grammar) : Parse Tree := do
  let start ← here
  let found ← within (fun s => { s with
    inFunction := true, allowsIn := true, inDecorator := false, refusesConditional := false })
    (statements g)
  node start .body (markDirectives found)

def Setting.inside (isAsync isGenerator : Bool) (s : Setting) : Setting :=
  { s with allowsIn := true, inAsync := isAsync, inGenerator := isGenerator, inDecorator := false }

/-- Type parameters, parameters, the type of the answer and the body, if there is one. -/
def functionParts (g : Grammar) (isAsync isGenerator : Bool) : Parse (List Tree × Bool) :=
  within (Setting.inside isAsync isGenerator) do
    let parts ← callParts g
    if ← sees .lbrace then
      let body ← functionBody g
      return (parts ++ [body], true)
    return (parts, false)

/-- A function that stands as a value after its name, such as a method of an object. Without a body it
ends like a statement. -/
def methodFunction (g : Grammar) (isAsync isGenerator : Bool) : Parse Tree := do
  let start ← here
  let (parts, hasBody) ← functionParts g isAsync isGenerator
  if !hasBody then semicolon
  node start (.functionNode isAsync isGenerator) parts

/-- A function expression. Without a body it ends like a statement. -/
def functionExpression (g : Grammar) : Parse Tree := do
  let start ← here
  let isAsync ← eatWord .async
  expectWord .function
  let isGenerator ← eat .star
  let name ← within (Setting.inside isAsync isGenerator) do
    if (← token).namesBinding then pure [← bindingName] else pure []
  let (parts, hasBody) ← functionParts g isAsync isGenerator
  if !hasBody then semicolon
  node start (.functionNode isAsync isGenerator) (name ++ parts)

/-- A function declaration, which may leave out its body. The default export of a module may also
leave out the name. -/
def functionDeclaration (g : Grammar) (start : Nat) (needsName : Bool) : Parse Tree := do
  let isAsync ← eatWord .async
  expectWord .function
  let isGenerator ← eat .star
  let name ← if (← token).namesBinding then pure [← bindingName] else pure []
  flawIf (needsName && name.isEmpty)
  let (parts, hasBody) ← functionParts g isAsync isGenerator
  if !hasBody then semicolon
  node start (.functionNode isAsync isGenerator) (name ++ parts)

def parameterCount (parts : List Tree) : Nat :=
  match parts.find? fun t => t.kind == .parameters with
  | some t => (t.children.filter fun p => p.kind != .thisParameter).length
  | none => 0

def hasRestParameter (parts : List Tree) : Bool :=
  match parts.find? fun t => t.kind == .parameters with
  | some t => t.children.any fun p => p.children.any fun c => c.kind == .rest
  | none => false

def hasThisParameter (parts : List Tree) : Bool :=
  match parts.find? fun t => t.kind == .parameters with
  | some t => t.children.any fun p => p.kind == .thisParameter
  | none => false

def isGeneric (parts : List Tree) : Bool :=
  parts.any fun t => t.kind == .typeParameters

def checkAccessor (isSetter : Bool) (parts : List Tree) : Parse Unit :=
  if isSetter then flawIf (parameterCount parts != 1 || hasRestParameter parts)
  else flawIf (parameterCount parts != 0)

end VueOptions.Script.Grammar
