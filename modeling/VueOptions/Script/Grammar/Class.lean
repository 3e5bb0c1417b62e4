import VueOptions.Script.Grammar.Function

/-!
Classes: the header with its heritage, and the members.
-/

set_option autoImplicit false

namespace VueOptions.Script.Grammar

open Parse

def superClass (g : Grammar) : Parse Tree := do
  let start ← here
  let found ← g .leftHand
  match found with
  | .node .instantiation _ parts => node start .heritage parts
  | _ =>
    let arguments ← typeArguments? g
    node start .heritage (found :: arguments)

/-- The clauses of a class header after the name. -/
def heritage (g : Grammar) : Parse (List Tree) := do
  let (found, _, _) ← repeatFrom (([] : List Tree), false, false) fun (found, extended, served) => do
    if ← eatWord .extends_ then
      flawIf (extended || served)
      let first ← superClass g
      let more ← repeatFrom ([] : List Tree) fun more => do
        if ← eat .comma then
          flaw
          return .again ((← superClass g) :: more)
        else return .stop more
      return .again (found ++ first :: more.reverse, true, served)
    if ← eatWord .implements then
      flawIf served
      let start ← here
      let first ← typeReference g
      let more ← repeatFrom [first] fun more => do
        if ← eat .comma then return .again ((← typeReference g) :: more) else return .stop more
      return .again (found ++ [← node start .implements more.reverse], extended, true)
    return .stop (found, extended, served)
  return found

def plainKey? (k : Tree) : Option String :=
  match k.kind, k.children with
  | .key false, [.node (.identifier name) _ _] => some name
  | .key false, [.node (.string value) _ _] => some value
  | _, _ => none

/-- Modifiers that say who may use a member. -/
def accessModifiers : List Keyword := [.public_, .private_, .protected_]

def fieldModifiers : List Keyword :=
  accessModifiers ++ [.declare, .abstract, .static_, .readonly, .override, .accessor]

def methodModifiers : List Keyword :=
  accessModifiers ++ [.async, .abstract, .static_, .override]

def accessorModifiers : List Keyword := accessModifiers ++ [.abstract, .static_, .override]

/-- The key of a member after its modifiers: a private name already says who may use it. -/
def memberKey (g : Grammar) (found : List Keyword) : Parse Tree := do
  match ← lexeme with
  | .privateName _ => flawIf (found.any accessModifiers.contains)
  | _ => pure ()
  classKey g

/-- The rest of a member with parameters: a decorator needs a body to follow, and a constructor has no
parameters of its own for types and none for the receiver. -/
def methodRest (g : Grammar) (start : Nat) (decorated : List Tree) (found : List Keyword)
    (role : MemberRole) (name : Tree) (isGenerator isOptional : Bool) : Parse Tree := do
  let isAsync := found.contains .async
  let (parts, hasBody) ← functionParts g isAsync isGenerator
  if !hasBody then
    semicolon
    flawIf (!decorated.isEmpty && role != .constructor)
  match role with
  | .get => checkAccessor false parts
  | .set => checkAccessor true parts
  | .constructor => flawIf (isGeneric parts || hasThisParameter parts)
  | .method => pure ()
  node start (.method role found isGenerator isOptional) (decorated ++ name :: parts)

def fieldRest (g : Grammar) (start : Nat) (decorated : List Tree) (found : List Keyword)
    (name : Tree) (isOptional : Bool) : Parse Tree := do
  let isDefinite ← if !(← afterBreak) then eat .bang else pure false
  flawIf (isOptional && isDefinite)
  allowModifiers found fieldModifiers
  flawIf (plainKey? name == some "constructor")
  flawIf (found.contains .static_ && plainKey? name == some "prototype")
  let typing ← typing? g
  let value ←
    if ← eat .eq then
      pure [← within (fun s => { s with allowsIn := true, inAsync := false, inGenerator := false })
        (g (.assignment true))]
    else pure []
  semicolon
  let parts := decorated ++ name :: typing ++ value
  if found.contains .accessor then node start (.accessorField found) parts
  else node start (.field found isOptional isDefinite) parts

def classMember (g : Grammar) : Parse Tree := do
  let start ← here
  let decorated ← decorators g
  let found ← modifiers true
  if (← seesWord .static_) && (← afterNext (sees .lbrace)) then
    flawIf (!decorated.isEmpty || !found.isEmpty)
    takeWord
    let body ← within (fun s => { s with
      inAsync := true, inGenerator := false, inFunction := false, inDecorator := false })
      (statements g)
    return ← node start .staticBlock body
  if ← seesIndexSignature then
    flawIf (!decorated.isEmpty)
    allowModifiers found [.readonly, .static_]
    let parts ← indexParts g
    memberEnd
    return ← node start (.indexSignature found) parts
  if ← accessorWord .get then
    allowModifiers found accessorModifiers
    let name ← memberKey g found
    flawIf (!found.contains .static_ && plainKey? name == some "constructor")
    return ← methodRest g start decorated found .get name false false
  if ← accessorWord .set_ then
    allowModifiers found accessorModifiers
    let name ← memberKey g found
    flawIf (!found.contains .static_ && plainKey? name == some "constructor")
    return ← methodRest g start decorated found .set name false false
  let isGenerator ← eat .star
  let name ← memberKey g found
  let isOptional ← eat .question
  if isGenerator || (← seesAny [.lparen, .langle]) then
    let isConstructor := !found.contains .static_ && plainKey? name == some "constructor"
    flawIf (isConstructor && (isGenerator || found.contains .async))
    flawIf (found.contains .static_ && plainKey? name == some "prototype")
    allowModifiers found (if isConstructor then accessModifiers ++ [.async] else methodModifiers)
    methodRest g start decorated found (if isConstructor then .constructor else .method) name
      isGenerator isOptional
  else fieldRest g start decorated found name isOptional

/-- The members of a class in braces; semicolons between them mean nothing. -/
def classBody (g : Grammar) : Parse Tree := do
  let start ← here
  expect .lbrace
  let found ← within (fun s => { s with
    allowsIn := true, inDecorator := false, refusesConditional := false }) do
    repeatFrom ([] : List Tree) fun found => do
      if ← eat .semicolon then return .again found
      if ← sees .rbrace then return .stop found
      return .again ((← classMember g) :: found)
  expect .rbrace
  node start .classBody found.reverse

def classRest (g : Grammar) (start : Nat) (found : List Keyword) (decorated : List Tree) :
    Parse Tree := do
  expectWord .class_
  let isNamed ←
    if ← seesWord .implements then
      pure !(← afterNext (return (← token).word?.isSome))
    else pure (← token).namesBinding
  let name ← if isNamed then pure [← bindingName] else pure []
  let generic ← typeParameters? g
  let clauses ← within (fun s => { s with inDecorator := false }) (heritage g)
  let body ← classBody g
  node start (.classNode found) (decorated ++ name ++ generic ++ clauses ++ [body])

def classExpression (g : Grammar) : Parse Tree := do
  let start ← here
  let decorated ← decorators g
  classRest g start [] decorated

end VueOptions.Script.Grammar
