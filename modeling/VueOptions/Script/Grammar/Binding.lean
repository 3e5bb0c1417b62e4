import VueOptions.Script.Grammar.Goal

/-!
Bindings and parameters: names, patterns that take a value apart, defaults, and the parameter lists
of functions.
-/

set_option autoImplicit false

namespace VueOptions.Script.Grammar

open Parse

def initialiser (g : Grammar) : Parse Tree := do
  expect .eq
  within (fun s => { s with allowsIn := true }) (g (.assignment true))

def takesApart (t : Tree) : Bool :=
  match t.kind with
  | .objectBinding | .arrayBinding => true
  | _ => false

def covering (target : Tree) (stop : Nat) : Tree :=
  match target with
  | .node k s cs => if takesApart target then .node k ⟨s.start, stop⟩ cs else target

def typedTarget (g : Grammar) (mayBeOptional : Bool) : Parse Tree := do
  let start ← here
  let target ← g .target
  let isOptional ← if mayBeOptional then eat .question else pure false
  let typing ← typing? g
  let stop ← lastStop
  node start (.binding isOptional) (covering target stop :: typing)

def bindingElement (g : Grammar) : Parse Tree := do
  let start ← here
  let target ← typedTarget g true
  if ← sees .eq then
    let value ← initialiser g
    node start .defaulted [target, value]
  else return target

def restTarget (g : Grammar) : Parse Tree := do
  let start ← here
  expect .ellipsis
  let target ← g .target
  let found ← node start .rest [target]
  if ← sees .eq then
    flaw
    let _ ← initialiser g
  return found

def bindingEntry (g : Grammar) : Parse Tree := do
  let start ← here
  if ← sees .ellipsis then
    let found ← restTarget g
    flawIf (!(← sees .rbrace))
    return found
  let t ← token
  let k ← key g
  if t.namesBinding && !(← sees .colon) then
    checkName t
    match k.children with
    | [name] =>
      if ← sees .eq then
        let value ← initialiser g
        node start (.bindingEntry true) [k, ← node start .defaulted [name, value]]
      else node start (.bindingEntry true) [k]
    | _ => reject
  else
    expect .colon
    node start (.bindingEntry false) [k, ← bindingElement g]

def arrayBindingElement (g : Grammar) : Parse Tree := do
  if ← sees .comma then
    let place ← here
    return .node .hole ⟨place, place⟩ []
  if ← sees .ellipsis then
    let found ← restTarget g
    let typing ← typing? g
    flawIf (!(← sees .rbrack))
    return .node .rest found.span (found.children ++ typing)
  bindingElement g

def target (g : Grammar) : Parse Tree := do
  let start ← here
  if ← eat .lbrace then
    let entries ← commaSeparated .rbrace (bindingEntry g)
    expect .rbrace
    node start .objectBinding entries
  else if ← eat .lbrack then
    let elements ← commaSeparated .rbrack (arrayBindingElement g)
    expect .rbrack
    node start .arrayBinding elements
  else bindingName

def parameterModifiers : List Keyword :=
  [.public_, .private_, .protected_, .readonly, .override]

def parameter (g : Grammar) : Parse Tree := do
  let start ← here
  let decorated ← decorators g
  let found ← modifiers false
  allowModifiers found parameterModifiers
  if ← sees .ellipsis then
    let rest ← restTarget g
    flawIf (← eat .question)
    let typing ← typing? g
    if ← sees .eq then
      flaw
      let _ ← initialiser g
    flawIf (!(← sees .rparen))
    node start (.parameter found) (decorated ++ rest :: typing)
  else node start (.parameter found) (decorated ++ [← bindingElement g])

def thisParameter (g : Grammar) : Parse Tree := do
  let start ← here
  takeWord
  node start .thisParameter (← typing? g)

def parameters (g : Grammar) : Parse Tree := do
  let start ← here
  expect .lparen
  let receiver ←
    if ← seesWord .this_ then
      let found ← thisParameter g
      if !(← sees .rparen) then expect .comma
      pure [found]
    else pure []
  let found ← within (fun s => { s with inDecorator := false }) (commaSeparated .rparen (parameter g))
  expect .rparen
  node start .parameters (receiver ++ found)

end VueOptions.Script.Grammar
