import VueOptions.Script.Grammar.Binding

/-!
Types: references, literals, operators, function and object types, and the lists of type parameters
and type arguments.
-/

set_option autoImplicit false

namespace VueOptions.Script.Grammar

open Parse

/-- Read a type where conditional types may stand. -/
def fullType (g : Grammar) : Parse Tree :=
  within (fun s => { s with refusesConditional := false }) (g .type)

/-- Read a type before a question mark that belongs to a conditional type. -/
def plainType (g : Grammar) : Parse Tree :=
  within (fun s => { s with refusesConditional := true }) (g .type)

def typeParameterModifiers : Parse (List Keyword) := do
  let found ← repeatFrom [] fun (found : List Keyword) => do
    match ← lexeme with
    | .keyword k =>
      if [Keyword.in_, .out, .const_].contains k then
        if ← afterNext (return !(← afterBreak) && (← mayFollowModifier)) then
          takeWord
          return .again (k :: found)
        else return .stop found
      else return .stop found
    | _ => return .stop found
  return found.reverse

def typeParameter (g : Grammar) : Parse Tree := do
  let start ← here
  let found ← typeParameterModifiers
  let name ← bindingName
  let bound ← if ← eatWord .extends_ then pure [← g .type] else pure []
  let default ← if ← eat .eq then pure [← g .type] else pure []
  node start (.typeParameter found) (name :: bound ++ default)

def typeParameters? (g : Grammar) : Parse (List Tree) := do
  if ← sees .langle then
    let start ← here
    advance
    let found ← commaSeparated .rangle (typeParameter g)
    flawIf found.isEmpty
    expect .rangle
    return [← node start .typeParameters found]
  return []

def typeArguments? (g : Grammar) : Parse (List Tree) := do
  splitAngle
  if ← sees .langle then
    let start ← here
    advance
    let found ← commaSeparated .rangle (fullType g)
    flawIf found.isEmpty
    expect .rangle
    return [← node start .typeArguments found]
  return []

def adjacentTypeArguments? (g : Grammar) : Parse (List Tree) := do
  if ← afterBreak then return []
  typeArguments? g

def entityName : Parse Tree := do
  let start ← here
  let first ← identifierName
  repeatFrom first fun (left : Tree) => do
    if ← eat .dot then
      let right ← identifierName
      return .again (← node start (.typeNode .qualified) [left, right])
    else return .stop left

def typeReference (g : Grammar) : Parse Tree := do
  let start ← here
  let name ← entityName
  node start (.typeNode .reference) (name :: (← adjacentTypeArguments? g))

/-- A type, or the test that a function's answer makes on a parameter. -/
def typeOrPredicate (g : Grammar) : Parse Tree := do
  let start ← here
  let isPredicate ←
    if (← token).namesBinding then
      afterNext (return (← seesWord .is_) && !(← afterBreak))
    else pure false
  if isPredicate then
    let name ← identifierName
    takeWord
    node start (.typeNode (.predicate false)) [name, ← g .type]
  else g .type

/-- The type that a function gives back, after a colon. -/
def returnType? (g : Grammar) : Parse (List Tree) := do
  if ← sees .colon then
    let start ← here
    advance
    return [← node start .returnType [← typeOrPredicate g]]
  return []

def skipParameterStart (g : Grammar) : Parse Bool := do
  let _ ← modifiers false
  if (← token).namesBinding || (← seesWord .this_) then
    advance
    return true
  if ← seesAny [.lbrack, .lbrace] then
    let _ ← g .target
    return !(← isFlawed)
  return false

def opensFunctionType (g : Grammar) : Parse Bool :=
  afterNext do
    if ← seesAny [.rparen, .ellipsis] then return true
    if ← skipParameterStart g then
      if ← seesAny [.colon, .comma, .question, .eq] then return true
      if ← eat .rparen then return ← sees .arrow
    return false

def seesFunctionType (g : Grammar) : Parse Bool := do
  match ← lexeme with
  | .mark .langle => return true
  | .mark .lparen => opensFunctionType g
  | .keyword .new_ => return true
  | .keyword .abstract => afterNext (return (← seesWord .new_) && !(← afterBreak))
  | _ => return false

def functionType (g : Grammar) : Parse Tree := do
  let start ← here
  let isAbstract ← eatWord .abstract
  let isConstructor ← eatWord .new_
  let generic ← typeParameters? g
  let found ← parameters g
  expect .arrow
  let answer ← typeOrPredicate g
  node start (.typeNode (if isConstructor then .constructor isAbstract else .function))
    (generic ++ [found, answer])

def memberEnd : Parse Unit := do
  if ← eat .comma then return
  semicolon

def seesIndexSignature : Parse Bool := do
  if ← sees .lbrack then
    afterNext do
      if (← token).namesBinding then
        advance
        sees .colon
      else return false
  else return false

/-- The parameter and the type of an index signature, both of which say their types. -/
def indexParts (g : Grammar) : Parse (List Tree) := do
  expect .lbrack
  let start ← here
  let name ← identifierName
  let keyType ← typing? g
  let found ← node start (.binding false) (name :: keyType)
  expect .rbrack
  let valueType ← typing? g
  if keyType.isEmpty || valueType.isEmpty then reject
  return found :: valueType

/-- Type parameters, parameters and the type of the answer. -/
def callParts (g : Grammar) : Parse (List Tree) := do
  let generic ← typeParameters? g
  let found ← parameters g
  return generic ++ found :: (← returnType? g)

def signature (g : Grammar) : Parse Tree := do
  let start ← here
  if ← seesAny [.lparen, .langle] then
    let parts ← callParts g
    memberEnd
    return ← node start (.signature .call) parts
  if ← seesWord .new_ then
    if ← afterNext (seesAny [.lparen, .langle]) then
      takeWord
      let parts ← callParts g
      memberEnd
      return ← node start (.signature .construct) parts
  let found ← modifiers false
  allowModifiers found [.readonly]
  let isReadonly := found.contains .readonly
  if ← seesIndexSignature then
    let parts ← indexParts g
    memberEnd
    return ← node start (.signature (.index isReadonly)) parts
  if ← accessorWord .get then
    let name ← key g
    let found ← parameters g
    let answer ← returnType? g
    memberEnd
    return ← node start (.signature .get) (name :: found :: answer)
  if ← accessorWord .set_ then
    let name ← key g
    let found ← parameters g
    let answer ← returnType? g
    flawIf (!answer.isEmpty)
    memberEnd
    return ← node start (.signature .set) (name :: found :: answer)
  let name ← key g
  let isOptional ← eat .question
  if ← seesAny [.lparen, .langle] then
    let parts ← callParts g
    memberEnd
    node start (.signature (.method isOptional)) (name :: parts)
  else
    let parts ← typing? g
    memberEnd
    node start (.signature (.property isReadonly isOptional)) (name :: parts)

def signatures (g : Grammar) : Parse (List Tree) := do
  expect .lbrace
  let found ← within (fun s => { s with refusesConditional := false, inDecorator := false })
    (itemsUntil .rbrace (signature g))
  expect .rbrace
  return found

def opensMappedType : Parse Bool :=
  afterNext do
    if ← seesAny [.plus, .minus] then
      advance
      return ← seesWord .readonly
    let _ ← eatWord .readonly
    if !(← eat .lbrack) then return false
    if !(← token).namesBinding then return false
    advance
    seesWord .in_

def mappedType (g : Grammar) : Parse Tree := do
  let start ← here
  expect .lbrace
  if ← seesAny [.plus, .minus] then
    advance
    expectWord .readonly
  else
    let _ ← eatWord .readonly
  expect .lbrack
  let name ← identifierName
  expectWord .in_
  let keys ← fullType g
  let renamed ← if ← eatWord .as_ then pure [← fullType g] else pure []
  expect .rbrack
  if ← seesAny [.plus, .minus] then
    advance
    expect .question
  else
    let _ ← eat .question
  let found ← if ← eat .colon then pure [← fullType g] else pure []
  let _ ← eat .semicolon
  expect .rbrace
  node start (.typeNode .mapped) (name :: keys :: renamed ++ found)

/-- Whether a name and a colon come next in a tuple. -/
def seesElementName : Parse Bool := do
  if (← token).word?.isSome then
    afterNext do
      if ← sees .colon then return true
      if ← eat .question then return ← sees .colon
      return false
  else return false

def tupleElement (g : Grammar) : Parse Tree := do
  let start ← here
  let isRest ← eat .ellipsis
  let inner ← here
  let element ←
    if ← seesElementName then
      let name ← identifierName
      let isOptional ← eat .question
      expect .colon
      let found ← fullType g
      node inner (.typeNode (.namedElement isOptional)) [name, found]
    else fullType g
  if isRest then node start (.typeNode .restElement) [element] else return element

def templateChunk : Parse (Tree × Bool × Bool) := do
  let t ← token
  match t.lexeme with
  | .template raw isLast isValid =>
    advance
    let close := if isLast then 1 else 2
    return (.node (.chunk raw) ⟨t.span.start + 1, t.span.stop - close⟩ [], isLast, isValid)
  | _ => reject

/-- The chunks of a template and what stands between them; `item` reads a substitution. The answer
says whether all escapes are well formed. -/
def templateParts (item : Parse Tree) : Parse (List Tree × Bool) := do
  let (first, isLast, isValid) ← templateChunk
  if isLast then return ([first], isValid)
  let (found, allValid) ← repeatFrom ([first], isValid) fun (found, allValid) => do
    let inner ← item
    rereadChunk
    let (chunk, isLast, isValid) ← templateChunk
    let found := chunk :: inner :: found
    if isLast then return .stop (found, allValid && isValid)
    return .again (found, allValid && isValid)
  return (found.reverse, allValid)

def importType (g : Grammar) : Parse Tree := do
  let start ← here
  expectWord .import_
  expect .lparen
  let source ← fullType g
  let options ← if ← eat .comma then
      if ← sees .rparen then pure [] else pure [← g (.assignment true)]
    else pure []
  let _ ← eat .comma
  expect .rparen
  let name ← if ← eat .dot then pure [← entityName] else pure []
  let arguments ← adjacentTypeArguments? g
  node start (.typeNode .importType) (source :: options ++ name ++ arguments)

def typeQuery (g : Grammar) : Parse Tree := do
  let start ← here
  takeWord
  if ← seesWord .import_ then
    node start (.typeNode .query) [← importType g]
  else
    let name ← entityName
    node start (.typeNode .query) (name :: (← adjacentTypeArguments? g))

def mayStartType : Parse Bool := do
  match ← lexeme with
  | .name _ | .string _ | .numeral _ | .template _ _ _ => return true
  | .keyword k =>
    return !k.isReserved || [Keyword.null_, .this_, .true_, .false_, .typeof, .new_, .import_, .void,
      .function, .enum].contains k
  | .mark .minus => afterNext (return match ← lexeme with | .numeral _ => true | _ => false)
  | .mark m =>
    return [Mark.lbrace, .lbrack, .langle, .shiftLeft, .pipe, .amp, .star, .question, .bang,
      .ellipsis, .lparen].contains m
  | _ => return false

def typePrimary (g : Grammar) : Parse Tree := do
  let start ← here
  match ← lexeme with
  | .keyword k =>
    match k with
    | .any | .unknown | .string | .number | .bigint | .symbol | .boolean | .undefined | .never
    | .object | .intrinsic =>
      if k == .intrinsic then typeReference g
      else if ← afterNext (sees .dot) then typeReference g
      else leaf (.typeNode (.keyword k))
    | .null_ | .void => leaf (.typeNode (.keyword k))
    | .this_ =>
      let found ← leaf (.typeNode (.keyword k))
      if (← seesWord .is_) && !(← afterBreak) then
        takeWord
        node start (.typeNode (.predicate false)) [found, ← g .type]
      else return found
    | .typeof => typeQuery g
    | .import_ => importType g
    | .asserts =>
      let isAssertion ← afterNext
        (return !(← afterBreak) && ((← token).namesBinding || (← seesWord .this_)))
      if isAssertion then
        takeWord
        let name ← identifierName
        let found ← if ← eatWord .is_ then pure [← g .type] else pure []
        node start (.typeNode (.predicate true)) (name :: found)
      else typeReference g
    | .true_ =>
      let value ← leaf (.boolean true)
      node start (.typeNode .literal) [value]
    | .false_ =>
      let value ← leaf (.boolean false)
      node start (.typeNode .literal) [value]
    | _ => typeReference g
  | .string value =>
    let found ← leaf (.string value)
    node start (.typeNode .literal) [found]
  | .numeral _ =>
    let found ← numeral
    node start (.typeNode .literal) [found]
  | .mark .minus =>
    advance
    match ← lexeme with
    | .numeral _ =>
      let found ← numeral
      node start (.typeNode .literal) [← node start (.unary (.mark .minus)) [found]]
    | _ => reject
  | .template _ _ _ =>
    let (parts, isValid) ← templateParts (fullType g)
    flawIf (!isValid)
    node start (.typeNode .template) parts
  | .mark .lbrace =>
    if ← opensMappedType then mappedType g
    else
      let found ← signatures g
      node start (.typeNode .object) found
  | .mark .lbrack =>
    advance
    let found ← commaSeparated .rbrack (tupleElement g)
    expect .rbrack
    node start (.typeNode .tuple) found
  | .mark .lparen =>
    advance
    let found ← fullType g
    expect .rparen
    node start (.typeNode .parenthesized) [found]
  | .mark .star => leaf (.typeNode .any)
  | .mark .question =>
    advance
    if ← seesAny [.comma, .rbrace, .rparen, .rangle, .eq, .pipe] then
      node start (.typeNode .any) []
    else node start (.typeNode (.nullable true)) [← g .type]
  | .mark .bang =>
    advance
    node start (.typeNode (.nonNullable true)) [← g .type]
  | _ => typeReference g

def typePostfix (g : Grammar) : Parse Tree := do
  let start ← here
  let first ← typePrimary g
  repeatFrom first fun (found : Tree) => do
    if ← afterBreak then return .stop found
    match ← lexeme with
    | .mark .bang =>
      advance
      return .again (← node start (.typeNode (.nonNullable false)) [found])
    | .mark .question =>
      if ← afterNext mayStartType then return .stop found
      advance
      return .again (← node start (.typeNode (.nullable false)) [found])
    | .mark .lbrack =>
      advance
      if ← eat .rbrack then return .again (← node start (.typeNode .array) [found])
      let index ← fullType g
      expect .rbrack
      return .again (← node start (.typeNode .indexed) [found, index])
    | _ => return .stop found

/-- The bound of an inferred type, unless the question mark of a conditional type follows it. -/
def inferBound? (g : Grammar) : Parse (List Tree) := do
  if !(← seesWord .extends_) then return []
  let found ← attempt do
    takeWord
    let bound ← plainType g
    if (← read).refusesConditional || !(← sees .question) then return bound else reject
  return found.toList

def typeOperand (g : Grammar) : Parse Tree := do
  let start ← here
  match ← lexeme with
  | .keyword k =>
    match k with
    | .keyof | .unique | .readonly =>
      takeWord
      node start (.typeNode (.operator k)) [← g .typeOperand]
    | .infer =>
      takeWord
      let name ← bindingName
      let bound ← inferBound? g
      node start (.typeNode .infer) (name :: bound)
    | _ => within (fun s => { s with refusesConditional := false }) (typePostfix g)
  | _ => within (fun s => { s with refusesConditional := false }) (typePostfix g)

/-- Types with a mark between each two; one mark may stand before the first. A function type needs
parentheses there. -/
def typeChain (g : Grammar) (mark : Mark) (form : TypeForm) (item : Parse Tree) : Parse Tree := do
  let start ← here
  let guarded : Parse Tree := do
    if ← seesFunctionType g then
      flaw
      functionType g
    else item
  let isLed ← eat mark
  let first ← if isLed then guarded else item
  if isLed || (← sees mark) then
    let found ← repeatFrom [first] fun (found : List Tree) => do
      if ← eat mark then return .again ((← guarded) :: found) else return .stop found
    node start (.typeNode form) found.reverse
  else return first

def unionType (g : Grammar) : Parse Tree :=
  typeChain g .pipe .union (typeChain g .amp .intersection (g .typeOperand))

def typeRule (g : Grammar) : Parse Tree := do
  if ← seesFunctionType g then return ← functionType g
  let start ← here
  let found ← unionType g
  if !(← read).refusesConditional && !(← afterBreak) && (← seesWord .extends_) then
    takeWord
    let bound ← plainType g
    expect .question
    let yes ← fullType g
    expect .colon
    let no ← fullType g
    node start (.typeNode .conditional) [found, bound, yes, no]
  else return found

end VueOptions.Script.Grammar
