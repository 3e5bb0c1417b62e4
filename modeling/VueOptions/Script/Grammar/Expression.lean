import VueOptions.Script.Grammar.Class

/-!
Expressions, from the primary ones through accesses, calls, operators and assignments to arrow
functions. A parenthesis may open the parameters of an arrow function; a look at the next tokens says
whether it surely does, and if that stays open, the parameters are tried first.
-/

set_option autoImplicit false

namespace VueOptions.Script.Grammar

open Parse

def Setting.bracketed (s : Setting) : Setting := { s with allowsIn := true, inDecorator := false }

/-- The expression under assertions about its type. -/
def unasserted : Tree → Tree
  | .node .asType _ (e :: _) => unasserted e
  | .node .satisfiesType _ (e :: _) => unasserted e
  | .node .nonNull _ (e :: _) => unasserted e
  | .node .typeAssertion _ (_ :: e :: _) => unasserted e
  | .node .parenthesized _ (e :: _) => unasserted e
  | e => e

def isPlace (t : Tree) : Bool :=
  match t.kind with
  | .identifier _ | .member _ | .index _ => true
  | _ => false

def isSimpleTarget : Tree → Bool
  | .node (.identifier _) _ _ => true
  | .node (.member _) _ _ => true
  | .node (.index _) _ _ => true
  | .node .parenthesized _ (e :: _) => isSimpleTarget e
  | .node .asType _ (e :: _) => isPlace (unasserted e)
  | .node .satisfiesType _ (e :: _) => isPlace (unasserted e)
  | .node .nonNull _ (e :: _) => isPlace (unasserted e)
  | .node .typeAssertion _ (_ :: e :: _) => isPlace (unasserted e)
  | _ => false

mutual
/-- An expression that a value may be assigned to, taken apart by literals if need be. -/
def isTarget : Tree → Bool
  | .node .array _ elements => areElementTargets elements
  | .node .object _ entries => areEntryTargets entries
  | t => isSimpleTarget t
/-- The elements of an array literal that takes a value apart. -/
def areElementTargets : List Tree → Bool
  | [] => true
  | .node .hole _ _ :: ts => areElementTargets ts
  | .node .spread _ [e] :: ts => isTarget e && ts.isEmpty
  | .node (.assign (.mark .eq)) _ _ :: ts => areElementTargets ts
  | t :: ts => isTarget t && areElementTargets ts
/-- The entries of an object literal that takes a value apart. -/
def areEntryTargets : List Tree → Bool
  | [] => true
  | .node (.entry .shorthand) _ _ :: ts => areEntryTargets ts
  | .node (.entry .initialised) _ _ :: ts => areEntryTargets ts
  | .node (.entry .plain) _ [_, .node (.assign (.mark .eq)) _ _] :: ts => areEntryTargets ts
  | .node (.entry .plain) _ [_, value] :: ts => isTarget value && areEntryTargets ts
  | .node .spread _ [e] :: ts => isTarget e && ts.isEmpty
  | _ :: _ => false
end

/-- Take the shorthand entries with defaults inside a span as claimed. -/
def claim (s : Span) : Parse Unit :=
  move fun _ c => { c with unclaimed := c.unclaimed.filter fun place => !s.contains place }

def argument (g : Grammar) : Parse Tree := do
  let start ← here
  if ← eat .ellipsis then
    let e ← g (.assignment true)
    node start .spread [e]
  else g (.assignment true)

def arguments (g : Grammar) : Parse (List Tree) := do
  expect .lparen
  let found ← within Setting.bracketed (commaSeparated .rparen (argument g))
  expect .rparen
  return found

def arrayElement (g : Grammar) : Parse Tree := do
  if ← sees .comma then
    let place ← here
    return .node .hole ⟨place, place⟩ []
  argument g

def arrayLiteral (g : Grammar) : Parse Tree := do
  let start ← here
  expect .lbrack
  let found ← within Setting.bracketed (commaSeparated .rbrack (arrayElement g))
  expect .rbrack
  node start .array found

/-- An entry of an object literal after its modifiers, if it is no accessor: a method, a name that is its
own value, or a name with a value. -/
def namedEntry (g : Grammar) (start : Nat) (found : List Keyword) : Parse Tree := do
  let isGenerator ← eat .star
  let t ← token
  let name ← key g
  if isGenerator || (← seesAny [.lparen, .langle]) then
    allowModifiers found [.async]
    let value ← methodFunction g (found.contains .async) isGenerator
    return ← node start (.entry .method) [name, value]
  allowModifiers found []
  if t.namesReference (← read) && !(← sees .colon) then
    if ← eat .eq then
      let value ← g (.assignment true)
      move fun _ c => { c with unclaimed := start :: c.unclaimed }
      node start (.entry .initialised) [name, value]
    else node start (.entry .shorthand) [name]
  else
    expect .colon
    let value ← g (.assignment true)
    node start (.entry .plain) [name, value]

def objectEntry (g : Grammar) : Parse Tree := do
  let start ← here
  if ← sees .ellipsis then return ← argument g
  let found ← modifiers false
  if ← accessorWord .get then
    allowModifiers found []
    let name ← key g
    let value ← methodFunction g false false
    checkAccessor false value.children
    return ← node start (.entry .get) [name, value]
  if ← accessorWord .set_ then
    allowModifiers found []
    let name ← key g
    let value ← methodFunction g false false
    checkAccessor true value.children
    return ← node start (.entry .set) [name, value]
  namedEntry g start found

def objectLiteral (g : Grammar) : Parse Tree := do
  let start ← here
  expect .lbrace
  let found ← within Setting.bracketed (commaSeparated .rbrace (objectEntry g))
  expect .rbrace
  node start .object found

def templateLiteral (g : Grammar) (isTagged : Bool) : Parse Tree := do
  let start ← here
  let (parts, isValid) ← templateParts (within Setting.bracketed (g .expression))
  flawIf (!isValid && !isTagged)
  node start .template parts

def patternLiteral : Parse Tree := do
  rereadPattern
  match ← lexeme with
  | .pattern text => leaf (.pattern text)
  | _ => reject

/-- Whether an access through a question mark and a dot has an access spine. -/
def reachesOptional : Tree → Bool
  | .node (.member isOptional) _ (e :: _) => isOptional || reachesOptional e
  | .node (.index isOptional) _ (e :: _) => isOptional || reachesOptional e
  | .node (.call isOptional) _ (e :: _) => isOptional || reachesOptional e
  | .node .nonNull _ (e :: _) => reachesOptional e
  | .node .instantiation _ (e :: _) => reachesOptional e
  | .node .tagged _ (e :: _) => reachesOptional e
  | _ => false

/-- The creation of an object, or the question how a function was called. -/
def newExpression (g : Grammar) : Parse Tree := do
  let start ← here
  takeWord
  if ← eat .dot then
    expectWord .target
    return ← node start .metaProperty []
  let callee ← g .memberAccess
  flawIf (reachesOptional callee)
  let parts := match callee with
    | .node .instantiation _ parts => parts
    | _ => [callee]
  flawIf (callee.kind == .importCall)
  let found ← if ← sees .lparen then arguments g else pure []
  node start .newExpression (parts ++ found)

/-- A module loaded while running, or what is known about this one. -/
def importExpression (g : Grammar) : Parse Tree := do
  let start ← here
  takeWord
  if ← eat .dot then
    if ← eatWord .meta_ then return ← node start .metaProperty []
    if (← eatWord .source) || (← eatWord .defer) then
      let found ← arguments g
      return ← node start .importCall found
    reject
  let found ← arguments g
  flawIf (found.isEmpty || found.length > 2 || found.any fun a => a.kind == .spread)
  node start .importCall found

def parenthesized (g : Grammar) : Parse Tree := do
  let start ← here
  expect .lparen
  let e ← within Setting.bracketed (g .expression)
  expect .rparen
  node start .parenthesized [e]

def seesAsyncFunction : Parse Bool := do
  if ← seesWord .async then
    afterNext (return (← seesWord .function) && !(← afterBreak))
  else return false

/-- An expression without operators, accesses or calls. -/
def primary (g : Grammar) : Parse Tree := do
  match ← lexeme with
  | .string value => leaf (.string value)
  | .numeral _ => numeral
  | .template _ _ _ => templateLiteral g false
  | .mark .lparen => parenthesized g
  | .mark .lbrack => arrayLiteral g
  | .mark .lbrace => objectLiteral g
  | .mark .slash => patternLiteral
  | .mark .slashEq => patternLiteral
  | .mark .atSign => classExpression g
  | .keyword k =>
    match k with
    | .this_ => takeLeaf .thisWord
    | .null_ => takeLeaf .null
    | .true_ => takeLeaf (.boolean true)
    | .false_ => takeLeaf (.boolean false)
    | .function => functionExpression g
    | .class_ => classExpression g
    | .new_ => newExpression g
    | .import_ => importExpression g
    | .super =>
      let found ← takeLeaf .superWord
      if ← seesAny [.dot, .lbrack, .lparen] then return found else reject
    | .async => if ← seesAsyncFunction then functionExpression g else identifierReference
    | _ => identifierReference
  | _ => identifierReference
where
  /-- A node for a word. -/
  takeLeaf (kind : Kind) : Parse Tree := do
    flawIf (← token).isEscaped
    leaf kind

def mayStartExpression : Parse Bool := do
  match ← lexeme with
  | .name _ | .string _ | .numeral _ | .template _ _ _ | .privateName _ => return true
  | .keyword k =>
    return !k.isReserved || [Keyword.this_, .null_, .true_, .false_, .function, .class_, .new_,
      .super, .import_, .delete, .typeof, .void].contains k
  | .mark m =>
    return [Mark.lparen, .lbrack, .lbrace, .slash, .slashEq, .plus, .minus, .tilde, .bang,
      .plusPlus, .minusMinus, .langle, .atSign].contains m
  | _ => return false

def seesBinaryOperator : Parse Bool := do
  match ← lexeme with
  | .mark m => return m.binding?.isSome
  | .keyword .in_ => return (← read).allowsIn
  | .keyword k => return [Keyword.instanceof, .as_, .satisfies].contains k
  | _ => return false

/-- Type arguments inside an expression; what follows has to show that they are none of the
operators they look like. -/
def expressionTypeArguments? (g : Grammar) : Parse (Option Tree) := do
  if ← seesAny [.langle, .shiftLeft] then
    attempt do
      match ← typeArguments? g with
      | [found] =>
        let follows ←
          match ← lexeme with
          | .mark .lparen => pure true
          | .template _ _ _ => pure true
          | .mark .langle | .mark .rangle | .mark .plus | .mark .minus => pure false
          | _ => pure ((← afterBreak) || (← seesBinaryOperator) || !(← mayStartExpression))
        if follows then return found else reject
      | _ => reject
  else return none

def uninstantiated : Tree → List Tree
  | .node .instantiation _ parts => parts
  | t => [t]

def seesTemplate : Parse Bool :=
  return match ← lexeme with
    | .template _ _ _ => true
    | _ => false

/-- Whether an access, and no call, follows a question mark with a dot. -/
def seesOptionalAccess : Parse Bool := do
  if ← sees .questionDot then
    afterNext do
      let t ← token
      return t.word?.isSome || t.lexeme == .mark .lbrack || (← seesTemplate)
        || (match t.lexeme with | .privateName _ => true | _ => false)
  else return false

def memberName : Parse Tree := do
  match ← lexeme with
  | .privateName _ => privateName
  | _ => identifierName

/-- One more access, template or assertion after an expression. -/
def accessRound (g : Grammar) (start : Nat) (found : Tree) : Parse (Round Tree) := do
  let isOptional ← seesOptionalAccess
  if isOptional then advance
  let isNamed ← if isOptional then
      pure !((← sees .lbrack) || (← seesTemplate))
    else eat .dot
  if isNamed then
    let name ← memberName
    return .again (← node start (.member isOptional) [found, name])
  if (isOptional || !(← read).inDecorator) && (← sees .lbrack) then
    advance
    let index ← within Setting.bracketed (g .expression)
    expect .rbrack
    return .again (← node start (.index isOptional) [found, index])
  if ← seesTemplate then
    flawIf (isOptional || reachesOptional found)
    let text ← templateLiteral g true
    return .again (← node start .tagged (uninstantiated found ++ [text]))
  if isOptional then reject
  if (← sees .bang) && !(← afterBreak) then
    advance
    return .again (← node start .nonNull [found])
  match ← expressionTypeArguments? g with
  | some arguments => return .again (← node start .instantiation [found, arguments])
  | none => return .stop found

def accesses (g : Grammar) (start : Nat) (first : Tree) : Parse Tree :=
  repeatFrom first (accessRound g start)

def memberAccess (g : Grammar) : Parse Tree := do
  let start ← here
  accesses g start (← primary g)

def callRound (g : Grammar) (start : Nat) (found : Tree) : Parse (Round Tree) := do
  let found ← accesses g start found
  let isOptional ← eat .questionDot
  let given ← if isOptional then expressionTypeArguments? g else pure none
  if isOptional && (← seesTemplate) then
    flaw
    let text ← templateLiteral g true
    return .again (← node start .tagged (found :: given.toList ++ [text]))
  if ← sees .lparen then
    let parts := if isOptional then [found] else uninstantiated found
    let values ← arguments g
    return .again (← node start (.call isOptional) (parts ++ given.toList ++ values))
  if isOptional then reject
  return .stop found

def calls (g : Grammar) (start : Nat) (first : Tree) : Parse Tree :=
  repeatFrom first (callRound g start)

/-- A callable expression with its calls and accesses; an optional one is a chain of its own. -/
def leftHand (g : Grammar) : Parse Tree := do
  let start ← here
  let first ← memberAccess g
  let found ← calls g start first
  if reachesOptional found then
    match found with
    | .node .instantiation s (e :: parts) =>
      return .node .instantiation s (.node .chain e.span [e] :: parts)
    | _ => node start .chain [found]
  else return found

def update (g : Grammar) : Parse Tree := do
  let start ← here
  match ← lexeme with
  | .mark .plusPlus | .mark .minusMinus =>
    let operator ← lexeme
    advance
    let e ← g .unary
    if !isSimpleTarget e then reject
    node start (.update operator true) [e]
  | _ =>
    let e ← g .leftHand
    if (← seesAny [.plusPlus, .minusMinus]) && !(← afterBreak) then
      let operator ← lexeme
      if !isSimpleTarget e then reject
      advance
      node start (.update operator false) [e]
    else return e

def seesAwait : Parse Bool := do
  if ← seesWord .await then
    if (← read).inAsync then return true
    afterNext (return (← token).isWordOrLiteral && !(← afterBreak))
  else return false

def unary (g : Grammar) : Parse Tree := do
  let start ← here
  match ← lexeme with
  | .mark .plus | .mark .minus | .mark .tilde | .mark .bang | .keyword .delete | .keyword .typeof
  | .keyword .void =>
    let operator ← lexeme
    takeWord
    node start (.unary operator) [← g .unary]
  | .mark .langle =>
    advance
    let asserted ← fullType g
    expect .rangle
    let e ← g .unary
    node start .typeAssertion [asserted, e]
  | _ =>
    if ← seesAwait then
      flawIf (!(← read).inAsync)
      takeWord
      let e ← within (fun s => { s with inAsync := true }) (g .unary)
      node start .awaitExpression [e]
    else update g

/-- How tightly the operator that comes next binds. -/
def bindingHere? : Parse (Option Nat) := do
  joinAngle
  match ← lexeme with
  | .mark m => return m.binding?
  | .keyword .in_ => return if (← read).allowsIn then some 8 else none
  | .keyword .instanceof => return some 8
  | .keyword .as_ | .keyword .satisfies => return if ← afterBreak then none else some 8
  | _ => return none

/-- Whether the two kinds of choice between operands stand side by side. -/
def mixesChoice (left right : Tree) : Bool :=
  match right.kind, left.kind with
  | .binary (.mark m), .binary (.mark n) =>
    if m == .pipePipe || m == .ampAmp || m == .coalesce then m == .pipePipe || m == .ampAmp
    else n == .pipePipe || n == .ampAmp
  | .binary (.mark m), _ => m == .pipePipe || m == .ampAmp
  | _, .binary (.mark n) => n == .pipePipe || n == .ampAmp
  | _, _ => false

def operation (g : Grammar) (floor : Nat) : Parse Tree := do
  let start ← here
  let first ←
    match ← lexeme with
    | .privateName _ =>
      if (← read).allowsIn then
        let name ← privateName
        if !(← seesWord .in_) || floor ≥ 8 then reject
        pure name
      else reject
    | _ => g .unary
  repeatFrom first fun (left : Tree) => do
    match ← bindingHere? with
    | none => return .stop left
    | some binding =>
      let operator ← lexeme
      let isRight := operator == .mark .starStar
      if (if isRight then binding < floor else binding ≤ floor) then return .stop left
      if operator == .keyword .as_ || operator == .keyword .satisfies then
        takeWord
        let asserted ← fullType g
        return .again (← node start
          (if operator == .keyword .as_ then .asType else .satisfiesType) [left, asserted])
      takeWord
      let right ← g (.operation binding)
      flawIf (operator == .mark .coalesce && mixesChoice left right)
      flawIf (isRight && match left.kind with
        | .unary _ | .awaitExpression => true
        | _ => false)
      return .again (← node start (.binary operator) [left, right])

/-- Whether a parenthesis opens the parameters of an arrow function. -/
inductive Chance
  | never
  | perhaps
  | surely
  deriving DecidableEq, Repr

/-- Look at the tokens after a parenthesis or an angle, which comes next. -/
def arrowChanceHere : Parse Chance := do
  if ← eat .lparen then
    if ← eat .rparen then
      return if ← seesAny [.arrow, .colon, .lbrace] then .surely else .never
    if ← seesAny [.lbrack, .lbrace] then return .perhaps
    if ← sees .ellipsis then return .surely
    match ← lexeme with
    | .keyword k =>
      if k.isModifier && k != .async && (← afterNext (return (← token).namesPlain)) then
        advance
        return if ← seesWord .as_ then .never else .surely
    | _ => pure ()
    if !(← token).namesBinding && !(← seesWord .this_) then return .never
    advance
    if ← sees .colon then return .surely
    if ← eat .question then
      return if ← seesAny [.colon, .comma, .eq, .rparen] then .surely else .never
    return if ← seesAny [.comma, .eq, .rparen] then .perhaps else .never
  else
    advance
    if (← token).namesBinding || (← seesWord .const_) then return .perhaps
    return .never

/-- Whether an arrow function with parentheses comes next. -/
def arrowChance : Parse Chance := do
  match ← lexeme with
  | .mark .lparen | .mark .langle => ahead arrowChanceHere
  | .keyword .async =>
    ahead do
      advance
      if ← afterBreak then return .never
      if ← seesAny [.lparen, .langle] then arrowChanceHere else return .never
  | _ => return .never

def arrowBody (g : Grammar) (isAsync allowsReturnType : Bool) : Parse Tree :=
  within (fun s => { s with inAsync := isAsync, inGenerator := false }) do
    if ← sees .lbrace then functionBody g else g (.assignment allowsReturnType)

/-- An arrow function with parentheses around its parameters. Where a return type is not taken for
granted, the colon of a conditional has to follow a function that has one. -/
def parenthesizedArrow (g : Grammar) (allowsReturnType : Bool) : Parse Tree := do
  let start ← here
  let isAsync ← eatWord .async
  let (generic, found, answer) ←
    within (fun s => { s with inAsync := s.inAsync || isAsync }) do
      let generic ← typeParameters? g
      let found ← parameters g
      return (generic, found, ← returnType? g)
  flawIf (found.children.any fun p => p.kind == .thisParameter)
  flawIf (← afterBreak)
  expect .arrow
  let body ← arrowBody g isAsync allowsReturnType
  if !allowsReturnType && !answer.isEmpty && !(← sees .colon) then reject
  node start (.arrow isAsync) (generic ++ found :: answer ++ [body])

def simpleArrow (g : Grammar) (start : Nat) (name : Tree) (isAsync allowsReturnType : Bool) :
    Parse Tree := do
  flawIf (← afterBreak)
  expect .arrow
  let found := Tree.node .parameters name.span
    [.node (.parameter []) name.span [.node (.binding false) name.span [name]]]
  let body ← arrowBody g isAsync allowsReturnType
  node start (.arrow isAsync) [found, body]

def seesAsyncArrow : Parse Bool := do
  if ← seesWord .async then
    afterNext do
      if (← afterBreak) || !(← token).namesBinding then return false
      advance
      return (← sees .arrow)
  else return false

def seesYield : Parse Bool := do
  if ← seesWord .yield then
    if (← read).inGenerator then return true
    afterNext (return (← token).isWordOrLiteral && !(← afterBreak))
  else return false

def yieldExpression (g : Grammar) : Parse Tree := do
  let start ← here
  flawIf (!(← read).inGenerator)
  takeWord
  if ← afterBreak then return ← node start (.yieldExpression false) []
  let isDelegate ← eat .star
  let ends ←
    match ← lexeme with
    | .mark .semicolon | .endOfText | .mark .rbrace | .mark .rparen | .mark .rbrack | .mark .colon
    | .mark .comma | .keyword .in_ => pure true
    | _ => pure false
  if ends && !isDelegate then return ← node start (.yieldExpression false) []
  let e ← g (.assignment true)
  node start (.yieldExpression isDelegate) [e]

def assignment (g : Grammar) (allowsReturnType : Bool) : Parse Tree := do
  if ← seesYield then return ← yieldExpression g
  match ← arrowChance with
  | .surely => return ← parenthesizedArrow g true
  | .perhaps =>
    if let some found ← attempt (parenthesizedArrow g allowsReturnType) then return found
  | .never => pure ()
  let start ← here
  if ← seesAsyncArrow then
    takeWord
    let name ← within (fun s => { s with inAsync := true }) bindingName
    return ← simpleArrow g start name true allowsReturnType
  let left ← g (.operation 0)
  match left.kind, ← lexeme with
  | .identifier _, .mark .arrow => simpleArrow g start left false allowsReturnType
  | _, .mark m =>
    if m.isAssignment then
      if m == .eq then
        if !isTarget left then reject
        claim left.span
      else if !isSimpleTarget left then reject
      advance
      let value ← g (.assignment allowsReturnType)
      node start (.assign (.mark m)) [left, value]
    else if m == .question then
      advance
      let yes ← within (fun s => { s with allowsIn := true }) (g (.assignment false))
      expect .colon
      let no ← g (.assignment allowsReturnType)
      node start .conditional [left, yes, no]
    else return left
  | _, _ => return left

def expression (g : Grammar) : Parse Tree := do
  let start ← here
  let first ← g (.assignment true)
  if ← sees .comma then
    let found ← repeatFrom [first] fun (found : List Tree) => do
      if ← eat .comma then return .again ((← g (.assignment true)) :: found)
      else return .stop found
    node start .sequence found.reverse
  else return first

end VueOptions.Script.Grammar
