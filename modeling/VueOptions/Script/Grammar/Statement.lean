import VueOptions.Script.Grammar.Declaration

/-!
Statements, and the grammar as a whole: `Grammar.upTo` reads every goal up to a depth of nesting, and
a text is read with a depth that its length cannot exceed.
-/

set_option autoImplicit false

namespace VueOptions.Script.Grammar

open Parse

def condition (g : Grammar) : Parse Tree := do
  expect .lparen
  let e ← within Setting.bracketed (g .expression)
  expect .rparen
  return e

def block (g : Grammar) : Parse Tree := do
  let start ← here
  node start .block (← statements g)

def ifStatement (g : Grammar) : Parse Tree := do
  let start ← here
  takeWord
  let test ← condition g
  let yes ← g (.statement true)
  let no ← if ← eatWord .else_ then pure [← g (.statement true)] else pure []
  node start .ifStatement (test :: yes :: no)

def whileLoop (g : Grammar) : Parse Tree := do
  let start ← here
  takeWord
  let test ← condition g
  let body ← g (.statement true)
  node start .whileLoop [test, body]

def doLoop (g : Grammar) : Parse Tree := do
  let start ← here
  takeWord
  let body ← g (.statement true)
  expectWord .while_
  let test ← condition g
  let _ ← eat .semicolon
  node start .doLoop [body, test]

def countingLoop (g : Grammar) (start : Nat) (first : List Tree) (isAwaited : Bool) :
    Parse Tree := do
  expect .semicolon
  let test ← if ← seesAny [.semicolon, .rparen] then pure [] else pure [← g .expression]
  expect .semicolon
  let step ← if ← sees .rparen then pure [] else pure [← g .expression]
  expect .rparen
  flawIf isAwaited
  let body ← g (.statement true)
  node start .forLoop (first ++ test ++ step ++ [body])

/-- The rest of a loop over keys or values, from `in` or `of` on; nothing if neither comes next. -/
def iteratingLoop? (g : Grammar) (start : Nat) (left : Tree) (isAwaited : Bool) :
    Parse (Option Tree) := do
  if ← eatWord .in_ then
    flawIf isAwaited
    let e ← g .expression
    expect .rparen
    let body ← g (.statement true)
    return some (← node start .forIn [left, e, body])
  if ← eatWord .of then
    let e ← g (.assignment true)
    expect .rparen
    let body ← g (.statement true)
    return some (← node start (.forOf isAwaited) [left, e, body])
  return none

def forLoop (g : Grammar) : Parse Tree := do
  let start ← here
  takeWord
  let isAwaited ← eatWord .await
  flawIf (isAwaited && !(← read).inAsync)
  expect .lparen
  within (fun s => { s with allowsIn := true, inDecorator := false }) do
    if ← sees .semicolon then return ← countingLoop g start [] isAwaited
    let inner ← here
    let declares ←
      match ← lexeme with
      | .keyword .var | .keyword .const_ => pure true
      | .keyword .let_ =>
        afterNext (return ((← token).namesBinding && !(← seesWord .of))
          || (← seesAny [.lbrack, .lbrace]))
      | .keyword .using_ =>
        afterNext (return !(← afterBreak) && (← token).namesBinding && !(← seesWord .of))
      | _ => pure false
    if declares then
      match ← lexeme with
      | .keyword word =>
        takeWord
        let found ← within (fun s => { s with allowsIn := false }) (declarators g)
        let left ← node inner (.variables word false) found
        if let some loop ← iteratingLoop? g start left isAwaited then
          flawIf (found.length != 1)
          return loop
        checkValues word found
        countingLoop g start [left] isAwaited
      | _ => reject
    else
      let t ← token
      let left ← within (fun s => { s with allowsIn := false }) (g .expression)
      if (← seesWord .in_) || (← seesWord .of) then
        if !isTarget left then reject
        claim left.span
        if ← seesWord .of then
          flawIf (t.lexeme == .keyword .let_)
          flawIf (!isAwaited && t.lexeme == .keyword .async && left.kind == .identifier ⟨"async", by decide⟩)
      if let some loop ← iteratingLoop? g start left isAwaited then return loop
      countingLoop g start [left] isAwaited

def jump (kind : Kind) : Parse Tree := do
  let start ← here
  takeWord
  let target ←
    if !(← mayEndHere) then pure [← identifierReference] else pure []
  semicolon
  node start kind target

def returnStatement (g : Grammar) : Parse Tree := do
  let start ← here
  flawIf (!(← read).inFunction)
  takeWord
  let value ←
    if ← mayEndHere then pure []
    else pure [← within (fun s => { s with allowsIn := true }) (g .expression)]
  semicolon
  node start .returnStatement value

def throwStatement (g : Grammar) : Parse Tree := do
  let start ← here
  takeWord
  flawIf (← afterBreak)
  let e ← g .expression
  semicolon
  node start .throwStatement [e]

def tryStatement (g : Grammar) : Parse Tree := do
  let start ← here
  takeWord
  let body ← block g
  let handler ← do
    let place ← here
    if ← eatWord .catch_ then
      let caught ← if ← eat .lparen then
          let found ← typedTarget g false
          expect .rparen
          pure [found]
        else pure []
      let inner ← block g
      pure [← node place .catchClause (caught ++ [inner])]
    else pure []
  let final ← do
    let place ← here
    if ← eatWord .finally_ then
      let inner ← block g
      pure [← node place .finallyClause [inner]]
    else pure []
  flawIf (handler.isEmpty && final.isEmpty)
  node start .tryStatement (body :: handler ++ final)

def switchCase (g : Grammar) : Parse Tree := do
  let start ← here
  let isDefault ← eatWord .default_
  let test ← if isDefault then pure [] else
    expectWord .case
    pure [← g .expression]
  expect .colon
  let found ← repeatFrom ([] : List Tree) fun found => do
    if (← sees .rbrace) || (← seesWord .case) || (← seesWord .default_) then return .stop found
    if (← lexeme) == .endOfText then reject
    return .again ((← g (.statement false)) :: found)
  node start (.switchCase isDefault) (test ++ found.reverse)

def switchStatement (g : Grammar) : Parse Tree := do
  let start ← here
  takeWord
  let subject ← condition g
  expect .lbrace
  let cases ← itemsUntil .rbrace (switchCase g)
  expect .rbrace
  node start .switchStatement (subject :: cases)

def withStatement (g : Grammar) : Parse Tree := do
  let start ← here
  takeWord
  let subject ← condition g
  let body ← g (.statement true)
  node start .withStatement [subject, body]

def expressionStatement (g : Grammar) : Parse Tree := do
  let start ← here
  let e ← g .expression
  match e.kind with
  | .identifier _ =>
    if ← eat .colon then
      let body ← g (.statement true)
      return ← node start .labelled [e, body]
  | _ => pure ()
  semicolon
  node start .expressionStatement [e]

def decoratedStatement (g : Grammar) (isSingle : Bool) : Parse Tree := do
  let start ← here
  let decorated ← decorators g
  if ← seesWord .export_ then return ← exportDeclaration g start decorated
  let found ← declarationModifiers
  if ← seesWord .class_ then
    flawIf isSingle
    classDeclaration g start found decorated
  else reject

def letStatement (g : Grammar) (isSingle : Bool) : Parse Tree := do
  let start ← here
  let isName ← afterNext do
    match ← lexeme with
    | .mark .lbrack | .mark .lbrace => return false
    | .mark _ => return true
    | .endOfText => return true
    | .keyword .in_ | .keyword .instanceof => return true
    | _ => return isSingle && (← afterBreak)
  if isName then expressionStatement g
  else
    flawIf isSingle
    variableStatement g start false

def statement (g : Grammar) (isSingle : Bool) : Parse Tree := do
  let start ← here
  match ← lexeme with
  | .mark .lbrace => block g
  | .mark .semicolon => leaf .emptyStatement
  | .mark .atSign => decoratedStatement g isSingle
  | .keyword k =>
    match k with
    | .if_ => ifStatement g
    | .do_ => doLoop g
    | .while_ => whileLoop g
    | .for_ => forLoop g
    | .continue_ => jump .continueStatement
    | .break_ => jump .breakStatement
    | .with_ => withStatement g
    | .switch => switchStatement g
    | .throw_ => throwStatement g
    | .try_ => tryStatement g
    | .debugger =>
      takeWord
      semicolon
      node start .debuggerStatement []
    | .class_ =>
      flawIf isSingle
      classDeclaration g start [] []
    | .export_ => exportDeclaration g start []
    | .import_ =>
      if ← afterNext (seesAny [.lparen, .dot]) then expressionStatement g else importDeclaration
    | .return_ => returnStatement g
    | .var => variableStatement g start false
    | .const_ =>
      if ← afterNext (seesWord .enum) then declaration g start
      else
        flawIf isSingle
        variableStatement g start false
    | .let_ => letStatement g isSingle
    | .function =>
      let found ← functionDeclaration g start true
      match found.kind with
      | .functionNode _ isGenerator => flawIf (isSingle && isGenerator)
      | _ => pure ()
      return found
    | .async =>
      if ← seesAsyncFunction then
        flawIf isSingle
        functionDeclaration g start true
      else expressionStatement g
    | .using_ | .await =>
      if ← seesUsing then usingStatement g else expressionStatement g
    | .interface | .type | .module_ | .namespace_ | .declare | .enum | .private_ | .protected_
    | .public_ | .abstract | .accessor | .static_ | .readonly | .global =>
      if ← startsDeclaration then declaration g start else expressionStatement g
    | _ => expressionStatement g
  | _ => expressionStatement g

def rule (g : Grammar) : Grammar
  | .expression => expression g
  | .assignment allowsReturnType => assignment g allowsReturnType
  | .operation floor => operation g floor
  | .unary => unary g
  | .leftHand => leftHand g
  | .memberAccess => memberAccess g
  | .statement isSingle => statement g isSingle
  | .type => typeRule g
  | .typeOperand => typeOperand g
  | .target => target g
  | .namespaceTail => namespaceTail g

def upTo : Nat → Grammar
  | 0 => fun _ => reject
  | n + 1 => fun goal => rule (upTo n) goal

def moduleStatements (g : Grammar) : Parse (List Tree) := do
  let found ← repeatFrom ([] : List Tree) fun found => do
    if (← lexeme) == .endOfText then return .stop found
    return .again ((← spanning (g (.statement false))) :: found)
  return markDirectives found.reverse

/-- How many goals may be open at once over one character. -/
def goalsPerCharacter : Nat := 8

end VueOptions.Script.Grammar

namespace VueOptions.Script

/-- A module that was read: its tree, and its tokens in order. The end of the text is no token. -/
structure Reading where
  tree : Tree
  passed : List Passage

def Reading.ofModule? (text : List Char) : Option Reading :=
  let bound := text.length + 2
  let setting : Setting := { bound := bound, inAsync := true }
  let g := Grammar.upTo (Grammar.goalsPerCharacter * bound)
  match Grammar.moduleStatements g text setting (Cursor.start text) with
  | some (statements, cursor) =>
    if cursor.isFlawed || !cursor.unclaimed.isEmpty then none
    else some ⟨.node .moduleBody ⟨0, Text.byteLength text⟩ statements,
      (cursor.passed.filter fun p => !p.taken.isEmpty).reverse⟩
  | none => none

def Tree.ofModule? (text : List Char) : Option Tree := (Reading.ofModule? text).map Reading.tree

end VueOptions.Script
