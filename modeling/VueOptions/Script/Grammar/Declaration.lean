import VueOptions.Script.Grammar.Expression

/-!
Declarations: variables, type aliases, interfaces, enumerations, namespaces, and the exports and
imports of a module.
-/

set_option autoImplicit false

namespace VueOptions.Script.Grammar

open Parse

def needsValue (word : Keyword) (d : Tree) : Bool :=
  match d.children with
  | [.node (.binding _) _ (target :: _)] => takesApart target || word == .const_
  | _ => false

def declarator (g : Grammar) : Parse Tree := do
  let start ← here
  let target ← g .target
  let isDefinite ←
    if !takesApart target && !(← afterBreak) then eat .bang else pure false
  let isOptional ← eat .question
  let typing ← typing? g
  let bound ← node start (.binding isOptional) (covering target (← lastStop) :: typing)
  let value ← if ← eat .eq then pure [← g (.assignment true)] else pure []
  node start (.declarator isDefinite) (bound :: value)

def declarators (g : Grammar) : Parse (List Tree) := do
  let first ← declarator g
  let found ← repeatFrom [first] fun (found : List Tree) => do
    if ← eat .comma then return .again ((← declarator g) :: found) else return .stop found
  return found.reverse

def checkValues (word : Keyword) (ds : List Tree) : Parse Unit := do
  flawIf (!(← read).isAmbient && ds.any (needsValue word))

def variableStatement (g : Grammar) (start : Nat) (isDeclared : Bool) : Parse Tree := do
  match ← lexeme with
  | .keyword k =>
    takeWord
    let found ← declarators g
    checkValues k found
    semicolon
    node start (.variables k isDeclared) found
  | _ => reject

def usingStatement (g : Grammar) : Parse Tree := do
  let start ← here
  let _ ← eatWord .await
  expectWord .using_
  let found ← declarators g
  flawIf (found.any fun d => d.children.length < 2)
  semicolon
  node start (.variables .using_ false) found

/-- Whether a declaration of resources comes next. -/
def seesUsing : Parse Bool := do
  match ← lexeme with
  | .keyword .using_ =>
    afterNext (return !(← afterBreak) && (← token).namesBinding)
  | .keyword .await =>
    afterNext do
      if (← afterBreak) || !(← seesWord .using_) then return false
      advance
      return !(← afterBreak) && (← token).namesBinding
  | _ => return false

def typeAlias (g : Grammar) (start : Nat) (isDeclared : Bool) : Parse Tree := do
  expectWord .type
  let name ← bindingName
  let generic ← typeParameters? g
  expect .eq
  let found ← fullType g
  semicolon
  node start (.typeAlias isDeclared) (name :: generic ++ [found])

def interfaceHeritage (g : Grammar) : Parse (List Tree) := do
  repeatFrom ([] : List Tree) fun found => do
    if (← eatWord .extends_) then
      flawIf (!found.isEmpty)
      let first ← item
      let more ← repeatFrom [first] fun more => do
        if ← eat .comma then return .again ((← item) :: more) else return .stop more
      return .again (found ++ more.reverse)
    if ← eatWord .implements then
      flaw
      return .again (found ++ [← typeReference g])
    return .stop found
where
  /-- One extended type. -/
  item : Parse Tree := superClass g

def interfaceDeclaration (g : Grammar) (start : Nat) (isDeclared : Bool) : Parse Tree := do
  expectWord .interface
  let name ← bindingName
  let generic ← typeParameters? g
  let bases ← interfaceHeritage g
  let members ← signatures g
  node start (.interfaceDeclaration isDeclared) (name :: generic ++ bases ++ members)

def enumMember (g : Grammar) : Parse Tree := do
  let start ← here
  let name ←
    match ← lexeme with
    | .numeral _ => flaw; key g
    | .privateName _ => reject
    | _ => key g
  match name.kind, name.children with
  | .key true, [.node (.string _) _ _] => pure ()
  | .key true, [.node .template _ [_]] => pure ()
  | .key true, _ => flaw
  | _, _ => pure ()
  let value ← if ← eat .eq then
      pure [← within (fun s => { s with allowsIn := true }) (g (.assignment true))]
    else pure []
  node start .enumMember (name :: value)

def enumDeclaration (g : Grammar) (start : Nat) (found : List Keyword) : Parse Tree := do
  expectWord .enum
  let name ← bindingName
  expect .lbrace
  let members ← commaSeparated .rbrace (enumMember g)
  expect .rbrace
  node start (.enumDeclaration (found.contains .const_) (found.contains .declare)) (name :: members)

def namespaceBlock (g : Grammar) : Parse Tree := do
  let start ← here
  let found ← statements g
  node start .body (markDirectives found)

def namespaceTail (g : Grammar) : Parse Tree := do
  let start ← here
  let name ← identifierName
  if ← eat .dot then
    node start (.namespaceDeclaration false) [name, ← g .namespaceTail]
  else
    node start (.namespaceDeclaration false) [name, ← namespaceBlock g]

def namespaceDeclaration (g : Grammar) (start : Nat) (found : List Keyword) : Parse Tree := do
  let isDeclared := found.contains .declare
  allowModifiers found [.declare]
  match ← lexeme with
  | .keyword .global =>
    let name ← identifierName
    if ← sees .lbrace then
      let body ← within (fun s => { s with isAmbient := true }) (namespaceBlock g)
      node start (.namespaceDeclaration isDeclared) [name, body]
    else
      semicolon
      node start (.namespaceDeclaration isDeclared) [name]
  | _ =>
    takeWord
    match ← lexeme with
    | .string value =>
      let name ← leaf (.string value)
      if ← sees .lbrace then
        let body ← within (fun s => { s with isAmbient := s.isAmbient || isDeclared })
          (namespaceBlock g)
        node start (.namespaceDeclaration isDeclared) [name, body]
      else
        semicolon
        node start (.namespaceDeclaration isDeclared) [name]
    | _ =>
      let tail ← g .namespaceTail
      node start (.namespaceDeclaration isDeclared) [tail]

/-- Whether words that need a look ahead start a declaration here. -/
def startsDeclaration : Parse Bool :=
  foretells do
    repeatFrom false fun _ => do
      match ← lexeme with
      | .keyword k =>
        match k with
        | .var | .let_ | .const_ | .function | .class_ | .enum => return .stop true
        | .interface | .type =>
          advance
          return .stop ((← token).namesBinding && !(← afterBreak))
        | .module_ | .namespace_ =>
          advance
          let t ← token
          return .stop (!t.afterBreak && (t.isString || t.namesBinding))
        | .abstract | .accessor | .async | .declare | .private_ | .protected_ | .public_
        | .readonly =>
          advance
          if ← afterBreak then return .stop false
          return .again false
        | .global =>
          advance
          return .stop ((← sees .lbrace) || (← seesWord .export_)
            || (match ← lexeme with | .name _ => true | _ => false))
        | .import_ =>
          advance
          let t ← token
          return .stop (t.isString || (← seesAny [.star, .lbrace]) || t.namesBinding)
        | .export_ =>
          advance
          return .stop ((← seesAny [.eq, .star, .lbrace, .atSign]) || (← seesWord .default_)
            || (← seesWord .as_))
        | .static_ =>
          advance
          return .again false
        | _ => return .stop false
      | _ => return .stop false

def classDeclaration (g : Grammar) (start : Nat) (found : List Keyword) (decorated : List Tree) :
    Parse Tree := do
  allowModifiers found [.declare, .abstract]
  within (fun s => { s with isAmbient := s.isAmbient || found.contains .declare })
    (classRest g start found decorated)

def moduleReference : Parse Tree := do
  let start ← here
  if (← seesWord .require) && (← afterNext (sees .lparen)) then
    advance
    expect .lparen
    let source ← stringLiteral
    expect .rparen
    node start .externalModule [source]
  else entityName

def declarationRest (g : Grammar) (start : Nat) (found : List Keyword) : Parse Tree := do
  let isDeclared := found.contains .declare
  match ← lexeme with
  | .keyword k =>
    match k with
    | .namespace_ | .module_ | .global => namespaceDeclaration g start found
    | .type =>
      allowModifiers found [.declare]
      typeAlias g start isDeclared
    | .enum =>
      allowModifiers found [.declare, .const_]
      enumDeclaration g start found
    | .interface =>
      allowModifiers found [.declare]
      interfaceDeclaration g start isDeclared
    | .class_ => classDeclaration g start found []
    | .var | .let_ | .const_ =>
      if k == .const_ && (← afterNext (seesWord .enum)) then
        takeWord
        allowModifiers found [.declare]
        enumDeclaration g start (.const_ :: found)
      else
        allowModifiers found [.declare]
        variableStatement g start isDeclared
    | .function | .async =>
      allowModifiers found [.declare, .async]
      let function ← functionDeclaration g start true
      flawIf (isDeclared && function.children.any fun t => t.kind == .body)
      return function
    | .import_ =>
      takeWord
      let name ← bindingName
      expect .eq
      let source ← moduleReference
      semicolon
      node start (.importEquals false) [name, source]
    | _ => reject
  | _ => reject

def declarationModifiers : Parse (List Keyword) := do
  let found ← repeatFrom [] fun (found : List Keyword) => do
    match ← lexeme with
    | .keyword k =>
      if k.isModifier && k != .async && (← isModifierHere k) then
        flawIf (found.contains k)
        takeWord
        return .again (k :: found)
      else return .stop found
    | _ => return .stop found
  return found.reverse

def declaration (g : Grammar) (start : Nat) : Parse Tree := do
  let found ← declarationModifiers
  within (fun s => { s with
    isAmbient := s.isAmbient || found.contains .declare, inAsync := false })
    (declarationRest g start found)

def moduleName : Parse Tree := do
  match ← lexeme with
  | .string value => leaf (.string value)
  | _ => identifierName

/-- A key and a value that say how a module is loaded. -/
def moduleAttribute : Parse Tree := do
  let start ← here
  let name ← moduleName
  expect .colon
  let value ← stringLiteral
  node start (.entry .plain) [name, value]

def attributes? : Parse (List Tree) := do
  if (← seesWord .with_) || ((← seesWord .assert) && !(← afterBreak)) then
    let start ← here
    takeWord
    expect .lbrace
    let found ← commaSeparated .rbrace moduleAttribute
    expect .rbrace
    return [← node start .attributes found]
  return []

def fromClause : Parse (List Tree) := do
  expectWord .from_
  let source ← stringLiteral
  return source :: (← attributes?)

/-- Whether `type` before a name marks a single name as a type. -/
def marksType : Parse Bool := do
  if ← seesWord .type then
    afterNext do
      -- `type as`, `type as as`, `type as x`, `type x`
      if ← seesWord .as_ then
        advance
        if ← seesWord .as_ then
          advance
          return (← token).word?.isSome
        return !(← token).word?.isSome
      return (← token).word?.isSome || (← token).isString
  else return false

def specifier (makeKind : Bool → Kind) : Parse Tree := do
  let start ← here
  let isType ← marksType
  if isType then takeWord
  let name ← moduleName
  if ← eatWord .as_ then
    let renamed ← moduleName
    node start (makeKind isType) [name, renamed]
  else node start (makeKind isType) [name]

/-- An imported name binds, so a word that cannot bind has to be renamed. -/
def checkImported (t : Tree) : Bool :=
  match t.children.getLast? with
  | some (.node (.identifier name) _ _) =>
    match Keyword.ofSpelling? name.text.toList with
    | some k => k.isReserved
    | none => false
  | _ => true

def importNames : Parse (List Tree) := do
  expect .lbrace
  let found ← commaSeparated .rbrace (specifier .importSpecifier)
  expect .rbrace
  if found.any checkImported then reject
  return found

/-- The names after the word `import`, up to the source. -/
def importClause : Parse (List Tree) := do
  let default ←
    if (← token).namesBinding then
      let start ← here
      let name ← bindingName
      pure [← node start .importDefault [name]]
    else pure []
  if !default.isEmpty && !(← eat .comma) then return default
  if ← sees .star then
    let start ← here
    advance
    expectWord .as_
    let name ← bindingName
    return default ++ [← node start .importNamespace [name]]
  return default ++ (← importNames)

/-- Whether `type`, `defer` or `source` after `import` is a mark and not a name. -/
def marksImport : Parse Bool :=
  afterNext do
    if ← seesAny [.star, .lbrace] then return true
    if ← seesWord .from_ then
      -- `import type from 'x'` names a binding, `import type from from 'x'` and `= …` do not
      return ← afterNext (return (← seesWord .from_) || (← sees .eq))
    return (← token).namesBinding

def importDeclaration : Parse Tree := do
  let start ← here
  expectWord .import_
  match ← lexeme with
  | .string value =>
    let source ← leaf (.string value)
    let attributes ← attributes?
    semicolon
    node start (.importDeclaration false) (source :: attributes)
  | _ =>
    let isType ← if ← seesWord .type then marksImport else pure false
    if isType then takeWord
    let isPhase ← if (← seesWord .defer) || (← seesWord .source) then marksImport else pure false
    if isPhase then takeWord
    if (← token).namesBinding && (← afterNext (sees .eq)) then
      let name ← bindingName
      expect .eq
      let source ← moduleReference
      semicolon
      return ← node start (.importEquals isType) [name, source]
    let names ← importClause
    let source ← fromClause
    semicolon
    node start (.importDeclaration isType) (names ++ source)

/-- Whether an exported name stands for no binding of this module. -/
def checkExported (t : Tree) : Bool :=
  match t.children.head? with
  | some (.node (.identifier name) _ _) =>
    match Keyword.ofSpelling? name.text.toList with
    | some k => k.isReserved || k.isFutureReserved || k == .let_ || k == .yield || k == .await
    | none => false
  | _ => true

def exportNames (start : Nat) (isType : Bool) : Parse Tree := do
  expect .lbrace
  let found ← commaSeparated .rbrace (specifier .exportSpecifier)
  expect .rbrace
  let source ← if ← seesWord .from_ then fromClause else pure []
  flawIf (source.isEmpty && found.any checkExported)
  semicolon
  node start (.exportNames isType) (found ++ source)

def exportAll (start : Nat) (isType : Bool) : Parse Tree := do
  expect .star
  let renamed ← if ← eatWord .as_ then pure [← moduleName] else pure []
  let source ← fromClause
  semicolon
  node start (.exportAll isType) (renamed ++ source)

def exportDefault (g : Grammar) (start : Nat) (decorated : List Tree) : Parse Tree := do
  takeWord
  let inner ← here
  let more ← decorators g
  flawIf (!decorated.isEmpty && !more.isEmpty)
  let decorated := decorated ++ more
  let innerStart := match decorated.head? with
    | some d => d.span.start
    | none => inner
  if ← seesWord .class_ then
    let found ← classRest g innerStart [] decorated
    return ← node start .exportDefault [found]
  if (← seesWord .abstract) && (← afterNext (return (← seesWord .class_) && !(← afterBreak))) then
    takeWord
    let found ← classRest g innerStart [.abstract] decorated
    return ← node start .exportDefault [found]
  flawIf (!decorated.isEmpty)
  if (← seesWord .interface)
      && (← afterNext (return (← token).namesBinding && !(← afterBreak))) then
    let found ← interfaceDeclaration g inner false
    return ← node start .exportDefault [found]
  if (← seesWord .function) || (← seesAsyncFunction) then
    let found ← functionDeclaration g inner false
    return ← node start .exportDefault [found]
  let e ← g (.assignment true)
  semicolon
  node start .exportDefault [e]

def exportDeclaration (g : Grammar) (start : Nat) (decorated : List Tree) : Parse Tree := do
  expectWord .export_
  match ← lexeme with
  | .keyword .default_ => exportDefault g start decorated
  | .keyword .import_ =>
    flawIf (!decorated.isEmpty)
    let found ← importDeclaration
    match found.kind with
    | .importEquals _ => node start .exportDeclaration [found]
    | _ => reject
  | .mark .eq =>
    flawIf (!decorated.isEmpty)
    advance
    let e ← g .expression
    semicolon
    node start .exportAssignment [e]
  | .keyword .as_ =>
    flawIf (!decorated.isEmpty)
    takeWord
    expectWord .namespace_
    let name ← identifierName
    semicolon
    node start .namespaceExport [name]
  | .mark .star =>
    flawIf (!decorated.isEmpty)
    exportAll start false
  | .mark .lbrace =>
    flawIf (!decorated.isEmpty)
    exportNames start false
  | _ =>
    if ← seesWord .type then
      if ← afterNext (sees .lbrace) then
        takeWord
        return ← exportNames start true
      if ← afterNext (sees .star) then
        takeWord
        return ← exportAll start true
    let inner ← here
    let more ← decorators g
    flawIf (!decorated.isEmpty && !more.isEmpty)
    let decorated := decorated ++ more
    let found ← declarationModifiers
    let isAmbient := found.contains .declare
    within (fun s => { s with isAmbient := s.isAmbient || isAmbient }) do
      if ← seesWord .class_ then
        let innerStart := match decorated.head? with
          | some d => d.span.start
          | none => inner
        let found ← classDeclaration g innerStart found decorated
        node start .exportDeclaration [found]
      else
        flawIf (!decorated.isEmpty)
        let found ← declarationRest g inner found
        node start .exportDeclaration [found]

end VueOptions.Script.Grammar
