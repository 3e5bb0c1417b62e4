import VueOptions.Script.Parse

/-!
The goals of the grammar and the pieces all rules share: names, keys, modifiers and decorators.
Each rule is an ordinary function of a `Grammar`, which reads the goals that may stand inside it;
the rules are put together at the end by recursion on a depth.
-/

set_option autoImplicit false

namespace VueOptions.Script

/-- A construct that may stand inside others of its kind. -/
inductive Goal
  /-- Expressions with commas between them. -/
  | expression
  /-- One expression without a comma. Inside a conditional the return type of an arrow function is
  taken only if the colon of the conditional still follows. -/
  | assignment (allowsReturnType : Bool)
  /-- Operands and operators that bind more tightly than a floor. -/
  | operation (floor : Nat)
  /-- An expression that an operator before it applies to. -/
  | unary
  /-- A callable expression with its calls and accesses. -/
  | leftHand
  /-- A callable expression with its accesses, without calls. -/
  | memberAccess
  /-- A statement; a single one is the body of another statement, without a block. -/
  | statement (isSingle : Bool)
  /-- A type. -/
  | type
  /-- A type that an operator before it applies to. -/
  | typeOperand
  /-- A name or a pattern that takes apart a value. -/
  | target
  /-- The inside of a namespace declaration. -/
  | namespaceTail
  deriving DecidableEq, Repr

abbrev Grammar := Goal → Parse Tree

namespace Token

def word? (t : Token) : Option String :=
  match t.lexeme with
  | .name text => some text
  | .keyword k => some (String.ofList k.spelling)
  | _ => none

def isString (t : Token) : Bool :=
  match t.lexeme with
  | .string _ => true
  | _ => false

def namesBinding (t : Token) : Bool :=
  match t.lexeme with
  | .name _ => true
  | .keyword k => !k.isReserved
  | _ => false

def namesReference (t : Token) (s : Setting) : Bool :=
  match t.lexeme with
  | .name _ => true
  | .keyword .yield => !s.inGenerator
  | .keyword .await => !s.inAsync
  | .keyword k => !k.isReserved
  | _ => false

/-- Whether the token is an identifier for the purposes of a look ahead. -/
def namesPlain (t : Token) : Bool :=
  match t.lexeme with
  | .keyword .yield => false
  | .keyword .await => false
  | _ => t.namesBinding

def isWordOrLiteral (t : Token) : Bool :=
  match t.lexeme with
  | .name _ | .keyword _ | .numeral _ | .string _ | .template _ _ _ | .privateName _ => true
  | _ => false

def namesMember (t : Token) : Bool :=
  match t.lexeme with
  | .name _ | .keyword _ | .numeral _ | .string _ | .privateName _ => true
  | _ => false

end Token

theorem Keyword.isWord_spelling (k : Keyword) : Name.IsWord k.spelling := by
  cases k <;> decide

namespace Cursor

variable {text : List Char}

theorem isWord_of_word? {c : Cursor text} {name : String} (h : c.token.word? = some name) :
    Name.IsWord name.toList := by
  have called := c.cut_from.called
  unfold Token.word? at h
  split at h
  · next same =>
    cases h
    rw [show c.cut.lexeme = _ from same] at called
    exact called
  · next k _ =>
    cases h
    rw [String.toList_ofList]
    exact k.isWord_spelling
  · cases h

def word? (c : Cursor text) : Option Name.Word :=
  match h : c.token.word? with
  | some name => some ⟨name, isWord_of_word? h⟩
  | none => none

/-- The private name that comes next, without its hash sign. -/
def privateName? (c : Cursor text) : Option Name.Word :=
  match h : c.cut.lexeme with
  | .privateName name => some ⟨name, by have called := c.cut_from.called; rwa [h] at called⟩
  | _ => none

def numeral? (c : Cursor text) : Option Literal.Numeral :=
  match h : c.cut.lexeme with
  | .numeral number => some ⟨number, by
      have called := c.cut_from.called
      rw [h] at called
      rw [← called.1]
      exact called.2⟩
  | _ => none

end Cursor

namespace Grammar

open Parse

/-- Words that the surrounding function keeps for itself are mistakes as names. -/
def checkName (t : Token) : Parse Unit := do
  let s ← read
  flawIf (t.lexeme == .keyword .await && s.inAsync)
  flawIf (t.lexeme == .keyword .yield && s.inGenerator)

def identifierName : Parse Tree := do
  match ← look fun _ c => c.word? with
  | some name => leaf (.identifier name)
  | none => reject

def identifierReference : Parse Tree := do
  let t ← token
  if t.namesReference (← read) then identifierName else reject

def bindingName : Parse Tree := do
  let t ← token
  if t.namesBinding then checkName t; identifierName else reject

def stringLiteral : Parse Tree := do
  match ← lexeme with
  | .string value => leaf (.string value)
  | _ => reject

def privateName : Parse Tree := do
  match ← look fun _ c => c.privateName? with
  | some name => leaf (.privateName name)
  | none => reject

def numeral : Parse Tree := do
  match ← look fun _ c => c.numeral? with
  | some number => leaf (.numeral number)
  | none => reject

/-- An expression in brackets that gives the name of a member. -/
def computedKey (g : Grammar) : Parse Tree := do
  expect .lbrack
  let e ← within (fun s => { s with allowsIn := true, inDecorator := false }) (g (.assignment true))
  expect .rbrack
  return e

/-- The name of an object entry or a type member. -/
def key (g : Grammar) : Parse Tree := do
  let start ← here
  match ← lexeme with
  | .string value => node start (.key false) [← leaf (.string value)]
  | .numeral _ => node start (.key false) [← numeral]
  | .mark .lbrack => node start (.key true) [← computedKey g]
  | _ => node start (.key false) [← identifierName]

def classKey (g : Grammar) : Parse Tree := do
  let start ← here
  match ← lexeme with
  | .privateName text =>
    flawIf (text == "constructor")
    node start (.key false) [← privateName]
  | _ => key g

/-- Whether what comes next can stand after a modifier. -/
def mayFollowModifier : Parse Bool := do
  let t ← token
  return t.namesMember || t.lexeme == .mark .lbrack || t.lexeme == .mark .lbrace
    || t.lexeme == .mark .star || t.lexeme == .mark .ellipsis

/-- Whether the word that comes next is a modifier and not a name. -/
def isModifierHere (k : Keyword) : Parse Bool :=
  afterNext do
    match k with
    | .const_ => seesWord .enum
    | .static_ | .get | .set_ => mayFollowModifier
    | .export_ | .default_ =>
      return (← seesAny [.atSign, .lbrace, .star]) || (← token).namesMember
    | _ => return !(← afterBreak) && (← mayFollowModifier)

/-- One more modifier after those that were found, if there is one. With `inClass`, `static` before a
brace opens a block, and a second `static` is a name. -/
def modifierRound (inClass : Bool) (found : List Keyword) : Parse (Round (List Keyword)) := do
  match ← lexeme with
  | .keyword k =>
    if !k.isModifier then return .stop found
    if k == .const_ && inClass then
      if ← afterNext (return !(← afterBreak) && (← mayFollowModifier)) then
        flaw
        takeWord
        return .again (k :: found)
      else return .stop found
    if k == .static_ && inClass then
      if found.contains .static_ then return .stop found
      if ← afterNext (sees .lbrace) then return .stop found
    if ← isModifierHere k then
      flawIf (found.contains k)
      flawIf ([Keyword.public_, .private_, .protected_].contains k
        && found.any fun f => [Keyword.public_, .private_, .protected_].contains f)
      takeWord
      return .again (k :: found)
    else return .stop found
  | _ => return .stop found

def modifiers (inClass : Bool) : Parse (List Keyword) := do
  let found ← repeatFrom [] (modifierRound inClass)
  return found.reverse

def allowModifiers (found allowed : List Keyword) : Parse Unit :=
  flawIf (found.any fun k => !allowed.contains k)

def accessorWord (k : Keyword) : Parse Bool := do
  if ← seesWord k then
    if ← afterNext mayFollowModifier then takeWord; return true
    return false
  return false

def decorators (g : Grammar) : Parse (List Tree) := do
  let found ← repeatFrom [] fun (found : List Tree) => do
    if ← sees .atSign then
      let start ← here
      advance
      let e ← within (fun s => { s with inDecorator := true }) (g .leftHand)
      return .again ((← node start .decorator [e]) :: found)
    else return .stop found
  return found.reverse

def typing? (g : Grammar) : Parse (List Tree) := do
  if ← sees .colon then
    let start ← here
    advance
    return [← node start .typing [← g .type]]
  return []

end Grammar

end VueOptions.Script
