import VueOptions.Script.Grammar.Statement

/-!
Expressions as far as the options of a decorator go: literals, names, object literals and calls are
told apart, and every expression keeps its source text.
-/

set_option autoImplicit false

namespace VueOptions.Source

open Script

inductive Key
  /-- A word, written out or in brackets. -/
  | word (text : String) (isComputed : Bool)
  /-- A string literal, written out or in brackets. -/
  | string (value : String) (isComputed : Bool)
  /-- A name with a hash sign, given without it. -/
  | privateName (text : String)
  /-- A number, or any other expression in brackets, as its source text. -/
  | expression (text : String) (isComputed : Bool)
  deriving DecidableEq, Repr

namespace Key

def label : Key → String
  | .word text _ => text
  | .string value _ => value
  | .privateName text => text
  | .expression text _ => text

def ofTree (source : List Char) : Tree → Key
  | .node (.key isComputed) _ [.node (.identifier text) _ _] => .word text isComputed
  | .node (.key isComputed) _ [.node (.string text) _ _] => .string text isComputed
  | .node (.key _) _ [.node (.privateName text) _ _] => .privateName text
  | .node (.key isComputed) _ [.node (.numeral number) _ _] => .expression number isComputed
  | .node (.key _) _ [t] => .expression (t.span.text source) true
  | t => .expression (t.span.text source) true

end Key

mutual
inductive Expression
  | string (text value : String)
  | boolean (text : String) (value : Bool)
  | word (text name : String)
  | object (text : String) (entries : List Entry)
  | call (text : String) (callee : String) (arguments : List Argument)
  | other (text : String)
inductive Entry
  | named (text : String) (key : Key) (form : EntryForm) (value : Expression)
  | spread (text : String)
inductive Argument
  | value (expression : Expression)
  | spread (text : String)
end

namespace Expression

def text : Expression → String
  | .string text _ => text
  | .boolean text _ => text
  | .word text _ => text
  | .object text _ => text
  | .call text _ _ => text
  | .other text => text

end Expression

def Entry.text : Entry → String
  | .named text _ _ _ => text
  | .spread text => text

def Argument.value? : Argument → Option Expression
  | .value e => some e
  | .spread _ => none

def Entry.pairs (entries : List Entry) : List (String × Expression) :=
  entries.filterMap fun
    | .named _ key _ value => some (key.label, value)
    | .spread _ => none

def calleeName (source : List Char) (t : Tree) : String :=
  match t.kind with
  | .identifier name => name
  | _ => t.span.text source

mutual
def Expression.ofTree (source : List Char) : Tree → Expression
  | .node (.string value) s _ => .string (s.text source) value
  | .node (.boolean value) s _ => .boolean (s.text source) value
  | .node (.identifier name) s _ => .word (s.text source) name
  | .node .object s entries => .object (s.text source) (Entry.ofTrees source entries)
  | .node (.call _) s (callee :: arguments) =>
    .call (s.text source) (calleeName source callee) (Argument.ofTrees source arguments)
  | .node _ s _ => .other (s.text source)
def Entry.ofTrees (source : List Char) : List Tree → List Entry
  | [] => []
  | .node (.entry form) s (key :: value :: _) :: ts =>
    .named (s.text source) (Key.ofTree source key) form (Expression.ofTree source value)
      :: Entry.ofTrees source ts
  | .node (.entry form) s [key] :: ts =>
    .named (s.text source) (Key.ofTree source key) form
      (.word (s.text source) (Key.ofTree source key).label) :: Entry.ofTrees source ts
  | t :: ts => .spread (t.span.text source) :: Entry.ofTrees source ts
def Argument.ofTrees (source : List Char) : List Tree → List Argument
  | [] => []
  | .node .typeArguments _ _ :: ts => Argument.ofTrees source ts
  | .node .spread s _ :: ts => .spread (s.text source) :: Argument.ofTrees source ts
  | t :: ts => .value (Expression.ofTree source t) :: Argument.ofTrees source ts
end

/-- A decorator reduced to its name and the arguments of its call; without a call it has none. -/
structure Decorator where
  name : String
  arguments : List Argument

namespace Decorator

def values (d : Decorator) : List Expression := d.arguments.filterMap Argument.value?

def ofTree (source : List Char) (t : Tree) : Decorator :=
  match t.children with
  | [e] =>
    match Expression.ofTree source e with
    | .call _ callee arguments => ⟨callee, arguments⟩
    | _ => ⟨calleeName source e, []⟩
  | _ => ⟨"", []⟩

end Decorator

end VueOptions.Source
