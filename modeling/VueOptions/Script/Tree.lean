import VueOptions.Script.Token

/-!
Syntax trees. Every node has a kind, a span and the nodes below it in source order; a kind carries
what its words and marks decided, so that two readings of a text agree when their trees agree up to
spans (`Tree.shape`).
-/

set_option autoImplicit false

namespace VueOptions.Script

inductive MemberRole
  | constructor
  | method
  | get
  | set
  deriving DecidableEq, Repr

inductive EntryForm
  | plain
  | shorthand
  | initialised
  | method
  | get
  | set
  deriving DecidableEq, Repr

inductive TypeForm
  | keyword (k : Keyword)
  | reference
  | qualified
  | query
  | importType
  | literal
  | template
  | object
  | mapped
  | tuple
  | namedElement (isOptional : Bool)
  | optionalElement
  | restElement
  | array
  | indexed
  | union
  | intersection
  | operator (k : Keyword)
  | infer
  | conditional
  | function
  | constructor (isAbstract : Bool)
  | predicate (asserts : Bool)
  | parenthesized
  | nullable (isLeading : Bool)
  | nonNullable (isLeading : Bool)
  | any
  deriving DecidableEq, Repr

inductive SignatureForm
  | property (isReadonly isOptional : Bool)
  | method (isOptional : Bool)
  | get
  | set
  | call
  | construct
  | index (isReadonly : Bool)
  deriving DecidableEq, Repr

inductive Kind
  -- names and literals
  | identifier (name : Name.Word)
  | privateName (name : Name.Word)
  | string (value : String)
  | numeral (number : Literal.Numeral)
  | pattern (text : String)
  | boolean (value : Bool)
  | null
  | thisWord
  | superWord
  | template
  | chunk (raw : String)
  -- expressions
  | array
  | hole
  | object
  | entry (form : EntryForm)
  | key (isComputed : Bool)
  | spread
  | functionNode (isAsync isGenerator : Bool)
  | arrow (isAsync : Bool)
  | newExpression
  | call (isOptional : Bool)
  | chain
  | member (isOptional : Bool)
  | index (isOptional : Bool)
  | tagged
  | unary (operator : Lexeme)
  | update (operator : Lexeme) (isLeading : Bool)
  | binary (operator : Lexeme)
  | assign (operator : Lexeme)
  | conditional
  | sequence
  | parenthesized
  | asType
  | satisfiesType
  | nonNull
  | typeAssertion
  | instantiation
  | yieldExpression (isDelegate : Bool)
  | awaitExpression
  | importCall
  | metaProperty
  | decorator
  -- bindings
  | binding (isOptional : Bool)
  | objectBinding
  | arrayBinding
  | bindingEntry (isShorthand : Bool)
  | defaulted
  | rest
  -- statements
  | moduleBody
  | directive
  | block
  | emptyStatement
  | expressionStatement
  | variables (word : Keyword) (isDeclared : Bool)
  | declarator (isDefinite : Bool)
  | ifStatement
  | forLoop
  | forIn
  | forOf (isAwaited : Bool)
  | whileLoop
  | doLoop
  | continueStatement
  | breakStatement
  | returnStatement
  | throwStatement
  | tryStatement
  | catchClause
  | finallyClause
  | switchStatement
  | switchCase (isDefault : Bool)
  | labelled
  | withStatement
  | debuggerStatement
  -- functions and classes
  | parameters
  | parameter (modifiers : List Keyword)
  | thisParameter
  | typing
  | returnType
  | typeParameters
  | typeParameter (modifiers : List Keyword)
  | typeArguments
  | body
  | classNode (modifiers : List Keyword)
  | heritage
  | implements
  | classBody
  | field (modifiers : List Keyword) (isOptional isDefinite : Bool)
  | method (role : MemberRole) (modifiers : List Keyword) (isGenerator isOptional : Bool)
  | accessorField (modifiers : List Keyword)
  | indexSignature (modifiers : List Keyword)
  | staticBlock
  -- declarations
  | importDeclaration (isType : Bool)
  | importDefault
  | importNamespace
  | importSpecifier (isType : Bool)
  | importEquals (isType : Bool)
  | externalModule
  | attributes
  | exportNames (isType : Bool)
  | exportSpecifier (isType : Bool)
  | exportDeclaration
  | exportDefault
  | exportAll (isType : Bool)
  | exportAssignment
  | namespaceExport
  | typeAlias (isDeclared : Bool)
  | interfaceDeclaration (isDeclared : Bool)
  | enumDeclaration (isConst isDeclared : Bool)
  | enumMember
  | namespaceDeclaration (isDeclared : Bool)
  -- types
  | typeNode (form : TypeForm)
  | signature (form : SignatureForm)
  deriving DecidableEq, Repr

inductive Tree
  | node (kind : Kind) (span : Span) (children : List Tree)

namespace Tree

def kind : Tree → Kind
  | .node k _ _ => k

def span : Tree → Span
  | .node _ s _ => s

def children : Tree → List Tree
  | .node _ _ cs => cs

mutual
/-- The topmost node and all nodes below it, each before those below it. -/
def nodes : Tree → List Tree
  | .node k s cs => .node k s cs :: nodesList cs
def nodesList : List Tree → List Tree
  | [] => []
  | t :: ts => nodes t ++ nodesList ts
end

end Tree

inductive Shape
  | node (kind : Kind) (children : List Shape)

namespace Tree

mutual
def shape : Tree → Shape
  | .node k _ cs => .node k (shapeList cs)
def shapeList : List Tree → List Shape
  | [] => []
  | t :: ts => shape t :: shapeList ts
end

theorem shapeList_eq_map (ts : List Tree) : shapeList ts = ts.map shape := by
  induction ts with
  | nil => rfl
  | cons t ts ih => simp [shapeList, ih]

end Tree

end VueOptions.Script
