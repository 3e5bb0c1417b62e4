import VueOptions.Source.Expression
import VueOptions.Layout.Dedent

/-!
Classes and their members, read off the tree with the texts that the output needs.
-/

set_option autoImplicit false

namespace VueOptions.Source

open Script

structure Parameter where
  /-- The text of the binding, with a question mark behind an optional name. -/
  name : String
  type : Option String
  deriving DecidableEq, Repr

structure Field where
  key : Key
  decorators : List Decorator
  isStatic : Bool
  isReadonly : Bool
  type : Option String
  value : Option String

structure Body where
  /-- The statements, each moved to the left margin. -/
  statements : List String
  /-- What the last statement returns, if it is a return. -/
  trailing : Option (Option String)
  deriving DecidableEq, Repr

structure Method where
  key : Key
  role : MemberRole
  decorators : List Decorator
  isStatic : Bool
  isAsync : Bool
  isGenerator : Bool
  parameters : List Parameter
  returnType : Option String
  /-- Absent from signatures. -/
  body : Option Body

structure ClassHeader where
  name : Option String
  decorators : List Decorator
  superClass : Option Expression

/-- What is offered to classification: the header of a class, or one of its members. -/
inductive Node
  | header (h : ClassHeader)
  | field (f : Field)
  | method (m : Method)

structure ClassDeclaration where
  header : ClassHeader
  members : List Node

def typeText (source : List Char) (t : Tree) : Option String :=
  t.children.head?.map fun c => c.span.text source

def typeOf? (source : List Char) (parts : List Tree) (kind : Kind) : Option String :=
  (parts.find? fun t => t.kind == kind).bind (typeText source)

def decoratorsOf (source : List Char) (parts : List Tree) : List Decorator :=
  (parts.filter fun t => t.kind == .decorator).map (Decorator.ofTree source)

def keyOf (source : List Char) (parts : List Tree) : Key :=
  match parts.find? fun t => t.kind == .key true || t.kind == .key false with
  | some t => Key.ofTree source t
  | none => .string "" false

namespace Parameter

def ofBinding (source : List Char) (isOptional : Bool) (target : Tree) (typing : List Tree) :
    Parameter :=
  let type := typeOf? source typing .typing
  match target.kind with
  | .identifier name => ⟨if isOptional then name ++ "?" else name, type⟩
  | _ => ⟨target.span.text source, type⟩

/-- The parameter that a tree shows; decorators and modifiers are not part of it. -/
def ofParts (source : List Char) : List Tree → Option Parameter
  | [] => none
  | .node (.binding isOptional) _ (target :: typing) :: _ =>
    some (ofBinding source isOptional target typing)
  | .node .defaulted s _ :: _ => some ⟨s.text source, none⟩
  | .node .rest _ (target :: _) :: typing =>
    some ⟨"..." ++ target.span.text source, typeOf? source typing .typing⟩
  | _ :: ts => ofParts source ts

def ofFunction (source : List Char) (parts : List Tree) : List Parameter :=
  match parts.find? fun t => t.kind == .parameters with
  | some t => t.children.filterMap fun p =>
      match p.kind with
      | .parameter _ => ofParts source p.children
      | _ => none
  | none => []

end Parameter

namespace Body

def returned? (source : List Char) (t : Tree) : Option (Option String) :=
  match t.kind with
  | .returnStatement => some (typeText source t)
  | _ => none

def ofTree (source : List Char) (t : Tree) : Body :=
  let statements := t.children.filter fun s => s.kind != .directive
  { statements := statements.map fun s => String.ofList (Layout.dedent source s.span)
    trailing := statements.getLast?.bind (returned? source) }

end Body

namespace Node

def valueOf? (source : List Char) (parts : List Tree) : Option String :=
  (parts.find? fun t =>
    match t.kind with
    | .decorator | .key _ | .typing => false
    | _ => true).map fun t => t.span.text source

/-- The field or method that a member of a class shows. Other members are nothing here. -/
def ofMember? (source : List Char) (t : Tree) : Option Node :=
  match t.kind with
  | .field modifiers _ _ => some (.field {
      key := keyOf source t.children
      decorators := decoratorsOf source t.children
      isStatic := modifiers.contains .static_
      isReadonly := modifiers.contains .readonly
      type := typeOf? source t.children .typing
      value := valueOf? source t.children })
  | .method role modifiers isGenerator _ => some (.method {
      key := keyOf source t.children
      role := role
      decorators := decoratorsOf source t.children
      isStatic := modifiers.contains .static_
      isAsync := modifiers.contains .async
      isGenerator := isGenerator
      parameters := Parameter.ofFunction source t.children
      returnType := typeOf? source t.children .returnType
      body := (t.children.find? fun c => c.kind == .body).map (Body.ofTree source) })
  | _ => none

end Node

namespace ClassHeader

def ofParts (source : List Char) (parts : List Tree) : ClassHeader :=
  { name := parts.findSome? fun t =>
      match t.kind with
      | .identifier name => some name
      | _ => none
    decorators := decoratorsOf source parts
    superClass := (parts.find? fun t => t.kind == .heritage).bind fun t =>
      t.children.head?.map (Expression.ofTree source) }

def anonymous : String := "AnonymousComponent"

def label (h : ClassHeader) : String := h.name.getD anonymous

/-- Classes that may be components: a decorator or a call in the heritage marks them. -/
def isCandidate (h : ClassHeader) : Bool :=
  !h.decorators.isEmpty || match h.superClass with
    | some (.call _ _ _) => true
    | _ => false

end ClassHeader

namespace ClassDeclaration

def ofTree (source : List Char) (t : Tree) : ClassDeclaration :=
  { header := ClassHeader.ofParts source t.children
    members := match t.children.find? fun c => c.kind == .classBody with
      | some body => body.children.filterMap (Node.ofMember? source)
      | none => [] }

def nodes (c : ClassDeclaration) : List Node := .header c.header :: c.members

end ClassDeclaration

end VueOptions.Source
