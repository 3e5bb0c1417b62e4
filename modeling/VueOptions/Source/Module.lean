import VueOptions.Source.Member

/-!
A module: its statements, told apart as far as the output treats them differently. The classes that
may be components give the nodes for classification; imports and all other statements are carried
over, except for exports of those classes.
-/

set_option autoImplicit false

namespace VueOptions.Source

open Script

/-- A name in the braces of an export: the binding it stands for, and its source text. -/
structure ExportedName where
  binding : String
  text : String
  deriving DecidableEq, Repr

inductive StatementForm
  | importing (source : String)
  | typeAlias
  | interface
  | classLike (c : ClassDeclaration)
  | exportNames (hasSource : Bool) (names : List ExportedName)
  | exportDefaultName (name : String)
  | other

structure Statement where
  text : String
  form : StatementForm

structure Module where
  statements : List Statement

/-- The kinds of statements that are carried over, in the order they are written. -/
inductive CarriedKind
  | typeAlias
  | interface
  | other
  deriving DecidableEq, Repr

namespace StatementForm

def ofDeclaration (source : List Char) (t : Tree) : StatementForm :=
  match t.kind with
  | .typeAlias _ => .typeAlias
  | .interfaceDeclaration _ => .interface
  | .classNode _ => .classLike (ClassDeclaration.ofTree source t)
  | _ => .other

/-- The value of the string literal among the parts of an import or export. -/
def sourceOf? (parts : List Tree) : Option String :=
  parts.findSome? fun t =>
    match t.kind with
    | .string value => some value
    | _ => none

def namesOf (source : List Char) (parts : List Tree) : List ExportedName :=
  parts.filterMap fun t =>
    match t.kind, t.children with
    | .exportSpecifier _, name :: _ => some ⟨name.span.text source, t.span.text source⟩
    | _, _ => none

def ofTree (source : List Char) (t : Tree) : StatementForm :=
  match t.kind, t.children with
  | .importDeclaration _, parts => .importing ((sourceOf? parts).getD "")
  | .exportDeclaration, [d] => ofDeclaration source d
  | .exportDefault, [.node (.classNode m) s parts] =>
    .classLike (ClassDeclaration.ofTree source (.node (.classNode m) s parts))
  | .exportDefault, [.node (.identifier name) _ _] => .exportDefaultName name
  | .exportNames _, parts => .exportNames (sourceOf? parts).isSome (namesOf source parts)
  | _, _ => ofDeclaration source t

end StatementForm

namespace Statement

def candidate? (s : Statement) : Option ClassDeclaration :=
  match s.form with
  | .classLike c => if c.header.isCandidate then some c else none
  | _ => none

def import? (s : Statement) : Option (String × String) :=
  match s.form with
  | .importing source => some (source, s.text)
  | _ => none

def withoutComponents (components : List String) (names : List ExportedName) (text : String) :
    Option String :=
  let kept := names.filter fun n => !components.contains n.binding
  if kept.length = names.length then some text
  else if kept.isEmpty then none
  else some ("export \x7b " ++ ", ".intercalate (kept.map ExportedName.text) ++ " \x7d")

/-- What is carried over of a statement, given the names of the component classes. -/
def carried? (components : List String) (s : Statement) : Option (CarriedKind × String) :=
  match s.form with
  | .importing _ => none
  | .typeAlias => some (.typeAlias, s.text)
  | .interface => some (.interface, s.text)
  | .classLike c => if c.header.isCandidate then none else some (.other, s.text)
  | .exportNames true _ => some (.other, s.text)
  | .exportNames false names => (withoutComponents components names s.text).map (CarriedKind.other, ·)
  | .exportDefaultName name => if components.contains name then none else some (.other, s.text)
  | .other => some (.other, s.text)

end Statement

namespace Module

def ofTree (source : List Char) (t : Tree) : Module :=
  { statements := (t.children.filter fun s => s.kind != .directive).map fun s =>
      ⟨s.span.text source, StatementForm.ofTree source s⟩ }

def parse? (source : String) : Option Module :=
  (Tree.ofModule? source.toList).map (ofTree source.toList)

def candidates (m : Module) : List ClassDeclaration := m.statements.filterMap Statement.candidate?

def nodes (m : Module) : List Node := m.candidates.flatMap ClassDeclaration.nodes

def imports (m : Module) : List (String × String) := m.statements.filterMap Statement.import?

def candidateNames (m : Module) : List String := m.candidates.filterMap fun c => c.header.name

def carried (m : Module) : List (CarriedKind × String) :=
  m.statements.filterMap (Statement.carried? m.candidateNames)

end Module

end VueOptions.Source
