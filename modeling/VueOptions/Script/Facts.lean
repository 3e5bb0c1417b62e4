import VueOptions.Script.Grammar.Statement
import VueOptions.Text.Lines

/-!
Facts about a text that later passes over its characters need: where its string literals stand,
where template literals keep their own text, and which semicolons end a statement, a field or a
member of a type. They are read off the tokens that the grammar passed and off the tree. A fragment
that is no module by itself is read inside a frame, and its facts are moved back.
-/

set_option autoImplicit false

namespace VueOptions.Script

/-- Places in a text that say how it may be laid out. -/
structure Facts where
  /-- The text of template literals, without the marks around it. -/
  templates : List Span
  /-- String literals with their quotes, in order. -/
  strings : List Span
  /-- Offsets of the semicolons that end something, in order. -/
  terminators : List Nat
  deriving DecidableEq, Repr

namespace Kind

/-- Constructs that end with their own semicolon. Compound statements end with a body, whose
semicolon is not theirs. -/
def ownsTerminator : Kind → Bool
  | .expressionStatement | .variables _ _ | .returnStatement | .throwStatement | .breakStatement
  | .continueStatement | .doLoop | .debuggerStatement | .importDeclaration _ | .exportAll _
  | .exportNames _ | .exportDeclaration | .exportDefault | .typeAlias _ | .exportAssignment
  | .importEquals _ | .field _ _ _ | .signature _ => true
  | _ => false

end Kind

namespace Passage

def string? (p : Passage) : Option Span :=
  match p.token.lexeme with
  | .string _ => some p.token.span
  | _ => none

/-- The span of the text of a template literal, without the marks around it. -/
def chunk? (p : Passage) : Option Span :=
  match p.token.lexeme with
  | .template _ isLast _ => some ⟨p.token.span.start + 1, p.token.span.stop - if isLast then 1 else 2⟩
  | _ => none

def semicolon? (p : Passage) : Option Nat :=
  if p.token.lexeme = .mark .semicolon then some p.token.span.start else none

end Passage

namespace Facts

def terminator? (t : Tree) : Option Nat :=
  if t.kind.ownsTerminator then some (t.span.stop - 1) else none

/-- The facts that a reading shows, restricted to a window of the text and counted from its start. -/
def ofReading (start size : Nat) (r : Reading) : Facts :=
  let moved := fun (spans : List Span) =>
    (spans.filter fun s => start ≤ s.start && s.stop ≤ start + size).map fun s =>
      Span.mk (s.start - start) (s.stop - start)
  let owned := r.tree.nodes.filterMap terminator?
  { templates := moved (r.passed.filterMap Passage.chunk?)
    strings := moved (r.passed.filterMap Passage.string?)
    terminators := ((r.passed.filterMap Passage.semicolon?).filter fun o =>
      owned.contains o && start ≤ o && o < start + size).map (· - start) }

/-- What is put before and after a fragment to make it a module. -/
structure Frame where
  before : List Char
  after : List Char

def ofFramed? (frame : Frame) (text : List Char) : Option Facts :=
  (Reading.ofModule? (frame.before ++ text ++ frame.after)).map
    (ofReading (Text.byteLength frame.before) (Text.byteLength text))

def bare : Frame := ⟨[], []⟩

/-- The body of a method that may await, yield and call the super class. -/
def methodFrame : Frame :=
  ⟨"class _ extends Object \x7b async *_() \x7b\n".toList, "\n\x7d \x7d".toList⟩

def objectFrame : Frame := ⟨"(\x7b\n".toList, "\n\x7d)".toList⟩

def parenthesisFrame : Frame := ⟨"(\n".toList, "\n)".toList⟩

def frames : List Frame := [bare, methodFrame, objectFrame, parenthesisFrame]

def ofModule? (text : List Char) : Option Facts := ofFramed? bare text

/-- The facts of a statement, a declaration, an entry of an object or an expression. -/
def ofFragment? (text : List Char) : Option Facts := frames.findSome? fun f => ofFramed? f text

def inTemplate (f : Facts) (offset : Nat) : Bool := f.templates.any fun s => s.contains offset

def lineFeeds : Nat → List Char → List Nat
  | _, [] => []
  | n, c :: cs => if c = '\n' then n :: lineFeeds (n + 1) cs else lineFeeds (n + c.utf8Size) cs

/-- For each line of a text, whether it begins inside a template literal. -/
def templateLines (f : Facts) (text : List Char) : List Bool :=
  false :: (lineFeeds 0 text).map f.inTemplate

theorem length_lineFeeds (n : Nat) (text : List Char) :
    (lineFeeds n text).length = text.count '\n' := by
  induction text generalizing n with
  | nil => rfl
  | cons c cs ih => by_cases h : c = '\n' <;> simp [lineFeeds, h, ih]

theorem length_templateLines (f : Facts) (text : List Char) :
    (f.templateLines text).length = (Text.splitLines text).length := by
  rw [templateLines, List.length_cons, List.length_map, length_lineFeeds, Text.length_split]

end Facts

/-- For each line of a fragment, whether it begins inside a template literal. A fragment that cannot
be read in any frame has no such lines. -/
def templateLines (text : List Char) : List Bool :=
  if text.contains '\n' then
    match Facts.ofFragment? text with
    | some f => f.templateLines text
    | none => (Text.splitLines text).map fun _ => false
  else [false]

end VueOptions.Script
