import VueOptions.Script.Facts

/-!
A writer of indented lines. Text goes to the end of the current line; a line keeps the depth at which
it was begun. Lines of a fragment that begin inside a template literal are written as they are.

What is to be written is a list of actions, so that a layout is a value: running it on a writer is
`Writer.run`, and what has been written so far is `Writer.source`.
-/

set_option autoImplicit false

namespace VueOptions.Layout

open Text Script

structure Line where
  text : List Char
  depth : Nat
  isVerbatim : Bool
  deriving DecidableEq, Repr

namespace Line

def begun (depth : Nat) : Line := ⟨[], depth, false⟩

def isBlank (l : Line) : Bool := l.text.isEmpty

def print (width : Nat) (l : Line) : List Char :=
  if l.isBlank then []
  else if l.isVerbatim then l.text
  else List.replicate (width * l.depth) ' ' ++ l.text

end Line

structure Writer where
  width : Nat
  depth : Nat
  /-- The lines before the current one, the latest first. -/
  earlier : List Line
  current : Line
  deriving DecidableEq, Repr

inductive Action
  /-- Write a text; a line feed in it begins a new line at the current depth. -/
  | write (text : String)
  /-- End the current line. -/
  | newLine
  /-- Have exactly one blank line before what is written next. -/
  | blankLine
  /-- Begin lines one level deeper. -/
  | indent
  /-- Begin lines one level less deep. -/
  | outdent
  /-- Write a block in braces, one level deeper; the closing brace stays open for more text. -/
  | block (body : List Action)

namespace Writer

def new (width : Nat) : Writer := ⟨width, 0, [], Line.begun 0⟩

def beginLine (w : Writer) (isVerbatim : Bool) : Writer :=
  { w with earlier := w.current :: w.earlier, current := ⟨[], w.depth, isVerbatim⟩ }

/-- Put characters at the end of the current line. -/
def append (w : Writer) (cs : List Char) : Writer :=
  { w with current := { w.current with text := w.current.text ++ cs } }

def appendLines (w : Writer) : List (List Char × Bool) → Writer
  | [] => w
  | (line, inTemplate) :: rest => ((w.beginLine inTemplate).append line).appendLines rest

def write (w : Writer) (text : List Char) : Writer :=
  match (splitLines text).zip (templateLines text) with
  | [] => w
  | (line, _) :: rest => (w.append line).appendLines rest

def newLine (w : Writer) : Writer := w.beginLine false

def endLine (w : Writer) : Writer := if w.current.isBlank then w else w.newLine

def blankLine (w : Writer) : Writer :=
  let w := w.endLine
  match w.earlier with
  | [] => w
  | l :: _ => if l.isBlank then w else w.newLine

/-- Go on at a depth; a current line without text moves there too. -/
def moveTo (w : Writer) (depth : Nat) : Writer :=
  { w with
    depth := depth
    current := if w.current.isBlank then { w.current with depth := depth } else w.current }

mutual
def step (w : Writer) : Action → Writer
  | .write text => w.write text.toList
  | .newLine => w.newLine
  | .blankLine => w.blankLine
  | .indent => w.moveTo (w.depth + 1)
  | .outdent => w.moveTo (w.depth - 1)
  | .block body =>
    let opened := (w.write ['\x7b']).newLine
    let filled := (run (opened.moveTo (opened.depth + 1)) body).endLine
    (filled.moveTo (filled.depth - 1)).write ['\x7d']
def run (w : Writer) : List Action → Writer
  | [] => w
  | a :: as => run (w.step a) as
end

def lines (w : Writer) : List Line :=
  (if w.current.isBlank then w.earlier else w.current :: w.earlier).reverse

/-- What has been written; a text that is not empty ends its last line. -/
def source (w : Writer) : List Char :=
  let text := joinLines (w.lines.map (Line.print w.width))
  if text.isEmpty then [] else text ++ ['\n']

def print (width : Nat) (actions : List Action) : List Char := ((new width).run actions).source

theorem run_append (w : Writer) (as bs : List Action) : w.run (as ++ bs) = (w.run as).run bs := by
  induction as generalizing w with
  | nil => rfl
  | cons a as ih => simp [run, ih]

end Writer

namespace Action

def line (text : String) : List Action := [.write text, .newLine]

end Action

end VueOptions.Layout
