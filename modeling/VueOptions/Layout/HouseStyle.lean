import VueOptions.Script.Facts
import VueOptions.Text.Blank
import VueOptions.Text.Sorted

/-!
House style of a module: single quotes, no semicolon at the end of a line, spaces instead of leading
tabs, no blanks at the end of a line, at most one blank line in a row and none just inside braces.
The text of template literals is never touched. A text that is no module keeps its lines.
-/

set_option autoImplicit false

namespace VueOptions.Layout

open Text Script

structure Edit where
  span : Span
  replacement : List Char
  deriving DecidableEq, Repr

namespace Edit

/-- Carry out edits that are in order and apart, on the text from an offset on. -/
def applyFrom (offset : Nat) (text : List Char) : List Edit → List Char
  | [] => text
  | e :: es =>
    takeBytes (e.span.start - offset) text ++ e.replacement
      ++ applyFrom e.span.stop (dropBytes (e.span.stop - offset) text) es

def apply (text : List Char) (edits : List Edit) : List Char := applyFrom 0 text edits

end Edit

/-- A body in double quotes for use in single quotes: a double quote needs no backslash. -/
def requote : List Char → List Char
  | [] => []
  | '\\' :: '"' :: cs => '"' :: requote cs
  | c :: cs => c :: requote cs

/-- The change of a string literal in double quotes that holds no single quote. -/
def quoteEdit? (text : List Char) (s : Span) : Option Edit :=
  if charAt? s.start text == some '"' then
    let inner := slice text (s.start + 1) (s.stop - 1)
    if inner.contains '\'' then none
    else some ⟨s, '\'' :: requote inner ++ ['\'']⟩
  else none

def joinsStatement (c : Char) : Bool :=
  c = '(' || c = '[' || c = '\x60' || c = '+' || c = '-' || c = '/'

/-- Whether a semicolon can go: nothing but a comment follows it on its line, and the next line with
something on it does not join. -/
def isDroppable (text : List Char) (offset : Nat) : Bool :=
  let rest := dropBytes (offset + 1) text
  let line := trim (rest.takeWhile (· != '\n'))
  let following := (rest.dropWhile (· != '\n')).drop 1
  (line.isEmpty || ['/', '/'].isPrefixOf line)
    && !((trimStart following).head?.any joinsStatement)

def edits (text : List Char) (f : Facts) : List Edit :=
  sortBy (fun e => e.span.start)
    (f.strings.filterMap (quoteEdit? text)
      ++ (f.terminators.filter (isDroppable text)).map fun o => ⟨⟨o, o + 1⟩, []⟩)

def expandTabs (width : Nat) (line : List Char) : List Char :=
  List.replicate (width * (line.takeWhile (· == '\t')).length) ' ' ++ line.dropWhile (· == '\t')

/-- Lines outside template literals with their tabs made into spaces. -/
def expandLines (width : Nat) (lines : List (List Char)) (flags : List Bool) : List (List Char) :=
  (lines.zip flags).map fun (line, inTemplate) => if inTemplate then line else expandTabs width line

/-- Take one more line behind the lines kept so far, the latest first. -/
def tidyStep (kept : List (List Char)) (line : List Char) (inTemplate endsInTemplate : Bool) :
    List (List Char) :=
  if inTemplate then line :: kept
  else
    let line := if endsInTemplate then line else trimEnd line
    if line.isEmpty then
      match kept with
      | [] => []
      | prev :: _ => if prev.isEmpty || prev.getLast? == some '\x7b' then kept else line :: kept
    else if (trimStart line).head? == some '\x7d' then line :: kept.dropWhile List.isEmpty
    else line :: kept

/-- Take the lines one after another; a line ends in a template if the next one begins in it. -/
def tidyFrom (kept : List (List Char)) : List (List Char) → List Bool → List (List Char)
  | [], _ => kept
  | line :: lines, flags =>
    tidyFrom (tidyStep kept line (flags.head?.getD false) (flags.tail.head?.getD false)) lines flags.tail

/-- The lines without the blank ones that house style drops. -/
def tidyLines (lines : List (List Char)) (flags : List Bool) : List (List Char) :=
  ((tidyFrom [] lines flags).dropWhile List.isEmpty).reverse

def tidy (lines : List (List Char)) (flags : List Bool) : List Char :=
  joinLines (tidyLines lines flags) ++ ['\n']

def normalize (text : List Char) (width : Nat) : List Char :=
  match Facts.ofModule? text with
  | none => dropEndWhile (· == '\n') text ++ ['\n']
  | some f =>
    let flags := f.templateLines text
    let edited := Edit.apply text (edits text f)
    tidy (expandLines width (splitLines edited) flags) flags

end VueOptions.Layout
