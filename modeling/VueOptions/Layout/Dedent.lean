import VueOptions.Script.Facts
import VueOptions.Text.Blank

/-!
Taking a statement out of its place. The lines after its first lose as much indentation as the line
has on which the statement starts; lines that begin inside a template literal stay as they are.
-/

set_option autoImplicit false

namespace VueOptions.Layout

open Text Script

def lastLine (cs : List Char) : List Char := (cs.reverse.takeWhile (· != '\n')).reverse

def indentation (line : List Char) : List Char := line.takeWhile isIndent

/-- A line with at most a number of spaces and tabs taken from its front. -/
def outdent (depth : Nat) (line : List Char) : List Char :=
  line.drop (min (indentation line).length depth)

def outdentLines (depth : Nat) (lines : List (List Char)) (flags : List Bool) : List (List Char) :=
  match lines, flags with
  | l :: ls, _ :: fs => l :: (ls.zip fs).map fun (line, inTemplate) =>
      if inTemplate then line else outdent depth line
  | _, _ => []

def depthAt (source : List Char) (start : Nat) : Nat :=
  (indentation (lastLine (takeBytes start source) ++ dropBytes start source)).length

def dedent (source : List Char) (span : Span) : List Char :=
  let text := span.of source
  joinLines (outdentLines (depthAt source span.start) (splitLines text) (templateLines text))

end VueOptions.Layout
