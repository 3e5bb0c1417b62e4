import VueOptions.Proofs.Layout.Composition

/-!
A writer loses nothing. What is written is read off the actions as one text (`Action.allWritten`), a block
standing for its braces and what is between them. Lines are begun, moved and printed with blanks, but apart
from spaces and line feeds the text that is printed is the text that was written.
-/

set_option autoImplicit false

namespace VueOptions.Layout

open Text Script

/-- A text without its spaces and line feeds. -/
def ink (cs : List Char) : List Char := cs.filter fun c => c != ' ' && c != '\n'

mutual
def Action.written : Action → List Char
  | .write text => text.toList
  | .block body => ['\x7b'] ++ Action.allWritten body ++ ['\x7d']
  | .newLine | .blankLine | .indent | .outdent => []
def Action.allWritten : List Action → List Char
  | [] => []
  | a :: as => a.written ++ Action.allWritten as
end

@[simp] theorem ink_nil : ink [] = [] := rfl

@[simp] theorem ink_append (cs ds : List Char) : ink (cs ++ ds) = ink cs ++ ink ds :=
  List.filter_append ..

theorem ink_feed (cs : List Char) : ink ('\n' :: cs) = ink cs := rfl

theorem ink_spaces (n : Nat) : ink (List.replicate n ' ') = [] := by
  rw [ink, List.filter_eq_nil_iff]
  intro c mem
  rw [List.eq_of_mem_replicate mem]
  decide

theorem ink_joinLines (ls : List (List Char)) : ink (joinLines ls) = ls.flatMap ink := by
  unfold joinLines
  fun_induction join '\n' ls with
  | case1 => rfl
  | case2 l => exact (List.flatMap_singleton ink l).symm
  | case3 l ls _ ih => rw [ink_append, ink_feed, ih, List.flatMap_cons]

theorem Line.ink_print (width : Nat) (l : Line) : ink (l.print width) = ink l.text := by
  unfold Line.print
  split
  · next blank =>
    have none : l.text = [] := List.isEmpty_iff.mp blank
    rw [none]
  · split
    · rfl
    · rw [ink_append, ink_spaces, List.nil_append]

namespace Writer

def allLines (w : Writer) : List Line := (w.current :: w.earlier).reverse

def inked (w : Writer) : List Char := w.allLines.flatMap fun l => ink l.text

theorem allLines_eq (w : Writer) : w.allLines = w.earlier.reverse ++ [w.current] := by
  simp [allLines]

theorem inked_eq (w : Writer) :
    w.inked = (w.earlier.reverse.flatMap fun l => ink l.text) ++ ink w.current.text := by
  simp [inked, allLines_eq]

theorem inked_beginLine (w : Writer) (isVerbatim : Bool) : (w.beginLine isVerbatim).inked = w.inked := by
  simp [inked_eq, beginLine]

theorem inked_append (w : Writer) (cs : List Char) : (w.append cs).inked = w.inked ++ ink cs := by
  simp [inked_eq, append]

theorem inked_moveTo (w : Writer) (depth : Nat) : (w.moveTo depth).inked = w.inked := by
  have text : (w.moveTo depth).current.text = w.current.text := by
    simp only [moveTo]
    split <;> rfl
  rw [inked_eq, text, inked_eq]
  rfl

theorem inked_endLine (w : Writer) : w.endLine.inked = w.inked := by
  unfold endLine
  split
  · rfl
  · exact inked_beginLine w false

theorem inked_blankLine (w : Writer) : w.blankLine.inked = w.inked := by
  have ended := inked_endLine w
  unfold blankLine
  dsimp only
  split
  · exact ended
  · split
    · exact ended
    · exact (inked_beginLine w.endLine false).trans ended

theorem inked_appendLines (lines : List (List Char × Bool)) (w : Writer) :
    (w.appendLines lines).inked = w.inked ++ (lines.map Prod.fst).flatMap ink := by
  induction lines generalizing w with
  | nil => simp [appendLines]
  | cons line lines ih =>
    rw [appendLines, ih, inked_append, inked_beginLine, List.append_assoc]
    rfl

theorem inked_write (w : Writer) (text : List Char) : (w.write text).inked = w.inked ++ ink text := by
  -- each line of the text has a flag, so that pairing them leaves out no line
  have paired : ((splitLines text).zip (templateLines text)).map Prod.fst = splitLines text :=
    List.map_fst_zip (Nat.le_of_eq (length_templateLines text).symm)
  have pieces : (splitLines text).flatMap ink = ink text := by
    rw [← ink_joinLines, joinLines, join_split]
  rw [← pieces, ← paired]
  unfold write
  split
  · next none => simp [none]
  · next line _ rest some =>
    rw [inked_appendLines, inked_append, some, List.append_assoc]
    rfl

mutual
theorem inked_step (w : Writer) : (a : Action) → (w.step a).inked = w.inked ++ ink a.written
  | .write text => inked_write w text.toList
  | .newLine => (inked_beginLine w false).trans (List.append_nil _).symm
  | .blankLine => (inked_blankLine w).trans (List.append_nil _).symm
  | .indent => (inked_moveTo w _).trans (List.append_nil _).symm
  | .outdent => (inked_moveTo w _).trans (List.append_nil _).symm
  | .block body => by
    have filled := inked_run (((w.write ['\x7b']).newLine).moveTo (((w.write ['\x7b']).newLine).depth + 1)) body
    rw [step, inked_write, inked_moveTo, inked_endLine, filled, inked_moveTo, newLine, inked_beginLine,
      inked_write, Action.written, ink_append, ink_append]
    simp only [List.append_assoc]
theorem inked_run (w : Writer) : (as : List Action) → (w.run as).inked = w.inked ++ ink (Action.allWritten as)
  | [] => (List.append_nil _).symm
  | a :: as => by
    rw [run, inked_run (w.step a) as, inked_step w a, Action.allWritten, ink_append, List.append_assoc]
end

theorem inked_lines (w : Writer) : (w.lines.flatMap fun l => ink l.text) = w.inked := by
  unfold lines
  split
  · next blank =>
    have none : w.current.text = [] := List.isEmpty_iff.mp blank
    rw [inked_eq, none, ink_nil, List.append_nil]
  · rfl

theorem ink_source (w : Writer) : ink w.source = w.inked := by
  have printed : ink (joinLines (w.lines.map (Line.print w.width))) = w.inked := by
    rw [ink_joinLines, List.flatMap_map]
    simp only [Line.ink_print]
    exact inked_lines w
  unfold source
  dsimp only
  split
  · next empty => rw [← printed, List.isEmpty_iff.mp empty]
  · rw [ink_append, printed]
    exact List.append_nil _

theorem source_ends (w : Writer) : w.source = [] ∨ w.source.getLast? = some '\n' := by
  unfold source
  dsimp only
  split
  · exact .inl rfl
  · exact .inr List.getLast?_concat

/-- Whatever is written, in blocks and at any depth, is printed in full and in order, and what is printed
ends its last line. -/
theorem print_loses_nothing (width : Nat) (as : List Action) :
    ink (print width as) = ink (Action.allWritten as) ∧
      (print width as = [] ∨ (print width as).getLast? = some '\n') := by
  have fresh : (new width).inked = [] := rfl
  refine ⟨?_, source_ends _⟩
  rw [print, ink_source, inked_run, fresh, List.nil_append]

end Writer

end VueOptions.Layout
