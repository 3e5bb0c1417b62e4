import VueOptions.Proofs.Layout.Composition

/-!
What stands at the front of the first line stays there, whatever is written behind it: an entry that
begins with a text within a line is printed with that text behind the indentation.
-/

set_option autoImplicit false

namespace VueOptions.Layout

open Text Script

namespace Writer

variable {w : Writer} {width depth : Nat} {head : List Char}

/-- The first line was begun at a depth and starts with a text. -/
def Starts (w : Writer) (width depth : Nat) (head : List Char) : Prop :=
  w.width = width ∧ head ≠ [] ∧ ∃ l, (w.current :: w.earlier).getLast? = some l ∧ l.depth = depth ∧
    l.isVerbatim = false ∧ head <+: l.text

theorem isBlank_of_front {l : Line} (ne : head ≠ []) (front : head <+: l.text) : l.isBlank = false := by
  cases text : l.text with
  | nil =>
    rw [text] at front
    exact absurd (List.prefix_nil.mp front) ne
  | cons c cs => simp [Line.isBlank, text]

theorem Starts.beginLine (starts : w.Starts width depth head) (isVerbatim : Bool) :
    (w.beginLine isVerbatim).Starts width depth head := by
  obtain ⟨same, ne, l, last, facts⟩ := starts
  exact ⟨same, ne, l, by rw [← last]; rfl, facts⟩

theorem Starts.change (starts : w.Starts width depth head) {w' : Writer} (unit : w'.width = w.width)
    (earlier : w'.earlier = w.earlier) (kept : w.current.isBlank = false → w'.current.depth = w.current.depth ∧
      w'.current.isVerbatim = w.current.isVerbatim ∧ w.current.text <+: w'.current.text) :
    w'.Starts width depth head := by
  obtain ⟨same, ne, l, last, facts⟩ := starts
  cases shape : w.earlier with
  | nil =>
    rw [shape] at last
    obtain rfl : w.current = l := Option.some.inj last
    obtain ⟨hdepth, verbatim, front⟩ := facts
    have filled : w.current.isBlank = false := isBlank_of_front ne front
    obtain ⟨sameDepth, sameFlag, longer⟩ := kept filled
    refine ⟨unit.trans same, ne, w'.current, ?_, sameDepth.trans hdepth, sameFlag.trans verbatim, front.trans longer⟩
    rw [earlier, shape]
    rfl
  | cons e es =>
    refine ⟨unit.trans same, ne, l, ?_, facts⟩
    rw [shape] at last
    rw [earlier, shape, ← last]
    rfl

theorem Starts.append (starts : w.Starts width depth head) (cs : List Char) : (w.append cs).Starts width depth head :=
  starts.change rfl rfl fun _ => ⟨rfl, rfl, List.prefix_append _ _⟩

theorem Starts.appendLines (starts : w.Starts width depth head) (lines : List (List Char × Bool)) :
    (w.appendLines lines).Starts width depth head := by
  induction lines generalizing w with
  | nil => exact starts
  | cons line lines ih => exact ih ((starts.beginLine line.2).append line.1)

theorem Starts.write (starts : w.Starts width depth head) (text : List Char) :
    (w.write text).Starts width depth head := by
  unfold Writer.write
  split
  · exact starts
  · exact (starts.append _).appendLines _

theorem Starts.endLine (starts : w.Starts width depth head) : w.endLine.Starts width depth head := by
  unfold Writer.endLine
  split
  · exact starts
  · exact starts.beginLine false

theorem Starts.blankLine (starts : w.Starts width depth head) : w.blankLine.Starts width depth head := by
  unfold Writer.blankLine
  have ended := starts.endLine
  dsimp only
  split
  · exact ended
  · split
    · exact ended
    · exact ended.beginLine false

theorem Starts.moveTo (starts : w.Starts width depth head) (n : Nat) : (w.moveTo n).Starts width depth head := by
  refine starts.change rfl rfl fun filled => ?_
  simp [Writer.moveTo, filled]

mutual
theorem Starts.step {w : Writer} {width depth : Nat} {head : List Char} (starts : w.Starts width depth head) :
    (a : Action) → (w.step a).Starts width depth head
  | .write text => starts.write text.toList
  | .newLine => starts.beginLine false
  | .blankLine => starts.blankLine
  | .indent => starts.moveTo (w.depth + 1)
  | .outdent => starts.moveTo (w.depth - 1)
  | .block body => by
    have opened : ((w.write ['\x7b']).newLine).Starts width depth head := (starts.write _).beginLine false
    have filled := (Starts.run (opened.moveTo (((w.write ['\x7b']).newLine).depth + 1)) body).endLine
    exact (filled.moveTo _).write _
theorem Starts.run {w : Writer} {width depth : Nat} {head : List Char} (starts : w.Starts width depth head) :
    (as : List Action) → (w.run as).Starts width depth head
  | [] => starts
  | a :: as => Starts.run (Starts.step starts a) as
end

theorem exists_lines {w : Writer} {l : Line} (last : (w.current :: w.earlier).getLast? = some l)
    (filled : l.isBlank = false) : ∃ ls, w.lines = l :: ls := by
  obtain ⟨init, split⟩ := List.getLast?_eq_some_iff.mp last
  unfold Writer.lines
  split
  · next blank =>
    cases init with
    | nil =>
      rw [(List.cons.inj split).1, filled] at blank
      cases blank
    | cons c init =>
      obtain ⟨-, rest⟩ := List.cons.inj split
      exact ⟨init.reverse, by rw [rest]; simp⟩
  · exact ⟨init.reverse, by rw [split]; simp⟩

theorem Starts.source_eq (starts : w.Starts width depth head) :
    ∃ tail, w.source = List.replicate (width * depth) ' ' ++ (head ++ tail) := by
  obtain ⟨rfl, ne, l, last, hdepth, verbatim, front⟩ := starts
  have filled : l.isBlank = false := isBlank_of_front ne front
  obtain ⟨ls, lines⟩ := exists_lines last filled
  obtain ⟨more, text⟩ := front
  have printed : l.print w.width = List.replicate (w.width * depth) ' ' ++ (head ++ more) := by
    rw [Line.print, filled, verbatim, hdepth, ← text]
    rfl
  obtain ⟨behind, joined⟩ : ∃ behind, joinLines (w.lines.map (Line.print w.width)) =
      l.print w.width ++ behind := by
    rw [lines, List.map_cons]
    cases ls.map (Line.print w.width) with
    | nil => exact ⟨[], (List.append_nil _).symm⟩
    | cons m ms => exact ⟨_, join_cons (List.cons_ne_nil m ms)⟩
  have notEmpty : (joinLines (w.lines.map (Line.print w.width))).isEmpty = false := by
    rw [joined, printed]
    simp [ne]
  refine ⟨more ++ (behind ++ ['\n']), ?_⟩
  unfold Writer.source
  simp only [notEmpty]
  rw [joined, printed]
  simp

end Writer

theorem splitLines_of_prefix {head text : List Char} (inLine : '\n' ∉ head) (front : head <+: text) :
    ∃ l ls, splitLines text = l :: ls ∧ head <+: l := by
  obtain ⟨more, rfl⟩ := front
  induction head with
  | nil =>
    obtain ⟨l, ls, shape⟩ := List.exists_cons_of_ne_nil (split_ne_nil '\n' more)
    exact ⟨l, ls, shape, List.nil_prefix⟩
  | cons c head ih =>
    rw [List.mem_cons, not_or] at inLine
    obtain ⟨l, ls, shape, front⟩ := ih inLine.2
    refine ⟨c :: l, ls, ?_, List.cons_prefix_cons.mpr ⟨rfl, front⟩⟩
    have tail : split '\n' (head ++ more) = l :: ls := shape
    rw [List.cons_append, splitLines, split, if_neg (Ne.symm inLine.1), tail]

theorem standAlone_write (width depth : Nat) {head : List Char} {text : String} (rest : List Action)
    (ne : head ≠ []) (inLine : '\n' ∉ head) (front : head <+: text.toList) :
    ∃ tail, standAlone width depth (.write text :: rest) =
      List.replicate (width * depth) ' ' ++ (head ++ tail) := by
  have starts : ((Writer.mk width depth [] (Line.begun depth)).write text.toList).Starts width depth head := by
    obtain ⟨l, ls, lines, first⟩ := splitLines_of_prefix inLine front
    have flags := length_templateLines text.toList
    rw [lines] at flags
    obtain ⟨f, fs, shape⟩ := List.exists_cons_of_length_eq_add_one flags
    rw [Writer.write, lines, shape, List.zip_cons_cons]
    have begun : ((Writer.mk width depth [] (Line.begun depth)).append l).Starts width depth head :=
      ⟨rfl, ne, ⟨l, depth, false⟩, rfl, rfl, rfl, first⟩
    exact begun.appendLines _
  rw [standAlone, Writer.print, Writer.run_append, run_indents]
  exact (starts.run rest).source_eq

end VueOptions.Layout
