import VueOptions.Proofs.Layout.WrittenText

/-!
Indentation is a shift. A writer that is raised before it writes prints the lines it prints otherwise, each
of them further to the right by the same number of spaces; blank lines and lines that begin inside a template
literal stay as they are. This needs that the actions never lower the writer below the level where they
start (`Action.StaysUp`), since a writer at the margin cannot be lowered.
-/

set_option autoImplicit false

namespace VueOptions.Layout

open Text Script

def lowered? : Nat → Option Nat
  | 0 => none
  | n + 1 => some n

mutual
/-- The level after an action; none if it goes below the lowest level on the way. -/
def Action.levelAfter? (level : Nat) : Action → Option Nat
  | .indent => some (level + 1)
  | .outdent => lowered? level
  | .block body => (Action.levelAfterAll? (level + 1) body).bind lowered?
  | .write _ | .newLine | .blankLine => some level
def Action.levelAfterAll? (level : Nat) : List Action → Option Nat
  | [] => some level
  | a :: as => (a.levelAfter? level).bind fun n => Action.levelAfterAll? n as
end

/-- Actions that never go below the level where they start. -/
def Action.StaysUp (as : List Action) : Prop := (Action.levelAfterAll? 0 as).isSome = true

theorem lowered?_eq_some {n m : Nat} (h : lowered? n = some m) : n = m + 1 := by
  cases n with
  | zero => cases h
  | succ n => rw [Option.some.inj h]

def Line.raise (d : Nat) (l : Line) : Line := { l with depth := l.depth + d }

namespace Writer

def raise (d : Nat) (w : Writer) : Writer :=
  { w with
    depth := w.depth + d
    earlier := w.earlier.map (Line.raise d)
    current := w.current.raise d }

variable (d : Nat) (w : Writer)

theorem raise_beginLine (isVerbatim : Bool) :
    (w.raise d).beginLine isVerbatim = (w.beginLine isVerbatim).raise d := rfl

theorem raise_moveTo (n : Nat) : (w.raise d).moveTo (n + d) = (w.moveTo n).raise d := by
  have blank : (w.raise d).current.isBlank = w.current.isBlank := rfl
  unfold moveTo
  rw [blank]
  split <;> rfl

theorem raise_endLine : (w.raise d).endLine = w.endLine.raise d := by
  have blank : (w.raise d).current.isBlank = w.current.isBlank := rfl
  unfold endLine
  rw [blank]
  split <;> rfl

theorem raise_blankLine : (w.raise d).blankLine = w.blankLine.raise d := by
  unfold blankLine
  dsimp only
  rw [raise_endLine]
  generalize w.endLine = ended
  have raised : (ended.raise d).earlier = ended.earlier.map (Line.raise d) := rfl
  rw [raised]
  cases ended.earlier with
  | nil => rfl
  | cons l ls =>
    have blank : (l.raise d).isBlank = l.isBlank := rfl
    simp only [List.map_cons, blank]
    split <;> rfl

theorem raise_appendLines (lines : List (List Char × Bool)) :
    (w.raise d).appendLines lines = (w.appendLines lines).raise d := by
  induction lines generalizing w with
  | nil => rfl
  | cons line lines ih => exact ih ((w.beginLine line.2).append line.1)

theorem raise_write (text : List Char) : (w.raise d).write text = (w.write text).raise d := by
  unfold write
  split
  · rfl
  · next line _ rest _ => exact raise_appendLines d (w.append line) rest

theorem depth_appendLines (lines : List (List Char × Bool)) : (w.appendLines lines).depth = w.depth := by
  induction lines generalizing w with
  | nil => rfl
  | cons line lines ih => exact ih ((w.beginLine line.2).append line.1)

theorem depth_write (text : List Char) : (w.write text).depth = w.depth := by
  unfold write
  split
  · rfl
  · next line _ rest _ => exact depth_appendLines (w.append line) rest

theorem depth_endLine : w.endLine.depth = w.depth := by
  unfold endLine
  split <;> rfl

theorem depth_blankLine : w.blankLine.depth = w.depth := by
  have ended := depth_endLine w
  unfold blankLine
  dsimp only
  split
  · exact ended
  · split
    · exact ended
    · exact ended

def enter : Writer := (w.write ['\x7b']).newLine.moveTo ((w.write ['\x7b']).newLine.depth + 1)

def leave : Writer := (w.endLine.moveTo (w.endLine.depth - 1)).write ['\x7d']

theorem step_block (body : List Action) : w.step (.block body) = (w.enter.run body).leave := by
  rw [step]
  rfl

theorem depth_enter : w.enter.depth = w.depth + 1 := by
  have same : (w.write ['\x7b']).newLine.depth = w.depth := depth_write w _
  change (w.write ['\x7b']).newLine.depth + 1 = _
  rw [same]

theorem raise_enter : (w.raise d).enter = w.enter.raise d := by
  have deeper : ((w.write ['\x7b']).raise d).newLine.depth + 1 = (w.write ['\x7b']).newLine.depth + 1 + d :=
    Nat.add_right_comm ..
  unfold enter
  rw [raise_write, deeper, newLine, raise_beginLine, raise_moveTo]
  rfl

theorem depth_leave {n : Nat} (level : w.depth = n + 1) : w.leave.depth = n := by
  have moved : w.leave.depth = w.endLine.depth - 1 := depth_write _ _
  rw [moved, depth_endLine, level]
  rfl

theorem raise_leave {n : Nat} (level : w.depth = n + 1) : (w.raise d).leave = w.leave.raise d := by
  have above : (w.endLine.raise d).depth - 1 = w.endLine.depth - 1 + d := by
    change w.endLine.depth + d - 1 = _
    rw [depth_endLine, level]
    omega
  unfold leave
  rw [raise_endLine, above, raise_moveTo, raise_write]

variable {w}

mutual
theorem raise_step {w : Writer} {n : Nat} (d : Nat) : (a : Action) → a.levelAfter? w.depth = some n →
    (w.raise d).step a = (w.step a).raise d ∧ (w.step a).depth = n
  | .write text, level => by
    cases level
    exact ⟨raise_write d w text.toList, depth_write w text.toList⟩
  | .newLine, level => by
    cases level
    exact ⟨rfl, rfl⟩
  | .blankLine, level => by
    cases level
    exact ⟨raise_blankLine d w, depth_blankLine w⟩
  | .indent, level => by
    cases level
    have deeper : (w.raise d).depth + 1 = w.depth + 1 + d := Nat.add_right_comm ..
    refine ⟨?_, rfl⟩
    rw [step, step, deeper, raise_moveTo]
  | .outdent, level => by
    have some : w.depth = n + 1 := lowered?_eq_some level
    have above : (w.raise d).depth - 1 = w.depth - 1 + d := by
      change w.depth + d - 1 = _
      omega
    refine ⟨?_, ?_⟩
    · rw [step, step, above, raise_moveTo]
    · change w.depth - 1 = n
      omega
  | .block body, level => by
    obtain ⟨inner, reached, left⟩ := Option.bind_eq_some_iff.mp level
    rw [← depth_enter] at reached
    obtain ⟨same, depth⟩ := raise_run d body reached
    rw [lowered?_eq_some left] at depth
    refine ⟨?_, ?_⟩
    · rw [step_block, step_block, raise_enter, same, raise_leave d _ depth]
    · rw [step_block, depth_leave _ depth]
theorem raise_run {w : Writer} {n : Nat} (d : Nat) : (as : List Action) →
    Action.levelAfterAll? w.depth as = some n →
    (w.raise d).run as = (w.run as).raise d ∧ (w.run as).depth = n
  | [], level => ⟨rfl, Option.some.inj level⟩
  | a :: as, level => by
    obtain ⟨m, first, rest⟩ := Option.bind_eq_some_iff.mp level
    obtain ⟨same, depth⟩ := raise_step d a first
    rw [← depth] at rest
    rw [run, run, same]
    exact raise_run d as rest
end

/-- The lines that were begun between two writers other than by a fragment. -/
def begunPlain (w w' : Writer) : List Bool := List.replicate (w'.earlier.length - w.earlier.length) false

mutual
/-- For each line that an action begins, whether it begins inside a template literal of its fragment. -/
def begun (w : Writer) : Action → List Bool
  | .write text => (templateLines text.toList).tail
  | .block body =>
    false :: (begunAll w.enter body ++ begunPlain (w.enter.run body) (w.enter.run body).endLine)
  | .newLine => begunPlain w w.newLine
  | .blankLine => begunPlain w w.blankLine
  | .indent | .outdent => []
/-- For each line that actions begin, whether it begins inside a template literal of its fragment. -/
def begunAll (w : Writer) : List Action → List Bool
  | [] => []
  | a :: as => begun w a ++ begunAll (w.step a) as
end

def verbatim (w : Writer) : List Bool := w.allLines.map Line.isVerbatim

theorem verbatim_beginLine (w : Writer) (isVerbatim : Bool) :
    (w.beginLine isVerbatim).verbatim = w.verbatim ++ [isVerbatim] := by
  simp [verbatim, allLines, beginLine]

theorem verbatim_append (w : Writer) (cs : List Char) : (w.append cs).verbatim = w.verbatim := by
  simp [verbatim, allLines, append]

theorem verbatim_moveTo (w : Writer) (depth : Nat) : (w.moveTo depth).verbatim = w.verbatim := by
  have same : (w.moveTo depth).current.isVerbatim = w.current.isVerbatim := by
    simp only [moveTo]
    split <;> rfl
  rw [verbatim, allLines_eq, verbatim, allLines_eq, List.map_append, List.map_append, List.map_singleton,
    List.map_singleton, same]
  rfl

theorem verbatim_of_replicate {w w' : Writer} {k : Nat}
    (more : w'.verbatim = w.verbatim ++ List.replicate k false) :
    w'.verbatim = w.verbatim ++ begunPlain w w' := by
  have count := congrArg List.length more
  simp only [verbatim, allLines, List.length_map, List.length_reverse, List.length_cons,
    List.length_append, List.length_replicate] at count
  have difference : w'.earlier.length - w.earlier.length = k := by omega
  rw [begunPlain, difference, more]

theorem exists_verbatim_endLine (w : Writer) :
    ∃ k, w.endLine.verbatim = w.verbatim ++ List.replicate k false := by
  unfold endLine
  split
  · exact ⟨0, (List.append_nil _).symm⟩
  · exact ⟨1, verbatim_beginLine w false⟩

theorem exists_verbatim_blankLine (w : Writer) :
    ∃ k, w.blankLine.verbatim = w.verbatim ++ List.replicate k false := by
  obtain ⟨k, ended⟩ := exists_verbatim_endLine w
  have further : w.endLine.newLine.verbatim = w.verbatim ++ List.replicate (k + 1) false := by
    rw [newLine, verbatim_beginLine, ended, List.append_assoc, List.replicate_succ']
  unfold blankLine
  dsimp only
  split
  · exact ⟨k, ended⟩
  · split
    · exact ⟨k, ended⟩
    · exact ⟨k + 1, further⟩

theorem verbatim_appendLines (lines : List (List Char × Bool)) (w : Writer) :
    (w.appendLines lines).verbatim = w.verbatim ++ lines.map Prod.snd := by
  induction lines generalizing w with
  | nil => exact (List.append_nil _).symm
  | cons line lines ih =>
    rw [appendLines, ih, verbatim_append, verbatim_beginLine, List.append_assoc]
    rfl

theorem verbatim_write (w : Writer) (text : List Char) :
    (w.write text).verbatim = w.verbatim ++ (templateLines text).tail := by
  have paired : ((splitLines text).zip (templateLines text)).map Prod.snd = templateLines text :=
    List.map_snd_zip (Nat.le_of_eq (length_templateLines text))
  rw [← paired]
  unfold write
  split
  · next none => simp [none]
  · next line _ rest some => rw [verbatim_appendLines, verbatim_append, some, List.map_cons, List.tail_cons]

theorem verbatim_brace (w : Writer) {c : Char} (inLine : '\n' ∉ [c]) : (w.write [c]).verbatim = w.verbatim := by
  rw [write_inLine w inLine, verbatim_append]

theorem verbatim_enter (w : Writer) : w.enter.verbatim = w.verbatim ++ [false] := by
  rw [enter, verbatim_moveTo, newLine, verbatim_beginLine, verbatim_brace w (by decide)]

theorem verbatim_leave (w : Writer) : w.leave.verbatim = w.endLine.verbatim := by
  rw [leave, verbatim_brace _ (by decide), verbatim_moveTo]

mutual
theorem verbatim_step (w : Writer) : (a : Action) → (w.step a).verbatim = w.verbatim ++ w.begun a
  | .write text => verbatim_write w text.toList
  | .newLine => verbatim_of_replicate (k := 1) (verbatim_beginLine w false)
  | .blankLine => by
    obtain ⟨k, more⟩ := exists_verbatim_blankLine w
    exact verbatim_of_replicate more
  | .indent => (verbatim_moveTo w _).trans (List.append_nil _).symm
  | .outdent => (verbatim_moveTo w _).trans (List.append_nil _).symm
  | .block body => by
    obtain ⟨k, ended⟩ := exists_verbatim_endLine (w.enter.run body)
    rw [step_block, verbatim_leave, verbatim_of_replicate ended, verbatim_run w.enter body, verbatim_enter]
    simp [begun]
theorem verbatim_run (w : Writer) : (as : List Action) → (w.run as).verbatim = w.verbatim ++ w.begunAll as
  | [] => (List.append_nil _).symm
  | a :: as => by
    rw [run, verbatim_run (w.step a) as, verbatim_step w a, List.append_assoc]
    rfl
end

/-- A property that holds on after each way to change a writer. -/
structure Kept (P : Writer → Prop) : Prop where
  append : ∀ {w : Writer} (cs : List Char), '\n' ∉ cs → P w → P (w.append cs)
  beginLine : ∀ {w : Writer} (isVerbatim : Bool), P w → P (w.beginLine isVerbatim)
  moveTo : ∀ {w : Writer} (depth : Nat), P w → P (w.moveTo depth)

namespace Kept

variable {P : Writer → Prop} {w : Writer}

theorem endLine (kept : Kept P) (h : P w) : P w.endLine := by
  unfold Writer.endLine
  split
  · exact h
  · exact kept.beginLine false h

theorem blankLine (kept : Kept P) (h : P w) : P w.blankLine := by
  have ended := kept.endLine h
  unfold Writer.blankLine
  dsimp only
  split
  · exact ended
  · split
    · exact ended
    · exact kept.beginLine false ended

theorem appendLines (kept : Kept P) {lines : List (List Char × Bool)} (inLine : ∀ l ∈ lines, '\n' ∉ l.1)
    (h : P w) : P (w.appendLines lines) := by
  induction lines generalizing w with
  | nil => exact h
  | cons line lines ih =>
    rw [List.forall_mem_cons] at inLine
    exact ih inLine.2 (kept.append line.1 inLine.1 (kept.beginLine line.2 h))

theorem write (kept : Kept P) (text : List Char) (h : P w) : P (w.write text) := by
  have inLine : ∀ l ∈ (splitLines text).zip (templateLines text), '\n' ∉ l.1 :=
    fun l mem => not_mem_of_mem_split (List.of_mem_zip mem).1
  unfold Writer.write
  split
  · exact h
  · next line flag rest some =>
    rw [some, List.forall_mem_cons] at inLine
    exact kept.appendLines inLine.2 (kept.append line inLine.1 h)

mutual
theorem step {P : Writer → Prop} {w : Writer} (kept : Kept P) (h : P w) : (a : Action) → P (w.step a)
  | .write text => kept.write text.toList h
  | .newLine => kept.beginLine false h
  | .blankLine => kept.blankLine h
  | .indent => kept.moveTo _ h
  | .outdent => kept.moveTo _ h
  | .block body => by
    have entered : P w.enter := kept.moveTo _ (kept.beginLine false (kept.write _ h))
    rw [step_block]
    exact kept.write _ (kept.moveTo _ (kept.endLine (Kept.run kept entered body)))
theorem run {P : Writer → Prop} {w : Writer} (kept : Kept P) (h : P w) : (as : List Action) → P (w.run as)
  | [] => h
  | a :: as => Kept.run kept (Kept.step kept h a) as
end

end Kept

def InLines (w : Writer) : Prop := ∀ l ∈ w.allLines, '\n' ∉ l.text

theorem inLines_iff {w : Writer} :
    w.InLines ↔ (∀ l ∈ w.earlier, '\n' ∉ l.text) ∧ '\n' ∉ w.current.text := by
  simp [InLines, allLines_eq, or_imp, forall_and]

theorem kept_inLines : Kept InLines where
  append := by
    intro w cs inLine h
    rw [inLines_iff] at h ⊢
    refine ⟨h.1, ?_⟩
    change '\n' ∉ w.current.text ++ cs
    rw [List.mem_append, not_or]
    exact ⟨h.2, inLine⟩
  beginLine := by
    intro w isVerbatim h
    rw [inLines_iff] at h ⊢
    exact ⟨List.forall_mem_cons.mpr ⟨h.2, h.1⟩, List.not_mem_nil⟩
  moveTo := by
    intro w depth h
    rw [inLines_iff] at h ⊢
    refine ⟨h.1, ?_⟩
    simp only [moveTo]
    split
    · exact h.2
    · exact h.2

theorem inLines_run_new (width : Nat) (as : List Action) : ((new width).run as).InLines := by
  refine kept_inLines.run ?_ as
  rw [inLines_iff]
  exact ⟨by simp [new], List.not_mem_nil⟩

end Writer

/-- Lines further to the right, each with its flag; blank lines and lines with a set flag stay. -/
def shiftLines (n : Nat) : List Bool → List (List Char) → List (List Char)
  | _, [] => []
  | flags, l :: ls =>
    (if l.isEmpty || flags.head?.getD false then l else List.replicate n ' ' ++ l)
      :: shiftLines n flags.tail ls

theorem Line.print_eq_nil_iff (width : Nat) (l : Line) : l.print width = [] ↔ l.isBlank = true := by
  unfold Line.print
  split
  · next blank => simp [blank]
  · next filled =>
    have ne : l.text ≠ [] := by simpa [Line.isBlank] using filled
    split <;> simp [ne, filled]

theorem Line.print_raise (width d : Nat) (l : Line) : (l.raise d).print width =
    if (l.print width).isEmpty || l.isVerbatim then l.print width
      else List.replicate (d * width) ' ' ++ l.print width := by
  have empty : (l.print width).isEmpty = l.isBlank := by
    rw [Bool.eq_iff_iff, List.isEmpty_iff]
    exact l.print_eq_nil_iff width
  have spaces : width * (l.depth + d) = d * width + width * l.depth := by
    rw [Nat.mul_add, Nat.mul_comm width d, Nat.add_comm]
  rw [empty]
  unfold Line.print Line.raise Line.isBlank
  dsimp only
  cases l.text.isEmpty with
  | true => rfl
  | false =>
    cases l.isVerbatim with
    | true => rfl
    | false =>
      simp only [spaces, Bool.false_eq_true, if_false, Bool.or_self, ← List.append_assoc,
        List.replicate_append_replicate]

theorem shiftLines_print (width d : Nat) {ls : List Line} {flags : List Bool}
    (known : ls.map Line.isVerbatim <+: flags) :
    shiftLines (d * width) flags (ls.map (Line.print width) ++ [[]]) =
      (ls.map (Line.raise d)).map (Line.print width) ++ [[]] := by
  induction ls generalizing flags with
  | nil => rfl
  | cons l ls ih =>
    obtain ⟨more, rfl⟩ := known
    have later := ih (List.prefix_append (ls.map Line.isVerbatim) more)
    simp only [List.map_cons, List.cons_append, shiftLines, List.head?_cons, Option.getD_some, List.tail_cons]
    rw [later, Line.print_raise]
    rfl

private theorem isEmpty_join {sep : Char} (ls : List (List Char)) :
    (join sep ls).isEmpty = true ↔ ls.map List.isEmpty = [] ∨ ls.map List.isEmpty = [true] := by
  fun_induction join sep ls with
  | case1 => simp
  | case2 l => simp
  | case3 l ls ne _ =>
    have more : ls ≠ [] := ne
    simp [more]

namespace Writer

theorem lines_isPrefix (w : Writer) : w.lines <+: w.allLines := by
  unfold lines
  split
  · rw [allLines_eq]
    exact List.prefix_append _ _
  · exact List.prefix_refl _

theorem lines_raise (d : Nat) (w : Writer) : (w.raise d).lines = w.lines.map (Line.raise d) := by
  have blank : (w.raise d).current.isBlank = w.current.isBlank := rfl
  unfold lines
  rw [blank]
  split
  · exact List.map_reverse.symm
  · rw [List.map_reverse]
    rfl

theorem kept_width (width : Nat) : Kept fun w => w.width = width where
  append := fun _ _ h => h
  beginLine := fun _ h => h
  moveTo := fun _ h => h

theorem splitLines_source {w : Writer} (inLines : w.InLines) : splitLines w.source =
    if (joinLines (w.lines.map (Line.print w.width))).isEmpty then [[]]
      else w.lines.map (Line.print w.width) ++ [[]] := by
  have short : ∀ l ∈ w.lines.map (Line.print w.width), '\n' ∉ l := by
    intro printed mem
    obtain ⟨l, hl, rfl⟩ := List.mem_map.mp mem
    have text := inLines l (w.lines_isPrefix.subset hl)
    unfold Line.print
    split
    · exact List.not_mem_nil
    · split
      · exact text
      · rw [List.mem_append, not_or]
        exact ⟨fun mem => absurd (List.eq_of_mem_replicate mem) (by decide), text⟩
  unfold source
  dsimp only
  split
  · rfl
  · next filled =>
    have ne : w.lines.map (Line.print w.width) ≠ [] := by
      intro none
      rw [none] at filled
      exact filled rfl
    rw [splitLines, split_append_sep, split_join ne short]
    rfl

theorem splitLines_source_raise (d : Nat) {w : Writer} (inLines : w.InLines) :
    splitLines (w.raise d).source = shiftLines (d * w.width) w.verbatim (splitLines w.source) := by
  have inRaised : (w.raise d).InLines := by
    rw [inLines_iff] at inLines ⊢
    exact ⟨List.forall_mem_map.mpr inLines.1, inLines.2⟩
  have width : (w.raise d).width = w.width := rfl
  have known : w.lines.map Line.isVerbatim <+: w.verbatim := w.lines_isPrefix.map Line.isVerbatim
  have blank : ((w.lines.map (Line.raise d)).map (Line.print w.width)).map List.isEmpty =
      (w.lines.map (Line.print w.width)).map List.isEmpty := by
    rw [List.map_map, List.map_map, List.map_map]
    refine List.map_congr_left fun l _ => ?_
    rw [Function.comp_apply, Function.comp_apply, Function.comp_apply, Bool.eq_iff_iff, List.isEmpty_iff,
      List.isEmpty_iff, Line.print_eq_nil_iff, Line.print_eq_nil_iff]
    rfl
  rw [splitLines_source inRaised, splitLines_source inLines, lines_raise, width]
  have empty : (joinLines ((w.lines.map (Line.raise d)).map (Line.print w.width))).isEmpty =
      (joinLines (w.lines.map (Line.print w.width))).isEmpty := by
    rw [Bool.eq_iff_iff, isEmpty_join, isEmpty_join, blank]
  rw [empty]
  split
  · rfl
  · rw [shiftLines_print w.width d known]

/-- Raising a writer before it writes moves the lines that it prints to the right, all by the same number
of spaces, and leaves blank lines and those that begin in a template literal where they are. -/
theorem indentation_shifts_lines (width d : Nat) (as : List Action) (up : Action.StaysUp as) :
    splitLines (print width (List.replicate d .indent ++ as)) =
      shiftLines (d * width) (false :: (new width).begunAll as) (splitLines (print width as)) := by
  obtain ⟨n, level⟩ := Option.isSome_iff_exists.mp up
  have raised : (new width).run (List.replicate d .indent) = (new width).raise d := by
    rw [run_indents]
    simp [new, raise, Line.raise, Line.begun]
  have run : (new width).run (List.replicate d .indent ++ as) = ((new width).run as).raise d := by
    rw [run_append, raised]
    exact (raise_run d as level).1
  have flags : ((new width).run as).verbatim = false :: (new width).begunAll as := verbatim_run _ as
  have unit : ((new width).run as).width = width := (kept_width width).run rfl as
  have shifted := splitLines_source_raise d (inLines_run_new width as)
  rw [flags, unit] at shifted
  rw [print, run, print]
  exact shifted

/-- A block with a template literal over two lines, a blank line and a line that is begun deeper. -/
def templateBlock : List Action :=
  [.write "f() ", .block [.write "s = `x\ny`", .blankLine, .indent, .write "b", .outdent]]

theorem template_block_shifts : Action.StaysUp templateBlock ∧
    (new 2).begunAll templateBlock = [false, true, false, false, false] ∧
      splitLines (print 2 (List.replicate 3 .indent ++ templateBlock)) =
        shiftLines 6 [false, false, true, false, false, false] (splitLines (print 2 templateBlock)) := by
  have up : Action.StaysUp templateBlock := rfl
  have flags : (new 2).begunAll templateBlock = [false, true, false, false, false] := by decide +kernel
  have shifted := indentation_shifts_lines 2 3 templateBlock up
  rw [flags] at shifted
  exact ⟨up, flags, shifted⟩

end Writer

end VueOptions.Layout
