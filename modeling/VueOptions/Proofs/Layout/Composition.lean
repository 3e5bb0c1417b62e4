import VueOptions.Layout.Writer

/-!
Writing in pieces. A writer is one buffer, and what an action does depends on the line that the actions
before it left. `Steps` says what actions do from a given current line, whatever stands before; steps
compose, and a block is a step of its own one level deeper. Actions that begin and end on a fresh line
write the same text wherever they stand, so a layout made of such pieces is the text of the pieces, each
written on a writer of its own (`standAlone`), one behind another.
-/

set_option autoImplicit false

namespace VueOptions.Layout

open Text Script

theorem length_templateLines (text : List Char) :
    (templateLines text).length = (splitLines text).length := by
  unfold templateLines
  split
  · split
    · exact Facts.length_templateLines _ text
    · rw [List.length_map]
  · next single =>
    have none : text.count '\n' = 0 := by simpa [List.count_eq_zero] using single
    rw [length_split, none]
    rfl

theorem templateLines_inLine {text : List Char} (inLine : '\n' ∉ text) :
    templateLines text = [false] := by
  unfold templateLines
  rw [if_neg (by simpa using inLine)]

theorem Writer.write_inLine {text : List Char} (w : Writer) (inLine : '\n' ∉ text) :
    w.write text = w.append text := by
  rw [Writer.write, splitLines, split_of_not_mem inLine, templateLines_inLine inLine]
  rfl

private theorem exists_concat {ls : List Line} (ne : ls ≠ []) : ∃ init l, ls = init ++ [l] :=
  ⟨ls.dropLast, ls.getLast ne, (List.dropLast_concat_getLast ne).symm⟩

namespace Line

def ofText (depth : Nat) (text : List Char) : List Line :=
  match (splitLines text).zip (templateLines text) with
  | [] => []
  | (first, _) :: rest => ⟨first, depth, false⟩ :: rest.map fun p => ⟨p.1, depth, p.2⟩

theorem map_text_ofText (depth : Nat) (text : List Char) :
    (ofText depth text).map Line.text = splitLines text := by
  have fst : ((splitLines text).zip (templateLines text)).map Prod.fst = splitLines text :=
    List.map_fst_zip (Nat.le_of_eq (length_templateLines text).symm)
  unfold ofText
  split
  · next none => rw [← fst, none]; rfl
  · next first v rest some =>
    rw [← fst, some, List.map_cons, List.map_cons, List.map_map]
    rfl

theorem ofText_ne_nil (depth : Nat) (text : List Char) : ofText depth text ≠ [] := by
  intro none
  have texts := map_text_ofText depth text
  rw [none] at texts
  exact split_ne_nil '\n' text texts.symm

theorem exists_ofText (depth : Nat) (text : List Char) : ∃ ls l, ofText depth text = ls ++ [l] :=
  exists_concat (ofText_ne_nil depth text)

theorem ofText_inLine {depth : Nat} {text : List Char} (inLine : '\n' ∉ text) :
    ofText depth text = [⟨text, depth, false⟩] := by
  rw [ofText, splitLines, split_of_not_mem inLine, templateLines_inLine inLine]
  rfl

end Line

/-- Lines one behind another, where the first of the second part goes on the last line of the first. -/
def glue : List Line → List Line → List Line
  | [], ms => ms
  | [l], m :: ms => { l with text := l.text ++ m.text } :: ms
  | l :: ls, ms => l :: glue ls ms

/-- From a current line at a depth, actions finish lines and leave a current line at that depth. -/
def Steps (depth : Nat) (l : Line) (as : List Action) (ls : List Line) (l' : Line) : Prop :=
  ∀ w : Writer, w.depth = depth → w.current = l →
    w.run as = { w with earlier := ls.reverse ++ w.earlier, current := l' }

namespace Steps

variable {depth : Nat} {l l' l'' : Line} {as bs : List Action} {ls ms : List Line}

theorem nil (depth : Nat) (l : Line) : Steps depth l [] [] l := by
  intro w _ current
  rw [← current]
  rfl

theorem append (first : Steps depth l as ls l') (second : Steps depth l' bs ms l'') :
    Steps depth l (as ++ bs) (ls ++ ms) l'' := by
  intro w hdepth current
  have rest := second { w with earlier := ls.reverse ++ w.earlier, current := l' } hdepth rfl
  rw [Writer.run_append, first w hdepth current, rest, List.reverse_append, List.append_assoc]

theorem newLine (depth : Nat) (l : Line) : Steps depth l [.newLine] [l] (Line.begun depth) := by
  intro w hdepth current
  subst hdepth current
  rfl

private theorem appendLines_eq (ps : List (List Char × Bool)) (w : Writer)
    (lines : w.current :: ps.map (fun p => ⟨p.1, w.depth, p.2⟩) = ls ++ [l']) :
    w.appendLines ps = { w with earlier := ls.reverse ++ w.earlier, current := l' } := by
  -- A line is finished by the next piece, so the one that is current joins `ls` in each step.
  induction ps generalizing w ls with
  | nil =>
    rw [List.map_nil, List.singleton_eq_append_iff] at lines
    rcases lines with ⟨rfl, hl⟩ | ⟨-, hl⟩
    · obtain rfl := List.singleton_inj.mp hl
      rfl
    · cases hl
  | cons p ps ih =>
    cases ls with
    | nil => simp at lines
    | cons m ms =>
      rw [List.cons_append, List.cons.injEq] at lines
      obtain ⟨rfl, lines⟩ := lines
      rw [Writer.appendLines, ih ((w.beginLine p.2).append p.1) lines]
      simp [Writer.beginLine, Writer.append]

theorem write {text : String} (glued : glue [l] (Line.ofText depth text.toList) = ls ++ [l']) :
    Steps depth l [.write text] ls l' := by
  intro w hdepth current
  subst hdepth current
  unfold Line.ofText at glued
  simp only [Writer.run, Writer.step, Writer.write]
  cases pieces : (splitLines text.toList).zip (templateLines text.toList) with
  | nil =>
    rw [pieces] at glued
    exact appendLines_eq [] w glued
  | cons first rest =>
    rw [pieces] at glued
    exact appendLines_eq rest (w.append first.1) glued

theorem writeInLine {text : String} (inLine : '\n' ∉ text.toList) :
    Steps depth l [.write text] [] { l with text := l.text ++ text.toList } :=
  write (by rw [Line.ofText_inLine inLine]; rfl)

theorem block {body : List Action}
    (inner : Steps (depth + 1) (Line.begun (depth + 1)) body ls (Line.begun (depth + 1))) :
    Steps depth l [.block body] ({ l with text := l.text ++ ['\x7b'] } :: ls)
      ⟨['\x7d'], depth, false⟩ := by
  intro w hdepth current
  subst hdepth current
  let opened : Writer :=
    { w with
      depth := w.depth + 1
      earlier := { w.current with text := w.current.text ++ ['\x7b'] } :: w.earlier
      current := Line.begun (w.depth + 1) }
  have filled := inner opened rfl rfl
  have entered :
      (w.append ['\x7b']).newLine.moveTo ((w.append ['\x7b']).newLine.depth + 1) = opened := rfl
  simp only [Writer.run, Writer.step]
  rw [w.write_inLine (by decide), entered, filled, Writer.write_inLine _ (by decide)]
  simp [opened, Writer.endLine, Writer.moveTo, Writer.append, Line.begun, Line.isBlank]

end Steps

abbrev Writes (depth : Nat) (as : List Action) (ls : List Line) : Prop :=
  Steps depth (Line.begun depth) as ls (Line.begun depth)

def EndsFilled (ls : List Line) : Prop := ∃ l, ls.getLast? = some l ∧ l.isBlank = false

theorem endsFilled_concat {l : Line} (ls : List Line) (notBlank : l.isBlank = false) :
    EndsFilled (ls ++ [l]) :=
  ⟨l, List.getLast?_concat, notBlank⟩

section

variable {depth : Nat} {l : Line} {as bs : List Action} {ls ms : List Line} {text : String}

private theorem glue_begun (depth : Nat) (text : List Char) :
    glue [Line.begun depth] (Line.ofText depth text) = Line.ofText depth text := by
  have ne := Line.ofText_ne_nil depth text
  unfold Line.ofText at ne ⊢
  split
  · next none => rw [none] at ne; exact absurd rfl ne
  · rfl

theorem Steps.write_fresh (lines : Line.ofText depth text.toList = ls ++ [l]) :
    Steps depth (Line.begun depth) [.write text] ls l :=
  .write ((glue_begun depth text.toList).trans lines)

theorem Writes.line (depth : Nat) (text : String) :
    Writes depth (Action.line text) (Line.ofText depth text.toList) := by
  obtain ⟨ls, l, lines⟩ := Line.exists_ofText depth text.toList
  rw [lines]
  exact (Steps.write_fresh lines).append (.newLine depth _)

theorem Writes.blankLine (written : Writes depth as ls) (filled : EndsFilled ls) :
    Writes depth (as ++ [.blankLine]) (ls ++ [Line.begun depth]) := by
  intro w hdepth current
  obtain ⟨l, last, notBlank⟩ := filled
  obtain ⟨init, rfl⟩ := List.getLast?_eq_some_iff.mp last
  -- A blank line is not written behind a blank one; this is what `filled` rules out.
  have blank : (Line.begun w.depth).isBlank = true := rfl
  rw [Writer.run_append, written w hdepth current]
  subst hdepth
  simp only [Writer.run, Writer.step, Writer.blankLine, Writer.endLine, blank, notBlank, ↓reduceIte,
    Bool.false_eq_true, Writer.newLine, Writer.beginLine, List.reverse_append, List.reverse_cons,
    List.reverse_nil, List.nil_append, List.cons_append, List.append_assoc]
  rfl

def WholeLines (depth : Nat) (as : List Action) : Prop := ∃ ls, Writes depth as ls

def IsEntry (depth : Nat) (as : List Action) : Prop :=
  ∃ ls, Writes depth as ls ∧ ∃ l ∈ ls, l.isBlank = false

/-- Actions that write whole lines, the last of them not blank. -/
def IsFilled (depth : Nat) (as : List Action) : Prop := ∃ ls, Writes depth as ls ∧ EndsFilled ls

theorem IsFilled.isEntry (filled : IsFilled depth as) : IsEntry depth as := by
  obtain ⟨ls, written, l, last, notBlank⟩ := filled
  exact ⟨ls, written, l, List.mem_of_getLast? last, notBlank⟩

theorem WholeLines.nil (depth : Nat) : WholeLines depth [] := ⟨[], .nil depth _⟩

theorem WholeLines.line (depth : Nat) (text : String) : WholeLines depth (Action.line text) :=
  ⟨_, .line depth text⟩

theorem WholeLines.append (first : WholeLines depth as) (second : WholeLines depth bs) :
    WholeLines depth (as ++ bs) := by
  obtain ⟨ls, written⟩ := first
  obtain ⟨ms, written'⟩ := second
  exact ⟨ls ++ ms, Steps.append written written'⟩

theorem WholeLines.flatMap {α : Type} {render : α → List Action} (items : List α)
    (whole : ∀ i, WholeLines depth (render i)) : WholeLines depth (items.flatMap render) := by
  induction items with
  | nil => exact .nil depth
  | cons i items ih => exact (whole i).append ih

theorem IsEntry.line {c : Char} (mem : c ∈ text.toList) (ne : c ≠ '\n') :
    IsEntry depth (Action.line text) := by
  refine ⟨_, .line depth text, ?_⟩
  rw [← join_split '\n' text.toList] at mem
  obtain ⟨piece, hpiece, hc⟩ := (mem_join mem).resolve_left ne
  rw [← splitLines, ← Line.map_text_ofText depth] at hpiece
  obtain ⟨l, hl, rfl⟩ := List.mem_map.mp hpiece
  exact ⟨l, hl, by simpa [Line.isBlank] using List.ne_nil_of_mem hc⟩

theorem Line.endsFilled_ofText {text : List Char} (ne : text ≠ [])
    (inLine : text.getLast? ≠ some '\n') : EndsFilled (Line.ofText depth text) := by
  obtain ⟨ls, l, lines⟩ := Line.exists_ofText depth text
  have last : (splitLines text).getLast? = some l.text := by
    rw [← Line.map_text_ofText depth, lines, List.map_append]
    exact List.getLast?_concat
  rw [lines]
  refine endsFilled_concat ls (Bool.eq_false_iff.mpr fun blank => ?_)
  rw [List.isEmpty_iff.mp blank] at last
  exact (getLast?_split_eq_nil last).elim ne inLine

theorem IsFilled.block {tail : String} {body : List Action} (head : String)
    (inner : WholeLines (depth + 1) body) (inLine : '\n' ∉ tail.toList) :
    IsFilled depth [.write head, .block body, .write tail, .newLine] := by
  obtain ⟨ls, written⟩ := inner
  obtain ⟨hs, h, lines⟩ := Line.exists_ofText depth head.toList
  have opened := (Steps.write_fresh lines).append (.block written)
  have steps := (opened.append (.writeInLine inLine)).append (.newLine depth _)
  exact ⟨_, steps, endsFilled_concat _ rfl⟩

end

def printLines (width : Nat) (ls : List Line) : List Char :=
  (ls.map (Line.print width)).flatMap (· ++ ['\n'])

theorem printLines_append (width : Nat) (ls ms : List Line) :
    printLines width (ls ++ ms) = printLines width ls ++ printLines width ms := by
  rw [printLines, List.map_append, List.flatMap_append]
  rfl

theorem printLines_ofText (width : Nat) (text : List Char) :
    printLines width (Line.ofText 0 text) = text ++ ['\n'] := by
  have prints : ∀ l ∈ Line.ofText 0 text, l.print width = l.text := by
    intro l mem
    have depth : l.depth = 0 := by
      unfold Line.ofText at mem
      split at mem
      · cases mem
      · rcases List.mem_cons.mp mem with rfl | mem
        · rfl
        · obtain ⟨p, -, rfl⟩ := List.mem_map.mp mem
          rfl
    unfold Line.print
    rw [depth, Nat.mul_zero]
    split
    · next blank => exact (List.isEmpty_iff.mp blank).symm
    · split <;> rfl
  rw [printLines, List.map_congr_left prints, Line.map_text_ofText,
    ← join_append_sep (split_ne_nil '\n' text), join_split]

theorem source_of_lines {width depth : Nat} {ls : List Line} (filled : ∃ l ∈ ls, l.isBlank = false) :
    (Writer.mk width depth ls.reverse (Line.begun depth)).source = printLines width ls := by
  obtain ⟨l, mem, notBlank⟩ := filled
  have ne : ls.map (Line.print width) ≠ [] := by
    intro none
    rw [List.map_eq_nil_iff.mp none] at mem
    cases mem
  have printed : l.print width ≠ [] := by
    have text : l.text ≠ [] := by simpa [Line.isBlank] using notBlank
    unfold Line.print
    rw [if_neg (by rw [notBlank]; exact Bool.false_ne_true)]
    split
    · exact text
    · exact List.append_ne_nil_of_right_ne_nil _ text
  have text : joinLines (ls.map (Line.print width)) ≠ [] :=
    join_ne_nil (List.mem_map_of_mem mem) printed
  have lines : (Writer.mk width depth ls.reverse (Line.begun depth)).lines = ls :=
    List.reverse_reverse ls
  rw [Writer.source, lines, if_neg (by simpa using text), join_append_sep ne]
  rfl

/-- What actions write on a writer of their own that was raised to a depth. -/
def standAlone (width depth : Nat) (as : List Action) : List Char :=
  Writer.print width (List.replicate depth .indent ++ as)

theorem run_indents (width depth : Nat) :
    (Writer.new width).run (List.replicate depth .indent) = ⟨width, depth, [], Line.begun depth⟩ := by
  induction depth with
  | zero => rfl
  | succ depth ih =>
    rw [List.replicate_succ', Writer.run_append, ih]
    rfl

theorem standAlone_of_writes {width depth : Nat} {as : List Action} {ls : List Line}
    (written : Writes depth as ls) (filled : ∃ l ∈ ls, l.isBlank = false) :
    standAlone width depth as = printLines width ls := by
  have run := written ⟨width, depth, [], Line.begun depth⟩ rfl rfl
  rw [standAlone, Writer.print, Writer.run_append, run_indents, run, List.append_nil]
  exact source_of_lines filled

def Prints (width depth : Nat) (as : List Action) (text : List Char) : Prop :=
  ∃ ls, Writes depth as ls ∧ printLines width ls = text

/-- Actions that write whole lines with a text, the last of them not blank. -/
def PrintsFilled (width depth : Nat) (as : List Action) (text : List Char) : Prop :=
  ∃ ls, Writes depth as ls ∧ EndsFilled ls ∧ printLines width ls = text

/-- Actions that write blocks of lines with one blank line between each two. -/
structure Lays (width depth : Nat) (as : List Action) (blocks : List (List Char)) : Prop where
  ne_nil : blocks ≠ []
  prints : PrintsFilled width depth as (joinLines blocks)

section

variable {width depth : Nat} {as bs : List Action} {text more : List Char} {blocks : List (List Char)}

theorem IsEntry.prints (entry : IsEntry depth as) :
    Prints width depth as (standAlone width depth as) := by
  obtain ⟨ls, written, filled⟩ := entry
  exact ⟨ls, written, (standAlone_of_writes written filled).symm⟩

theorem IsFilled.prints (filled : IsFilled depth as) :
    PrintsFilled width depth as (standAlone width depth as) := by
  obtain ⟨ls, written, l, last, notBlank⟩ := filled
  refine ⟨ls, written, ⟨l, last, notBlank⟩, ?_⟩
  exact (standAlone_of_writes written ⟨l, List.mem_of_getLast? last, notBlank⟩).symm

theorem PrintsFilled.prints (h : PrintsFilled width depth as text) : Prints width depth as text := by
  obtain ⟨ls, written, -, printed⟩ := h
  exact ⟨ls, written, printed⟩

theorem PrintsFilled.standAlone_eq (h : PrintsFilled width depth as text) :
    standAlone width depth as = text := by
  obtain ⟨ls, written, ⟨l, last, notBlank⟩, printed⟩ := h
  rw [standAlone_of_writes written ⟨l, List.mem_of_getLast? last, notBlank⟩, printed]

theorem Prints.nil (width depth : Nat) : Prints width depth [] [] := ⟨[], .nil depth _, rfl⟩

theorem Prints.append (first : Prints width depth as text) (second : Prints width depth bs more) :
    Prints width depth (as ++ bs) (text ++ more) := by
  obtain ⟨ls, written, rfl⟩ := first
  obtain ⟨ms, written', rfl⟩ := second
  exact ⟨ls ++ ms, Steps.append written written', printLines_append width ls ms⟩

theorem Prints.append_filled (first : Prints width depth as text)
    (second : PrintsFilled width depth bs more) :
    PrintsFilled width depth (as ++ bs) (text ++ more) := by
  obtain ⟨ls, written, rfl⟩ := first
  obtain ⟨ms, written', ⟨l, last, notBlank⟩, rfl⟩ := second
  refine ⟨ls ++ ms, Steps.append written written', ⟨l, ?_, notBlank⟩, printLines_append width ls ms⟩
  rw [List.getLast?_append, last, Option.some_or]

theorem Prints.flatMap {α : Type} {render : α → List Action} (items : List α)
    (entries : ∀ i, IsEntry depth (render i)) :
    Prints width depth (items.flatMap render)
      (items.flatMap fun i => standAlone width depth (render i)) := by
  induction items with
  | nil => exact .nil width depth
  | cons i items ih => exact (entries i).prints.append ih

theorem PrintsFilled.flatMap {α : Type} {render : α → List Action} {print : α → List Char}
    {items : List α} (ne : items ≠ []) (each : ∀ i ∈ items, PrintsFilled width depth (render i) (print i)) :
    PrintsFilled width depth (items.flatMap render) (items.flatMap print) := by
  induction items with
  | nil => exact absurd rfl ne
  | cons i items ih =>
    have first := each i List.mem_cons_self
    cases items with
    | nil => simpa using first
    | cons j items =>
      exact first.prints.append_filled
        (ih (List.cons_ne_nil j items) fun k mem => each k (List.mem_cons_of_mem i mem))

theorem Lays.singleton (h : PrintsFilled width depth as text) : Lays width depth as [text] :=
  ⟨List.cons_ne_nil _ _, h⟩

theorem Lays.blankLine (first : Lays width depth as blocks)
    (second : PrintsFilled width depth bs text) :
    Lays width depth (as ++ .blankLine :: bs) (blocks ++ [text]) := by
  obtain ⟨ls, written, filled, printed⟩ := first.prints
  obtain ⟨ms, written', ⟨l, last, notBlank⟩, rfl⟩ := second
  have steps := (Writes.blankLine written filled).append written'
  rw [List.append_assoc, List.append_assoc] at steps
  refine ⟨by simp, _, steps, ⟨l, ?_, notBlank⟩, ?_⟩
  · rw [List.getLast?_append, List.getLast?_append, last, Option.some_or, Option.some_or]
  · rw [joinLines, join_concat first.ne_nil, ← joinLines, ← printed, printLines_append,
      printLines_append]
    rfl

end

def textLine (width depth : Nat) (text : String) : List Char :=
  List.replicate (width * depth) ' ' ++ text.toList ++ ['\n']

def framed (width depth : Nat) (opening : String) (body : List Char) (closing : String) : List Char :=
  textLine width depth opening ++ body ++ textLine width depth closing

private theorem printLines_singleton {width depth : Nat} {text : String} (ne : text ≠ "") :
    printLines width [⟨text.toList, depth, false⟩] = textLine width depth text := by
  have notBlank : (Line.mk text.toList depth false).isBlank = false := by
    simpa [Line.isBlank] using ne
  rw [printLines, List.map_singleton, List.flatMap_singleton, Line.print, notBlank]
  rfl

theorem PrintsFilled.line {width depth : Nat} {text : String} (inLine : '\n' ∉ text.toList)
    (ne : text ≠ "") : PrintsFilled width depth (Action.line text) (textLine width depth text) := by
  have written := Writes.line depth text
  rw [Line.ofText_inLine inLine] at written
  refine ⟨_, written, endsFilled_concat [] ?_, printLines_singleton ne⟩
  simpa [Line.isBlank] using ne

private theorem printsFilled_block {width depth : Nat} {head opening closing : String}
    {tail text : List Char} {body : List Action} (rest : List Action) (inLine : '\n' ∉ head.toList)
    (opens : opening = head ++ "\x7b") (closes : closing.toList = '\x7d' :: tail)
    (inner : Prints width (depth + 1) body text)
    (ends : Steps depth ⟨['\x7d'], depth, false⟩ rest [] ⟨'\x7d' :: tail, depth, false⟩) :
    PrintsFilled width depth (.write head :: .block body :: rest ++ [.newLine])
      (framed width depth opening text closing) := by
  obtain ⟨ls, written, rfl⟩ := inner
  have steps := (((Steps.writeInLine (l := Line.begun depth) inLine).append (.block written)).append
    ends).append (.newLine depth _)
  rw [List.append_nil] at steps
  have first : head.toList ++ ['\x7b'] = opening.toList := by
    rw [opens, String.toList_append]
    rfl
  have lines : Writes depth (.write head :: .block body :: rest ++ [.newLine])
      ([⟨opening.toList, depth, false⟩] ++ ls ++ [⟨closing.toList, depth, false⟩]) := by
    rw [← first, closes]
    exact steps
  refine ⟨_, lines, endsFilled_concat _ (by rw [closes]; rfl), ?_⟩
  rw [printLines_append, printLines_append, printLines_singleton (by simp [opens]),
    printLines_singleton (by rintro rfl; simp at closes)]
  rfl

theorem PrintsFilled.framed {width depth : Nat} {head opening : String} {body : List Action}
    {text : List Char} (inLine : '\n' ∉ head.toList) (opens : opening = head ++ "\x7b")
    (inner : Prints width (depth + 1) body text) :
    PrintsFilled width depth [.write head, .block body, .newLine]
      (framed width depth opening text "\x7d") :=
  printsFilled_block [] inLine opens (by simp) inner (.nil depth _)

theorem PrintsFilled.framedWith {width depth : Nat} {head opening tail closing : String}
    {body : List Action} {text : List Char} (inLine : '\n' ∉ head.toList)
    (opens : opening = head ++ "\x7b") (closes : closing = "\x7d" ++ tail)
    (tailInLine : '\n' ∉ tail.toList) (inner : Prints width (depth + 1) body text) :
    PrintsFilled width depth [.write head, .block body, .write tail, .newLine]
      (Layout.framed width depth opening text closing) :=
  printsFilled_block [.write tail] inLine opens (by rw [closes, String.toList_append]; rfl) inner
    (.writeInLine tailInLine)

/-- All lines of a writer of its own that was raised to a depth, the current one included. -/
def laidOut (depth : Nat) (as : List Action) : List Line :=
  let w := (Writer.new 0).run (List.replicate depth .indent ++ as)
  (w.current :: w.earlier).reverse

/-- Pieces one behind another on a line; lines that a piece has besides its first stay its own. -/
def inline (depth : Nat) (pieces : List (List Action)) : List Line :=
  (pieces.map (laidOut depth)).foldl glue [Line.begun depth]

private theorem laidOut_write (depth : Nat) (text : String) :
    laidOut depth [.write text] = Line.ofText depth text.toList := by
  obtain ⟨ls, l, lines⟩ := Line.exists_ofText depth text.toList
  have run := Steps.write_fresh lines ⟨0, depth, [], Line.begun depth⟩ rfl rfl
  rw [laidOut, Writer.run_append, run_indents, run, lines]
  simp

theorem glue_concat (ls ms : List Line) (l : Line) :
    glue (ls ++ [l]) ms = ls ++ glue [l] ms := by
  induction ls with
  | nil => rfl
  | cons k ls ih =>
    rw [List.cons_append, List.cons_append, ← ih]
    cases ls <;> rfl

theorem Steps.inline (depth : Nat) (texts : List String) (l : Line) :
    ∃ ls l', Steps depth l (texts.map .write) ls l' ∧ ∀ ms,
      ((texts.map fun t => [Action.write t]).map (laidOut depth)).foldl glue (ms ++ [l]) =
        ms ++ ls ++ [l'] := by
  -- Each fragment goes on the line that the one before it left, behind all lines finished so far.
  induction texts generalizing l with
  | nil => exact ⟨[], l, .nil depth l, fun ms => by simp⟩
  | cons t texts ih =>
    have ne : glue [l] (Line.ofText depth t.toList) ≠ [] := by
      cases Line.ofText depth t.toList <;> simp [glue]
    obtain ⟨first, k, glued⟩ := exists_concat ne
    obtain ⟨ls, l', steps, folded⟩ := ih k
    refine ⟨_, l', (Steps.write glued).append steps, fun ms => ?_⟩
    rw [List.map_cons, List.map_cons, List.foldl_cons, laidOut_write, glue_concat, glued,
      ← List.append_assoc, folded, List.append_assoc ms]

theorem PrintsFilled.inline {width depth : Nat} {closing : String} (texts : List String)
    (inLine : '\n' ∉ closing.toList) (ne : closing ≠ "") :
    PrintsFilled width depth (texts.map .write ++ [.write closing, .newLine])
      (printLines width (inline depth ((texts.map fun t => [.write t]) ++ [[.write closing]]))) := by
  obtain ⟨ls, l, steps, folded⟩ := Steps.inline depth texts (Line.begun depth)
  have closed := (steps.append (.writeInLine inLine)).append (.newLine depth _)
  rw [List.append_assoc, List.append_nil] at closed
  refine ⟨_, closed, endsFilled_concat ls ?_, congrArg (printLines width) ?_⟩
  · simp [Line.isBlank, ne]
  · have glued := folded []
    rw [List.nil_append, List.nil_append] at glued
    rw [Layout.inline, List.map_append, List.foldl_append, glued, List.map_singleton, List.foldl_cons,
      List.foldl_nil, laidOut_write, Line.ofText_inLine inLine, glue_concat]
    rfl

end VueOptions.Layout
