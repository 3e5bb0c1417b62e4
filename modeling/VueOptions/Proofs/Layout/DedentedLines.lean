import Mathlib.Data.List.Forall2
import VueOptions.Proofs.Layout.Reindentation
import VueOptions.Proofs.Source.StatementText

/-!
Taking a statement out of its place, line by line. Whatever the span, the text at the left margin has the lines of
the statement: the first one and those that begin inside a template literal as they are, each other one without
the indentation of the line on which the span starts (`forall₂_dedent`). Written at the depth that it had, a
statement whose lines are indented at least so far gets its own lines back.
-/

set_option autoImplicit false

namespace VueOptions.Layout

open Text Script

/-- A line of a text on which an offset stands, with what comes before and after it. The last line goes on
beyond the end of the text. -/
structure LineAt (source : List Char) (offset : Nat) (before line after : List Char) : Prop where
  whole : before ++ (line ++ after) = source
  starts : before = [] ∨ before.getLast? = some '\n'
  inLine : '\n' ∉ line
  ends : after = [] ∨ after.head? = some '\n'
  behind : byteLength before ≤ offset
  reaches : after = [] ∨ offset ≤ byteLength (before ++ line)

private theorem getLast?_cons_feed {c : Char} {before : List Char} (starts : before.getLast? = some '\n') :
    (c :: before).getLast? = some '\n' := by
  rw [List.getLast?_cons, starts]
  rfl

theorem exists_lineAt (source : List Char) (offset : Nat) :
    ∃ before line after, LineAt source offset before line after := by
  induction source generalizing offset with
  | nil => exact ⟨[], [], [], rfl, .inl rfl, List.not_mem_nil, .inl rfl, Nat.zero_le _, .inl rfl⟩
  | cons c cs ih =>
    obtain ⟨before, line, after, here⟩ := ih (offset - c.utf8Size)
    have size := c.utf8Size_pos
    have behind := here.behind
    have reaches := here.reaches
    rw [byteLength_append] at reaches
    by_cases feed : c = '\n'
    · subst feed
      by_cases first : offset = 0
      · exact ⟨[], [], _, rfl, .inl rfl, List.not_mem_nil, .inr rfl, Nat.zero_le _, .inr (by omega)⟩
      · refine ⟨'\n' :: before, line, after, by rw [List.cons_append, here.whole], .inr ?_, here.inLine,
          here.ends, ?_, ?_⟩
        · rcases here.starts with rfl | starts
          · rfl
          · exact getLast?_cons_feed starts
        · have one : '\n'.utf8Size = 1 := rfl
          rw [byteLength_cons]
          omega
        · rw [List.cons_append, byteLength_cons, byteLength_append]
          exact reaches.imp_right fun le => by omega
    · rcases here.starts with rfl | starts
      · refine ⟨[], c :: line, after, by rw [← here.whole]; rfl, .inl rfl, ?_, here.ends, Nat.zero_le _, ?_⟩
        · rw [List.mem_cons, not_or]
          exact ⟨Ne.symm feed, here.inLine⟩
        · rw [List.nil_append, byteLength_cons]
          exact reaches.imp_right fun le => by
            rw [byteLength_nil] at le
            omega
      · have pos : 0 < byteLength before := byteLength_pos fun none => by simp [none] at starts
        refine ⟨c :: before, line, after, by rw [List.cons_append, here.whole], .inr (getLast?_cons_feed starts),
          here.inLine, here.ends, ?_, ?_⟩
        · rw [byteLength_cons]
          omega
        · rw [List.cons_append, byteLength_cons, byteLength_append]
          exact reaches.imp_right fun le => by omega

theorem lastLine_append {before front : List Char} (starts : before = [] ∨ before.getLast? = some '\n')
    (inLine : '\n' ∉ front) : lastLine (before ++ front) = front := by
  have kept : ∀ c ∈ front.reverse, (c != '\n') = true := by
    intro c mem
    rw [bne_iff_ne]
    rintro rfl
    exact inLine (List.mem_reverse.mp mem)
  rw [lastLine, List.reverse_append, List.takeWhile_append_of_pos kept]
  rcases starts with rfl | starts
  · simp
  · obtain ⟨init, rfl⟩ := List.getLast?_eq_some_iff.mp starts
    simp

theorem indentation_append {line rest : List Char} (solid : ∀ c ∈ rest.head?, isIndent c = false) :
    indentation (line ++ rest) = indentation line := by
  induction line with
  | nil =>
    cases rest with
    | nil => rfl
    | cons c cs =>
      have ends : ¬isIndent c = true := by simp [solid c rfl]
      exact List.takeWhile_cons_of_neg ends
  | cons c line ih =>
    unfold indentation at ih ⊢
    rw [List.cons_append, List.takeWhile_cons, List.takeWhile_cons, ih]

theorem LineAt.depthAt_eq {source before line after : List Char} {offset : Nat}
    (here : LineAt source offset before line after) : depthAt source offset = (indentation line).length := by
  have taken : takeBytes offset source = before ++ takeBytes (offset - byteLength before) line := by
    have nothing : takeBytes (offset - byteLength before - byteLength line) after = [] := by
      rcases here.reaches with rfl | le
      · rfl
      · rw [byteLength_append] at le
        rw [Nat.sub_sub, Nat.sub_eq_zero_of_le le, takeBytes_zero]
    rw [← here.whole, takeBytes_append, takeBytes_of_le here.behind, takeBytes_append, nothing, List.append_nil]
  have rest : takeBytes (offset - byteLength before) line ++ dropBytes offset source = line ++ after := by
    have whole := takeBytes_append_dropBytes offset source
    rw [taken, ← here.whole, List.append_assoc] at whole
    rw [← here.whole]
    exact List.append_cancel_left whole
  have short : '\n' ∉ takeBytes (offset - byteLength before) line := by
    intro mem
    refine here.inLine ?_
    rw [← takeBytes_append_dropBytes (offset - byteLength before) line]
    exact List.mem_append_left _ mem
  rw [depthAt, taken, lastLine_append here.starts short, rest]
  refine congrArg List.length (indentation_append fun c head => ?_)
  rcases here.ends with rfl | ends
  · cases head
  · obtain rfl := Option.some.inj (ends.symm.trans head)
    rfl

/-- A line without the spaces and tabs at its front, up to a number of them. -/
def Outdents (depth : Nat) (line rest : List Char) : Prop :=
  ∃ lead, lead ++ rest = line ∧ (∀ c ∈ lead, isIndent c = true) ∧ lead.length ≤ depth ∧
    (lead.length < depth → ∀ c ∈ rest.head?, isIndent c = false)

theorem outdents_outdent (depth : Nat) (line : List Char) : Outdents depth line (outdent depth line) := by
  have whole : indentation line ++ line.dropWhile isIndent = line := List.takeWhile_append_dropWhile
  have blank : ∀ c ∈ indentation line, isIndent c = true := List.all_eq_true.mp List.all_takeWhile
  rw [outdent]
  rcases Nat.le_total (indentation line).length depth with all | some
  · have rest : line.drop (indentation line).length = line.dropWhile isIndent := by
      conv => lhs; arg 2; rw [← whole]
      exact List.drop_left
    rw [Nat.min_eq_left all, rest]
    refine ⟨indentation line, whole, blank, all, fun _ c head => ?_⟩
    have first := List.head?_dropWhile_not isIndent line
    rw [Option.mem_def.mp head] at first
    simpa using first
  · rw [Nat.min_eq_right some]
    have front : line.take depth <+: indentation line := by
      refine List.prefix_of_prefix_length_le (List.take_prefix _ line) (List.takeWhile_prefix isIndent) ?_
      exact Nat.le_trans (List.length_take_le depth line) some
    refine ⟨line.take depth, List.take_append_drop depth line, fun c mem => blank c (front.subset mem),
      List.length_take_le depth line, fun short => ?_⟩
    have long : (indentation line).length ≤ line.length := (List.takeWhile_prefix isIndent).length_le
    rw [List.length_take] at short
    omega

def moveLine (depth : Nat) (line : List Char × Bool) : List Char :=
  if line.2 then line.1 else outdent depth line.1

theorem feed_not_mem_moveLine {depth : Nat} {line : List Char × Bool} (inLine : '\n' ∉ line.1) :
    '\n' ∉ moveLine depth line := by
  unfold moveLine
  split
  · exact inLine
  · exact fun mem => inLine (List.mem_of_mem_drop mem)

theorem splitLines_dedent {source : List Char} {span : Span} {first : List Char} {flag : Bool}
    {lines : List (List Char × Bool)} (texts : splitLines (span.of source) = first :: lines.map Prod.fst)
    (flags : templateLines (span.of source) = flag :: lines.map Prod.snd) :
    splitLines (dedent source span) = first :: lines.map (moveLine (depthAt source span.start)) := by
  have zipped : (lines.map Prod.fst).zip (lines.map Prod.snd) = lines := (List.zip_of_prod rfl rfl).symm
  have short : ∀ line ∈ first :: lines.map Prod.fst, '\n' ∉ line := by
    intro line mem
    rw [← texts] at mem
    exact not_mem_of_mem_split mem
  have moved : outdentLines (depthAt source span.start) (splitLines (span.of source)) (templateLines (span.of source))
      = first :: lines.map (moveLine (depthAt source span.start)) := by
    rw [texts, flags, outdentLines, zipped]
    rfl
  rw [dedent, moved]
  refine split_join (List.cons_ne_nil _ _) (List.forall_mem_cons.mpr ⟨short first List.mem_cons_self, ?_⟩)
  intro line mem
  obtain ⟨l, hl, rfl⟩ := List.mem_map.mp mem
  exact feed_not_mem_moveLine (short l.1 (List.mem_cons_of_mem first (List.mem_map_of_mem hl)))

/-- How a line with its flag, behind the first, comes out at the left margin. -/
def Moves (depth : Nat) (line : List Char × Bool) (line' : List Char) : Prop :=
  if line.2 then line' = line.1 else Outdents depth line.1 line'

theorem moves_moveLine (depth : Nat) (line : List Char × Bool) : Moves depth line (moveLine depth line) := by
  unfold Moves moveLine
  split
  · rfl
  · exact outdents_outdent depth line.1

theorem forall₂_dedent {source before line after : List Char} {span : Span}
    (here : LineAt source span.start before line after) :
    (splitLines (dedent source span)).head? = (splitLines (span.of source)).head? ∧
      List.Forall₂ (Moves (indentation line).length)
        ((splitLines (span.of source)).zip (templateLines (span.of source))).tail
        (splitLines (dedent source span)).tail := by
  obtain ⟨first, flag, lines, zipped, texts, flags, -⟩ := exists_flaggedLines (span.of source)
  rw [splitLines_dedent texts flags, zipped, texts, here.depthAt_eq]
  refine ⟨rfl, ?_⟩
  rw [List.tail_cons, List.tail_cons, List.forall₂_map_right_iff]
  exact List.forall₂_same.mpr fun l _ => moves_moveLine _ l

/-- A line that is empty, is left alone, or has something behind a number of spaces. -/
def Indented (spaces : Nat) (line : List Char × Bool) : Prop :=
  line.1 = [] ∨ line.2 = true ∨ ∃ c rest, line.1 = List.replicate spaces ' ' ++ c :: rest

theorem outdent_indented (spaces : Nat) (cs : List Char) :
    outdent spaces (List.replicate spaces ' ' ++ cs) = cs := by
  have blank : ∀ c ∈ List.replicate spaces ' ', isIndent c = true := by
    intro c mem
    obtain rfl := List.eq_of_mem_replicate mem
    rfl
  have long : spaces ≤ (indentation (List.replicate spaces ' ' ++ cs)).length := by
    rw [indentation, List.takeWhile_append_of_pos blank, List.length_append, List.length_replicate]
    omega
  rw [outdent, Nat.min_eq_right long, List.drop_left' List.length_replicate]

theorem print_moveLine {width depth : Nat} {line : List Char × Bool} (indented : Indented (width * depth) line) :
    (Line.mk (moveLine (width * depth) line) depth line.2).print width = line.1 := by
  obtain ⟨text, isVerbatim⟩ := line
  cases isVerbatim with
  | true =>
    rw [moveLine, if_pos rfl, Line.print]
    split
    · next blank => exact (List.isEmpty_iff.mp blank).symm
    · rfl
  | false =>
    rw [moveLine, if_neg Bool.false_ne_true]
    rcases indented with rfl | verbatim | ⟨c, rest, rfl⟩
    · rfl
    · cases verbatim
    · rw [outdent_indented]
      rfl

structure StartsLine (source : List Char) (span : Span) (spaces : Nat) (before text after : List Char) : Prop where
  starts : before = [] ∨ before.getLast? = some '\n'
  covers : span.Covers source (before ++ List.replicate spaces ' ') text after
  solid : StartsSolid text
  inLine : text.head? ≠ some '\n'

theorem StartsLine.depthAt_eq {source before text after : List Char} {span : Span} {spaces : Nat}
    (here : StartsLine source span spaces before text after) : depthAt source span.start = spaces := by
  have short : '\n' ∉ List.replicate spaces ' ' := fun mem => absurd (List.eq_of_mem_replicate mem) (by decide)
  have solid : ∀ c ∈ (text ++ after).head?, isIndent c = false := by
    intro c head
    obtain ⟨d, ds, whole, notIndent⟩ := here.solid.append after
    rw [whole] at head
    obtain rfl := Option.some.inj head
    exact notIndent
  have all : indentation (List.replicate spaces ' ') = List.replicate spaces ' ' := by
    rw [indentation, List.takeWhile_replicate]
    rfl
  rw [depthAt, here.covers.start, ← here.covers.whole, takeBytes_byteLength, dropBytes_byteLength,
    lastLine_append here.starts short, indentation_append solid, all, List.length_replicate]

theorem ofText_dedent {source : List Char} {span : Span} {first : List Char} {flag : Bool} (depth : Nat)
    {lines : List (List Char × Bool)} (texts : splitLines (span.of source) = first :: lines.map Prod.fst)
    (flags : templateLines (span.of source) = flag :: lines.map Prod.snd)
    (same : templateLines (dedent source span) = templateLines (span.of source)) :
    Line.ofText depth (dedent source span) = ⟨first, depth, false⟩ ::
      lines.map fun l => ⟨moveLine (depthAt source span.start) l, depth, l.2⟩ := by
  have zipped : (splitLines (dedent source span)).zip (templateLines (dedent source span)) =
      (first, flag) :: lines.map fun l => (moveLine (depthAt source span.start) l, l.2) := by
    rw [splitLines_dedent texts flags, same, flags, List.zip_cons_cons, List.zip_map']
  rw [Line.ofText, zipped]
  exact congrArg _ List.map_map

theorem StartsLine.print_eq {width depth : Nat} {source before text after : List Char} {span : Span}
    (here : StartsLine source span (width * depth) before text after)
    (indented : ∀ l ∈ ((splitLines text).zip (templateLines text)).tail, Indented (width * depth) l)
    (same : templateLines (dedent source span) = templateLines text) :
    Writer.print width (List.replicate depth .indent ++ Action.line (String.ofList (dedent source span))) =
      List.replicate (width * depth) ' ' ++ (text ++ ['\n']) := by
  obtain ⟨first, flag, lines, zipped, texts, flags, -⟩ := exists_flaggedLines text
  rw [zipped, List.tail_cons] at indented
  rw [← here.covers.of_eq] at texts flags same
  have written := Writes.line depth (String.ofList (dedent source span))
  rw [String.toList_ofList, ofText_dedent depth texts flags same, here.depthAt_eq] at written
  rw [here.covers.of_eq] at texts
  have ne : first ≠ [] := by
    rintro rfl
    obtain ⟨c, cs, rfl, -⟩ := here.solid
    have feed : c ≠ '\n' := fun eq => here.inLine (congrArg some eq)
    simp only [splitLines, split, if_neg feed] at texts
    split at texts <;> cases texts
  have filled : (Line.mk first depth false).isBlank = false := by simpa [Line.isBlank] using ne
  have printed : (Line.mk first depth false).print width = List.replicate (width * depth) ' ' ++ first := by
    rw [Line.print, filled]
    rfl
  have restored : (lines.map fun l => Line.mk (moveLine (width * depth) l) depth l.2).map (Line.print width)
      = lines.map Prod.fst := by
    rw [List.map_map]
    exact List.map_congr_left fun l mem => print_moveLine (indented l mem)
  have whole : text ++ ['\n'] = (first ++ ['\n']) ++ (lines.map Prod.fst).flatMap (· ++ ['\n']) := by
    have ends : joinLines (splitLines text) ++ ['\n'] = (splitLines text).flatMap (· ++ ['\n']) :=
      join_append_sep (split_ne_nil '\n' text)
    rw [joinLines, join_split, texts] at ends
    exact ends
  rw [← standAlone, standAlone_of_writes written ⟨_, List.mem_cons_self, filled⟩, printLines, List.map_cons, printed,
    restored, List.flatMap_cons, whole]
  simp only [List.append_assoc]

/-- A statement that starts behind the spaces of a depth, with lines that are empty, begin inside a template
literal or have something behind as many spaces, is given back by writing it at that depth from the left margin,
if the same lines begin inside template literals there. Whatever the span, the text at the left margin has the
first line of the covered text and as many lines; lines inside template literals stay, and the others lose their
spaces and tabs up to the indentation of the line on which the span starts. -/
theorem dedented_statement_prints_back (source : List Char) (span : Span) :
    (∀ {width depth : Nat} {before text after : List Char}, StartsLine source span (width * depth) before text after →
      (∀ l ∈ ((splitLines text).zip (templateLines text)).tail, Indented (width * depth) l) →
      templateLines (dedent source span) = templateLines text →
        Writer.print width (List.replicate depth .indent ++ Action.line (String.ofList (dedent source span))) =
          List.replicate (width * depth) ' ' ++ (text ++ ['\n'])) ∧
    ∃ before line after, LineAt source span.start before line after ∧
      (splitLines (dedent source span)).length = (splitLines (span.of source)).length ∧
      (splitLines (dedent source span)).head? = (splitLines (span.of source)).head? ∧
      List.Forall₂ (Moves (line.takeWhile isIndent).length)
        ((splitLines (span.of source)).zip (templateLines (span.of source))).tail
        (splitLines (dedent source span)).tail := by
  obtain ⟨before, line, after, here⟩ := exists_lineAt source span.start
  obtain ⟨head, lines⟩ := forall₂_dedent here
  refine ⟨fun here indented same => here.print_eq indented same, before, line, after, here, ?_, head, lines⟩
  obtain ⟨first, flag, rest, -, texts, flags, -⟩ := exists_flaggedLines (span.of source)
  rw [splitLines_dedent texts flags, texts, List.length_cons, List.length_cons, List.length_map, List.length_map]

/-- A statement with a template literal over two lines and a blank line. -/
def guardedCall : List Char :=
  "if (a) \x7b\n            b(`x\n  y`)\n\n        \x7d".toList

def guardedBefore : List Char := "class A \x7b\n    m () \x7b\n".toList

def guardedSource : List Char :=
  guardedBefore ++ List.replicate (4 * 2) ' ' ++ (guardedCall ++ "\n    \x7d\n\x7d\n".toList)

theorem guardedCall_prints_back :
    dedent guardedSource ⟨29, 71⟩ = "if (a) \x7b\n    b(`x\n  y`)\n\n\x7d".toList ∧
      Writer.print 4 (List.replicate 2 .indent ++ Action.line (String.ofList (dedent guardedSource ⟨29, 71⟩))) =
        List.replicate (4 * 2) ' ' ++ (guardedCall ++ ['\n']) := by
  have moved : dedent guardedSource ⟨29, 71⟩ = "if (a) \x7b\n    b(`x\n  y`)\n\n\x7d".toList := by
    decide +kernel
  have flags : templateLines guardedCall = [false, false, true, false, false] := by decide +kernel
  have here : StartsLine guardedSource ⟨29, 71⟩ (4 * 2) guardedBefore guardedCall "\n    \x7d\n\x7d\n".toList :=
    ⟨.inr rfl, ⟨rfl, rfl, rfl⟩, ⟨'i', _, rfl, rfl⟩, by decide⟩
  refine ⟨moved, (dedented_statement_prints_back _ _).1 here ?_ ?_⟩
  · rw [flags]
    intro l mem
    have lines : ((splitLines guardedCall).zip [false, false, true, false, false]).tail =
        [("            b(`x".toList, false), ("  y`)".toList, true), ([], false),
          ("        \x7d".toList, false)] := by decide
    rw [lines] at mem
    simp only [List.mem_cons, List.not_mem_nil, or_false] at mem
    rcases mem with rfl | rfl | rfl | rfl
    · exact .inr (.inr ⟨' ', "   b(`x".toList, by decide⟩)
    · exact .inr (.inl rfl)
    · exact .inl rfl
    · exact .inr (.inr ⟨'\x7d', [], by decide⟩)
  · rw [flags, moved]
    decide +kernel

end VueOptions.Layout
