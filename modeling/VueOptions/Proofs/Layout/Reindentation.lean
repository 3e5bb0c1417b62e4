import VueOptions.Layout.Dedent
import VueOptions.Proofs.Layout.Composition

/-!
What taking a statement out of its place and writing it at another depth do to its text. Both change
nothing but the indentation at the front of lines, and both leave a line alone that begins inside a
template literal: `Reindents` is a text and what becomes of it, with one flag for each line feed.

Parts of a text that start with a character stay as they are and keep their order (`InOrder`) where
every line that begins inside one of them is left alone (`Threaded`); parts within a line always do.
-/

set_option autoImplicit false

namespace VueOptions.Layout

open Text Script

/-- Texts that stand in a text, one behind another. -/
inductive InOrder : List (List Char) → List Char → Prop
  | nil (text : List Char) : InOrder [] text
  | cons {parts : List (List Char)} {rest : List Char} (gap part : List Char)
    (later : InOrder parts rest) : InOrder (part :: parts) (gap ++ (part ++ rest))

namespace InOrder

variable {parts more : List (List Char)} {text text' : List Char}

theorem append_left (before : List Char) (h : InOrder parts text) : InOrder parts (before ++ text) := by
  cases h with
  | nil => exact .nil _
  | cons gap part later =>
    rw [← List.append_assoc]
    exact .cons (before ++ gap) part later

theorem append (first : InOrder parts text) (second : InOrder more text') :
    InOrder (parts ++ more) (text ++ text') := by
  induction first with
  | nil text => exact second.append_left text
  | cons gap part _ ih =>
    rw [List.append_assoc, List.append_assoc]
    exact .cons gap part ih

theorem append_right (after : List Char) (h : InOrder parts text) : InOrder parts (text ++ after) := by
  simpa using h.append (.nil after)

theorem of_isInfix (inside : text <:+: text') (h : InOrder parts text) : InOrder parts text' := by
  obtain ⟨before, after, rfl⟩ := inside
  exact (h.append_left before).append_right after

theorem isInfix_of_mem {part : List Char} (h : InOrder parts text) (mem : part ∈ parts) :
    part <:+: text := by
  induction h with
  | nil => cases mem
  | cons gap first later ih =>
    rcases List.mem_cons.mp mem with rfl | mem
    · exact ⟨gap, _, List.append_assoc _ _ _⟩
    · exact (ih mem).trans ((List.suffix_append _ _).trans (List.suffix_append _ _)).isInfix

theorem sublist {some : List (List Char)} (h : InOrder parts text) (among : some.Sublist parts) :
    InOrder some text := by
  induction h generalizing some with
  | nil text =>
    obtain rfl := List.sublist_nil.mp among
    exact .nil text
  | cons gap part _ ih =>
    cases among with
    | cons _ among => exact ((ih among).append_left part).append_left gap
    | cons_cons _ among => exact .cons gap part (ih among)

theorem intercalate {α : Type} {of : α → List (List Char)} {write : α → String}
    {items : List α} (sep : String) (each : ∀ i ∈ items, InOrder (of i) (write i).toList) :
    InOrder (items.flatMap of) (sep.intercalate (items.map write)).toList := by
  rw [String.toList_intercalate]
  induction items with
  | nil => exact .nil _
  | cons i items ih =>
    have first := each i List.mem_cons_self
    have rest := ih fun j mem => each j (List.mem_cons_of_mem i mem)
    cases items with
    | nil => simpa using first
    | cons j items =>
      have parts := first.append (rest.append_left sep.toList)
      simpa [List.intercalate] using parts

end InOrder

def StartsSolid (part : List Char) : Prop := ∃ c cs, part = c :: cs ∧ isIndent c = false

theorem StartsSolid.append {part : List Char} (solid : StartsSolid part) (rest : List Char) :
    StartsSolid (part ++ rest) := by
  obtain ⟨c, cs, rfl, notIndent⟩ := solid
  exact ⟨c, cs ++ rest, rfl, notIndent⟩

theorem StartsSolid.append_of_indent {part gap indent text : List Char} (solid : StartsSolid part)
    (front : gap ++ part = indent ++ text) (blank : ∀ c ∈ indent, isIndent c = true) :
    ∃ later, gap = indent ++ later ∧ text = later ++ part := by
  obtain ⟨d, ds, rfl, notIndent⟩ := solid
  rcases List.append_eq_append_iff.mp front with ⟨more, hindent, hpart⟩ | ⟨later, hgap, htext⟩
  · cases more with
    | nil => exact ⟨[], by simpa using hindent.symm, by simpa using hpart.symm⟩
    | cons e more =>
      obtain ⟨rfl, -⟩ := List.cons.inj hpart
      have isBlank := blank d (by simp [hindent])
      rw [notIndent] at isBlank
      cases isBlank
  · exact ⟨later, hgap, htext⟩

/-- Parts that stand in a text one behind another, where the flag of each line feed inside a part is
set. -/
inductive Threaded : List Bool → List (List Char) → List Char → Prop
  | nil (flags : List Bool) (text : List Char) : Threaded flags [] text
  | cons {flags : List Bool} {parts : List (List Char)} {rest : List Char} (gap part : List Char)
    (solid : StartsSolid part)
    (flagged : ∀ f ∈ (flags.drop (gap.count '\n')).take (part.count '\n'), f = true)
    (later : Threaded (flags.drop ((gap ++ part).count '\n')) parts rest) :
    Threaded flags (part :: parts) (gap ++ (part ++ rest))

namespace Threaded

variable {flags : List Bool} {parts : List (List Char)} {text : List Char}

theorem append_left {before : List Char} (h : Threaded (flags.drop (before.count '\n')) parts text) :
    Threaded flags parts (before ++ text) := by
  cases h with
  | nil => exact .nil flags _
  | cons gap part solid flagged later =>
    rw [List.drop_drop, ← List.count_append] at flagged later
    rw [← List.append_assoc]
    refine .cons (before ++ gap) part solid flagged ?_
    rwa [List.append_assoc]

theorem sublist {some : List (List Char)} (h : Threaded flags parts text) (among : some.Sublist parts) :
    Threaded flags some text := by
  induction h generalizing some with
  | nil =>
    obtain rfl := List.sublist_nil.mp among
    exact .nil _ _
  | cons gap part solid flagged _ ih =>
    cases among with
    | cons _ among =>
      rw [← List.append_assoc]
      exact (ih among).append_left
    | cons_cons _ among => exact .cons gap part solid flagged (ih among)

end Threaded

theorem InOrder.threaded {parts : List (List Char)} {text : List Char} (h : InOrder parts text)
    (solid : ∀ part ∈ parts, StartsSolid part) (inLine : ∀ part ∈ parts, '\n' ∉ part)
    (flags : List Bool) : Threaded flags parts text := by
  induction h generalizing flags with
  | nil text => exact .nil flags text
  | cons gap part _ ih =>
    have none : part.count '\n' = 0 := List.count_eq_zero.mpr (inLine part List.mem_cons_self)
    refine .cons gap part (solid part List.mem_cons_self) (by simp [none]) ?_
    exact ih (fun p mem => solid p (List.mem_cons_of_mem part mem))
      (fun p mem => inLine p (List.mem_cons_of_mem part mem)) _

/-- A text and the same text with other indentation at the front of its lines; a line whose flag is set
stays as it is. -/
inductive Reindents : List Bool → List Char → List Char → Prop
  | nil (flags : List Bool) : Reindents flags [] []
  | char {flags : List Bool} {u v : List Char} {c : Char} (inLine : c ≠ '\n')
    (rest : Reindents flags u v) : Reindents flags (c :: u) (c :: v)
  | keep {flags : List Bool} {u v : List Char} (rest : Reindents flags u v) :
    Reindents (true :: flags) ('\n' :: u) ('\n' :: v)
  | move {flags : List Bool} {text u v : List Char} (indent indent' : List Char)
    (front : text = indent ++ u) (blank : ∀ c ∈ indent, isIndent c = true)
    (rest : Reindents flags u v) : Reindents (false :: flags) ('\n' :: text) ('\n' :: (indent' ++ v))

namespace Reindents

variable {flags : List Bool} {u v part rest : List Char}

theorem line {line : List Char} (inLine : '\n' ∉ line) (h : Reindents flags u v) :
    Reindents flags (line ++ u) (line ++ v) := by
  induction line with
  | nil => exact h
  | cons c line ih =>
    rw [List.mem_cons, not_or] at inLine
    exact .char (Ne.symm inLine.1) (ih inLine.2)

theorem eq_nil (h : Reindents flags [] v) : v = [] := by
  cases h
  rfl

theorem past_gap {gap : List Char} (h : Reindents flags (gap ++ part) v) (solid : StartsSolid part) :
    ∃ gap' v', v = gap' ++ v' ∧ Reindents flags gap gap' ∧
      Reindents (flags.drop (gap.count '\n')) part v' := by
  induction size : gap.length using Nat.strongRecOn generalizing gap flags v with
  | ind n ih =>
  cases gap with
  | nil => exact ⟨[], v, rfl, .nil flags, h⟩
  | cons g gap =>
    rw [List.length_cons] at size
    cases h with
    | char inLine rest =>
      obtain ⟨gap', v', rfl, before, moved⟩ := ih gap.length (by omega) rest rfl
      exact ⟨g :: gap', v', rfl, .char inLine before, by rwa [List.count_cons_of_ne inLine]⟩
    | keep rest =>
      obtain ⟨gap', v', rfl, before, moved⟩ := ih gap.length (by omega) rest rfl
      exact ⟨'\n' :: gap', v', rfl, .keep before, by rwa [List.count_cons_self, List.drop_succ_cons]⟩
    | move indent indent' front blank rest =>
      obtain ⟨later, rfl, rfl⟩ := solid.append_of_indent front blank
      obtain ⟨gap', v', rfl, before, moved⟩ := ih later.length (by simp at size; omega) rest rfl
      have none : indent.count '\n' = 0 := by
        refine List.count_eq_zero.mpr fun mem => ?_
        exact absurd (blank '\n' mem) (by decide)
      refine ⟨'\n' :: (indent' ++ gap'), v', by simp, .move indent indent' rfl blank before, ?_⟩
      rwa [List.count_cons_self, List.drop_succ_cons, List.count_append, none, Nat.zero_add]

theorem past_part (h : Reindents flags (part ++ rest) v)
    (flagged : ∀ f ∈ flags.take (part.count '\n'), f = true) :
    ∃ v', v = part ++ v' ∧ Reindents (flags.drop (part.count '\n')) rest v' := by
  induction part generalizing flags v with
  | nil => exact ⟨v, rfl, h⟩
  | cons c part ih =>
    cases h with
    | char inLine moved =>
      rw [List.count_cons_of_ne inLine] at flagged ⊢
      obtain ⟨v', rfl, later⟩ := ih moved flagged
      exact ⟨v', rfl, later⟩
    | keep moved =>
      rw [List.count_cons_self, List.take_succ_cons] at flagged
      obtain ⟨v', rfl, later⟩ := ih moved fun f mem => flagged f (List.mem_cons_of_mem true mem)
      exact ⟨v', rfl, by rwa [List.count_cons_self, List.drop_succ_cons]⟩
    | move =>
      rw [List.count_cons_self, List.take_succ_cons] at flagged
      cases flagged false List.mem_cons_self

end Reindents

theorem Threaded.inOrder {flags : List Bool} {parts : List (List Char)} {u v : List Char}
    (h : Threaded flags parts u) (moved : Reindents flags u v) : InOrder parts v := by
  induction h generalizing v with
  | nil => exact .nil v
  | @cons flags parts rest gap part solid flagged later ih =>
    obtain ⟨gap', v', rfl, -, fromPart⟩ := moved.past_gap (solid.append rest)
    obtain ⟨v'', rfl, fromRest⟩ := fromPart.past_part flagged
    rw [List.drop_drop, ← List.count_append] at fromRest
    exact .cons gap' part (ih fromRest)

def MovesLine (line : List Char × Bool) (line' : List Char) : Prop :=
  ∃ indent indent' rest, line.1 = indent ++ rest ∧ line' = indent' ++ rest ∧
    (∀ c ∈ indent, isIndent c = true) ∧ (line.2 = true → line' = line.1)

def behind (first : List Char) (lines : List (List Char)) : List Char :=
  first ++ lines.flatMap ('\n' :: ·)

theorem join_eq_behind (first : List Char) (lines : List (List Char)) :
    joinLines (first :: lines) = behind first lines := by
  induction lines generalizing first with
  | nil => exact (List.append_nil first).symm
  | cons line lines ih =>
    rw [joinLines, join_cons (List.cons_ne_nil line lines), ← joinLines, ih line]
    rfl

theorem Reindents.lines {first : List Char} (inLine : '\n' ∉ first) {lines : List (List Char × Bool)}
    {move : List Char × Bool → List Char} (moves : ∀ l ∈ lines, '\n' ∉ l.1 ∧ MovesLine l (move l)) :
    Reindents (lines.map Prod.snd) (behind first (lines.map Prod.fst)) (behind first (lines.map move)) := by
  induction lines generalizing first with
  | nil => exact (Reindents.nil []).line inLine
  | cons l lines ih =>
    obtain ⟨text, flag⟩ := l
    obtain ⟨inLine', indent, indent', rest, htext, hmove, blank, stays⟩ := moves _ List.mem_cons_self
    dsimp only at inLine' htext stays
    have later {line : List Char} (inLine : '\n' ∉ line) :=
      ih inLine fun k mem => moves k (List.mem_cons_of_mem _ mem)
    refine Reindents.line inLine ?_
    simp only [List.map_cons, List.flatMap_cons, List.cons_append]
    cases flag with
    | true =>
      rw [stays rfl]
      exact .keep (later inLine')
    | false =>
      have short : '\n' ∉ rest := fun mem => inLine' (by rw [htext]; exact List.mem_append_right indent mem)
      rw [hmove, htext, List.append_assoc, List.append_assoc]
      exact .move indent indent' rfl blank (later short)

/-- For each line feed of a fragment, whether the line behind it begins inside a template literal. -/
def feedFlags (text : List Char) : List Bool := (templateLines text).tail

theorem exists_flaggedLines (text : List Char) : ∃ first flag lines,
    (splitLines text).zip (templateLines text) = (first, flag) :: lines ∧
      splitLines text = first :: lines.map Prod.fst ∧ templateLines text = flag :: lines.map Prod.snd ∧
      '\n' ∉ first ∧ ∀ l ∈ lines, '\n' ∉ l.1 := by
  have size := length_templateLines text
  cases texts : splitLines text with
  | nil => exact absurd texts (split_ne_nil '\n' text)
  | cons first rest =>
    cases flags : templateLines text with
    | nil => simp [texts, flags] at size
    | cons flag later =>
      have same : later.length = rest.length := by simpa [texts, flags] using size
      have short : ∀ line ∈ first :: rest, '\n' ∉ line := by
        intro line mem
        rw [← texts] at mem
        exact not_mem_of_mem_split mem
      refine ⟨first, flag, rest.zip later, rfl, ?_, ?_, short first List.mem_cons_self, fun l mem => ?_⟩
      · rw [List.map_fst_zip (Nat.le_of_eq same.symm)]
      · rw [List.map_snd_zip (Nat.le_of_eq same)]
      · exact short l.1 (List.mem_cons_of_mem first (List.of_mem_zip mem).1)

theorem movesLine_outdent (depth : Nat) (line : List Char × Bool) :
    MovesLine line (if line.2 then line.1 else outdent depth line.1) := by
  cases flag : line.2 with
  | true => exact ⟨[], [], line.1, rfl, rfl, by simp, fun _ => rfl⟩
  | false =>
    let n := min (indentation line.1).length depth
    refine ⟨line.1.take n, [], line.1.drop n, (List.take_append_drop n line.1).symm, rfl, fun c mem => ?_,
      fun set => absurd (flag.symm.trans set) Bool.false_ne_true⟩
    have front : line.1.take n <+: indentation line.1 := by
      refine List.prefix_of_prefix_length_le (List.take_prefix n line.1)
        (List.takeWhile_prefix isIndent) ?_
      exact Nat.le_trans (List.length_take_le n line.1) (Nat.min_le_left _ _)
    exact List.all_eq_true.mp List.all_takeWhile c (front.subset mem)

theorem reindents_dedent (source : List Char) (span : Span) :
    Reindents (feedFlags (span.of source)) (span.of source) (dedent source span) := by
  obtain ⟨first, flag, lines, -, texts, flags, inLine, short⟩ := exists_flaggedLines (span.of source)
  have whole : span.of source = behind first (lines.map Prod.fst) := by
    rw [← join_eq_behind, ← texts]
    exact (join_split '\n' (span.of source)).symm
  have zipped : (lines.map Prod.fst).zip (lines.map Prod.snd) = lines :=
    (List.zip_of_prod rfl rfl).symm
  have moved := Reindents.lines inLine fun l mem =>
    ⟨short l mem, movesLine_outdent (depthAt source span.start) l⟩
  rw [feedFlags, dedent]
  simp only [texts, flags, outdentLines, zipped, List.tail_cons]
  rw [join_eq_behind, whole]
  exact moved

abbrev goOn (depth : Nat) (ls : List Line) (more : List Char) : List Line :=
  glue ls [⟨more, depth, false⟩]

theorem goOn_nil {depth : Nat} {ls : List Line} (ne : ls ≠ []) : goOn depth ls [] = ls := by
  rw [← List.dropLast_concat_getLast ne, goOn, glue_concat, glue, List.append_nil]

theorem Line.exists_print (width depth : Nat) (text : List Char) (isVerbatim : Bool) :
    ∃ lead, (Line.mk text depth isVerbatim).print width = lead ++ text ∧
      (isVerbatim = true → lead = []) ∧
      (isVerbatim = false → text ≠ [] → lead = List.replicate (width * depth) ' ') := by
  unfold Line.print
  split
  · next blank =>
    have none : text = [] := List.isEmpty_iff.mp blank
    exact ⟨[], none.symm, fun _ => rfl, fun _ some => absurd none some⟩
  · cases isVerbatim with
    | true => exact ⟨[], rfl, fun _ => rfl, nofun⟩
    | false => exact ⟨_, rfl, nofun, fun _ _ => rfl⟩

theorem exists_printed (width depth : Nat) (more : List Char) {lines : List (List Char × Bool)}
    {first : List Char} (isVerbatim : Bool) (inLine : '\n' ∉ first) (short : ∀ l ∈ lines, '\n' ∉ l.1) :
    ∃ lead v, printLines width
        (goOn depth (⟨first, depth, isVerbatim⟩ :: lines.map fun l => ⟨l.1, depth, l.2⟩) more) =
          lead ++ (v ++ (more ++ ['\n'])) ∧
      (isVerbatim = true → lead = []) ∧
      (isVerbatim = false → first ≠ [] → lead = List.replicate (width * depth) ' ') ∧
      Reindents (lines.map Prod.snd) (behind first (lines.map Prod.fst)) v := by
  induction lines generalizing first isVerbatim with
  | nil =>
    obtain ⟨front, printed, alone, indented⟩ := Line.exists_print width depth (first ++ more) isVerbatim
    refine ⟨front, first ++ [], ?_, alone, fun plain ne => indented plain (by simp [ne]),
      (Reindents.nil []).line inLine⟩
    simp [printLines, glue, printed]
  | cons l lines ih =>
    obtain ⟨front, printed, alone, indented⟩ := Line.exists_print width depth first isVerbatim
    obtain ⟨front', v, printed', alone', -, moved⟩ :=
      ih l.2 (short l List.mem_cons_self) fun k mem => short k (List.mem_cons_of_mem l mem)
    refine ⟨front, first ++ '\n' :: (front' ++ v), ?_, alone, indented, Reindents.line inLine ?_⟩
    · have next : goOn depth (⟨first, depth, isVerbatim⟩ :: (l :: lines).map fun l => ⟨l.1, depth, l.2⟩)
          more = [⟨first, depth, isVerbatim⟩] ++
            goOn depth (⟨l.1, depth, l.2⟩ :: lines.map fun l => ⟨l.1, depth, l.2⟩) more := rfl
      rw [next, printLines_append, printed']
      simp [printLines, printed]
    · simp only [List.map_cons, List.flatMap_cons, List.cons_append]
      cases flag : l.2 with
      | true =>
        rw [alone' flag, List.nil_append]
        exact .keep moved
      | false => exact .move [] front' rfl (by simp) moved

theorem exists_reindents (width depth : Nat) (text more : List Char) :
    ∃ lead v, printLines width (goOn depth (Line.ofText depth text) more) = lead ++ (v ++ (more ++ ['\n'])) ∧
      (∀ c, text.head? = some c → c ≠ '\n' → lead = List.replicate (width * depth) ' ') ∧
      Reindents (feedFlags text) text v := by
  obtain ⟨first, flag, lines, zipped, texts, flags, inLine, short⟩ := exists_flaggedLines text
  obtain ⟨lead, v, printed, -, indented, moved⟩ := exists_printed width depth more false inLine short
  have whole : text = behind first (lines.map Prod.fst) := by
    rw [← join_eq_behind, ← texts]
    exact (join_split '\n' text).symm
  have split : Line.ofText depth text =
      ⟨first, depth, false⟩ :: lines.map fun l => ⟨l.1, depth, l.2⟩ := by
    rw [Line.ofText, zipped]
  refine ⟨lead, v, split ▸ printed, fun c starts inFirst => indented rfl ?_, ?_⟩
  · rintro rfl
    cases lines with
    | nil => simp [whole, behind] at starts
    | cons l lines => exact inFirst (by simpa [whole, behind] using starts.symm)
  · rw [feedFlags, flags, List.tail_cons, whole]
    exact moved

theorem Threaded.inOrder_printed {parts : List (List Char)} {text : List Char}
    (h : Threaded (feedFlags text) parts text) (width depth : Nat) (more : List Char) :
    InOrder parts (printLines width (goOn depth (Line.ofText depth text) more)) := by
  obtain ⟨lead, v, printed, -, moved⟩ := exists_reindents width depth text more
  rw [printed]
  exact ((h.inOrder moved).append_right _).append_left lead

theorem Threaded.inOrder_line {parts : List (List Char)} {text : List Char}
    (h : Threaded (feedFlags text) parts text) (width depth : Nat) :
    InOrder parts (printLines width (Line.ofText depth text)) := by
  have printed := h.inOrder_printed width depth []
  rwa [goOn_nil (Line.ofText_ne_nil depth text)] at printed

theorem Writes.block {depth : Nat} {tail : String} {body : List Action} {ls : List Line} (head : String)
    (inner : Writes (depth + 1) body ls) (inLine : '\n' ∉ tail.toList) :
    Writes depth [.write head, .block body, .write tail, .newLine]
      (goOn depth (Line.ofText depth head.toList) ['\x7b'] ++ ls ++
        [⟨'\x7d' :: tail.toList, depth, false⟩]) := by
  obtain ⟨hs, h, lines⟩ := Line.exists_ofText depth head.toList
  have opened := (Steps.write_fresh lines).append (.block inner)
  have steps := (opened.append (.writeInLine inLine)).append (.newLine depth _)
  rw [List.append_nil] at steps
  have same : goOn depth (Line.ofText depth head.toList) ['\x7b'] ++ ls =
      hs ++ ({ h with text := h.text ++ ['\x7b'] } :: ls) := by
    rw [lines, goOn, glue_concat, List.append_assoc]
    rfl
  rw [same]
  exact steps

theorem Writes.unique {depth : Nat} {as : List Action} {ls ms : List Line} (first : Writes depth as ls)
    (second : Writes depth as ms) : ls = ms := by
  have run := (first ⟨0, depth, [], Line.begun depth⟩ rfl rfl).symm.trans
    (second ⟨0, depth, [], Line.begun depth⟩ rfl rfl)
  simpa using congrArg Writer.earlier run

theorem standAlone_eq {width depth : Nat} {as : List Action} {ls : List Line}
    (entry : IsEntry depth as) (written : Writes depth as ls) :
    standAlone width depth as = printLines width ls := by
  obtain ⟨ms, written', filled⟩ := entry
  obtain rfl := Writes.unique written written'
  exact standAlone_of_writes written filled

theorem exists_standAlone_line (width depth : Nat) {head tail : String} (value : String) (ne : head ≠ "")
    (headInLine : '\n' ∉ head.toList) (tailInLine : '\n' ∉ tail.toList) (solid : StartsSolid tail.toList) :
    ∃ v, standAlone width depth (Action.line (head ++ (value ++ tail))) =
        List.replicate (width * depth) ' ' ++ (head.toList ++ (v ++ (tail.toList ++ ['\n']))) ∧
      Reindents (feedFlags (head ++ (value ++ tail)).toList) value.toList v := by
  obtain ⟨c, cs, starts⟩ : ∃ c cs, head.toList = c :: cs :=
    List.exists_cons_of_ne_nil (by simpa using ne)
  have inLine : c ≠ '\n' := by
    rintro rfl
    exact headInLine (by simp [starts])
  have entry : IsEntry depth (Action.line (head ++ (value ++ tail))) :=
    IsEntry.line (c := c) (by simp [starts]) inLine
  obtain ⟨lead, v, printed, indented, moved⟩ :=
    exists_reindents width depth (head ++ (value ++ tail)).toList []
  rw [goOn_nil (Line.ofText_ne_nil _ _)] at printed
  obtain rfl := indented c (by simp [starts]) inLine
  rw [standAlone_eq entry (Writes.line depth _), printed]
  generalize feedFlags (head ++ (value ++ tail)).toList = flags at moved
  rw [String.toList_append, String.toList_append] at moved
  obtain ⟨v, rfl, behindHead⟩ := moved.past_part (by simp [List.count_eq_zero.mpr headInLine])
  rw [List.count_eq_zero.mpr headInLine, List.drop_zero] at behindHead
  obtain ⟨v, w, rfl, kept, behindValue⟩ := behindHead.past_gap solid
  rw [← List.append_nil tail.toList] at behindValue
  obtain ⟨w, rfl, atEnd⟩ := behindValue.past_part (by simp [List.count_eq_zero.mpr tailInLine])
  obtain rfl := atEnd.eq_nil
  exact ⟨v, by simp, kept⟩

theorem isInfix_joinLines {line : List Char} {lines : List (List Char)} (mem : line ∈ lines) :
    line <:+: joinLines lines := by
  obtain ⟨before, after, rfl⟩ := List.append_of_mem mem
  cases before with
  | nil =>
    rw [List.nil_append, join_eq_behind]
    exact (List.prefix_append _ _).isInfix
  | cons first before =>
    rw [List.cons_append, join_eq_behind, behind, List.flatMap_append, List.flatMap_cons]
    exact ⟨first ++ before.flatMap ('\n' :: ·) ++ ['\n'], after.flatMap ('\n' :: ·), by simp⟩

theorem isInfix_framed (width depth : Nat) (opening : String) (body : List Char) (closing : String) :
    body <:+: framed width depth opening body closing :=
  ⟨textLine width depth opening, textLine width depth closing, rfl⟩

end VueOptions.Layout
