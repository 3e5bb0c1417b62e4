import VueOptions.Proofs.Layout.FramedFacts

/-!
Edits line by line. Where the facts of a text are at their places, the edits of house style stand one behind
another (`fits_edits`), and each puts as many line feeds there as it takes away. So they can be cut at the ends
of lines, and carrying them out changes every line on its own (`SourceLine.splitLines_applyFrom`).
-/

set_option autoImplicit false

namespace VueOptions.Layout

open Text Script

namespace Edit

/-- Edits fit a text that starts at an offset: they stand one behind another, each with the characters that it takes
away, of which something holds. -/
inductive Fits (holds : List Char → Edit → Prop) : Nat → List Char → List Edit → Prop
  | nil (n : Nat) (text : List Char) : Fits holds n text []
  | cons {n : Nat} {e : Edit} {es : List Edit} {rest : List Char} (kept old : List Char)
    (start : e.span.start = n + byteLength kept) (stop : e.span.stop = e.span.start + byteLength old)
    (here : holds old e) (later : Fits holds e.span.stop rest es) :
    Fits holds n (kept ++ (old ++ rest)) (e :: es)

private theorem exists_kept {front rest before tail : List Char} (same : before ++ tail = front ++ rest)
    (le : byteLength front ≤ byteLength before) : ∃ kept, before = front ++ kept ∧ rest = kept ++ tail := by
  rcases List.append_eq_append_iff.mp same with ⟨more, rfl, rfl⟩ | ⟨kept, rfl, rfl⟩
  · have empty : more = [] := by
      apply Decidable.byContradiction
      intro filled
      have size := byteLength_pos filled
      rw [byteLength_append] at le
      omega
    subst empty
    exact ⟨[], by simp, rfl⟩
  · exact ⟨kept, rfl, rfl⟩

theorem fits_of_covers {holds : List Char → Edit → Prop} {text : List Char} {es : List Edit}
    (covers : ∀ e ∈ es, ∃ before old after, e.span.Covers text before old after ∧ holds old e)
    (ordered : es.Pairwise fun e e' => e.span.stop ≤ e'.span.start) {front rest : List Char}
    (whole : front ++ rest = text) (later : ∀ e ∈ es, byteLength front ≤ e.span.start) :
    Fits holds (byteLength front) rest es := by
  induction es generalizing front rest with
  | nil => exact .nil _ _
  | cons e es ih =>
    obtain ⟨⟨before, old, after, here, holds⟩, behind⟩ := List.forall_mem_cons.mp covers
    obtain ⟨first, ordered⟩ := List.pairwise_cons.mp ordered
    have least := later e List.mem_cons_self
    rw [here.start] at least
    obtain ⟨kept, rfl, rfl⟩ := exists_kept (here.whole.trans whole.symm) least
    have stop : byteLength (front ++ kept ++ old) = e.span.stop := by
      rw [byteLength_append, here.stop, here.start]
    refine .cons kept old (by rw [here.start, byteLength_append]) here.stop holds ?_
    rw [← stop]
    refine ih behind ordered (by rw [List.append_assoc]; exact here.whole) fun e' mem => ?_
    rw [stop]
    exact first e' mem

namespace Fits

variable {holds : List Char → Edit → Prop} {n : Nat} {text : List Char} {es : List Edit}

theorem bounds (fits : Fits holds n text es) :
    ∀ e ∈ es, n ≤ e.span.start ∧ e.span.start ≤ e.span.stop ∧ e.span.stop ≤ n + byteLength text := by
  induction fits with
  | nil => exact List.forall_mem_nil _
  | cons kept old start stop _ _ ih =>
    rw [byteLength_append, byteLength_append]
    refine List.forall_mem_cons.mpr ⟨by omega, fun e mem => ?_⟩
    have inner := ih e mem
    omega

end Fits

/-- What stands before, between and behind edits in a text, from an offset on. -/
def unchanged (text : List Char) : Nat → List Edit → List (List Char)
  | n, [] => [slice text n (byteLength text)]
  | n, e :: es => slice text n e.span.start :: unchanged text e.span.stop es

def weave : List (List Char) → List (List Char) → List Char
  | kept :: more, part :: parts => kept ++ (part ++ weave more parts)
  | kept :: _, [] => kept
  | [], _ => []

theorem Fits.weave_unchanged {holds : List Char → Edit → Prop} {n : Nat} {text rest : List Char} {es : List Edit}
    (fits : Fits holds n rest es) {front : List Char} (whole : front ++ rest = text) (size : byteLength front = n) :
    weave (unchanged text n es) (es.map fun e => e.span.of text) = rest ∧
      weave (unchanged text n es) (es.map replacement) = applyFrom n rest es := by
  induction fits generalizing front with
  | nil n rest =>
    have last : slice text n (byteLength text) = rest := by
      have cut := slice_between front rest []
      rwa [List.append_nil, whole, size] at cut
    exact ⟨last, last⟩
  | @cons n e es rest kept old start stop _ _ ih =>
    have first : slice text n e.span.start = kept := by
      rw [← whole, ← size, start, ← size, ← byteLength_append, slice_between]
    have covers : e.span.Covers text (front ++ kept) old rest :=
      ⟨by rw [List.append_assoc]; exact whole, by rw [byteLength_append, size, start], stop⟩
    have whole' : front ++ kept ++ old ++ rest = text := by
      rw [List.append_assoc]
      exact covers.whole
    obtain ⟨taken, put⟩ := ih whole' (by rw [byteLength_append, stop, covers.start])
    rw [unchanged, List.map_cons, List.map_cons, weave, weave, first, covers.of_eq, taken, put,
      applyFrom_cons kept old rest es start stop]
    exact ⟨rfl, rfl⟩

def InLine (old : List Char) (e : Edit) : Prop := '\n' ∉ old ∧ '\n' ∉ e.replacement

def piecesFrom : Nat → List (List Char) → List (List Char) → List Edit
  | n, old :: olds, new :: news =>
    ⟨⟨n, n + byteLength old⟩, new⟩ :: piecesFrom (n + byteLength old + 1) olds news
  | _, _, _ => []

def pieces (text : List Char) (e : Edit) : List Edit :=
  piecesFrom e.span.start (splitLines (e.span.of text)) (splitLines e.replacement)

private theorem joinLines_cons {l : List Char} {ls : List (List Char)} (ne : ls ≠ []) :
    joinLines (l :: ls) = l ++ (['\n'] ++ joinLines ls) := join_cons ne

theorem fits_piecesFrom {olds news : List (List Char)} (same : olds.length = news.length) (ne : olds ≠ [])
    (inOld : ∀ l ∈ olds, '\n' ∉ l) (inNew : ∀ l ∈ news, '\n' ∉ l) (n : Nat) (kept : List Char) {rest : List Char}
    {es : List Edit} (later : Fits InLine (n + byteLength kept + byteLength (joinLines olds)) rest es) :
    Fits InLine n (kept ++ (joinLines olds ++ rest)) (piecesFrom (n + byteLength kept) olds news ++ es) ∧
      applyFrom n (kept ++ (joinLines olds ++ rest)) (piecesFrom (n + byteLength kept) olds news ++ es) =
        kept ++ (joinLines news ++ applyFrom (n + byteLength kept + byteLength (joinLines olds)) rest es) := by
  induction olds generalizing news n kept with
  | nil => exact absurd rfl ne
  | cons old olds ih =>
    cases news with
    | nil => cases same
    | cons new news =>
      rw [List.forall_mem_cons] at inOld inNew
      rw [piecesFrom, List.cons_append]
      cases olds with
      | nil =>
        obtain rfl : news = [] := List.eq_nil_of_length_eq_zero (Nat.succ.inj same).symm
        exact ⟨.cons kept old rfl rfl ⟨inOld.1, inNew.1⟩ later, applyFrom_cons kept old rest es rfl rfl⟩
      | cons old' olds =>
        have more : news ≠ [] := by
          rintro rfl
          cases same
        -- The line feed behind the first line is what stays before the second one.
        rw [joinLines_cons (List.cons_ne_nil _ _), byteLength_append, byteLength_append, ← Nat.add_assoc,
          ← Nat.add_assoc] at later ⊢
        obtain ⟨fits, applied⟩ := ih (Nat.succ.inj same) (List.cons_ne_nil _ _) inOld.2 inNew.2 _ ['\n'] later
        rw [joinLines_cons more, List.append_assoc, List.append_assoc, List.append_assoc, List.append_assoc,
          applyFrom_cons kept old _ _ rfl rfl]
        exact ⟨.cons kept old rfl rfl ⟨inOld.1, inNew.1⟩ fits, congrArg (fun tail => kept ++ (new ++ tail)) applied⟩

/-- What an edit takes away in a text, with as many line feeds as it puts there. -/
def KeepsFeeds (text old : List Char) (e : Edit) : Prop :=
  e.span.of text = old ∧ e.replacement.count '\n' = old.count '\n'

theorem Fits.pieces {n : Nat} {text rest : List Char} {es : List Edit} (fits : Fits (KeepsFeeds text) n rest es) :
    Fits InLine n rest (es.flatMap (pieces text)) ∧
      applyFrom n rest (es.flatMap (Edit.pieces text)) = applyFrom n rest es := by
  induction fits with
  | nil n rest => exact ⟨.nil n rest, rfl⟩
  | @cons n e es rest kept old start stop here _ ih =>
    obtain ⟨taken, feeds⟩ := here
    obtain ⟨fits, applied⟩ := ih
    have same : (splitLines old).length = (splitLines e.replacement).length := by
      rw [length_split, length_split, feeds]
    have joined : joinLines (splitLines old) = old := join_split '\n' old
    have offset : e.span.stop = n + byteLength kept + byteLength (joinLines (splitLines old)) := by
      rw [joined, stop, start]
    rw [offset] at fits
    have cut := fits_piecesFrom same (split_ne_nil _ _) (fun _ => not_mem_of_mem_split)
      (fun _ => not_mem_of_mem_split) n kept fits
    rw [← offset, ← start, joined, joinLines, join_split] at cut
    rw [List.flatMap_cons, Edit.pieces, taken, applyFrom_cons kept old rest es start stop, ← applied]
    exact cut

private theorem split_at_feed {line rest cs ds : List Char} (whole : line ++ '\n' :: rest = cs ++ ds) :
    (∃ more, cs = line ++ '\n' :: more ∧ rest = more ++ ds) ∨
      ∃ more, line = cs ++ more ∧ ds = more ++ '\n' :: rest := by
  rcases List.append_eq_append_iff.mp whole with ⟨front, rfl, behind⟩ | ⟨more, rfl, rfl⟩
  · cases front with
    | nil => exact .inr ⟨[], by simp, behind.symm⟩
    | cons c more =>
      obtain ⟨rfl, rfl⟩ := List.cons.inj behind
      exact .inl ⟨more, rfl, rfl⟩
  · exact .inr ⟨more, rfl, rfl⟩

namespace Fits

variable {n : Nat} {line rest : List Char} {es : List Edit}

theorem feed_not_mem (fits : Fits InLine n line es) (inLine : '\n' ∉ line) : '\n' ∉ applyFrom n line es := by
  induction fits with
  | nil => exact inLine
  | @cons n e es rest kept old start stop here _ ih =>
    rw [List.mem_append, List.mem_append, not_or, not_or] at inLine
    rw [applyFrom_cons kept old rest es start stop, List.mem_append, List.mem_append, not_or, not_or]
    exact ⟨inLine.1, here.2, ih inLine.2.2⟩

theorem break_line (fits : Fits InLine n (line ++ '\n' :: rest) es) :
    ∃ here there, es = here ++ there ∧ Fits InLine n line here ∧
      Fits InLine (n + byteLength line + 1) rest there ∧
      applyFrom n (line ++ '\n' :: rest) es =
        applyFrom n line here ++ '\n' :: applyFrom (n + byteLength line + 1) rest there := by
  generalize whole : line ++ '\n' :: rest = text at fits
  induction fits generalizing line with
  | nil n text => exact ⟨[], [], rfl, .nil n line, .nil _ rest, whole.symm⟩
  | @cons n e es after kept old start stop here later ih =>
    rcases split_at_feed whole with ⟨more, rfl, rfl⟩ | ⟨tail, rfl, behind⟩
    · have offset : e.span.start = n + byteLength line + 1 + byteLength more := by
        rw [start, byteLength_append, byteLength_cons, show '\n'.utf8Size = 1 from rfl]
        omega
      refine ⟨[], e :: es, rfl, .nil n line, .cons more old offset stop here later, ?_⟩
      rw [applyFrom_cons (line ++ '\n' :: more) old after es start stop,
        applyFrom_cons more old after es offset stop, List.append_assoc, List.cons_append]
      rfl
    · rcases split_at_feed behind.symm with ⟨more, rfl, -⟩ | ⟨more, rfl, rfl⟩
      · exact absurd (List.mem_append_right tail List.mem_cons_self) here.1
      obtain ⟨first, second, rfl, fits, fits', applied⟩ := ih rfl
      have offset : e.span.stop + byteLength more + 1 = n + byteLength (kept ++ (old ++ more)) + 1 := by
        rw [stop, start, byteLength_append, byteLength_append]
        omega
      rw [offset] at fits' applied
      refine ⟨e :: first, second, rfl, .cons kept old start stop here fits, fits', ?_⟩
      rw [applyFrom_cons kept old more first start stop,
        applyFrom_cons kept old (more ++ '\n' :: rest) _ start stop, applied]
      simp only [List.append_assoc]

end Fits

def movedBack (n : Nat) (e : Edit) : Edit := ⟨⟨e.span.start - n, e.span.stop - n⟩, e.replacement⟩

theorem applyFrom_movedBack {n : Nat} {es : List Edit} (later : ∀ e ∈ es, n ≤ e.span.stop) (k : Nat)
    (text : List Char) : applyFrom k text (es.map (movedBack n)) = applyFrom (n + k) text es := by
  induction es generalizing k text with
  | nil => rfl
  | cons e es ih =>
    obtain ⟨here, later⟩ := List.forall_mem_cons.mp later
    rw [List.map_cons, applyFrom, applyFrom, ih later]
    simp only [movedBack, Nat.sub_sub, Nat.add_sub_cancel' here]

end Edit

theorem exists_of_splitLines {text line next : List Char} {lines : List (List Char)}
    (cut : splitLines text = line :: next :: lines) :
    ∃ rest, text = line ++ '\n' :: rest ∧ '\n' ∉ line ∧ splitLines rest = next :: lines := by
  have free : ∀ l ∈ line :: next :: lines, '\n' ∉ l := fun l mem => not_mem_of_mem_split (cut ▸ mem)
  refine ⟨joinLines (next :: lines), ?_, free line List.mem_cons_self,
    split_join (List.cons_ne_nil _ _) fun l mem => free l (List.mem_cons_of_mem line mem)⟩
  rw [← join_cons (List.cons_ne_nil _ _), ← cut, join_split]

structure SourceLine where
  start : Nat
  text : List Char

namespace SourceLine

/-- Lines that stand one behind another from an offset on. -/
def allFrom : Nat → List (List Char) → List SourceLine
  | _, [] => []
  | n, line :: lines => ⟨n, line⟩ :: allFrom (n + byteLength line + 1) lines

def all (text : List Char) : List SourceLine := allFrom 0 (splitLines text)

def holds (l : SourceLine) (e : Edit) : Bool :=
  l.start ≤ e.span.start && e.span.stop ≤ l.start + byteLength l.text

/-- A line with those of some edits carried out that stay within it. -/
def edited (es : List Edit) (l : SourceLine) : List Char :=
  Edit.apply l.text ((es.filter l.holds).map (Edit.movedBack l.start))

theorem map_text_allFrom (n : Nat) (lines : List (List Char)) : (allFrom n lines).map text = lines := by
  induction lines generalizing n with
  | nil => rfl
  | cons line lines ih => rw [allFrom, List.map_cons, ih]

theorem holds_iff {l : SourceLine} {e : Edit} :
    l.holds e = true ↔ l.start ≤ e.span.start ∧ e.span.stop ≤ l.start + byteLength l.text := by
  rw [holds, Bool.and_eq_true, decide_eq_true_eq, decide_eq_true_eq]

theorem edited_eq {n : Nat} {line : List Char} {earlier here there : List Edit} {P : List Char → Edit → Prop}
    (before : ∀ e ∈ earlier, e.span.start < n) (fits : Edit.Fits P n line here)
    (behind : ∀ e ∈ there, n + byteLength line < e.span.stop) :
    edited (earlier ++ (here ++ there)) ⟨n, line⟩ = Edit.applyFrom n line here := by
  have none : earlier.filter (holds ⟨n, line⟩) = [] :=
    List.filter_eq_nil_iff.mpr fun e mem own => Nat.not_le.mpr (before e mem) (holds_iff.mp own).1
  have own : here.filter (holds ⟨n, line⟩) = here :=
    List.filter_eq_self.mpr fun e mem => holds_iff.mpr ⟨(fits.bounds e mem).1, (fits.bounds e mem).2.2⟩
  have rest : there.filter (holds ⟨n, line⟩) = [] :=
    List.filter_eq_nil_iff.mpr fun e mem own => Nat.not_le.mpr (behind e mem) (holds_iff.mp own).2
  have least : ∀ e ∈ here, n ≤ e.span.stop := fun e mem =>
    Nat.le_trans (fits.bounds e mem).1 (fits.bounds e mem).2.1
  rw [edited, List.filter_append, List.filter_append, none, own, rest, List.append_nil, List.nil_append, Edit.apply,
    Edit.applyFrom_movedBack least]
  rfl

theorem splitLines_applyFrom {n : Nat} {text : List Char} {earlier es : List Edit}
    (fits : Edit.Fits Edit.InLine n text es) (before : ∀ e ∈ earlier, e.span.start < n) :
    splitLines (Edit.applyFrom n text es) = (allFrom n (splitLines text)).map (edited (earlier ++ es)) := by
  generalize cut : splitLines text = lines
  induction lines generalizing n text earlier es with
  | nil => exact absurd cut (split_ne_nil '\n' text)
  | cons line lines ih =>
    rw [allFrom, List.map_cons]
    cases lines with
    | nil =>
      have inLine : '\n' ∉ line := not_mem_of_mem_split (cut ▸ List.mem_cons_self)
      obtain rfl : line = text := by rw [← join_split '\n' text, ← splitLines, cut]; rfl
      have own : edited (earlier ++ (es ++ [])) ⟨n, line⟩ = Edit.applyFrom n line es :=
        edited_eq before fits (List.forall_mem_nil _)
      rw [List.append_nil] at own
      rw [own]
      exact split_of_not_mem (fits.feed_not_mem inLine)
    | cons next lines =>
      obtain ⟨rest, rfl, inLine, cut⟩ := exists_of_splitLines cut
      obtain ⟨here, there, rfl, first, later, applied⟩ := fits.break_line
      have behind : ∀ e ∈ there, n + byteLength line < e.span.stop := by
        intro e mem
        have bounds := later.bounds e mem
        omega
      have earlier' : ∀ e ∈ earlier ++ here, e.span.start < n + byteLength line + 1 := by
        intro e mem
        rcases List.mem_append.mp mem with mem | mem
        · have lt := before e mem
          omega
        · have bounds := first.bounds e mem
          omega
      have tail := ih later earlier' cut
      rw [applied, splitLines, split_append (first.feed_not_mem inLine), edited_eq before first behind,
        ← splitLines, tail, List.append_assoc]

end SourceLine

/-- Two edits of which one ends before the other starts. -/
def Edit.Apart (e e' : Edit) : Prop := e.span.stop ≤ e'.span.start ∨ e'.span.stop ≤ e.span.start

theorem mem_edits_iff {text : List Char} {f : Facts} {e : Edit} :
    e ∈ edits text f ↔ (∃ s ∈ f.strings, quoteEdit? text s = some e) ∨
      ∃ o ∈ f.terminators, isDroppable text o = true ∧ e = ⟨⟨o, o + 1⟩, []⟩ := by
  rw [edits, mem_sortBy, List.mem_append, List.mem_filterMap, List.mem_map]
  refine or_congr Iff.rfl ⟨?_, ?_⟩
  · rintro ⟨o, mem, rfl⟩
    exact ⟨o, (List.mem_filter.mp mem).1, (List.mem_filter.mp mem).2, rfl⟩
  · rintro ⟨o, mem, droppable, rfl⟩
    exact ⟨o, List.mem_filter.mpr ⟨mem, droppable⟩, rfl⟩

section

variable {text : List Char} {f : Facts} (placed : f.Placed text)

include placed

theorem exists_covers_of_mem_edits {e : Edit} (mem : e ∈ edits text f) :
    ∃ before old after, e.span.Covers text before old after ∧ old ≠ [] ∧
      e.replacement.count '\n' = old.count '\n' := by
  rcases mem_edits_iff.mp mem with ⟨s, hs, edit⟩ | ⟨o, ho, -, rfl⟩
  · obtain ⟨quote, before, body, after, mark, covers⟩ := placed.quoted s hs
    have shown := quoteEdit?_at after mark covers.start covers.stop
    rw [covers.whole, edit] at shown
    split at shown
    · obtain rfl := Option.some.inj shown
      exact ⟨before, _, after, covers, List.cons_ne_nil _ _, count_restyle mark⟩
    · cases shown
  · obtain ⟨before, after, covers⟩ := placed.semicolon o ho
    exact ⟨before, [';'], after, covers, List.cons_ne_nil _ _, rfl⟩

theorem span_lt_of_mem_edits {e : Edit} (mem : e ∈ edits text f) : e.span.start < e.span.stop := by
  obtain ⟨before, old, after, covers, filled, -⟩ := exists_covers_of_mem_edits placed mem
  have size := byteLength_pos filled
  have stop := covers.stop
  omega

theorem pairwise_apart :
    (f.strings.filterMap (quoteEdit? text) ++
      (f.terminators.filter (isDroppable text)).map fun o => Edit.mk ⟨o, o + 1⟩ []).Pairwise Edit.Apart := by
  refine List.pairwise_append.mpr ⟨?_, ?_, fun e he e' he' => ?_⟩
  · refine placed.apart.filterMap _ fun s t apart e he e' he' => ?_
    rwa [Edit.Apart, span_of_quoteEdit? he, span_of_quoteEdit? he']
  · have different : (f.terminators.filter (isDroppable text)).Pairwise (· ≠ ·) :=
      List.Pairwise.filter _ placed.distinct
    refine different.map _ fun o k ne => ?_
    dsimp only [Edit.Apart]
    omega
  · obtain ⟨s, hs, edit⟩ := List.mem_filterMap.mp he
    obtain ⟨o, ho, rfl⟩ := List.mem_map.mp he'
    have outside := placed.outside s hs o (List.mem_filter.mp ho).1
    simp only [Span.contains, Bool.and_eq_false_iff, decide_eq_false_iff_not] at outside
    rw [Edit.Apart, span_of_quoteEdit? edit]
    dsimp only
    omega

theorem pairwise_edits : (edits text f).Pairwise fun e e' => e.span.stop ≤ e'.span.start := by
  have apart : (edits text f).Pairwise Edit.Apart :=
    ((perm_sortBy _ _).pairwise_iff Or.symm).mpr (pairwise_apart placed)
  have sorted : (edits text f).Pairwise fun e e' => e.span.start ≤ e'.span.start := pairwise_sortBy _ _
  refine (apart.and sorted).imp_of_mem fun {e e'} _ he' order => ?_
  rcases order.1 with behind | before
  · exact behind
  · have size := span_lt_of_mem_edits placed he'
    have starts := order.2
    omega

theorem fits_edits : Edit.Fits (Edit.KeepsFeeds text) 0 text (edits text f) := by
  refine Edit.fits_of_covers (fun e mem => ?_) (pairwise_edits placed) (List.nil_append text) fun e _ => Nat.zero_le _
  obtain ⟨before, old, after, covers, -, feeds⟩ := exists_covers_of_mem_edits placed mem
  exact ⟨before, old, after, covers, covers.of_eq, feeds⟩

end

namespace SourceLine

/-- A line with its own edits of house style carried out; an edit that reaches several lines is cut at their ends. -/
def restyled (text : List Char) (f : Facts) (l : SourceLine) : List Char :=
  l.edited ((edits text f).flatMap (Edit.pieces text))

/-- Whether a line begins inside a template: the line feed before it is part of one. -/
def beginsInTemplate (f : Facts) (l : SourceLine) : Bool := decide (0 < l.start) && f.inTemplate (l.start - 1)

/-- A line with its own edits carried out and its leading tabs made into spaces, unless it begins inside a template. -/
def expanded (width : Nat) (text : List Char) (f : Facts) (l : SourceLine) : List Char :=
  if l.beginsInTemplate f then l.restyled text f else expandTabs width (l.restyled text f)

theorem le_start {n : Nat} {lines : List (List Char)} {l : SourceLine} (mem : l ∈ allFrom n lines) : n ≤ l.start := by
  induction lines generalizing n with
  | nil => cases mem
  | cons line lines ih =>
    rcases List.mem_cons.mp mem with rfl | mem
    · exact Nat.le_refl n
    · have later := ih mem
      omega

theorem lineFeeds_eq {n : Nat} {text line : List Char} {lines : List (List Char)}
    (cut : splitLines text = line :: lines) :
    Facts.lineFeeds n text = (allFrom (n + byteLength line + 1) lines).map fun l => l.start - 1 := by
  induction lines generalizing n text line with
  | nil =>
    refine List.eq_nil_of_length_eq_zero ?_
    have one := congrArg List.length cut
    rw [length_split] at one
    rw [Facts.length_lineFeeds]
    exact Nat.succ.inj one
  | cons next lines ih =>
    obtain ⟨rest, rfl, inLine, later⟩ := exists_of_splitLines cut
    have none : Facts.lineFeeds n line = [] := by
      refine List.eq_nil_of_length_eq_zero ?_
      rw [Facts.length_lineFeeds]
      exact List.count_eq_zero.mpr inLine
    rw [lineFeeds_append, none, List.nil_append, allFrom, List.map_cons, Facts.lineFeeds, if_pos rfl, ih later]
    rfl

theorem templateLines_eq_beginsInTemplate (f : Facts) (text : List Char) :
    f.templateLines text = (all text).map (beginsInTemplate f) := by
  cases cut : splitLines text with
  | nil => exact absurd cut (split_ne_nil '\n' text)
  | cons line lines =>
    rw [Facts.templateLines, lineFeeds_eq cut, all, cut, allFrom, List.map_cons, List.map_map]
    refine congrArg (false :: ·) (List.map_congr_left fun l mem => ?_)
    have later := le_start mem
    have pos : 0 < l.start := by omega
    rw [beginsInTemplate, decide_eq_true pos, Bool.true_and]
    rfl

end SourceLine

/-- Facts at their places give edits of strings and semicolons that are in order, apart and within the text. Carrying
them out keeps all that stands between them and changes each line on its own: an edited line is the line at the same
place with its own edits carried out. So the flags of the lines before the edits are the flags of the edited lines, by
which house style goes. -/
theorem edits_keep_lines_aligned {text : List Char} {f : Facts} (placed : f.Placed text) (width : Nat) :
    (∀ e, e ∈ edits text f ↔ (∃ s ∈ f.strings, quoteEdit? text s = some e) ∨
      ∃ o ∈ f.terminators, isDroppable text o = true ∧ e = ⟨⟨o, o + 1⟩, []⟩) ∧
    ((edits text f).Pairwise fun e e' => e.span.stop ≤ e'.span.start) ∧
    (∀ e ∈ edits text f, e.span.start < e.span.stop ∧ e.span.stop ≤ byteLength text ∧
      ∃ before after, e.span.Covers text before (e.span.of text) after) ∧
    Edit.weave (Edit.unchanged text 0 (edits text f)) ((edits text f).map fun e => e.span.of text) = text ∧
    Edit.weave (Edit.unchanged text 0 (edits text f)) ((edits text f).map Edit.replacement) =
      Edit.apply text (edits text f) ∧
    (splitLines (Edit.apply text (edits text f))).length = (splitLines text).length ∧
    splitLines (Edit.apply text (edits text f)) = (SourceLine.all text).map (SourceLine.restyled text f) ∧
    f.templateLines text = (SourceLine.all text).map (SourceLine.beginsInTemplate f) ∧
    expandLines width (splitLines (Edit.apply text (edits text f))) (f.templateLines text) =
      (SourceLine.all text).map (SourceLine.expanded width text f) ∧
    (Facts.ofModule? text = some f → normalize text width =
      tidy ((SourceLine.all text).map (SourceLine.expanded width text f))
        ((SourceLine.all text).map (SourceLine.beginsInTemplate f))) := by
  have fits := fits_edits placed
  obtain ⟨taken, put⟩ := fits.weave_unchanged (List.nil_append text) rfl
  obtain ⟨cut, same⟩ := fits.pieces
  have lines : splitLines (Edit.apply text (edits text f)) =
      (SourceLine.all text).map (SourceLine.restyled text f) := by
    have none : ∀ e ∈ ([] : List Edit), e.span.start < 0 := List.forall_mem_nil _
    rw [Edit.apply, ← same]
    exact SourceLine.splitLines_applyFrom cut none
  have size : ((SourceLine.all text).map (SourceLine.restyled text f)).length = (splitLines text).length := by
    rw [List.length_map, ← SourceLine.map_text_allFrom 0 (splitLines text), List.length_map]
    rfl
  have flags := SourceLine.templateLines_eq_beginsInTemplate f text
  have expanded : expandLines width (splitLines (Edit.apply text (edits text f))) (f.templateLines text) =
      (SourceLine.all text).map (SourceLine.expanded width text f) := by
    rw [lines, flags, expandLines, List.zip_map', List.map_map]
    rfl
  refine ⟨fun e => mem_edits_iff, pairwise_edits placed, fun e mem => ?_, taken, put, lines ▸ size, lines,
    flags, expanded, fun read => ?_⟩
  · obtain ⟨before, old, after, covers, -⟩ := exists_covers_of_mem_edits placed mem
    exact ⟨span_lt_of_mem_edits placed mem, covers.stop_le, before, after, covers.of_eq.symm ▸ covers⟩
  · rw [normalize, read]
    dsimp only
    rw [expanded, flags]

/-- A string with an escaped quote on each of its two lines, a template over two lines, and a string that stays. -/
def continuedString : List Char := "a = \"x\\\"\\\n\\\"y\";\nb = `\n\t`;\n\tc(\"it's\")\n".toList

def continuedStringFacts : Facts := ⟨[⟨21, 23⟩], [⟨4, 14⟩, ⟨29, 35⟩], [14, 24]⟩

theorem continued_string_keeps_lines_aligned :
    Facts.ofModule? continuedString = some continuedStringFacts ∧ continuedStringFacts.Placed continuedString ∧
    splitLines (Edit.apply continuedString (edits continuedString continuedStringFacts)) =
      (SourceLine.all continuedString).map (SourceLine.restyled continuedString continuedStringFacts) ∧
    (SourceLine.all continuedString).map (SourceLine.restyled continuedString continuedStringFacts) =
      ["a = 'x\"\\".toList, "\"y'".toList, "b = `".toList, "\t`".toList, "\tc(\"it's\")".toList, []] ∧
    continuedStringFacts.templateLines continuedString = [false, false, false, true, false, false] ∧
    normalize continuedString 2 =
      tidy ((SourceLine.all continuedString).map (SourceLine.expanded 2 continuedString continuedStringFacts))
        ((SourceLine.all continuedString).map (SourceLine.beginsInTemplate continuedStringFacts)) := by
  have read : Facts.ofModule? continuedString = some continuedStringFacts := by decide +kernel
  have placed := (Facts.wellFormed_of_ofFramed? read).toPlaced
  obtain ⟨-, -, -, -, -, -, lines, -, -, normal⟩ := edits_keep_lines_aligned placed 2
  exact ⟨read, placed, lines, by decide +kernel, by decide +kernel, normal read⟩

end VueOptions.Layout
