import Mathlib.Data.List.Chain
import VueOptions.Proofs.Layout.Roles

/-!
Tidy lines are a normal form. Tidying trims lines and then drops blank ones, looking back at the lines it
has kept and taking some of them away again. What it leaves is said here without the loop (`IsNormal`), and
lines in normal form stay as they are. The lines of a module follow the roles of its characters (`Follows`),
which gives them flags that agree on empty lines.
-/

set_option autoImplicit false

namespace VueOptions.Layout

open Text Script

/-- A line, and whether it begins inside a template literal. -/
structure TextLine where
  text : List Char
  inTemplate : Bool
  deriving DecidableEq, Repr

namespace TextLine

def isGap (l : TextLine) : Bool := l.text.isEmpty && !l.inTemplate

def opens (l : TextLine) : Bool := l.text.getLast? == some '\x7b'

/-- A line outside of templates that starts with a closing brace. -/
def closes (l : TextLine) : Bool := !l.inTemplate && (trimStart l.text).head? == some '\x7d'

/-- The line without blanks at its end, unless it begins or ends in a template. -/
def trimmed (next : Bool) (l : TextLine) : TextLine :=
  if l.inTemplate || next then l else { l with text := trimEnd l.text }

/-- Whether the first of several lines begins in a template. -/
def nextInTemplate (ls : List TextLine) : Bool := (ls.map inTemplate).head?.getD false

/-- Lines without blanks at their ends, outside of templates. -/
def trimLines : List TextLine → List TextLine
  | [] => []
  | l :: ls => l.trimmed (nextInTemplate ls) :: trimLines ls

/-- An empty line begins in a template exactly if the next one does, and not if it is the last. -/
def EmptyAgree : List TextLine → Prop
  | [] => True
  | l :: ls => (l.text = [] → l.inTemplate = nextInTemplate ls) ∧ EmptyAgree ls

/-- A blank line does not stand behind an empty line or an opening brace, or before a closing brace. -/
def Apart (l m : TextLine) : Prop :=
  (m.isGap = true → l.text ≠ [] ∧ l.opens = false) ∧ (l.isGap = true → m.closes = false)

/-- No blank line is first or last, and none is out of place between others. -/
structure IsNormal (ls : List TextLine) : Prop where
  first : ∀ l ∈ ls.head?, l.isGap = false
  last : ∀ l ∈ ls.getLast?, l.isGap = false
  between : ls.IsChain Apart

/-- Lines that are all of several lines but some blank ones. -/
structure Leaves (kept ls : List TextLine) : Prop where
  sublist : kept.Sublist ls
  solid : kept.filter (fun l => !l.isGap) = ls.filter fun l => !l.isGap

variable {kept ls : List TextLine} {l p : TextLine} {next : Bool}

theorem isGap_iff : l.isGap = true ↔ l.text = [] ∧ l.inTemplate = false := by
  simp [isGap]

theorem isGap_of_ne (ne : l.text ≠ []) : l.isGap = false := by
  simp [isGap, ne]

theorem isGap_of_inTemplate (inside : l.inTemplate = true) : l.isGap = false := by
  simp [isGap, inside]

namespace Leaves

theorem refl (ls : List TextLine) : Leaves ls ls := ⟨List.Sublist.refl ls, rfl⟩

theorem trans {ms : List TextLine} (first : Leaves kept ls) (second : Leaves ls ms) : Leaves kept ms :=
  ⟨first.sublist.trans second.sublist, first.solid.trans second.solid⟩

theorem cons (l : TextLine) (h : Leaves kept ls) : Leaves (l :: kept) (l :: ls) := by
  refine ⟨h.sublist.cons_cons l, ?_⟩
  rw [List.filter_cons, List.filter_cons, h.solid]

theorem skip (gap : l.isGap = true) (h : Leaves kept ls) : Leaves kept (l :: ls) := by
  refine ⟨h.sublist.cons l, ?_⟩
  rw [List.filter_cons_of_neg (by simp [gap]), h.solid]

theorem reverse (h : Leaves kept ls) : Leaves kept.reverse ls.reverse := by
  refine ⟨h.sublist.reverse, ?_⟩
  rw [List.filter_reverse, List.filter_reverse, h.solid]

theorem append_left (ms : List TextLine) (h : Leaves kept ls) : Leaves (ms ++ kept) (ms ++ ls) := by
  refine ⟨(List.Sublist.refl ms).append h.sublist, ?_⟩
  rw [List.filter_append, List.filter_append, h.solid]

end Leaves

def EndsBefore (l : TextLine) (next : Bool) : Prop :=
  l.trimmed next = l ∧ (l.text = [] → l.inTemplate = next)

/-- The lines kept so far, the latest first, before a line that begins in a template or not. -/
structure Settled (kept : List TextLine) (next : Bool) : Prop where
  chain : kept.IsChain fun m l => EndsBefore l m.inTemplate ∧ Apart l m
  latest : ∀ l ∈ kept.head?, EndsBefore l next
  first : ∀ l ∈ kept.getLast?, l.isGap = false

theorem trimEnd_trimEnd (cs : List Char) : trimEnd (trimEnd cs) = trimEnd cs := by
  obtain ⟨ends, -, -, last⟩ := dropEndWhile_spec isBlank cs
  exact dropEndWhile_eq_self last

theorem endsBefore_trimmed (agree : l.text = [] → l.inTemplate = next) : EndsBefore (l.trimmed next) next := by
  obtain ⟨text, inTemplate⟩ := l
  unfold EndsBefore trimmed
  cases inTemplate with
  | true => exact ⟨rfl, agree⟩
  | false =>
    cases next with
    | true => exact ⟨rfl, agree⟩
    | false =>
      refine ⟨?_, fun _ => rfl⟩
      simp [trimEnd_trimEnd]

namespace Settled

theorem nil (next : Bool) : Settled [] next := ⟨.nil, by simp, by simp⟩

theorem push (h : Settled kept l.inTemplate) (ends : EndsBefore l next)
    (apart : ∀ p ∈ kept.head?, Apart p l) (first : kept = [] → l.isGap = false) : Settled (l :: kept) next := by
  refine ⟨?_, ?_, ?_⟩
  · refine List.isChain_cons.mpr ⟨fun p mem => ?_, h.chain⟩
    exact ⟨h.latest p mem, apart p mem⟩
  · intro k mem
    obtain rfl : l = k := Option.some.inj mem
    exact ends
  · intro k mem
    cases kept with
    | nil =>
      obtain rfl : l = k := Option.some.inj mem
      exact first rfl
    | cons p ps =>
      rw [List.getLast?_cons_cons] at mem
      exact h.first k mem

theorem dropEmpty (h : Settled kept false) : ∃ kept',
    (kept.map text).dropWhile List.isEmpty = kept'.map text ∧ Settled kept' false ∧ Leaves kept' kept ∧
      ∀ l ∈ kept'.head?, l.text ≠ [] := by
  cases kept with
  | nil => exact ⟨[], rfl, h, .refl [], by simp⟩
  | cons p kept =>
    by_cases empty : p.text = []
    · have gap : p.isGap = true := isGap_iff.mpr ⟨empty, (h.latest p rfl).2 empty⟩
      cases kept with
      | nil =>
        have filled := h.first p rfl
        rw [gap] at filled
        cases filled
      | cons l kept =>
        obtain ⟨⟨ends, apart⟩, chain⟩ := List.isChain_cons_cons.mp h.chain
        have full : l.text ≠ [] := (apart.1 gap).1
        have outside : p.inTemplate = false := (isGap_iff.mp gap).2
        refine ⟨l :: kept, ?_, ⟨chain, ?_, ?_⟩, .skip gap (.refl _), ?_⟩
        · rw [List.map_cons, List.map_cons, List.dropWhile_cons_of_pos (by simp [empty]),
            List.dropWhile_cons_of_neg (by simp [full])]
        · intro k mem
          obtain rfl : l = k := Option.some.inj mem
          rw [← outside]
          exact ends
        · intro k mem
          exact h.first k (by rwa [List.getLast?_cons_cons])
        · intro k mem
          obtain rfl : l = k := Option.some.inj mem
          exact full
    · refine ⟨p :: kept, ?_, h, .refl _, ?_⟩
      · rw [List.map_cons, List.dropWhile_cons_of_neg (by simp [empty])]
      · intro k mem
        obtain rfl : p = k := Option.some.inj mem
        exact empty

theorem step (h : Settled kept l.inTemplate) (agree : l.text = [] → l.inTemplate = next) : ∃ kept',
    tidyStep (kept.map text) l.text l.inTemplate next = kept'.map text ∧ Settled kept' next ∧
      Leaves kept' (l.trimmed next :: kept) := by
  have ends : EndsBefore (l.trimmed next) next := endsBefore_trimmed agree
  have flag : (l.trimmed next).inTemplate = l.inTemplate := by
    unfold trimmed
    split <;> rfl
  have settled : Settled kept (l.trimmed next).inTemplate := flag ▸ h
  cases inside : l.inTemplate with
  | true =>
    have same : l.trimmed next = l := by simp [trimmed, inside]
    rw [same] at ends settled ⊢
    have solid : l.isGap = false := isGap_of_inTemplate inside
    refine ⟨l :: kept, rfl, settled.push ends ?_ fun _ => solid, .refl _⟩
    intro p _
    exact ⟨fun gap => by simp [solid] at gap, fun _ => by simp [closes, inside]⟩
  | false =>
    have shown : (l.trimmed next).text = if next then l.text else trimEnd l.text := by
      cases next <;> simp [trimmed, inside]
    rw [inside] at flag
    rw [flag] at settled
    unfold tidyStep
    simp only [Bool.false_eq_true, if_false, ← shown]
    generalize l.trimmed next = m at ends settled flag ⊢
    by_cases empty : m.text = []
    · have gap : m.isGap = true := isGap_iff.mpr ⟨empty, flag⟩
      have outside : next = false := (ends.2 empty).symm.trans flag
      simp only [empty, List.isEmpty_nil, if_true]
      cases kept with
      | nil => exact ⟨[], rfl, .nil next, .skip gap (.refl [])⟩
      | cons p kept =>
        simp only [List.map_cons]
        by_cases dropped : (p.text.isEmpty || p.text.getLast? == some '\x7b') = true
        · rw [if_pos dropped]
          exact ⟨p :: kept, rfl, outside ▸ settled, .skip gap (.refl _)⟩
        · rw [if_neg dropped]
          have apart : p.text ≠ [] ∧ p.opens = false := by simpa [opens] using dropped
          refine ⟨m :: p :: kept, by simp [empty], ?_, .refl _⟩
          refine Settled.push (flag ▸ settled) ends (fun k mem => ?_) (by simp)
          obtain rfl : p = k := Option.some.inj mem
          exact ⟨fun _ => apart, fun gap => by simp [isGap_of_ne apart.1] at gap⟩
    · have solid : m.isGap = false := isGap_of_ne empty
      have notEmpty : m.text.isEmpty = false := by simp [empty]
      simp only [notEmpty, Bool.false_eq_true, if_false]
      by_cases closing : (trimStart m.text).head? == some '\x7d'
      · rw [if_pos closing]
        obtain ⟨kept', dropped, settled', leaves, full⟩ := settled.dropEmpty
        rw [dropped]
        refine ⟨m :: kept', rfl, ?_, leaves.cons m⟩
        refine Settled.push (flag ▸ settled') ends (fun p mem => ?_) fun _ => solid
        exact ⟨fun gap => by simp [solid] at gap, fun gap => by simp [isGap_of_ne (full p mem)] at gap⟩
      · rw [if_neg closing]
        refine ⟨m :: kept, rfl, ?_, .refl _⟩
        refine Settled.push (flag ▸ settled) ends (fun p mem => ?_) fun _ => solid
        exact ⟨fun gap => by simp [solid] at gap, fun _ => by simpa [closes, flag] using closing⟩

theorem run (h : Settled kept (nextInTemplate ls)) (agree : EmptyAgree ls) : ∃ kept',
    tidyFrom (kept.map text) (ls.map text) (ls.map inTemplate) = kept'.map text ∧ Settled kept' false ∧
      Leaves kept' ((trimLines ls).reverse ++ kept) := by
  induction ls generalizing kept with
  | nil => exact ⟨kept, rfl, h, .refl _⟩
  | cons l ls ih =>
    obtain ⟨kept₁, stepped, settled, leaves⟩ := h.step agree.1
    obtain ⟨kept₂, ran, settled', leaves'⟩ := ih settled agree.2
    refine ⟨kept₂, ?_, settled', leaves'.trans ?_⟩
    · rw [← ran, ← stepped]
      rfl
    · have more := leaves.append_left (trimLines ls).reverse
      simpa [trimLines] using more

end Settled

theorem tidyStep_settled (ends : EndsBefore l next) (before : ∀ p ∈ kept.head?, EndsBefore p l.inTemplate ∧ Apart p l)
    (first : kept = [] → l.isGap = false) :
    tidyStep (kept.map text) l.text l.inTemplate next = (l :: kept).map text := by
  unfold tidyStep
  cases inside : l.inTemplate with
  | true => rfl
  | false =>
    have shown : (if next then l.text else trimEnd l.text) = l.text := by
      have same := congrArg TextLine.text ends.1
      cases next with
      | true => rfl
      | false => simpa [trimmed, inside] using same
    simp only [Bool.false_eq_true, if_false, shown]
    cases kept with
    | nil =>
      have ne : l.text ≠ [] := by
        intro empty
        have filled := first rfl
        rw [isGap_iff.mpr ⟨empty, inside⟩] at filled
        cases filled
      have notEmpty : l.text.isEmpty = false := by simp [ne]
      simp only [notEmpty, Bool.false_eq_true, if_false]
      split <;> rfl
    | cons p kept =>
      obtain ⟨endsP, apart⟩ := before p rfl
      by_cases empty : l.text = []
      · obtain ⟨full, open_⟩ := apart.1 (isGap_iff.mpr ⟨empty, inside⟩)
        have stays : (p.text.isEmpty || p.text.getLast? == some '\x7b') = false := by
          simpa [opens] using ⟨full, by simpa [opens] using open_⟩
        simp only [empty, List.isEmpty_nil, if_true, List.map_cons, stays, Bool.false_eq_true, if_false]
      · have notEmpty : l.text.isEmpty = false := by simp [empty]
        simp only [notEmpty, Bool.false_eq_true, if_false]
        split
        · next closing =>
          have full : p.text ≠ [] := by
            intro none
            have gap : p.isGap = true := isGap_iff.mpr ⟨none, (endsP.2 none).trans inside⟩
            have other := apart.2 gap
            simp [closes, inside] at other
            exact other (by simpa using closing)
          rw [List.map_cons, List.dropWhile_cons_of_neg (by simp [full])]
          rfl
        · rfl

theorem Settled.of_append {after : List TextLine} (h : Settled (ls.reverse ++ kept) (nextInTemplate after)) :
    Settled kept (nextInTemplate (ls ++ after)) := by
  cases ls with
  | nil => exact h
  | cons m ms =>
    obtain ⟨chain, -, first⟩ := h
    rw [List.reverse_cons, List.append_assoc] at chain first
    obtain ⟨latest, chain'⟩ := List.isChain_cons.mp chain.right_of_append
    refine ⟨chain', fun l mem => (latest l mem).1, fun l mem => first l ?_⟩
    rw [List.getLast?_append, List.getLast?_append, mem]
    rfl

theorem tidyFrom_settled {after : List TextLine} (h : Settled (ls.reverse ++ kept) (nextInTemplate after)) :
    tidyFrom (kept.map text) ((ls ++ after).map text) ((ls ++ after).map inTemplate) =
      tidyFrom ((ls.reverse ++ kept).map text) (after.map text) (after.map inTemplate) := by
  induction ls generalizing kept with
  | nil => rfl
  | cons l ls ih =>
    rw [List.reverse_cons, List.append_assoc, List.singleton_append] at h ⊢
    have here : Settled (l :: kept) (nextInTemplate (ls ++ after)) := h.of_append
    have pushed : tidyStep (kept.map text) l.text l.inTemplate (nextInTemplate (ls ++ after)) =
        (l :: kept).map text := by
      refine tidyStep_settled (here.latest l rfl) (List.isChain_cons.mp here.chain).1 ?_
      rintro rfl
      exact here.first l rfl
    have later := ih h
    rw [← pushed] at later
    exact later

theorem isNormal_of_settled (h : Settled ls.reverse false) (filled : ∀ l ∈ ls.getLast?, l.text ≠ []) :
    IsNormal ls := by
  refine ⟨?_, ?_, ?_⟩
  · intro l mem
    exact h.first l (by rwa [List.getLast?_reverse])
  · intro l mem
    exact isGap_of_ne (filled l mem)
  · have chain := List.isChain_reverse.mp h.chain
    exact chain.imp fun _ _ beside => beside.2

theorem tidyFrom_concat_false (kept lines : List (List Char)) (flags : List Bool) :
    tidyFrom kept lines (flags ++ [false]) = tidyFrom kept lines flags := by
  induction lines generalizing kept flags with
  | nil => rfl
  | cons line lines ih =>
    cases flags with
    | nil => rfl
    | cons flag flags =>
      have next : (flags ++ [false]).head?.getD false = flags.head?.getD false := by cases flags <;> rfl
      rw [List.cons_append, tidyFrom, tidyFrom, List.tail_cons, List.tail_cons, next, ih]
      rfl

theorem tidyLines_again (h : Settled ls.reverse false) (filled : ∀ l ∈ ls.getLast?, l.text ≠ []) (ne : ls ≠ []) :
    tidyLines (ls.map text ++ [[]]) (ls.map inTemplate) = ls.map text := by
  have settled : Settled (ls.reverse ++ []) (nextInTemplate [⟨[], false⟩]) := by
    rw [List.append_nil]
    exact h
  have ran := tidyFrom_settled settled
  rw [List.map_append, List.map_append, List.append_nil] at ran
  have whole : tidyFrom [] (ls.map text ++ [[]]) (ls.map inTemplate) =
      tidyStep (ls.reverse.map text) [] false false := by
    rw [← tidyFrom_concat_false]
    exact ran
  obtain ⟨init, l, rfl⟩ : ∃ init l, ls = init ++ [l] :=
    ⟨ls.dropLast, ls.getLast ne, (List.dropLast_concat_getLast ne).symm⟩
  have full : l.text ≠ [] := filled l List.getLast?_concat
  rw [tidyLines, whole, List.reverse_append, List.reverse_singleton, List.singleton_append, List.map_cons]
  have dropped : (tidyStep (l.text :: init.reverse.map text) [] false false).dropWhile List.isEmpty =
      l.text :: init.reverse.map text := by
    have trimmed : trimEnd [] = [] := rfl
    simp only [tidyStep, Bool.false_eq_true, if_false, trimmed, List.isEmpty_nil, if_true]
    split
    · rw [List.dropWhile_cons_of_neg (by simp [full])]
    · rw [List.dropWhile_cons_of_pos rfl, List.dropWhile_cons_of_neg (by simp [full])]
  rw [dropped]
  simp

def ofFlags (lines : List (List Char)) (flags : List Bool) : List TextLine :=
  (lines.zip flags).map fun p => ⟨p.1, p.2⟩

theorem map_text_ofFlags {lines : List (List Char)} {flags : List Bool} (same : flags.length = lines.length) :
    (ofFlags lines flags).map text = lines := by
  rw [ofFlags, List.map_map]
  exact List.map_fst_zip (Nat.le_of_eq same.symm)

theorem map_inTemplate_ofFlags {lines : List (List Char)} {flags : List Bool}
    (same : flags.length = lines.length) : (ofFlags lines flags).map inTemplate = flags := by
  rw [ofFlags, List.map_map]
  exact List.map_snd_zip (Nat.le_of_eq same)

theorem exists_tidied (agree : EmptyAgree ls) : ∃ kept,
    tidyLines (ls.map text) (ls.map inTemplate) = kept.map text ∧ Settled kept.reverse false ∧
      (∀ l ∈ kept.getLast?, l.text ≠ []) ∧ Leaves kept (trimLines ls) := by
  obtain ⟨kept, ran, settled, leaves⟩ := (Settled.nil (nextInTemplate ls)).run agree
  obtain ⟨ends, dropped, settled', leaves', full⟩ := settled.dropEmpty
  refine ⟨ends.reverse, ?_, by rwa [List.reverse_reverse], ?_, ?_⟩
  · rw [tidyLines, ← List.map_nil, ran, dropped, List.map_reverse]
  · rw [List.getLast?_reverse]
    exact full
  · have both := (leaves'.trans leaves).reverse
    rwa [List.append_nil, List.reverse_reverse] at both

theorem inLine_trimLines (inLine : ∀ l ∈ ls, '\n' ∉ l.text) : ∀ l ∈ trimLines ls, '\n' ∉ l.text := by
  induction ls with
  | nil => simp [trimLines]
  | cons l ls ih =>
    rw [List.forall_mem_cons] at inLine
    refine List.forall_mem_cons.mpr ⟨?_, ih inLine.2⟩
    unfold trimmed
    split
    · exact inLine.1
    · obtain ⟨ends, whole, -⟩ := dropEndWhile_spec isBlank l.text
      intro mem
      exact inLine.1 (whole ▸ List.mem_append_left ends mem)

theorem getLast?_joinLines {lines : List (List Char)} (filled : ∀ l ∈ lines.getLast?, l ≠ [])
    (inLine : ∀ l ∈ lines, '\n' ∉ l) : (joinLines lines).getLast? ≠ some '\n' := by
  by_cases none : lines = []
  · simp [none, join]
  · obtain ⟨init, l, rfl⟩ : ∃ init l, lines = init ++ [l] :=
      ⟨lines.dropLast, lines.getLast none, (List.dropLast_concat_getLast none).symm⟩
    have full : l ≠ [] := filled l List.getLast?_concat
    have last : (joinLines (init ++ [l])).getLast? = l.getLast? := by
      by_cases only : init = []
      · rw [only]
        rfl
      · rw [joinLines, join_concat only, List.getLast?_append, List.getLast?_cons,
          List.getLast?_eq_some_getLast full]
        rfl
    rw [last]
    intro feed
    exact inLine l (by simp) (List.mem_of_getLast? feed)

/-- A text as it is tidied: its trimmed lines without some blank ones, in normal form and with one line feed
at the end, and the same again when it is tidied with the flags that are left. -/
def TidiesToNormal (input : List Char) (flags : List Bool) : Prop :=
  ∃ kept : List TextLine,
    tidy (splitLines input) flags = joinLines (kept.map text) ++ ['\n'] ∧
    Leaves kept (trimLines (ofFlags (splitLines input) flags)) ∧ IsNormal kept ∧
    (joinLines (kept.map text)).getLast? ≠ some '\n' ∧
    tidy (splitLines (tidy (splitLines input) flags)) (kept.map inTemplate) = tidy (splitLines input) flags

theorem tidiesToNormal {input : List Char} {flags : List Bool} (same : flags.length = (splitLines input).length)
    (agree : EmptyAgree (ofFlags (splitLines input) flags)) : TidiesToNormal input flags := by
  obtain ⟨kept, tidied, settled, filled, leaves⟩ := exists_tidied agree
  rw [map_text_ofFlags same, map_inTemplate_ofFlags same] at tidied
  have inLine : ∀ line ∈ kept.map text, '\n' ∉ line := by
    have lines : ∀ l ∈ ofFlags (splitLines input) flags, '\n' ∉ l.text := by
      intro l mem
      obtain ⟨p, hp, rfl⟩ := List.mem_map.mp mem
      exact not_mem_of_mem_split (List.of_mem_zip hp).1
    intro line mem
    obtain ⟨l, hl, rfl⟩ := List.mem_map.mp mem
    exact inLine_trimLines lines l (leaves.sublist.subset hl)
  have whole : tidy (splitLines input) flags = joinLines (kept.map text) ++ ['\n'] := by
    rw [tidy, tidied]
  refine ⟨kept, whole, leaves, isNormal_of_settled settled filled, ?_, ?_⟩
  · refine getLast?_joinLines (fun line mem => ?_) inLine
    rw [List.getLast?_map] at mem
    obtain ⟨l, hl, rfl⟩ := Option.map_eq_some_iff.mp mem
    exact filled l hl
  · rw [whole]
    by_cases ne : kept = []
    · rw [ne]
      rfl
    · have split : splitLines (joinLines (kept.map text) ++ ['\n']) = kept.map text ++ [[]] := by
        rw [splitLines, split_append_sep, split_join (by simpa using ne) inLine]
        rfl
      rw [split, tidy, tidyLines_again settled filled ne]

def ink (l : TextLine) : List Char := l.text.filter (!isBlank ·)

/-- Lines whose characters have roles, blanks apart: a line begins in a template exactly if the next character
belongs to one. -/
def Follows : List Role → List TextLine → Prop
  | rs, [] => rs = []
  | rs, l :: ls => l.inTemplate = (rs.head? == some .inTemplate) ∧ Follows (rs.drop l.ink.length) ls

theorem splitLines_feed (cs : List Char) : splitLines ('\n' :: cs) = [] :: splitLines cs := rfl

theorem ofFlags_cons (line : List Char) (lines : List (List Char)) (flag : Bool) (flags : List Bool) :
    ofFlags (line :: lines) (flag :: flags) = ⟨line, flag⟩ :: ofFlags lines flags := rfl

def linesOf (rs : List (Char × Role)) : List TextLine := ofFlags (splitLines (rs.map Prod.fst)) (roleFlags rs)

theorem follows_linesOf (rs : List (Char × Role)) : Follows ((solids rs).map Prod.snd) (linesOf rs) := by
  unfold linesOf roleFlags
  induction rs with
  | nil => exact ⟨rfl, rfl⟩
  | cons x rs ih =>
    obtain ⟨c, role⟩ := x
    obtain ⟨line, lines, split⟩ := List.exists_cons_of_ne_nil (split_ne_nil '\n' (rs.map Prod.fst))
    rw [List.map_cons, templateFeeds, entersTemplate_cons]
    by_cases feed : c = '\n'
    · subst feed
      have blank : isBlank '\n' = true := rfl
      rw [if_pos blank, if_pos rfl, solids_cons_of_blank blank, splitLines_feed]
      refine ⟨?_, ih⟩
      rw [splitLines, split, ofFlags_cons] at ih
      exact ih.1
    · rw [splitLines, split, ofFlags_cons] at ih
      rw [splitLines, Text.split, if_neg feed, split, if_neg feed]
      dsimp only
      rw [ofFlags_cons]
      cases blank : isBlank c with
      | true =>
        have same : (c :: line).filter (!isBlank ·) = line.filter (!isBlank ·) :=
          List.filter_cons_of_neg (by simp [blank])
        rw [if_pos rfl, solids_cons_of_blank blank, Follows, ink, same]
        exact ih
      | false =>
        have more : (c :: line).filter (!isBlank ·) = c :: line.filter (!isBlank ·) :=
          List.filter_cons_of_pos (by simp [blank])
        rw [if_neg Bool.false_ne_true, solids_cons_of_solid blank, Follows, ink, more]
        exact ⟨rfl, ih.2⟩

theorem Follows.emptyAgree {rs : List Role} (h : Follows rs ls) : EmptyAgree ls := by
  induction ls generalizing rs with
  | nil => trivial
  | cons l ls ih =>
    refine ⟨fun empty => ?_, ih h.2⟩
    have rest := h.2
    rw [ink, empty, List.filter_nil, List.length_nil, List.drop_zero] at rest
    rw [h.1]
    cases ls with
    | nil =>
      obtain rfl : rs = [] := rest
      rfl
    | cons m ms => exact rest.1.symm

theorem emptyAgree_templateLines {source : List Char} {f : Facts} (read : Facts.ofModule? source = some f) :
    EmptyAgree (ofFlags (splitLines source) (f.templateLines source)) := by
  obtain ⟨r, reading⟩ : ∃ r, Reading.ofModule? source = some r := by
    obtain ⟨r, found, -⟩ := Option.map_eq_some_iff.mp read
    have bare : Facts.bare.before ++ source ++ Facts.bare.after = source := by
      rw [Facts.bare, List.nil_append, List.append_nil]
    exact ⟨r, bare ▸ found⟩
  have templates : f.templates = r.passed.filterMap Passage.chunk? := by
    rw [← Option.some.inj ((Reading.facts reading).symm.trans read)]
  obtain ⟨d, -⟩ := Reading.dissection reading
  have shown : (rolesFrom Passage.taken 0 source r.passed).map Prod.fst = source := by
    rw [map_fst_rolesFrom d, d.whole]
  have follows := follows_linesOf (rolesFrom Passage.taken 0 source r.passed)
  rw [linesOf, shown, ← templateLines_eq_roles templates d (solidWriting_taken d)] at follows
  exact follows.emptyAgree

/-- Tidying trims the lines outside of templates and drops blank ones among them; what is left is in normal
form, ends with one line feed and is not changed by tidying it again. It needs that empty lines agree with
their next ones on being in a template, as they do in every module. -/
theorem tidied_text_is_normal :
    (∀ (input : List Char) (flags : List Bool), flags.length = (splitLines input).length →
      EmptyAgree (ofFlags (splitLines input) flags) → TidiesToNormal input flags) ∧
    ∀ (source : List Char) (f : Facts), Facts.ofModule? source = some f →
      (f.templateLines source).length = (splitLines source).length ∧
        EmptyAgree (ofFlags (splitLines source) (f.templateLines source)) := by
  refine ⟨fun input flags same agree => tidiesToNormal same agree, fun source f read => ⟨?_, ?_⟩⟩
  · rw [Facts.templateLines, List.length_cons, List.length_map, Facts.length_lineFeeds, length_split]
  · exact emptyAgree_templateLines read

/-- A class with blank lines around and inside of a template. -/
def spacedClass : List Char := "class A \x7b\n\n  s = `x  \n\n`;  \n\n\n\x7d\n\n".toList

def spacedClassFacts : Facts := ⟨[⟨18, 23⟩], [], [24]⟩

theorem spaced_class_tidies_to_normal :
    Facts.ofModule? spacedClass = some spacedClassFacts ∧
    TidiesToNormal spacedClass (spacedClassFacts.templateLines spacedClass) ∧
    tidy (splitLines spacedClass) (spacedClassFacts.templateLines spacedClass) =
      "class A \x7b\n  s = `x  \n\n`;  \n\x7d\n".toList := by
  have read : Facts.ofModule? spacedClass = some spacedClassFacts := by decide +kernel
  obtain ⟨same, agree⟩ := tidied_text_is_normal.2 spacedClass spacedClassFacts read
  exact ⟨read, tidied_text_is_normal.1 spacedClass _ same agree, by decide +kernel⟩

end TextLine

end VueOptions.Layout
