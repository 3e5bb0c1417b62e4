import VueOptions.Proofs.Layout.NormalLines

/-!
House style of a text that is in house style. The lines that are left by the first pass begin in templates
where the roles of their characters say so (`Follows`), and blanks are all that a pass takes from lines. So
if the second reading gives each character the role it had, the lines stay as they are and all strings have
their quotes; only a semicolon may go, which ends something for the second reading and did not for the first.
-/

set_option autoImplicit false

namespace VueOptions.Layout

open Text Script

theorem filter_joinLines (lines : List (List Char)) :
    (joinLines lines).filter (!isBlank ·) = lines.flatMap fun line => line.filter (!isBlank ·) := by
  rw [joinLines]
  fun_induction join '\n' lines with
  | case1 => rfl
  | case2 line => simp
  | case3 line lines _ ih =>
    rw [List.filter_append, List.filter_cons_of_neg (by decide), ih, List.flatMap_cons]

namespace TextLine

variable {ls ms kept : List TextLine} {l : TextLine} {rs : List Role}

theorem flatMap_ink (ls : List TextLine) :
    ls.flatMap ink = (ls.map text).flatMap fun line => line.filter (!isBlank ·) := by
  rw [List.flatMap_map]
  rfl

theorem Follows.unique (h : Follows rs ls) (h' : Follows rs ms) (same : ls.map text = ms.map text) :
    ls = ms := by
  induction ls generalizing rs ms with
  | nil =>
    rw [List.map_nil, eq_comm, List.map_eq_nil_iff] at same
    exact same.symm
  | cons l ls ih =>
    cases ms with
    | nil => cases same
    | cons m ms =>
      obtain ⟨first, rest⟩ := List.cons.inj same
      obtain ⟨line, flag⟩ := l
      obtain ⟨line', flag'⟩ := m
      obtain rfl : line = line' := first
      obtain rfl : flag = flag' := h.1.trans h'.1.symm
      rw [ih h.2 h'.2 rest]

theorem Follows.concat (h : Follows rs ls) : Follows rs (ls ++ [⟨[], false⟩]) := by
  induction ls generalizing rs with
  | nil =>
    obtain rfl : rs = [] := h
    exact ⟨rfl, rfl⟩
  | cons l ls ih => exact ⟨h.1, ih h.2⟩

/-! ### What a pass takes from lines -/

theorem Follows.map {g : TextLine → TextLine} (h : Follows rs ls) (flag : ∀ l, (g l).inTemplate = l.inTemplate)
    (same : ∀ l, (g l).ink = l.ink) : Follows rs (ls.map g) := by
  induction ls generalizing rs with
  | nil => exact h
  | cons l ls ih =>
    refine ⟨(flag l).trans h.1, ?_⟩
    rw [same]
    exact ih h.2

private theorem filter_trimEnd (cs : List Char) : (trimEnd cs).filter (!isBlank ·) = cs.filter (!isBlank ·) := by
  obtain ⟨ends, whole, blank, -⟩ := dropEndWhile_spec isBlank cs
  have none : ends.filter (!isBlank ·) = [] := List.filter_eq_nil_iff.mpr fun c mem => by simp [blank c mem]
  conv =>
    rhs
    rw [← whole]
  rw [List.filter_append, none, List.append_nil]
  rfl

theorem inTemplate_trimmed (next : Bool) (l : TextLine) : (l.trimmed next).inTemplate = l.inTemplate := by
  unfold trimmed
  split <;> rfl

theorem ink_trimmed (next : Bool) (l : TextLine) : (l.trimmed next).ink = l.ink := by
  unfold trimmed
  split
  · rfl
  · exact filter_trimEnd l.text

theorem Follows.trimLines (h : Follows rs ls) : Follows rs (trimLines ls) := by
  induction ls generalizing rs with
  | nil => exact h
  | cons l ls ih =>
    refine ⟨(inTemplate_trimmed _ l).trans h.1, ?_⟩
    rw [ink_trimmed]
    exact ih h.2

theorem flatMap_ink_trimLines (ls : List TextLine) : (trimLines ls).flatMap ink = ls.flatMap ink := by
  induction ls with
  | nil => rfl
  | cons l ls ih => rw [TextLine.trimLines, List.flatMap_cons, List.flatMap_cons, ink_trimmed, ih]

theorem Leaves.of_cons (leaves : Leaves kept (l :: ls)) :
    (l.isGap = true ∧ Leaves kept ls) ∨ ∃ rest, kept = l :: rest ∧ Leaves rest ls := by
  obtain ⟨sublist, solid⟩ := leaves
  cases sublist with
  | cons _ sublist =>
    have gap : l.isGap = true := by
      cases gap : l.isGap with
      | true => rfl
      | false =>
        have fewer := (sublist.filter fun l => !l.isGap).length_le
        rw [solid, List.filter_cons_of_pos (by simp [gap]), List.length_cons] at fewer
        omega
    rw [List.filter_cons_of_neg (by simp [gap])] at solid
    exact .inl ⟨gap, sublist, solid⟩
  | cons_cons _ sublist =>
    refine .inr ⟨_, rfl, sublist, ?_⟩
    rw [List.filter_cons, List.filter_cons] at solid
    split at solid
    · exact (List.cons.inj solid).2
    · exact solid

theorem ink_of_isGap (gap : l.isGap = true) : l.ink = [] := by
  rw [ink, (isGap_iff.mp gap).1]
  rfl

theorem Follows.leaves (h : Follows rs ls) (leaves : Leaves kept ls) : Follows rs kept := by
  induction ls generalizing rs kept with
  | nil =>
    rw [List.sublist_nil.mp leaves.sublist]
    exact h
  | cons l ls ih =>
    rcases leaves.of_cons with ⟨gap, fewer⟩ | ⟨rest, rfl, fewer⟩
    · have later := h.2
      rw [ink_of_isGap gap] at later
      exact ih later fewer
    · exact ⟨h.1, ih h.2 fewer⟩

theorem Leaves.flatMap_ink (leaves : Leaves kept ls) : kept.flatMap ink = ls.flatMap ink := by
  induction ls generalizing kept with
  | nil => rw [List.sublist_nil.mp leaves.sublist]
  | cons l ls ih =>
    rcases leaves.of_cons with ⟨gap, fewer⟩ | ⟨rest, rfl, fewer⟩
    · rw [ih fewer, List.flatMap_cons, ink_of_isGap gap, List.nil_append]
    · rw [List.flatMap_cons, List.flatMap_cons, ih fewer]

/-- A line with its tabs made into spaces, unless it begins in a template. -/
def expanded (width : Nat) (l : TextLine) : TextLine :=
  if l.inTemplate then l else { l with text := expandTabs width l.text }

theorem ofFlags_expandLines (width : Nat) (lines : List (List Char)) (flags : List Bool) :
    ofFlags (expandLines width lines flags) flags = (ofFlags lines flags).map (expanded width) := by
  induction lines generalizing flags with
  | nil => rfl
  | cons line lines ih =>
    cases flags with
    | nil => simp [ofFlags]
    | cons flag flags =>
      have shown : expandLines width (line :: lines) (flag :: flags) =
          (if flag then line else expandTabs width line) :: expandLines width lines flags := rfl
      rw [shown, ofFlags_cons, ofFlags_cons, List.map_cons, ih, expanded]
      cases flag <;> rfl

theorem tidy_expandLines (width : Nat) {lines : List (List Char)} {flags : List Bool}
    (same : flags.length = lines.length) : tidy (expandLines width lines flags) flags =
      joinLines (tidyLines (((ofFlags lines flags).map (expanded width)).map text)
        (((ofFlags lines flags).map (expanded width)).map inTemplate)) ++ ['\n'] := by
  have same' : flags.length = (expandLines width lines flags).length := by
    simp [expandLines, same]
  rw [tidy, ← ofFlags_expandLines, map_text_ofFlags same', map_inTemplate_ofFlags same']

theorem inTemplate_expanded (width : Nat) (l : TextLine) : (l.expanded width).inTemplate = l.inTemplate := by
  unfold expanded
  split <;> rfl

private theorem eq_tab_of_mem {c : Char} {line : List Char} (mem : c ∈ line.takeWhile (· == '\t')) : c = '\t' :=
  beq_iff_eq.mp (List.all_eq_true.mp List.all_takeWhile c mem)

theorem ink_expanded (width : Nat) (l : TextLine) : (l.expanded width).ink = l.ink := by
  unfold expanded
  split
  · rfl
  · have tabs : (l.text.takeWhile (· == '\t')).filter (!isBlank ·) = [] :=
      List.filter_eq_nil_iff.mpr fun c mem => by
        rw [eq_tab_of_mem mem]
        decide
    have spaces (n : Nat) : (List.replicate n ' ').filter (!isBlank ·) = [] :=
      List.filter_replicate_of_neg (by decide)
    have whole : (l.text.dropWhile (· == '\t')).filter (!isBlank ·) = l.text.filter (!isBlank ·) := by
      conv =>
        rhs
        rw [← List.takeWhile_append_dropWhile (p := (· == '\t')) (l := l.text)]
      rw [List.filter_append, tabs, List.nil_append]
    rw [ink, expandTabs, List.filter_append, spaces, List.nil_append, whole]
    rfl

theorem head?_expandTabs (width : Nat) (line : List Char) : (expandTabs width line).head? ≠ some '\t' := by
  rw [expandTabs, List.head?_append]
  cases width * (line.takeWhile (· == '\t')).length with
  | zero =>
    intro front
    have first := List.head?_dropWhile_not (· == '\t') line
    rw [List.replicate_zero, List.head?_nil, Option.none_or] at front
    rw [front] at first
    simp at first
  | succ n => simp [List.replicate_succ]

theorem expandTabs_eq_self {line : List Char} (front : line.head? ≠ some '\t') (width : Nat) :
    expandTabs width line = line := by
  cases line with
  | nil => rfl
  | cons c cs =>
    have ne : (c == '\t') = false := by
      rw [List.head?_cons] at front
      simpa using front
    rw [expandTabs, List.takeWhile_cons_of_neg (by simp [ne]), List.dropWhile_cons_of_neg (by simp [ne])]
    rfl

theorem feed_not_mem_expanded {width : Nat} (inLine : '\n' ∉ l.text) : '\n' ∉ (l.expanded width).text := by
  unfold expanded
  split
  · exact inLine
  · intro mem
    rcases List.mem_append.mp mem with mem | mem
    · exact absurd (List.eq_of_mem_replicate mem) (by decide)
    · exact inLine ((List.dropWhile_sublist _).subset mem)

theorem exists_of_mem_trimLines (mem : l ∈ trimLines ls) : ∃ m ∈ ls, ∃ next, l = m.trimmed next := by
  induction ls with
  | nil => cases mem
  | cons m ms ih =>
    rcases List.mem_cons.mp mem with rfl | mem
    · exact ⟨m, List.mem_cons_self, _, rfl⟩
    · obtain ⟨m', hm, next, same⟩ := ih mem
      exact ⟨m', List.mem_cons_of_mem m hm, next, same⟩

theorem head?_trimmed {m : TextLine} {next : Bool} {c : Char} (front : m.text.head? ≠ some c) :
    (m.trimmed next).text.head? ≠ some c := by
  unfold trimmed
  split
  · exact front
  · obtain ⟨ends, whole, -⟩ := dropEndWhile_spec isBlank m.text
    intro first
    have first : (trimEnd m.text).head? = some c := first
    rw [← whole, List.head?_append, ← trimEnd, first] at front
    exact front rfl

end TextLine

/-! ### What the first pass leaves -/

section

open TextLine

structure HouseLines (rs : List (Char × Role)) (kept : List TextLine) : Prop where
  settled : Settled kept.reverse false
  filled : ∀ l ∈ kept.getLast?, l.text ≠ []
  inLine : ∀ l ∈ kept, '\n' ∉ l.text
  untabbed : ∀ l ∈ kept, l.inTemplate = false → l.text.head? ≠ some '\t'
  follows : Follows ((solids rs).map Prod.snd) kept
  ink : kept.flatMap TextLine.ink = (solids rs).map Prod.fst

def layOut (width : Nat) (rs : List (Char × Role)) : List Char :=
  tidy (expandLines width (splitLines (rs.map Prod.fst)) (roleFlags rs)) (roleFlags rs)

theorem layOut_eq (width : Nat) (rs : List (Char × Role)) : layOut width rs =
    joinLines (tidyLines (((linesOf rs).map (expanded width)).map text)
      (((linesOf rs).map (expanded width)).map inTemplate)) ++ ['\n'] :=
  tidy_expandLines width (length_roleFlags rs)

theorem map_text_linesOf (rs : List (Char × Role)) : (linesOf rs).map text = splitLines (rs.map Prod.fst) :=
  map_text_ofFlags (length_roleFlags rs)

theorem exists_houseLines (width : Nat) (rs : List (Char × Role)) : ∃ kept,
    layOut width rs = joinLines (kept.map text) ++ ['\n'] ∧ HouseLines rs kept := by
  have expands := (follows_linesOf rs).map (inTemplate_expanded width) (ink_expanded width)
  obtain ⟨kept, tidied, settled, filled, leaves⟩ := exists_tidied expands.emptyAgree
  refine ⟨kept, by rw [layOut_eq, tidied], settled, filled, fun l mem => ?_, fun l mem outside => ?_,
    expands.trimLines.leaves leaves, ?_⟩
  · refine inLine_trimLines (fun m hm => ?_) l (leaves.sublist.subset mem)
    obtain ⟨k, hk, rfl⟩ := List.mem_map.mp hm
    have line : k.text ∈ splitLines (rs.map Prod.fst) := by
      rw [← map_text_linesOf]
      exact List.mem_map_of_mem hk
    exact feed_not_mem_expanded (not_mem_of_mem_split line)
  · obtain ⟨m, hm, next, rfl⟩ := exists_of_mem_trimLines (leaves.sublist.subset mem)
    obtain ⟨k, -, rfl⟩ := List.mem_map.mp hm
    rw [inTemplate_trimmed, inTemplate_expanded] at outside
    refine head?_trimmed ?_
    rw [expanded, outside]
    exact head?_expandTabs width k.text
  · have inked : (linesOf rs).flatMap TextLine.ink = (solids rs).map Prod.fst := by
      rw [flatMap_ink, map_text_linesOf, ← filter_joinLines, joinLines, join_split, map_fst_solids]
    rw [leaves.flatMap_ink, flatMap_ink_trimLines, List.flatMap_map, ← inked]
    exact List.flatMap_congr fun l _ => ink_expanded width l

theorem HouseLines.expanded_eq {rs : List (Char × Role)} {kept : List TextLine} (left : HouseLines rs kept)
    (width : Nat) : kept.map (expanded width) = kept := by
  refine (List.map_congr_left fun l mem => ?_).trans (List.map_id kept)
  unfold expanded
  split
  · rfl
  · next outside =>
    rw [expandTabs_eq_self (left.untabbed l mem (Bool.eq_false_iff.mpr outside))]
    rfl

theorem HouseLines.of_solids_eq {rs rs' : List (Char × Role)} {kept : List TextLine} (left : HouseLines rs kept)
    (alike : solids rs' = solids rs) : HouseLines rs' kept :=
  ⟨left.settled, left.filled, left.inLine, left.untabbed, by rw [alike]; exact left.follows,
    by rw [alike]; exact left.ink⟩

theorem HouseLines.again {rs : List (Char × Role)} {kept : List TextLine} (left : HouseLines rs kept)
    (shown : rs.map Prod.fst = joinLines (kept.map text) ++ ['\n']) (width : Nat) :
    layOut width rs = joinLines (kept.map text) ++ ['\n'] := by
  have follows := follows_linesOf rs
  have lines := map_text_linesOf rs
  have blank : (TextLine.mk [] false).expanded width = ⟨[], false⟩ := rfl
  rw [shown] at lines
  rw [layOut_eq]
  congr 2
  by_cases none : kept = []
  · subst none
    have two : linesOf rs = [⟨[], false⟩, ⟨[], false⟩] := follows.unique left.follows.concat.concat lines
    rw [two, List.map_cons, List.map_cons, blank]
    rfl
  · have whole : linesOf rs = kept ++ [⟨[], false⟩] := by
      have inLine : ∀ line ∈ kept.map text, '\n' ∉ line := List.forall_mem_map.mpr left.inLine
      refine follows.unique left.follows.concat ?_
      rw [lines, splitLines, split_append_sep, split_join (by simpa using none) inLine, List.map_append]
      rfl
    rw [whole, List.map_append, left.expanded_eq, List.map_singleton, blank, List.map_append, List.map_append,
      tidyLines, List.map_singleton, List.map_singleton, tidyFrom_concat_false]
    exact tidyLines_again left.settled left.filled none

/-! ### A pass over a text that can be read -/

variable {source : List Char} {r : Reading} {width : Nat}

theorem normalize_eq_layOut (read : Reading.ofModule? source = some r) (width : Nat) :
    normalize source width = layOut width (rolesFrom (styled source r.tree) 0 source r.passed) := by
  obtain ⟨d, -⟩ := Reading.dissection read
  have facts := Reading.facts read
  rw [normalize, facts]
  dsimp only
  rw [apply_edits read facts d, ← map_fst_rolesFrom d,
    templateLines_eq_roles rfl d (solidWriting_styled d r.tree), layOut]

theorem exists_normalized (read : Reading.ofModule? source = some r) (width : Nat) : ∃ kept : List TextLine,
    normalize source width = joinLines (kept.map text) ++ ['\n'] ∧
      HouseLines (rolesFrom (styled source r.tree) 0 source r.passed) kept := by
  rw [normalize_eq_layOut read]
  exact exists_houseLines width _

/-! ### What the second pass finds -/

theorem single_mem_restyle {value : String} {cs : List Char} (h : (Lexeme.string value).Spells cs) :
    '\'' ∈ restyle cs := by
  obtain ⟨quote, body, rfl | rfl, rfl, -⟩ := h
  · rw [restyle_double]
    split
    · next single => simpa using single
    · simp
  · exact List.mem_cons_self

theorem restyle_of_single_mem {value : String} {cs : List Char} (h : (Lexeme.string value).Spells cs)
    (single : '\'' ∈ cs) : restyle cs = cs := by
  obtain ⟨quote, body, rfl | rfl, rfl, -⟩ := h
  · rw [restyle_double, if_pos (by simpa using single)]
  · rfl

/-- All strings of a text hold a single quote, as house style leaves them. -/
def IsRequoted (r : Reading) : Prop := ∀ p ∈ r.passed, p.string?.isSome = true → '\'' ∈ p.taken

theorem styled_eq (requoted : IsRequoted r) {n : Nat} {p : Piece} (here : p.At n) (mem : p.passage ∈ r.passed) :
    styled source r.tree p.passage = if drops source r.tree p.passage then [] else p.passage.taken := by
  have spelled := here.spelled
  unfold styled
  split
  · next value lexeme =>
    have string : p.passage.string?.isSome = true := by rw [Passage.string?, lexeme]; rfl
    have stays : drops source r.tree p.passage = false := by simp [drops, lexeme]
    rw [lexeme] at spelled
    rw [restyle_of_single_mem spelled (requoted _ mem string), stays]
    rfl
  · rfl

/-- Both readings see each character in the same role, blanks apart: the one of a text, with its tokens as
house style writes them, and the one of another text. -/
def ReadsAlike (source : List Char) (r : Reading) (other : List Char) (r' : Reading) : Prop :=
  solids (rolesFrom Passage.taken 0 other r'.passed) = solids (rolesFrom (styled source r.tree) 0 source r.passed)

instance readsAlikeDecidable (source : List Char) (r : Reading) (other : List Char) (r' : Reading) :
    Decidable (ReadsAlike source r other r') :=
  inferInstanceAs (Decidable (solids (rolesFrom Passage.taken 0 other r'.passed) =
    solids (rolesFrom (styled source r.tree) 0 source r.passed)))

theorem exists_styled_string (read : Reading.ofModule? source = some r) {p : Passage} (mem : p ∈ r.passed)
    (string : p.string?.isSome = true) :
    ∃ value, (Lexeme.string value).Spells p.taken ∧ styled source r.tree p = restyle p.taken := by
  obtain ⟨value, lexeme⟩ := lexeme_of_string? string
  have spelled := Reading.spells_of_mem read mem
  rw [lexeme] at spelled
  exact ⟨value, spelled, by rw [styled, lexeme]⟩

theorem single_mem_of_filter_eq (read : Reading.ofModule? source = some r) {p : Passage} (mem : p ∈ r.passed)
    (string : p.string?.isSome = true) {cs : List Char}
    (same : cs.filter (!isBlank ·) = (styled source r.tree p).filter (!isBlank ·)) : '\'' ∈ cs := by
  obtain ⟨value, spelled, shown⟩ := exists_styled_string read mem string
  have single : '\'' ∈ (styled source r.tree p).filter (!isBlank ·) := by
    rw [shown]
    exact List.mem_filter.mpr ⟨single_mem_restyle spelled, by decide⟩
  rw [← same] at single
  exact List.mem_of_mem_filter single

theorem ReadsAlike.isRequoted {other : List Char} {r' : Reading} (alike : ReadsAlike source r other r')
    (read : Reading.ofModule? source = some r) (read' : Reading.ofModule? other = some r') : IsRequoted r' := by
  intro p mem string
  obtain ⟨d, -⟩ := Reading.dissection read
  obtain ⟨d', -⟩ := Reading.dissection read'
  have strings := congrArg quoted alike
  rw [quoted_rolesFrom d' (solidWriting_taken d'), quoted_rolesFrom d (solidWriting_styled d r.tree)] at strings
  have found : p.taken.filter (!isBlank ·) ∈ r'.passed.filterMap (solidString? Passage.taken) := by
    obtain ⟨s, some⟩ := Option.isSome_iff_exists.mp string
    exact List.mem_filterMap.mpr ⟨p, mem, by rw [solidString?, some]; rfl⟩
  rw [strings] at found
  obtain ⟨q, hq, same⟩ := List.mem_filterMap.mp found
  obtain ⟨s, some, shown⟩ := Option.map_eq_some_iff.mp same
  exact single_mem_of_filter_eq read hq (by rw [some]; rfl) shown.symm

private theorem requote_sublist (cs : List Char) : (requote cs).Sublist cs := by
  fun_induction requote cs with
  | case1 => exact .slnil
  | case2 cs ih => exact (ih.cons_cons '"').cons '\\'
  | case3 c cs _ ih => exact ih.cons_cons c

theorem length_ink_styled_le {n : Nat} {p : Piece} (here : p.At n) (t : Tree) :
    ((styled source t p.passage).filter (!isBlank ·)).length ≤ (p.passage.taken.filter (!isBlank ·)).length := by
  have spelled := here.spelled
  unfold styled
  split
  · next value lexeme =>
    rw [lexeme] at spelled
    obtain ⟨quote, body, rfl | rfl, taken, -⟩ := spelled
    · rw [taken, restyle_double]
      split
      · exact Nat.le_refl _
      · have fewer := ((requote_sublist body).filter (!isBlank ·)).length_le
        have double : isBlank '"' = false := rfl
        have single : isBlank '\'' = false := rfl
        simp [double, single, fewer]
    · rw [taken]
      exact Nat.le_refl _
  · split
    · exact Nat.zero_le _
    · exact Nat.le_refl _

theorem length_ink_weave_le {write : Passage → List Char} {ps : List Piece}
    (le : ∀ p ∈ ps, ((write p.passage).filter (!isBlank ·)).length ≤
      (p.passage.taken.filter (!isBlank ·)).length) :
    ((Piece.weave write ps).filter (!isBlank ·)).length ≤
      ((Piece.weave Passage.taken ps).filter (!isBlank ·)).length := by
  induction ps with
  | nil => exact Nat.le_refl _
  | cons p ps ih =>
    rw [List.forall_mem_cons] at le
    have first := le.1
    have rest := ih le.2
    simp only [Piece.weave_cons, List.filter_append, List.length_append]
    omega

theorem ink_eq_of_weave_eq {write : Passage → List Char} {ps : List Piece}
    (le : ∀ p ∈ ps, ((write p.passage).filter (!isBlank ·)).length ≤
      (p.passage.taken.filter (!isBlank ·)).length)
    (same : (Piece.weave write ps).filter (!isBlank ·) = (Piece.weave Passage.taken ps).filter (!isBlank ·)) :
    ∀ p ∈ ps, (write p.passage).filter (!isBlank ·) = p.passage.taken.filter (!isBlank ·) := by
  induction ps with
  | nil => simp
  | cons p ps ih =>
    rw [List.forall_mem_cons] at le
    simp only [Piece.weave_cons, List.filter_append] at same
    have tokens := List.append_cancel_left same
    have lengths := congrArg List.length tokens
    have first := le.1
    have rest := length_ink_weave_le le.2
    simp only [List.length_append] at lengths
    obtain ⟨here, later⟩ := List.append_inj tokens (by omega)
    exact List.forall_mem_cons.mpr ⟨here, ih le.2 later⟩

theorem filter_normalize (read : Reading.ofModule? source = some r) (d : Dissection source r.passed) (width : Nat) :
    (normalize source width).filter (!isBlank ·) =
      (d.head ++ (Piece.weave (styled source r.tree) d.pieces ++ d.tail)).filter (!isBlank ·) := by
  obtain ⟨kept, normal, left⟩ := exists_normalized read width
  have feed : ['\n'].filter (!isBlank ·) = [] := rfl
  rw [normal, List.filter_append, feed, List.append_nil, filter_joinLines, ← flatMap_ink, left.ink,
    map_fst_solids, map_fst_rolesFrom d]

theorem tokens_of_normalize_eq (read : Reading.ofModule? source = some r) (fixed : normalize source width = source) :
    IsRequoted r ∧ ∀ p ∈ r.passed, drops source r.tree p = false := by
  obtain ⟨d, -⟩ := Reading.dissection read
  obtain ⟨stop, laid⟩ := d.laid
  have inked := filter_normalize read d width
  rw [fixed] at inked
  conv at inked =>
    lhs
    rw [← d.whole]
  simp only [List.filter_append] at inked
  have woven := List.append_cancel_right (List.append_cancel_left inked)
  have le : ∀ p ∈ d.pieces, ((styled source r.tree p.passage).filter (!isBlank ·)).length ≤
      (p.passage.taken.filter (!isBlank ·)).length := fun p hp =>
    have ⟨_, here⟩ := laid.exists_at hp
    length_ink_styled_le here r.tree
  have tokens := ink_eq_of_weave_eq le woven.symm
  refine ⟨fun q mem string => ?_, fun q mem => ?_⟩
  · obtain ⟨before, p, after, split, rfl⟩ := d.exists_split mem
    exact single_mem_of_filter_eq read mem string (tokens p (by simp [split])).symm
  · obtain ⟨before, p, after, split, rfl⟩ := d.exists_split mem
    have hp : p ∈ d.pieces := by simp [split]
    obtain ⟨n, here⟩ := laid.exists_at hp
    cases drop : drops source r.tree p.passage with
    | false => rfl
    | true =>
      have none : styled source r.tree p.passage = [] := by
        rw [styled, semicolon_of_drops drop]
        simp [drop]
      have token := tokens p hp
      rw [none, taken_of_drops here drop] at token
      cases token

theorem rolesFrom_styled (read : Reading.ofModule? source = some r) (requoted : IsRequoted r)
    (stay : ∀ p ∈ r.passed, drops source r.tree p = false) :
    rolesFrom (styled source r.tree) 0 source r.passed = rolesFrom Passage.taken 0 source r.passed := by
  obtain ⟨d, -⟩ := Reading.dissection read
  obtain ⟨stop, laid⟩ := d.laid
  rw [rolesFrom_eq d, rolesFrom_eq d, pieceRoles, pieceRoles]
  congr 2
  refine List.flatMap_congr fun p hp => ?_
  obtain ⟨n, here⟩ := laid.exists_at hp
  have mem : p.passage ∈ r.passed := d.passages ▸ List.mem_map_of_mem hp
  rw [styled_eq requoted here mem, stay _ mem]
  rfl

/-- A text in house style by its own reading: strings have their quotes, no semicolon can go, and its lines
are as a pass leaves them. -/
structure InHouseStyle (source : List Char) (r : Reading) : Prop where
  requoted : IsRequoted r
  terminated : ∀ p ∈ r.passed, drops source r.tree p = false
  lines : ∃ kept : List TextLine, source = joinLines (kept.map TextLine.text) ++ ['\n'] ∧
    HouseLines (rolesFrom Passage.taken 0 source r.passed) kept

theorem normalize_eq_self_iff (read : Reading.ofModule? source = some r) (width : Nat) :
    normalize source width = source ↔ InHouseStyle source r := by
  obtain ⟨d, -⟩ := Reading.dissection read
  constructor
  · intro fixed
    obtain ⟨requoted, stay⟩ := tokens_of_normalize_eq read fixed
    obtain ⟨kept, normal, left⟩ := exists_normalized read width
    rw [rolesFrom_styled read requoted stay] at left
    exact ⟨requoted, stay, kept, fixed.symm.trans normal, left⟩
  · rintro ⟨requoted, stay, kept, shown, left⟩
    have written : (rolesFrom Passage.taken 0 source r.passed).map Prod.fst =
        joinLines (kept.map TextLine.text) ++ ['\n'] := by
      rw [map_fst_rolesFrom d, d.whole, ← shown]
    rw [normalize_eq_layOut read, rolesFrom_styled read requoted stay]
    exact (left.again written width).trans shown.symm

end

/-! ### Two passes -/

theorem exists_last_line (text : List Char) (width : Nat) :
    ∃ front, normalize text width = front ++ ['\n'] ∧ front.getLast? ≠ some '\n' := by
  cases read : Reading.ofModule? text with
  | none =>
    refine ⟨_, normalize_unread read width, fun last => ?_⟩
    obtain ⟨ends, -, -, other⟩ := dropEndWhile_spec (· == '\n') text
    have feed := other '\n' last
    simp at feed
  | some r =>
    obtain ⟨kept, normal, left⟩ := exists_normalized read width
    refine ⟨_, normal, TextLine.getLast?_joinLines (fun line mem => ?_) (List.forall_mem_map.mpr left.inLine)⟩
    rw [List.getLast?_map] at mem
    obtain ⟨l, hl, rfl⟩ := Option.map_eq_some_iff.mp mem
    exact left.filled l hl

/-- **Two passes.** A second pass changes nothing if it cannot read what the first one gave. If it can, it
changes nothing exactly if the text is in house style by that reading; and if that reading sees each character
in the role it had, blanks apart, exactly if no semicolon can go. -/
theorem second_pass_changes_nothing_iff (text : List Char) (width : Nat) :
    (Reading.ofModule? (normalize text width) = none →
      normalize (normalize text width) width = normalize text width) ∧
    ∀ r', Reading.ofModule? (normalize text width) = some r' →
      (normalize (normalize text width) width = normalize text width ↔
        InHouseStyle (normalize text width) r') ∧
      ∀ r, Reading.ofModule? text = some r → ReadsAlike text r (normalize text width) r' →
        (normalize (normalize text width) width = normalize text width ↔
          ∀ p ∈ r'.passed, drops (normalize text width) r'.tree p = false) := by
  refine ⟨fun unread => ?_, fun r' read' => ⟨normalize_eq_self_iff read' width, fun r read alike => ?_⟩⟩
  · obtain ⟨front, shown, last⟩ := exists_last_line text width
    have feed : dropEndWhile (· == '\n') ['\n'] = [] := rfl
    rw [normalize_unread unread, shown, dropEndWhile_append, feed, List.append_nil]
    intro c back
    rw [beq_eq_false_iff_ne]
    rintro rfl
    exact last back
  · rw [normalize_eq_self_iff read']
    refine ⟨InHouseStyle.terminated, fun stay => ⟨alike.isRequoted read read', stay, ?_⟩⟩
    obtain ⟨kept, normal, left⟩ := exists_normalized read width
    exact ⟨kept, normal, left.of_solids_eq alike⟩

/-- A string and a template over two lines each, and three semicolons: the second has to stay, since the next
line would join. -/
def wideText : List Char :=
  "\tlet s = \"a\\\n\tb\";  \n\n\n\tlet t = `;  \n".toList ++
    "\t$\x7bs\x7d`;\n[t].map(s);\n".toList

def openText : List Char := "(\n\n".toList

theorem wide_text_stays :
    normalize wideText 4 = "    let s = 'a\\\n    b'\n\n    let t = `;  \n".toList ++
        "\t$\x7bs\x7d`;\n[t].map(s)\n".toList ∧
      (∃ r r', Reading.ofModule? wideText = some r ∧ Reading.ofModule? (normalize wideText 4) = some r' ∧
        ReadsAlike wideText r (normalize wideText 4) r' ∧ InHouseStyle (normalize wideText 4) r' ∧
        normalize (normalize wideText 4) 4 = normalize wideText 4) ∧
      normalize openText 4 = "(\n".toList ∧ normalize (normalize openText 4) 4 = normalize openText 4 := by
  refine ⟨by decide +kernel, ?_, by decide +kernel,
    (second_pass_changes_nothing_iff openText 4).1 (Option.isNone_iff_eq_none.mp (by decide +kernel))⟩
  have readable : (Reading.ofModule? wideText).isSome = true ∧
      (Reading.ofModule? (normalize wideText 4)).isSome = true := by
    constructor <;> decide +kernel
  have checked : ((Reading.ofModule? wideText).all fun r =>
      (Reading.ofModule? (normalize wideText 4)).all fun r' =>
        decide (ReadsAlike wideText r (normalize wideText 4) r') &&
          r'.passed.all fun p => !drops (normalize wideText 4) r'.tree p) = true := by
    decide +kernel
  obtain ⟨r, read⟩ := Option.isSome_iff_exists.mp readable.1
  obtain ⟨r', read'⟩ := Option.isSome_iff_exists.mp readable.2
  rw [read, read'] at checked
  obtain ⟨alike, stay⟩ := Bool.and_eq_true_iff.mp checked
  have alike : ReadsAlike wideText r (normalize wideText 4) r' := of_decide_eq_true alike
  obtain ⟨style, semicolons⟩ := (second_pass_changes_nothing_iff wideText 4).2 r' read'
  have fixed := (semicolons r read alike).mpr fun p mem => by
    simpa using List.all_eq_true.mp stay p mem
  exact ⟨r, r', read, read', alike, style.mp fixed, fixed⟩

def emptyStatementText : List Char := "a;\n;\n".toList

/-- A pattern with double quotes in it, behind what may be an assertion about a type. -/
def comparedPatternText : List Char := "a;\n<b>/\"x\"/g;\n".toList

/-- A second pass may change the text: a semicolon that was a statement of its own ends the statement before
it for the second reading, and what was a pattern may be a string between two divisions. -/
theorem second_pass_may_change_text :
    normalize emptyStatementText 4 = "a\n;\n".toList ∧
      normalize (normalize emptyStatementText 4) 4 = "a\n".toList ∧
      normalize comparedPatternText 4 = "a\n<b>/\"x\"/g\n".toList ∧
      normalize (normalize comparedPatternText 4) 4 = "a\n<b>/'x'/g\n".toList := by
  refine ⟨?_, ?_, ?_, ?_⟩ <;> decide +kernel

end VueOptions.Layout
