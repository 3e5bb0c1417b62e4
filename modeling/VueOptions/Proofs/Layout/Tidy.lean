import Mathlib.Data.List.Chain
import VueOptions.Layout.HouseStyle

/-!
Tidying lines, character by character. Characters of tokens are fixed. Of the others, tidying keeps one,
writes spaces for a tab at the start of a line, drops blanks that only the end of their line follows, or
drops the end of a line with nothing on it (`Step`). If lines begin in a template exactly where the line
feed before them is fixed, tidying is such a run (`tidy_thins`).
-/

set_option autoImplicit false

namespace VueOptions.Layout

open Text

/-- A character of a text, and whether it belongs to a token. -/
structure Glyph where
  char : Char
  isFixed : Bool

inductive Stand
  /-- At the start of a line, or behind tabs that were made into spaces. -/
  | start
  /-- Behind something on the line. -/
  | inside
  /-- Behind blanks that were dropped; it is bare if nothing else stands on the line. -/
  | trailing (isBare : Bool)

namespace Stand

def isBare : Stand → Bool
  | .start => true
  | .inside => false
  | .trailing b => b

/-- Whether blanks were dropped right before. -/
def isTrailing : Stand → Bool
  | .trailing _ => true
  | _ => false

def behind (c : Char) : Stand := if c = '\n' then .start else .inside

end Stand

inductive Step (width : Nat) : Stand → Glyph → List Char → Stand → Prop
  | keep {s : Stand} (g : Glyph) (free : s.isTrailing = false) :
    Step width s g [g.char] (Stand.behind g.char)
  | feed (s : Stand) : Step width s ⟨'\n', false⟩ ['\n'] .start
  | widen : Step width .start ⟨'\t', false⟩ (List.replicate width ' ') .start
  | drop {c : Char} (s : Stand) (blank : isBlank c = true) (ne : c ≠ '\n') :
    Step width s ⟨c, false⟩ [] (.trailing s.isBare)
  | merge {s : Stand} (bare : s.isBare = true) : Step width s ⟨'\n', false⟩ [] .start

/-- What may happen to characters one after another. -/
inductive Thins (width : Nat) : Stand → List Glyph → List Char → Stand → Prop
  | nil (s : Stand) : Thins width s [] [] s
  | cons {s t u : Stand} {g : Glyph} {gs : List Glyph} {out rest : List Char}
    (first : Step width s g out t) (later : Thins width t gs rest u) :
    Thins width s (g :: gs) (out ++ rest) u

namespace Thins

variable {width : Nat} {s t u : Stand} {gs hs : List Glyph} {out rest : List Char}

theorem append (first : Thins width s gs out t) (later : Thins width t hs rest u) :
    Thins width s (gs ++ hs) (out ++ rest) u := by
  induction first with
  | nil s => exact later
  | cons step _ ih =>
    rw [List.cons_append, List.append_assoc]
    exact .cons step (ih later)

theorem concat {g : Glyph} (first : Thins width s gs out t) (last : Step width t g rest u) :
    Thins width s (gs ++ [g]) (out ++ rest) u := by
  have single := Thins.cons last (.nil u)
  rw [List.append_nil] at single
  exact first.append single

theorem of_append (run : Thins width s (gs ++ hs) out u) :
    ∃ out₁ out₂ t, out = out₁ ++ out₂ ∧ Thins width s gs out₁ t ∧ Thins width t hs out₂ u := by
  induction gs generalizing s out with
  | nil => exact ⟨[], out, s, rfl, .nil s, run⟩
  | cons g gs ih =>
    cases run with
    | cons step later =>
      obtain ⟨out₁, out₂, t, rfl, first, last⟩ := ih later
      exact ⟨_, out₂, t, (List.append_assoc _ _ _).symm, .cons step first, last⟩

theorem drops (s : Stand) (free : ∀ g ∈ gs, g.isFixed = false)
    (blank : ∀ g ∈ gs, isBlank g.char = true) (inLine : ∀ g ∈ gs, g.char ≠ '\n') :
    ∃ t, Thins width s gs [] t ∧ (t = s ∨ t = .trailing s.isBare) := by
  induction gs generalizing s with
  | nil => exact ⟨s, .nil s, .inl rfl⟩
  | cons g gs ih =>
    rw [List.forall_mem_cons] at free blank inLine
    obtain ⟨c, fixed⟩ := g
    obtain rfl : fixed = false := free.1
    obtain ⟨t, run, stands⟩ := ih (.trailing s.isBare) free.2 blank.2 inLine.2
    refine ⟨t, .cons (.drop s blank.1 inLine.1) run, .inr ?_⟩
    rcases stands with rfl | rfl <;> rfl

theorem widens (n : Nat) : Thins width .start (List.replicate n ⟨'\t', false⟩)
    (List.replicate (width * n) ' ') .start := by
  induction n with
  | zero => exact .nil _
  | succ n ih =>
    have spaces : List.replicate (width * (n + 1)) ' '
        = List.replicate width ' ' ++ List.replicate (width * n) ' ' := by
      rw [List.replicate_append_replicate, Nat.mul_succ, Nat.add_comm]
    rw [spaces, List.replicate_succ]
    exact .cons .widen ih

theorem keeps (free : s.isTrailing = false) (ne : gs ≠ []) (inLine : ∀ g ∈ gs, g.char ≠ '\n') :
    Thins width s gs (gs.map Glyph.char) .inside := by
  induction gs generalizing s with
  | nil => exact absurd rfl ne
  | cons g gs ih =>
    rw [List.forall_mem_cons] at inLine
    have step : Step width s g [g.char] .inside := by
      have keep : Step width s g [g.char] (Stand.behind g.char) := .keep g free
      rwa [Stand.behind, if_neg inLine.1] at keep
    cases gs with
    | nil => exact .cons step (.nil _)
    | cons h gs => exact .cons step (ih rfl (List.cons_ne_nil _ _) inLine.2)

end Thins

def Meets (g h : Glyph) : Prop :=
  g.isFixed = h.isFixed ∨
    (g.isFixed = true → isBlank g.char = false) ∧ (h.isFixed = true → isBlank h.char = false)

theorem Meets.isFixed_eq {g h : Glyph} (meets : Meets g h) (hg : isBlank g.char = true)
    (hh : isBlank h.char = true) : g.isFixed = h.isFixed := by
  rcases meets with same | ⟨first, second⟩
  · exact same
  · cases fg : g.isFixed with
    | true => rw [first fg] at hg; cases hg
    | false => cases fh : h.isFixed with
      | true => rw [second fh] at hh; cases hh
      | false => rfl

theorem isFixed_eq_of_isBlank {g : Glyph} {gs : List Glyph} (chain : (g :: gs).IsChain Meets)
    (blank : ∀ h ∈ g :: gs, isBlank h.char = true) : ∀ h ∈ gs, h.isFixed = g.isFixed := by
  induction gs generalizing g with
  | nil => exact nofun
  | cons h gs ih =>
    rw [List.isChain_cons_cons] at chain
    rw [List.forall_mem_cons, List.forall_mem_cons] at blank
    have same := chain.1.isFixed_eq blank.1 blank.2.1
    have later := ih chain.2 (List.forall_mem_cons.mpr blank.2)
    exact List.forall_mem_cons.mpr ⟨same.symm, fun k mem => (later k mem).trans same.symm⟩

def feedGlyph (isFixed : Bool) : Glyph := ⟨'\n', isFixed⟩

structure FreeLine (line : List Glyph) (endsFixed : Bool) : Prop where
  inLine : ∀ g ∈ line, g.char ≠ '\n'
  chain : (feedGlyph false :: (line ++ [feedGlyph endsFixed])).IsChain Meets

private theorem trimEnd_append {cs bs : List Char} (blank : ∀ b ∈ bs, isBlank b = true)
    (solid : ∀ c ∈ cs.getLast?, isBlank c = false) : trimEnd (cs ++ bs) = cs := by
  rw [trimEnd, dropEndWhile_append solid, dropEndWhile_of_all blank, List.append_nil]

namespace FreeLine

variable {width : Nat} {line : List Glyph} {endsFixed : Bool}

theorem free_front (h : FreeLine line endsFixed) {front rest : List Glyph} (split : front ++ rest = line)
    (blank : ∀ g ∈ front, isBlank g.char = true) : ∀ g ∈ front, g.isFixed = false := by
  have chain := h.chain
  rw [← split, List.append_assoc, ← List.cons_append] at chain
  exact isFixed_eq_of_isBlank chain.left_of_append (List.forall_mem_cons.mpr ⟨rfl, blank⟩)

theorem free_end (h : FreeLine line false) {core ends : List Glyph} (split : core ++ ends = line)
    (blank : ∀ g ∈ ends, isBlank g.char = true) : ∀ g ∈ ends, g.isFixed = false := by
  have chain := h.chain
  rw [← split, List.append_assoc, ← List.cons_append] at chain
  have tail := chain.right_of_append
  cases ends with
  | nil => exact nofun
  | cons g gs =>
    have same := isFixed_eq_of_isBlank tail (List.forall_mem_append.mpr ⟨blank, by
      rintro _ ⟨⟩
      · rfl
      · next mem => cases mem⟩)
    have last : false = g.isFixed := same _ (List.mem_append_right _ List.mem_cons_self)
    rw [← last] at same
    exact List.forall_mem_cons.mpr ⟨last.symm, fun k mem => same k (List.mem_append_left _ mem)⟩

theorem endsFixed_eq_false (h : FreeLine line endsFixed)
    (blank : ∀ g ∈ line, isBlank g.char = true) : endsFixed = false := by
  refine isFixed_eq_of_isBlank h.chain (List.forall_mem_cons.mpr ⟨rfl, ?_⟩) (feedGlyph endsFixed)
    (List.mem_append_right _ List.mem_cons_self)
  refine List.forall_mem_append.mpr ⟨blank, ?_⟩
  rintro _ ⟨⟩
  · rfl
  · next mem => cases mem

theorem expandTabs_eq (width : Nat) (line : List Glyph) :
    expandTabs width (line.map Glyph.char)
      = List.replicate (width * (line.takeWhile fun g => g.char == '\t').length) ' '
        ++ (line.dropWhile fun g => g.char == '\t').map Glyph.char := by
  rw [expandTabs, List.takeWhile_map, List.dropWhile_map, List.length_map]
  rfl

theorem trimEnd_expandTabs (blank : ∀ g ∈ line, isBlank g.char = true) :
    trimEnd (expandTabs width (line.map Glyph.char)) = [] := by
  rw [← List.nil_append (expandTabs _ _)]
  refine trimEnd_append ?_ nofun
  rw [expandTabs_eq, List.forall_mem_append]
  refine ⟨fun b mem => ?_, ?_⟩
  · rw [List.eq_of_mem_replicate mem]
    rfl
  · rw [List.forall_mem_map]
    exact fun g mem => blank g ((List.dropWhile_suffix _).subset mem)

theorem thins_blank (h : FreeLine line endsFixed) (blank : ∀ g ∈ line, isBlank g.char = true)
    {s : Stand} (bare : s.isBare = true) : ∃ t, Thins width s line [] t ∧ t.isBare = true := by
  obtain ⟨t, run, stands⟩ := Thins.drops s (h.free_front (List.append_nil line) blank) blank h.inLine
  refine ⟨t, run, ?_⟩
  rcases stands with rfl | rfl <;> exact bare

theorem thins_solid (h : FreeLine line endsFixed) (solid : ∃ g ∈ line, isBlank g.char = false) :
    ∃ out t, out = (if endsFixed then expandTabs width (line.map Glyph.char)
        else trimEnd (expandTabs width (line.map Glyph.char))) ∧ out ≠ [] ∧
      Thins width .start line out t ∧ (t = .inside ∨ t = .trailing false ∧ endsFixed = false) := by
  have split : (line.takeWhile fun g => g.char == '\t') ++ (line.dropWhile fun g => g.char == '\t') = line :=
    List.takeWhile_append_dropWhile
  rw [expandTabs_eq]
  generalize hbody : (line.dropWhile fun g => g.char == '\t') = body at split ⊢
  generalize htabs : (line.takeWhile fun g => g.char == '\t') = tabs at split ⊢
  have areTabs : ∀ g ∈ tabs, g.char = '\t' := by
    intro g mem
    rw [← htabs] at mem
    simpa using List.all_eq_true.mp List.all_takeWhile g mem
  have tabsBlank : ∀ g ∈ tabs, isBlank g.char = true := fun g mem => by rw [areTabs g mem]; rfl
  have widened : Thins width .start tabs (List.replicate (width * tabs.length) ' ') .start := by
    have free := h.free_front split tabsBlank
    have same : tabs = List.replicate tabs.length ⟨'\t', false⟩ := by
      refine List.eq_replicate_iff.mpr ⟨rfl, ?_⟩
      rintro ⟨c, fixed⟩ mem
      rw [show c = '\t' from areTabs _ mem, show fixed = false from free _ mem]
    have run : Thins width .start (List.replicate tabs.length ⟨'\t', false⟩) _ .start := .widens tabs.length
    rwa [← same] at run
  obtain ⟨g, mem, solidBody⟩ : ∃ g ∈ body, isBlank g.char = false := by
    obtain ⟨g, mem, solid⟩ := solid
    rw [← split] at mem
    rcases List.mem_append.mp mem with mem | mem
    · rw [tabsBlank g mem] at solid
      cases solid
    · exact ⟨g, mem, solid⟩
  have inBody : ∀ g ∈ body, g.char ≠ '\n' := fun g mem =>
    h.inLine g (split ▸ List.mem_append_right tabs mem)
  cases endsFixed with
  | true =>
    have ne := List.ne_nil_of_mem mem
    refine ⟨_, .inside, rfl, ?_, split ▸ widened.append (.keeps rfl ne inBody), .inl rfl⟩
    simpa using fun _ => ne
  | false =>
    obtain ⟨ends, cut, blank, last⟩ := dropEndWhile_spec (fun g => isBlank g.char) body
    generalize dropEndWhile (fun g => isBlank g.char) body = core at cut last
    have ne : core ≠ [] := by
      rintro rfl
      rw [List.nil_append] at cut
      rw [blank g (cut ▸ mem)] at solidBody
      cases solidBody
    have whole : (tabs ++ core) ++ ends = line := by rw [List.append_assoc, cut, split]
    have free := h.free_end whole blank
    obtain ⟨t, dropped, stands⟩ := Thins.drops .inside free blank fun g mem =>
      inBody g (cut ▸ List.mem_append_right core mem)
    have kept : Thins width .start core (core.map Glyph.char) .inside := .keeps rfl ne fun g mem =>
      inBody g (cut ▸ List.mem_append_left ends mem)
    refine ⟨List.replicate (width * tabs.length) ' ' ++ core.map Glyph.char, t, ?_, ?_, ?_, ?_⟩
    · rw [← cut, List.map_append, ← List.append_assoc]
      refine (trimEnd_append (List.forall_mem_map.mpr blank) ?_).symm
      have final := List.getLast?_eq_some_getLast ne
      rw [List.getLast?_append, List.getLast?_map, final]
      rintro _ ⟨⟩
      exact last _ final
    · simpa using fun _ => ne
    · have run := (widened.append kept).append dropped
      rwa [List.append_nil, whole] at run
    · exact stands.imp id fun same => ⟨same, rfl⟩

end FreeLine

/-- How a text up to the end of a line was written, against the lines kept so far, the latest first.
The flag says whether the line feed that comes next is fixed. -/
inductive Reaches (width : Nat) (done : List Glyph) : List (List Char) → Bool → Prop
  /-- Nothing was written. -/
  | nothing {s : Stand} (run : Thins width .start done [] s) (bare : s.isBare = true) :
    Reaches width done [] false
  /-- The last line kept was written last. -/
  | line {l : List Char} {ks : List (List Char)} {s : Stand} {endsFixed : Bool} (ne : l ≠ [])
    (run : Thins width .start done (joinLines (l :: ks).reverse) s)
    (stands : s = .inside ∨ s = .trailing false ∧ endsFixed = false) :
    Reaches width done (l :: ks) endsFixed
  /-- Blank lines were dropped behind a brace. -/
  | opened {l : List Char} {ks : List (List Char)} {s : Stand} (brace : l.getLast? = some '\x7b')
    (run : Thins width .start done (joinLines (l :: ks).reverse ++ ['\n']) s) (bare : s.isBare = true) :
    Reaches width done (l :: ks) false
  /-- A blank line was kept, the last of several perhaps. -/
  | blank {l : List Char} {ks : List (List Char)} {s : Stand} (ne : l ≠ [])
    (run : Thins width .start done (joinLines (l :: ks).reverse ++ ['\n']) s) (bare : s.isBare = true) :
    Reaches width done ([] :: l :: ks) false
  /-- An empty line of a template was kept. -/
  | fixed {ks : List (List Char)} (run : Thins width .start done (joinLines ([] :: ks).reverse) .start) :
    Reaches width done ([] :: ks) true

namespace Reaches

variable {width : Nat} {done line : List Glyph} {kept : List (List Char)} {endsFixed : Bool}

private theorem joinLines_cons {l m : List Char} {ks : List (List Char)} :
    joinLines (m :: l :: ks).reverse = joinLines (l :: ks).reverse ++ '\n' :: m := by
  rw [List.reverse_cons, joinLines, join_concat (by simp)]

theorem fixedLine (h : Reaches width done kept true) (inLine : ∀ g ∈ line, g.char ≠ '\n')
    (ends : line = [] → endsFixed = true) :
    Reaches width (done ++ feedGlyph true :: line) (line.map Glyph.char :: kept) endsFixed := by
  obtain ⟨l, ks, s, rfl, run, free⟩ : ∃ l ks s, kept = l :: ks ∧
      Thins width .start done (joinLines (l :: ks).reverse) s ∧ s.isTrailing = false := by
    cases h with
    | line _ run stands =>
      rcases stands with rfl | ⟨-, other⟩
      · exact ⟨_, _, _, rfl, run, rfl⟩
      · cases other
    | fixed run => exact ⟨_, _, _, rfl, run, rfl⟩
  have fed : Thins width .start (done ++ [feedGlyph true]) (joinLines (l :: ks).reverse ++ ['\n']) .start :=
    run.concat (.keep (feedGlyph true) free)
  by_cases empty : line = []
  · subst empty
    obtain rfl := ends rfl
    exact .fixed (joinLines_cons ▸ fed)
  · have whole := fed.append (.keeps rfl empty inLine)
    rw [List.append_assoc, List.append_assoc] at whole
    exact .line (by simpa using empty) (joinLines_cons ▸ whole) (.inl rfl)

theorem freeLine (h : Reaches width done kept false) (free : FreeLine line endsFixed) :
    Reaches width (done ++ feedGlyph false :: line)
      (tidyStep kept (expandTabs width (line.map Glyph.char)) false endsFixed) endsFixed := by
  -- The line feed is written behind a line, and dropped where nothing stands on the line it ends.
  have fed : ∀ {out o : List Char} {s t : Stand}, Thins width .start done out s →
      Thins width .start line o t → Thins width .start (done ++ feedGlyph false :: line) (out ++ '\n' :: o) t :=
    fun run rest => run.append (.cons (.feed _) rest)
  have merged : ∀ {out o : List Char} {s t : Stand}, Thins width .start done out s → s.isBare = true →
      Thins width .start line o t → Thins width .start (done ++ feedGlyph false :: line) (out ++ o) t :=
    fun run bare rest => run.append (.cons (.merge bare) rest)
  by_cases blank : ∀ g ∈ line, isBlank g.char = true
  · obtain rfl := free.endsFixed_eq_false blank
    obtain ⟨t, dropped, bare⟩ : ∃ t, Thins width .start line [] t ∧ t.isBare = true :=
      free.thins_blank blank rfl
    simp only [tidyStep, Bool.false_eq_true, if_false, FreeLine.trimEnd_expandTabs blank,
      List.isEmpty_nil, if_true]
    cases h with
    | nothing run bareBefore => exact .nothing (merged run bareBefore dropped) bare
    | @line l ks s _ ne run stands =>
      by_cases brace : l.getLast? = some '\x7b'
      · simp only [brace, beq_self_eq_true, Bool.or_true, if_true]
        exact .opened brace (fed run dropped) bare
      · have stays : (l.isEmpty || l.getLast? == some '\x7b') = false := by simp [ne, brace]
        simp only [stays, Bool.false_eq_true, if_false]
        exact .blank ne (fed run dropped) bare
    | opened brace run bareBefore =>
      simp only [brace, beq_self_eq_true, Bool.or_true, if_true]
      exact .opened brace (List.append_nil (_ ++ ['\n']) ▸ merged run bareBefore dropped) bare
    | blank ne run bareBefore =>
      simp only [List.isEmpty_nil, Bool.true_or, if_true]
      exact .blank ne (List.append_nil (_ ++ ['\n']) ▸ merged run bareBefore dropped) bare
  · have solid : ∃ g ∈ line, isBlank g.char = false := by simpa using blank
    obtain ⟨out, t, shown, ne, written, stands⟩ : ∃ out t, _ ∧ _ ∧ Thins width .start line out t ∧ _ :=
      free.thins_solid solid
    have steps : ∀ behind : List (List Char),
        Thins width .start (done ++ feedGlyph false :: line) (joinLines (out :: behind).reverse) t →
        Reaches width (done ++ feedGlyph false :: line) (out :: behind) endsFixed :=
      fun _ run => .line ne run stands
    have notEmpty : out.isEmpty = false := by simpa using ne
    simp only [tidyStep, Bool.false_eq_true, if_false, ← shown, notEmpty]
    cases h with
    | nothing run bare => split <;> exact steps [] (merged run bare written)
    | line ne run _ =>
      rw [List.dropWhile_cons_of_neg (by simpa using ne), ite_self]
      exact steps _ (joinLines_cons ▸ fed run written)
    | @opened l ks _ brace run bare =>
      have full : l ≠ [] := by
        rintro rfl
        cases brace
      rw [List.dropWhile_cons_of_neg (by simpa using full), ite_self]
      exact steps _ (joinLines_cons ▸ List.append_assoc _ ['\n'] out ▸ merged run bare written)
    | blank ne run bare =>
      split
      · rw [List.dropWhile_cons_of_pos rfl, List.dropWhile_cons_of_neg (by simpa using ne)]
        exact steps _ (joinLines_cons ▸ List.append_assoc _ ['\n'] out ▸ merged run bare written)
      · have text := fed run written
        rw [← joinLines_cons, ← joinLines_cons] at text
        exact steps _ text

theorem firstLine (free : FreeLine line endsFixed) :
    Reaches width line (tidyStep [] (expandTabs width (line.map Glyph.char)) false endsFixed)
      endsFixed := by
  by_cases blank : ∀ g ∈ line, isBlank g.char = true
  · obtain rfl := free.endsFixed_eq_false blank
    obtain ⟨t, dropped, bare⟩ : ∃ t, Thins width .start line [] t ∧ t.isBare = true :=
      free.thins_blank blank rfl
    simp only [tidyStep, Bool.false_eq_true, if_false, FreeLine.trimEnd_expandTabs blank,
      List.isEmpty_nil, if_true]
    exact .nothing dropped bare
  · have solid : ∃ g ∈ line, isBlank g.char = false := by simpa using blank
    obtain ⟨out, t, shown, ne, written, stands⟩ : ∃ out t, _ ∧ _ ∧ Thins width .start line out t ∧ _ :=
      free.thins_solid solid
    have notEmpty : out.isEmpty = false := by simpa using ne
    simp only [tidyStep, Bool.false_eq_true, if_false, ← shown, notEmpty, List.dropWhile_nil, ite_self]
    exact .line ne written stands

end Reaches

/-- A line with the flag of the line feed before it. -/
structure Row where
  isFixed : Bool
  line : List Glyph

namespace Row

def glyphs (r : Row) : List Glyph := feedGlyph r.isFixed :: r.line

/-- The line with its tabs made into spaces, unless it begins in a template. -/
def shown (width : Nat) (r : Row) : List Char :=
  if r.isFixed then r.line.map Glyph.char else expandTabs width (r.line.map Glyph.char)

end Row

private theorem exists_feed (rows : List Row) : ∃ rest, rows.flatMap Row.glyphs ++ [feedGlyph false]
    = feedGlyph ((rows.map Row.isFixed).head?.getD false) :: rest := by
  cases rows with
  | nil => exact ⟨[], rfl⟩
  | cons r rows => exact ⟨_, rfl⟩

theorem Reaches.rows {width : Nat} {done : List Glyph} {kept : List (List Char)} {rows : List Row}
    (h : Reaches width done kept ((rows.map Row.isFixed).head?.getD false))
    (inLine : ∀ r ∈ rows, ∀ g ∈ r.line, g.char ≠ '\n')
    (chain : (rows.flatMap Row.glyphs ++ [feedGlyph false]).IsChain Meets) :
    Reaches width (done ++ rows.flatMap Row.glyphs)
      (tidyFrom kept (rows.map (Row.shown width)) (rows.map Row.isFixed)) false := by
  induction rows generalizing done kept with
  | nil => rw [List.flatMap_nil, List.append_nil]; exact h
  | cons r rows ih =>
    rw [List.forall_mem_cons] at inLine
    rw [List.flatMap_cons, List.append_assoc] at chain
    have later := chain.right_of_append
    obtain ⟨rest, next⟩ := exists_feed rows
    have here : (feedGlyph r.isFixed ::
        (r.line ++ [feedGlyph ((rows.map Row.isFixed).head?.getD false)])).IsChain Meets := by
      rw [next, List.append_cons] at chain
      exact chain.left_of_append
    have step : Reaches width (done ++ r.glyphs) (tidyStep kept (r.shown width) r.isFixed
        ((rows.map Row.isFixed).head?.getD false)) ((rows.map Row.isFixed).head?.getD false) := by
      obtain ⟨isFixed, line⟩ := r
      cases isFixed with
      | true =>
        refine h.fixedLine inLine.1 ?_
        rintro rfl
        rw [List.nil_append, List.isChain_cons_cons] at here
        exact (here.1.isFixed_eq rfl rfl).symm
      | false => exact h.freeLine ⟨inLine.1, here⟩
    have reached := ih step inLine.2 later
    rw [List.append_assoc] at reached
    exact reached

theorem Reaches.tidied {width : Nat} {done : List Glyph} {kept : List (List Char)}
    (h : Reaches width done kept false) : ∃ out t, Thins width .start done out t ∧
      (joinLines (kept.dropWhile List.isEmpty).reverse ++ ['\n'] = out ∨
        joinLines (kept.dropWhile List.isEmpty).reverse ++ ['\n'] = out ++ ['\n']) := by
  cases h with
  | nothing run => exact ⟨_, _, run, .inr rfl⟩
  | line ne run =>
    rw [List.dropWhile_cons_of_neg (by simpa using ne)]
    exact ⟨_, _, run, .inr rfl⟩
  | @opened l _ _ brace run =>
    have ne : l ≠ [] := by
      rintro rfl
      cases brace
    rw [List.dropWhile_cons_of_neg (by simpa using ne)]
    exact ⟨_, _, run, .inl rfl⟩
  | blank ne run =>
    rw [List.dropWhile_cons_of_pos rfl, List.dropWhile_cons_of_neg (by simpa using ne)]
    exact ⟨_, _, run, .inl rfl⟩

def lineFlags (text : List Glyph) : List Bool :=
  false :: (text.filter fun g => g.char == '\n').map Glyph.isFixed

theorem exists_rows (text : List Glyph) :
    ∃ (first : List Glyph) (rows : List Row), text = first ++ rows.flatMap Row.glyphs ∧
    (∀ g ∈ first, g.char ≠ '\n') ∧ ∀ r ∈ rows, ∀ g ∈ r.line, g.char ≠ '\n' := by
  induction text with
  | nil => exact ⟨[], [], rfl, nofun, nofun⟩
  | cons g text ih =>
    obtain ⟨first, rows, rfl, inFirst, inRows⟩ := ih
    by_cases feed : g.char = '\n'
    · refine ⟨[], ⟨g.isFixed, first⟩ :: rows, ?_, nofun, List.forall_mem_cons.mpr ⟨inFirst, inRows⟩⟩
      obtain ⟨c, fixed⟩ := g
      obtain rfl : c = '\n' := feed
      rfl
    · exact ⟨g :: first, rows, rfl, List.forall_mem_cons.mpr ⟨feed, inFirst⟩, inRows⟩

theorem splitLines_rows {first : List Glyph} {rows : List Row} (inFirst : ∀ g ∈ first, g.char ≠ '\n')
    (inRows : ∀ r ∈ rows, ∀ g ∈ r.line, g.char ≠ '\n') :
    splitLines ((first ++ rows.flatMap Row.glyphs).map Glyph.char)
      = first.map Glyph.char :: rows.map fun r => r.line.map Glyph.char := by
  have inLine : ∀ {line : List Glyph}, (∀ g ∈ line, g.char ≠ '\n') → '\n' ∉ line.map Glyph.char := by
    intro line h mem
    obtain ⟨g, hg, feed⟩ := List.mem_map.mp mem
    exact h g hg feed
  induction rows generalizing first with
  | nil =>
    rw [List.flatMap_nil, List.append_nil]
    exact split_of_not_mem (inLine inFirst)
  | cons r rows ih =>
    rw [List.forall_mem_cons] at inRows
    rw [List.flatMap_cons, Row.glyphs, List.map_append, List.cons_append, List.map_cons]
    exact (split_append (inLine inFirst) _).trans (congrArg _ (ih inRows.1 inRows.2))

theorem lineFlags_rows {first : List Glyph} {rows : List Row} (inFirst : ∀ g ∈ first, g.char ≠ '\n')
    (inRows : ∀ r ∈ rows, ∀ g ∈ r.line, g.char ≠ '\n') :
    lineFlags (first ++ rows.flatMap Row.glyphs) = false :: rows.map Row.isFixed := by
  have none : ∀ {line : List Glyph}, (∀ g ∈ line, g.char ≠ '\n') →
      (line.filter fun g => g.char == '\n') = [] := by
    intro line h
    exact List.filter_eq_nil_iff.mpr fun g mem => by simpa using h g mem
  rw [lineFlags, List.filter_append, none inFirst, List.nil_append]
  congr 1
  induction rows with
  | nil => rfl
  | cons r rows ih =>
    rw [List.forall_mem_cons] at inRows
    rw [List.flatMap_cons, Row.glyphs, List.cons_append, List.filter_cons_of_pos rfl, List.filter_append,
      none inRows.1, List.nil_append, List.map_cons, ih inRows.2]
    rfl

theorem tidy_thins (width : Nat) {text : List Glyph}
    (chain : (feedGlyph false :: (text ++ [feedGlyph false])).IsChain Meets) :
    ∃ out t, Thins width .start text out t ∧
      (tidy (expandLines width (splitLines (text.map Glyph.char)) (lineFlags text)) (lineFlags text) = out ∨
        tidy (expandLines width (splitLines (text.map Glyph.char)) (lineFlags text)) (lineFlags text)
          = out ++ ['\n']) := by
  obtain ⟨first, rows, rfl, inFirst, inRows⟩ := exists_rows text
  rw [splitLines_rows inFirst inRows, lineFlags_rows inFirst inRows]
  have lines : expandLines width (first.map Glyph.char :: rows.map fun r => r.line.map Glyph.char)
      (false :: rows.map Row.isFixed)
      = expandTabs width (first.map Glyph.char) :: rows.map (Row.shown width) := by
    rw [expandLines, List.zip_cons_cons, List.map_cons, List.zip_map', List.map_map]
    rfl
  rw [List.append_assoc] at chain
  have later : (rows.flatMap Row.glyphs ++ [feedGlyph false]).IsChain Meets :=
    (List.cons_append ▸ chain).right_of_append
  have opening : FreeLine first ((rows.map Row.isFixed).head?.getD false) := by
    refine ⟨inFirst, ?_⟩
    obtain ⟨rest, next⟩ := exists_feed rows
    rw [next, ← List.cons_append, List.append_cons] at chain
    exact chain.left_of_append
  rw [lines]
  exact ((Reaches.firstLine opening).rows inRows later).tidied

end VueOptions.Layout
