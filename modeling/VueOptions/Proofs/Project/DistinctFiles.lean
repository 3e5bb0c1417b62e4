import Mathlib.Data.List.Induction
import Mathlib.Data.List.Nodup
import VueOptions.Proofs.Project.Directories
import VueOptions.Proofs.Project.Isolation
import VueOptions.Proofs.Project.Schedule

/-!
Whether the files of a run are different files. Paths are told apart by their components, so two of them may
lead to one file if they have a dot at the front or go up, or if one starts at the root and the other at the
working directory. A search starts where its pattern starts (`startsAt_of_mem_glob`) and steps down by
names; only a step that begins with a dot and matches two dots leads upwards (`goesDown_of_mem_glob`).
-/

set_option autoImplicit false

namespace VueOptions.Project

/-! ### The steps of a pattern -/

/-- Whether a step may lead upwards: it begins with a dot and matches two dots. -/
def PatternStep.climbs (s : PatternStep) : Bool :=
  !s.isDeep && s.pieces.head? == some (.char '.') && Piece.matchesName s.pieces ['.', '.']

namespace Piece

private theorem head?_of_literal? {ps : List Piece} {c : Char} {text : List Char} (h : literal? ps = some (c :: text)) :
    ps.head? = some (.char c) := by
  cases ps with
  | nil => cases h
  | cons p ps =>
    cases p with
    | char d =>
      obtain ⟨rest, -, eq⟩ := Option.map_eq_some_iff.mp h
      rw [(List.cons.inj eq).1]
      rfl
    | anyChar => cases h
    | anySequence => cases h
    | oneOf => cases h

private theorem exists_of_readClass? {cs rest : List Char} {p : Piece} (h : readClass? cs = some (p, rest)) :
    ∃ isNegated ranges, p = .oneOf isNegated ranges := by
  unfold readClass? at h
  split at h
  · obtain ⟨r, -, eq⟩ := Option.map_eq_some_iff.mp h
    exact ⟨_, _, (Prod.mk.inj eq).1.symm⟩
  · cases h
  · obtain ⟨r, -, eq⟩ := Option.map_eq_some_iff.mp h
    exact ⟨_, _, (Prod.mk.inj eq).1.symm⟩
  · cases h

private theorem eq_of_literal? {fuel : Nat} {cs text : List Char} {ps : List Piece} (read : read? fuel cs = some ps)
    (literal : literal? ps = some text) : text = cs := by
  fun_induction read? fuel cs generalizing ps text with
  | case1 fuel =>
    obtain rfl := Option.some.inj read
    exact (Option.some.inj literal).symm
  | case2 => cases read
  | case3 => cases read
  | case4 fuel cs _ ih =>
    obtain ⟨rest, -, rfl⟩ := Option.map_eq_some_iff.mp read
    cases literal
  | case5 fuel cs ih =>
    obtain ⟨rest, -, rfl⟩ := Option.map_eq_some_iff.mp read
    cases literal
  | case6 fuel cs p rest readsClass ih =>
    obtain ⟨isNegated, ranges, rfl⟩ := exists_of_readClass? readsClass
    obtain ⟨rest, -, rfl⟩ := Option.map_eq_some_iff.mp read
    cases literal
  | case7 => cases read
  | case8 fuel c cs _ _ _ _ ih =>
    obtain ⟨rest, later, rfl⟩ := Option.map_eq_some_iff.mp read
    obtain ⟨more, tail, rfl⟩ := Option.map_eq_some_iff.mp literal
    rw [ih later tail]

end Piece

namespace Pattern

private theorem exists_part_of_mem_steps {isDeep endsDeep : Bool} {parts : List (List Char)} {steps : List PatternStep}
    (read : readSteps? isDeep parts = some (steps, endsDeep)) {s : PatternStep} (mem : s ∈ steps) :
    ∃ part ∈ parts, Piece.read? part.length part = some s.pieces := by
  induction parts generalizing isDeep endsDeep steps with
  | nil =>
    obtain ⟨rfl, -⟩ := Prod.mk.inj (Option.some.inj read)
    cases mem
  | cons part parts ih =>
    rw [readSteps?] at read
    split at read
    · obtain ⟨other, found, pieces⟩ := ih read mem
      exact ⟨other, List.mem_cons_of_mem part found, pieces⟩
    · obtain ⟨pieces, readsPart, read⟩ := Option.bind_eq_some_iff.mp read
      obtain ⟨⟨later, endsDeep'⟩, readsLater, eq⟩ := Option.bind_eq_some_iff.mp read
      obtain ⟨rfl, -⟩ := Prod.mk.inj (Option.some.inj eq)
      rcases List.mem_cons.mp mem with rfl | there
      · exact ⟨part, List.mem_cons_self, readsPart⟩
      · obtain ⟨other, found, pieces⟩ := ih readsLater there
        exact ⟨other, List.mem_cons_of_mem part found, pieces⟩

private theorem mem_split_of_mem_partsOf {text part : List Char} (mem : part ∈ partsOf text) :
    part ∈ Text.split '/' text := by
  rw [← List.mem_reverse]
  unfold partsOf at mem
  split at mem
  · next first rest shape =>
    rw [shape]
    exact List.mem_cons_of_mem _ (List.mem_reverse.mp mem)
  · exact List.mem_reverse.mp mem

private theorem slash_not_mem_of_literal? {text : String} {q : Pattern} (parsed : parse? text = some q)
    {s : PatternStep}
    (mem : s ∈ q.steps) {part : List Char} (literal : Piece.literal? s.pieces = some part) : '/' ∉ part := by
  obtain ⟨⟨steps, endsDeep⟩, read, rfl⟩ := Option.map_eq_some_iff.mp parsed
  obtain ⟨other, found, pieces⟩ := exists_part_of_mem_steps read mem
  rw [Piece.eq_of_literal? pieces literal]
  exact Text.not_mem_of_mem_split (mem_split_of_mem_partsOf found)

private theorem isAbsolute_of_parse? {text : String} {q : Pattern} (parsed : parse? text = some q) :
    q.isAbsolute = (Path.mk text).isAbsolute := by
  obtain ⟨read, -, rfl⟩ := Option.map_eq_some_iff.mp parsed
  rfl

end Pattern

/-! ### Steps of a search -/

namespace FileTree

variable {t : FileTree} {p p' : Path} {s : PatternStep}

private theorem takeStep_cases (mem : p' ∈ t.takeStep s p) :
    (∃ e ∈ t.entriesBelow p, e.1 = p') ∨
    (∃ text, s.isDeep = false ∧ Piece.literal? s.pieces = some text ∧
      entryPath p (String.ofList text) = p' ∧
        (text = ['.'] ∨ text = ['.', '.'] ∨ (t.entryAt? p').isSome = true)) ∨
    ∃ name ∈ [".", ".."], s.isDeep = false ∧ s.pieces.head? = some (.char '.') ∧
      Piece.matchesName s.pieces name.toList = true ∧ p.join name = p' := by
  have among {es : List (Path × Location × Entry)} {fits : Path × Location × Entry → Bool}
      (sub : ∀ e ∈ es, e ∈ t.entriesBelow p) (mem : p' ∈ (es.filter fits).map fun e => e.1) :
      ∃ e ∈ t.entriesBelow p, e.1 = p' := by
    obtain ⟨e, found, rfl⟩ := List.mem_map.mp mem
    exact ⟨e, sub e (List.mem_of_mem_filter found), rfl⟩
  rw [takeStep] at mem
  dsimp only at mem
  split at mem
  · exact .inl (among (fun _ => id) mem)
  · next shallow =>
    have shallow : s.isDeep = false := Bool.eq_false_iff.mpr shallow
    split at mem
    · next text literal =>
      refine .inr (.inl ⟨text, shallow, literal, ?_⟩)
      split at mem
      · next special =>
        split at mem
        · obtain rfl := List.mem_singleton.mp mem
          rw [Bool.or_eq_true, decide_eq_true_iff, decide_eq_true_iff] at special
          exact ⟨rfl, special.imp_right .inl⟩
        · cases mem
      · split at mem
        · next stands =>
          obtain rfl := List.mem_singleton.mp mem
          exact ⟨rfl, .inr (.inr stands)⟩
        · cases mem
    · rcases List.mem_append.mp mem with found | special
      · exact .inl (among (fun _ => List.mem_of_mem_filter) found)
      · split at special
        · next directory =>
          rw [Bool.and_eq_true, beq_iff_eq] at directory
          obtain ⟨name, matched, rfl⟩ := List.mem_map.mp special
          obtain ⟨dots, matched⟩ := List.mem_filter.mp matched
          exact .inr (.inr ⟨name, dots, shallow, directory.2, matched, rfl⟩)
        · cases special

private theorem text_join_ne (filled : p.text ≠ "") (name : String) : (p.join name).text ≠ "" := by
  intro empty
  have list := congrArg String.toList empty
  rw [Path.join] at list
  have ne : p.text.toList ≠ [] := fun h => filled (String.toList_eq_nil_iff.mp h)
  split at list
  · simp [ne] at list
  · simp [ne] at list

private theorem text_ne_of_stands {text : List Char} (filled : p.text ≠ "")
    (stands : text = ['.'] ∨ text = ['.', '.'] ∨
      (t.entryAt? (entryPath p (String.ofList text))).isSome = true) :
    (entryPath p (String.ofList text)).text ≠ "" := by
  rcases stands with rfl | rfl | stands
  · rw [entryPath]
    split
    · decide
    · exact text_join_ne filled _
  · rw [entryPath]
    split
    · decide
    · exact text_join_ne filled _
  · intro empty
    rw [entryAt?, locate, empty] at stands
    cases stands

private theorem text_entryPath_ne (filled : p.text ≠ "") {name : String} (proper : IsProper name) :
    (entryPath p name).text ≠ "" := by
  rw [entryPath]
  split
  · rintro rfl
    exact absurd proper.counts (by decide)
  · exact text_join_ne filled name

/-- What a search keeps: it is true where the search starts, of a part that is not empty where it is true of
the path before, and of the entries that lead to itself and upwards. -/
structure IsKept (P : Path → Prop) : Prop where
  filled : ∀ p, P p → p.text ≠ ""
  entry : ∀ p part, P p → '/' ∉ part.toList → part ≠ ".." → (entryPath p part).text ≠ "" →
    P (entryPath p part)
  dot : ∀ p, P p → P (p.join ".")

theorem IsKept.pathBelow {P : Path → Prop} (kept : IsKept P) (holds : P p) {names : Location}
    (proper : ∀ name ∈ names, IsProper name) : P (pathBelow p names) := by
  induction names generalizing p with
  | nil => exact holds
  | cons name names ih =>
    have first := proper name List.mem_cons_self
    exact ih (kept.entry p name holds first.whole first.down (text_entryPath_ne (kept.filled p holds) first))
      fun other mem => proper other (List.mem_cons_of_mem name mem)

theorem IsKept.entriesBelow {P : Path → Prop} (kept : IsKept P) (isTree : t.IsTree) (holds : P p)
    {found : Path × Location × Entry} (mem : found ∈ t.entriesBelow p) : P found.1 := by
  cases directory : t.isDirectory p with
  | false =>
    rw [entriesBelow_eq_nil directory] at mem
    cases mem
  | true =>
    obtain ⟨l, located, stands⟩ := isDirectory_iff.mp directory
    obtain ⟨names, e, -, entry, rfl⟩ := (mem_entriesBelow_iff located stands).mp mem
    exact kept.pathBelow holds fun name mem => (isTree.reached entry).proper name (List.mem_append_right l mem)

theorem IsKept.takeStep {P : Path → Prop} (kept : IsKept P) (isTree : t.IsTree) (holds : P p)
    (whole : ∀ text, Piece.literal? s.pieces = some text → '/' ∉ text)
    (up : s.climbs = true → P (entryPath p "..") ∧ P (p.join "..")) (mem : p' ∈ t.takeStep s p) : P p' := by
  rcases takeStep_cases mem with ⟨e, found, rfl⟩ | ⟨text, shallow, literal, rfl, stands⟩ |
    ⟨name, dots, shallow, head, matched, rfl⟩
  · exact kept.entriesBelow isTree holds found
  · by_cases dots : text = ['.', '.']
    · have climbs : s.climbs = true := by
        rw [PatternStep.climbs, Piece.head?_of_literal? (dots ▸ literal), shallow,
          Piece.matchesName_literal literal, dots]
        rfl
      rw [dots]
      exact (up climbs).1
    · refine kept.entry p _ holds ?_ ?_ (text_ne_of_stands (kept.filled p holds) stands)
      · rw [String.toList_ofList]
        exact whole text literal
      · exact fun same => dots (by simpa using congrArg String.toList same)
  · rcases List.mem_cons.mp dots with rfl | dots
    · exact kept.dot p holds
    · obtain rfl := List.mem_singleton.mp dots
      have climbs : s.climbs = true := by
        rw [PatternStep.climbs, head, shallow]
        exact matched
      exact (up climbs).2

theorem IsKept.glob {P : Path → Prop} (kept : IsKept P) (isTree : t.IsTree) {text : String} {q : Pattern}
    (parsed : Pattern.parse? text = some q) (start : P (origin q.isAbsolute))
    (up : ∀ s ∈ q.steps, s.climbs = true → ∀ p, P p → P (entryPath p "..") ∧ P (p.join ".."))
    (mem : p ∈ t.glob q) : P p := by
  have steps (steps : List PatternStep) (sub : ∀ s ∈ steps, s ∈ q.steps) (ps : List Path)
      (holds : ∀ p ∈ ps, P p) : ∀ p ∈ t.takeSteps steps ps, P p := by
    induction steps generalizing ps with
    | nil => exact holds
    | cons s steps ih =>
      refine ih (fun s' mem => sub s' (List.mem_cons_of_mem s mem)) _ fun p' mem => ?_
      obtain ⟨p, before, step⟩ := List.mem_flatMap.mp mem
      exact kept.takeStep isTree (holds p before)
        (fun text => Pattern.slash_not_mem_of_literal? parsed (sub s List.mem_cons_self))
        (fun climbs => up s (sub s List.mem_cons_self) climbs p (holds p before)) step
  have reached := steps q.steps (fun _ => id) [origin q.isAbsolute] fun p mem => by
    rw [List.mem_singleton.mp mem]
    exact start
  have ends : p ∈ (if q.endsDeep then
      (t.takeSteps q.steps [origin q.isAbsolute]).flatMap fun p =>
        ((t.entriesBelow p).filter fun e => e.2.2 == .directory).map fun e => e.1
      else t.takeSteps q.steps [origin q.isAbsolute]) := by
    rw [FileTree.glob] at mem
    split at mem
    · exact List.mem_of_mem_filter mem
    · exact mem
  split at ends
  · obtain ⟨p', before, found⟩ := List.mem_flatMap.mp ends
    obtain ⟨e, entry, rfl⟩ := List.mem_map.mp found
    exact kept.entriesBelow isTree (reached p' before) (List.mem_of_mem_filter entry)
  · exact reached p ends

/-! ### Where paths start -/

structure StartsAt (isAbsolute : Bool) (p : Path) : Prop where
  filled : p.text ≠ ""
  starts : p.isAbsolute = isAbsolute

private theorem isAbsolute_of_current (current : p.components = [.current]) : p.isAbsolute = false := by
  by_contra absolute
  rw [Bool.not_eq_false] at absolute
  rw [Path.components, if_pos absolute] at current
  cases current

private theorem isAbsolute_entryPath (filled : p.text ≠ "") {part : String} (whole : '/' ∉ part.toList) :
    (entryPath p part).isAbsolute = p.isAbsolute := by
  rw [entryPath]
  split
  · next current =>
    rw [isAbsolute_of_current current, Path.isAbsolute, beq_eq_false_iff_ne]
    exact fun slash => whole (List.mem_of_head? slash)
  · exact Path.isAbsolute_join filled part

private theorem isKept_startsAt (isAbsolute : Bool) : IsKept (StartsAt isAbsolute) where
  filled _ holds := holds.filled
  entry _ _ holds whole _ filled := ⟨filled, (isAbsolute_entryPath holds.filled whole).trans holds.starts⟩
  dot _ holds := ⟨text_join_ne holds.filled _, (Path.isAbsolute_join holds.filled _).trans holds.starts⟩

private theorem startsAt_origin (isAbsolute : Bool) : StartsAt isAbsolute (origin isAbsolute) := by
  cases isAbsolute <;> exact ⟨by decide, by decide⟩

private theorem startsAt_of_mem_glob (isTree : t.IsTree) {text : String} {q : Pattern}
    (parsed : Pattern.parse? text = some q) (mem : p ∈ t.glob q) :
    StartsAt (Path.mk text).isAbsolute p := by
  rw [← Pattern.isAbsolute_of_parse? parsed]
  refine (isKept_startsAt q.isAbsolute).glob isTree parsed (startsAt_origin _) (fun s _ _ p holds => ?_) mem
  have filled : (entryPath p "..").text ≠ "" := by
    rw [entryPath]
    split
    · decide
    · exact text_join_ne holds.filled _
  exact ⟨⟨filled, (isAbsolute_entryPath holds.filled (by decide)).trans holds.starts⟩,
    text_join_ne holds.filled _, (Path.isAbsolute_join holds.filled _).trans holds.starts⟩

end FileTree

/-! ### Paths that go down -/

def Path.IsDirect (p : Path) : Prop := ∃ names : List String,
  p.components = (if p.isAbsolute then [.root] else []) ++ names.map PathComponent.name

structure Path.GoesDown (p : Path) : Prop where
  filled : p.text ≠ ""
  down : p.components = [.current] ∨ p.IsDirect

namespace FileTree

variable {t : FileTree} {p q : Path}

private theorem isKept_goesDown : IsKept Path.GoesDown where
  filled _ goesDown := goesDown.filled
  entry p part goesDown whole notUp filled := by
    refine ⟨filled, ?_⟩
    rw [entryPath] at filled ⊢
    split
    · next current =>
      rw [if_pos current] at filled
      have counts : part ≠ "" := filled
      have relative : (Path.mk part).isAbsolute = false := by
        rw [Path.isAbsolute, beq_eq_false_iff_ne]
        exact fun slash => whole (List.mem_of_head? slash)
      rw [Path.IsDirect, Path.components, Path.parts_of_whole whole, if_neg (by simp [relative])]
      by_cases dot : part = "."
      · exact .inl (by simp [dot, PathComponent.ofPart?])
      · refine .inr ⟨[part], ?_⟩
        simp [PathComponent.ofPart?, counts, dot, notUp, relative]
    · next elsewhere =>
      obtain ⟨names, components⟩ := goesDown.down.resolve_left elsewhere
      refine .inr ?_
      rw [Path.IsDirect, Path.components_join goesDown.filled, Path.isAbsolute_join goesDown.filled,
        components, Path.parts_of_whole whole]
      by_cases idle : part = "" ∨ part = "."
      · exact ⟨names, by simp [PathComponent.ofPart?, idle]⟩
      · exact ⟨names ++ [part], by simp [PathComponent.ofPart?, idle, notUp]⟩
  dot p goesDown := by
    have dot : (Path.mk ".").parts.filterMap PathComponent.ofPart? = [] := by decide
    have same : (p.join ".").components = p.components := by
      rw [Path.components_join goesDown.filled, dot, List.append_nil]
    refine ⟨text_join_ne goesDown.filled ".", ?_⟩
    rw [Path.IsDirect, Path.isAbsolute_join goesDown.filled, same]
    exact goesDown.down

private theorem goesDown_origin (isAbsolute : Bool) : (origin isAbsolute).GoesDown := by
  cases isAbsolute with
  | false => exact ⟨by decide, .inl rfl⟩
  | true => exact ⟨by decide, .inr ⟨[], by decide⟩⟩

private theorem goesDown_of_mem_glob (isTree : t.IsTree) {text : String} {q : Pattern}
    (parsed : Pattern.parse? text = some q) (stays : ∀ s ∈ q.steps, s.climbs = false)
    (mem : p ∈ t.glob q) : p.GoesDown := by
  refine isKept_goesDown.glob isTree parsed (goesDown_origin _) (fun s found climbs => ?_) mem
  rw [stays s found] at climbs
  cases climbs

private theorem components_eq_of_direct {m : Location} (direct : p.IsDirect) (direct' : q.IsDirect)
    (starts : p.isAbsolute = q.isAbsolute) (here : t.locate p = .ok m) (there : t.locate q = .ok m) :
    p.components = q.components := by
  obtain ⟨names, components⟩ := direct
  obtain ⟨names', components'⟩ := direct'
  have same := (locate_eq_placeOf here).symm.trans (locate_eq_placeOf there)
  rw [placeOf, placeOf, components, components', ← starts, List.foldl_append, List.foldl_append,
    foldl_advance_names, foldl_advance_names] at same
  rw [components, components', ← starts, List.append_cancel_left same]

end FileTree

/-! ### Patterns that go down -/

open FileTree

variable {t : FileTree} {patterns : List String} {ps : List Path}

/-- A pattern that goes down only: no step of it climbs, and if it is the path of a file, that path is made of
names. -/
structure IsStraight (t : FileTree) (pattern : String) : Prop where
  asWritten : searched t pattern = none → (Path.mk pattern).IsDirect
  steps : ∀ text q, searched t pattern = some text → Pattern.parse? text = some q →
    ∀ s ∈ q.steps, s.climbs = false

private theorem isStraight_of_steps {pattern text : String} {q : Pattern} (search : searched t pattern = some text)
    (parsed : Pattern.parse? text = some q) (stays : q.steps.all (fun s => !s.climbs) = true) :
    IsStraight t pattern := by
  refine ⟨fun unsearched => ?_, fun text' q' search' parsed' s mem => ?_⟩
  · rw [search] at unsearched
    cases unsearched
  · obtain rfl := Option.some.inj (search.symm.trans search')
    obtain rfl := Option.some.inj (parsed.symm.trans parsed')
    simpa using List.all_eq_true.mp stays s mem

private theorem named_cases {pattern : String} (found : named t pattern = .ok ps) {p : Path} (mem : p ∈ ps) :
    (searched t pattern = none ∧ p = ⟨pattern⟩) ∨
      ∃ text q, searched t pattern = some text ∧ Pattern.parse? text = some q ∧ p ∈ t.glob q := by
  cases search : searched t pattern with
  | none =>
    rw [named_of_not_searched search, Except.ok.injEq] at found
    rw [← found] at mem
    split at mem
    · exact .inl ⟨rfl, List.mem_singleton.mp mem⟩
    · cases mem
  | some text =>
    rw [named_of_searched search, matching] at found
    cases parsed : Pattern.parse? text with
    | none =>
      rw [parsed] at found
      cases found
    | some q =>
      rw [parsed] at found
      obtain rfl := Except.ok.inj found
      exact .inr ⟨text, q, rfl, parsed, List.mem_of_mem_filter mem⟩

private theorem isDirect_of_named (isTree : t.IsTree) {pattern : String} (straight : IsStraight t pattern)
    (found : named t pattern = .ok ps) {p : Path} (mem : p ∈ ps) : p.IsDirect := by
  obtain ⟨-, isComponent⟩ := isComponent_of_named found mem
  rcases named_cases found mem with ⟨search, rfl⟩ | ⟨text, q, search, parsed, mem⟩
  · exact straight.asWritten search
  · have goesDown := goesDown_of_mem_glob isTree parsed (straight.steps text q search parsed) mem
    refine goesDown.down.resolve_left fun current => ?_
    rw [Path.isComponent, Path.extension?, Path.fileName?, current] at isComponent
    cases isComponent

private theorem isAbsolute_searched {pattern text : String} (search : searched t pattern = some text) :
    (Path.mk text).isAbsolute = (Path.mk pattern).isAbsolute := by
  rw [searched] at search
  split at search
  · next directory =>
    obtain rfl := Option.some.inj search
    obtain ⟨l, located, -⟩ := isDirectory_iff.mp directory
    exact head?_patternBelow (locate_eq_ok_iff.mp located).1
  · split at search
    · cases search
    · obtain rfl := Option.some.inj search
      rfl

private theorem isAbsolute_of_named (isTree : t.IsTree) {pattern : String} (found : named t pattern = .ok ps)
    {p : Path} (mem : p ∈ ps) : p.isAbsolute = (Path.mk pattern).isAbsolute := by
  rcases named_cases found mem with ⟨-, rfl⟩ | ⟨text, q, search, parsed, mem⟩
  · rfl
  · rw [(startsAt_of_mem_glob isTree parsed mem).starts, isAbsolute_searched search]

private theorem discover_eq_ok_iff : discover t patterns = .ok ps ↔
    ∃ lists, patterns.mapM (named t) = .ok lists ∧ ps = listed lists.flatten := by
  rw [discover_eq]
  cases patterns.mapM (named t) with
  | error e => simp [Except.map]
  | ok lists => simp [Except.map, eq_comm]

private theorem ascending_of_discover (found : discover t patterns = .ok ps) : Ascending ps := by
  obtain ⟨lists, -, rfl⟩ := discover_eq_ok_iff.mp found
  exact ascending_listed _

private theorem exists_named_of_discover (found : discover t patterns = .ok ps) {p : Path} (mem : p ∈ ps) :
    ∃ pattern ∈ patterns, ∃ qs, named t pattern = .ok qs ∧ p ∈ qs := by
  obtain ⟨lists, names, rfl⟩ := discover_eq_ok_iff.mp found
  exact mem_flatten_of_mapM names (mem_of_mem_listed mem)

private theorem nodup_locate_of_direct (ascending : Ascending ps) (direct : ∀ p ∈ ps, p.IsDirect)
    (starts : ∀ p ∈ ps, ∀ q ∈ ps, p.isAbsolute = q.isAbsolute) (files : ∀ p ∈ ps, t.isFile p = true) :
    (ps.map t.locate).Nodup := by
  have once := nodup_components_of_ascending ascending
  refine (once.of_map _).map_on fun p left q right same => ?_
  obtain ⟨m, -, located, -⟩ := isFile_iff.mp (files p left)
  exact List.inj_on_of_nodup_map once left right (components_eq_of_direct (direct p left) (direct q right)
    (starts p left q right) located (same ▸ located))

/-! ### Runs -/

private theorem Batch.outputs_sublist {j : Job} {l : Linter} (ps : List Path) :
    ((Batch.ofInputs j l t ps).outputs).Sublist (ps.map j.output) := by
  induction ps using List.reverseRecOn with
  | nil => exact .slnil
  | append_singleton ps p ih =>
    rw [Batch.outputs, ofInputs_append, ofInputs_singleton, List.filterMap_append, List.map_append]
    refine ih.append ?_
    cases outcome : (convert j l (ofInputs j l t ps).tree p).report.outcome with
    | converted output =>
      rw [((convertsAtomically p).written output outcome).1] at outcome
      simp [outcome]
    | skipped => simp [outcome]
    | failed why => simp [outcome]

private theorem nodup_locate_output {j : Job} (slashless : j.overwrites = true ∨ '/' ∉ j.configuration.suffix.toList)
    (files : ∀ p ∈ ps, t.isFile p = true ∧ p.isComponent = true) (distinct : (ps.map t.locate).Nodup) :
    ((ps.map j.output).map t.locate).Nodup := by
  cases overwrites : j.overwrites with
  | true =>
    have self : j.output = id := funext fun p => by rw [Job.output, outputPath, if_pos overwrites, id]
    rwa [self, List.map_id]
  | false =>
    have slashless := slashless.resolve_left (by simp [overwrites])
    rw [List.map_map]
    refine (distinct.of_map _).map_on fun p left q right same => ?_
    obtain ⟨d, stem, atP⟩ := exists_component (files p left).1 (files p left).2
    obtain ⟨d', stem', atQ⟩ := exists_component (files q right).1 (files q right).2
    rw [Function.comp_apply, Function.comp_apply, atP.locate_output overwrites slashless,
      atQ.locate_output overwrites slashless, Except.ok.injEq] at same
    obtain ⟨rfl, names⟩ := List.append_inj' same rfl
    obtain rfl := outputName_injective (List.cons.inj names).1
    exact List.inj_on_of_nodup_map distinct left right (atP.located.trans atQ.located.symm)

/-- **Different files.** The paths that patterns name have different components. Two of them lead to the same
file only if one starts with a dot or goes up, or if one starts at the root and the other does not; a path of
the first kind comes from a pattern that does so, and each path starts where its pattern starts. Where no
pattern starts with a dot or goes up and all start at the same place, the paths lead to different files, and a
run reads each of them once and writes no file twice. -/
theorem discovered_files_differ (isTree : t.IsTree) (found : discover t patterns = .ok ps) :
    (ps.map Path.components).Nodup ∧
    (∀ p ∈ ps, ∀ q ∈ ps, p ≠ q → t.locate p = t.locate q →
      ¬p.IsDirect ∨ ¬q.IsDirect ∨ p.isAbsolute ≠ q.isAbsolute) ∧
    (∀ p ∈ ps, ∃ pattern ∈ patterns, (∃ qs, named t pattern = .ok qs ∧ p ∈ qs) ∧
      (Path.mk pattern).isAbsolute = p.isAbsolute ∧ (¬p.IsDirect → ¬IsStraight t pattern)) ∧
    ((∀ pattern ∈ patterns, IsStraight t pattern) →
      (∀ a ∈ patterns, ∀ b ∈ patterns, (Path.mk a).isAbsolute = (Path.mk b).isAbsolute) →
      (ps.map t.locate).Nodup ∧ ∀ (j : Job) (l : Linter), j.patterns = patterns →
        ∃ b, j.run l t = .ok b ∧ (b.reports.map fun r => t.locate r.input).Nodup ∧
          (j.overwrites = true ∨ '/' ∉ j.configuration.suffix.toList → (b.outputs.map t.locate).Nodup)) := by
  have ascending := ascending_of_discover found
  have once := nodup_components_of_ascending ascending
  have files : ∀ p ∈ ps, t.isFile p = true ∧ p.isComponent = true := fun p mem =>
    have ⟨_, _, _, names, mem⟩ := exists_named_of_discover found mem
    isComponent_of_named names mem
  refine ⟨once, fun p left q right ne same => ?_, fun p mem => ?_, fun straight starts => ?_⟩
  · by_contra both
    simp only [not_or, not_not] at both
    obtain ⟨m, -, located, -⟩ := isFile_iff.mp (files p left).1
    exact ne (List.inj_on_of_nodup_map once left right
      (components_eq_of_direct both.1 both.2.1 both.2.2 located (same ▸ located)))
  · obtain ⟨pattern, listed, qs, names, there⟩ := exists_named_of_discover found mem
    exact ⟨pattern, listed, ⟨qs, names, there⟩, (isAbsolute_of_named isTree names there).symm,
      fun bent straight => bent (isDirect_of_named isTree straight names there)⟩
  · have direct : ∀ p ∈ ps, p.IsDirect := by
      intro p mem
      obtain ⟨pattern, listed, qs, names, there⟩ := exists_named_of_discover found mem
      exact isDirect_of_named isTree (straight pattern listed) names there
    have alike : ∀ p ∈ ps, ∀ q ∈ ps, p.isAbsolute = q.isAbsolute := by
      intro p left q right
      obtain ⟨pattern, listed, qs, names, there⟩ := exists_named_of_discover found left
      obtain ⟨pattern', listed', qs', names', there'⟩ := exists_named_of_discover found right
      rw [isAbsolute_of_named isTree names there, isAbsolute_of_named isTree names' there',
        starts pattern listed pattern' listed']
    have distinct := nodup_locate_of_direct ascending direct alike fun p mem => (files p mem).1
    refine ⟨distinct, ?_⟩
    rintro j l rfl
    have kept : (ps.filter fun p => !j.passesOver p).Sublist ps := List.filter_sublist
    have inputs : j.inputs t = .ok (ps.filter fun p => !j.passesOver p) := by
      rw [Job.inputs, found]
      rfl
    have distinctInputs := distinct.sublist (kept.map t.locate)
    refine ⟨_, run_eq_ok_iff.mpr ⟨_, inputs, rfl⟩, ?_, fun slashless => ?_⟩
    · have reported := Batch.map_input_reports (j := j) (l := l) (t := t) (ps.filter fun p => !j.passesOver p)
      rw [← reported, List.map_map] at distinctInputs
      exact distinctInputs
    · have outputs := nodup_locate_output slashless (fun p mem => files p (kept.mem mem)) distinctInputs
      exact outputs.sublist ((Batch.outputs_sublist _).map t.locate)

theorem nested_files_named_again_differ :
    nestedTree.IsTree ∧ (∀ pattern ∈ ["y.vue", "./src//", "**/*.vue"], IsStraight nestedTree pattern) ∧
      ∃ ps, discover nestedTree ["y.vue", "./src//", "**/*.vue"] = .ok ps ∧ ps.length = 3 ∧
        (ps.map nestedTree.locate).Nodup := by
  have isTree : nestedTree.IsTree := by decide
  have straight : ∀ pattern ∈ ["y.vue", "./src//", "**/*.vue"], IsStraight nestedTree pattern := by
    intro pattern mem
    have file : searched nestedTree "y.vue" = none := by decide
    have directory : searched nestedTree "./src//" = some "./src/**/*.vue" := by decide
    have search : searched nestedTree "**/*.vue" = some "**/*.vue" := by decide
    have below : Pattern.parse? "./src/**/*.vue" = some ⟨[literalStep ['.'], literalStep "src".toList,
        ⟨true, componentPieces⟩], false, false, false⟩ := by decide
    have anywhere : Pattern.parse? "**/*.vue" = some ⟨[⟨true, componentPieces⟩], false, false, false⟩ := by
      decide
    simp only [List.mem_cons, List.not_mem_nil, or_false] at mem
    rcases mem with rfl | rfl | rfl
    · refine ⟨fun _ => ⟨["y.vue"], by decide⟩, fun text q search => ?_⟩
      rw [file] at search
      cases search
    · exact isStraight_of_steps directory below (by decide)
    · exact isStraight_of_steps search anywhere (by decide)
  have relative : ∀ pattern ∈ ["y.vue", "./src//", "**/*.vue"], (Path.mk pattern).isAbsolute = false := by
    intro pattern mem
    simp only [List.mem_cons, List.not_mem_nil, or_false] at mem
    rcases mem with rfl | rfl | rfl <;> decide
  have found : discover nestedTree ["y.vue", "./src//", "**/*.vue"] =
      .ok [⟨"src/.b.vue"⟩, ⟨"src/a/X.vue"⟩, ⟨"y.vue"⟩] := by decide +kernel
  obtain ⟨-, -, -, distinct⟩ := discovered_files_differ isTree found
  have apart := (distinct straight fun a left b right => (relative a left).trans (relative b right).symm).1
  exact ⟨isTree, straight, _, found, rfl, apart⟩

def singleTree : FileTree where
  entries := [(["work", "a.vue"], .file (.text "<script>@Component class A \x7b\x7d</script>"))]

/-- A file that is spelled with and without a dot, or from the root and from the working directory, is found
twice; when outputs take the place of their inputs, it is converted by the first spelling and then fails by the
second. -/
theorem dotted_spelling_finds_file_twice :
    singleTree.IsTree ∧ discover singleTree ["a.vue", "./a.vue"] = .ok [⟨"./a.vue"⟩, ⟨"a.vue"⟩] ∧
      singleTree.locate ⟨"./a.vue"⟩ = singleTree.locate ⟨"a.vue"⟩ ∧
      (Job.run { patterns := ["a.vue", "./a.vue"], overwrites := true } .idle singleTree).map
          (fun b => (b.converted, b.failed)) = .ok (1, 1) ∧
      discover singleTree ["a.vue", "/work"] = .ok [⟨"/work/a.vue"⟩, ⟨"a.vue"⟩] ∧
      singleTree.locate ⟨"/work/a.vue"⟩ = singleTree.locate ⟨"a.vue"⟩ := by
  refine ⟨by decide, by decide, by decide, ?_, by decide, by decide⟩
  decide +kernel

end VueOptions.Project
