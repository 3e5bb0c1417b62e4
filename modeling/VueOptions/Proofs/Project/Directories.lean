import Mathlib.Data.List.Infix
import Mathlib.Data.List.Nodup
import VueOptions.Proofs.Project.Rediscovery
import VueOptions.Proofs.Project.Schedule

/-!
What the path of a directory names. The path is made the front of a pattern, so its marks are read as those
of a pattern. Without marks the pattern follows the path part by part (`foldl_literal`), and then takes
every entry below with the extension of component files. From the working directory an empty part leads
nowhere.
-/

set_option autoImplicit false

namespace VueOptions.Project

theorem Path.isAbsolute_join {p : Path} (ne : p.text ≠ "") (name : String) :
    (p.join name).isAbsolute = p.isAbsolute := by
  have filled : p.text.toList ≠ [] := fun empty => ne (String.toList_eq_nil_iff.mp empty)
  rw [isAbsolute, isAbsolute, join]
  split
  · rw [String.toList_append, List.head?_append_of_ne_nil _ filled]
  · rw [String.toList_append, String.toList_append, List.append_assoc, List.head?_append_of_ne_nil _ filled]

theorem Path.components_join {p : Path} (ne : p.text ≠ "") (name : String) :
    (p.join name).components = p.components ++ (Path.mk name).parts.filterMap PathComponent.ofPart? := by
  obtain ⟨kept, idle, keptNe, parts, allIdle, joined⟩ := FileTree.parts_join ne name
  have nothing : idle.filterMap PathComponent.ofPart? = [] := by
    rw [List.filterMap_eq_nil_iff]
    exact fun part mem => if_pos (allIdle part mem)
  rw [components, components, isAbsolute_join ne, joined, parts, List.head?_append_of_ne_nil _ keptNe,
    List.head?_append_of_ne_nil _ keptNe, List.filterMap_append, List.filterMap_append, nothing,
    List.append_nil, List.append_assoc]

namespace FileTree

variable {t : FileTree}

private theorem components_ne_nil {p : Path} {m : Location} (located : t.locate p = .ok m) : p.components ≠ [] := by
  have ne := (locate_eq_ok_iff.mp located).1
  rw [Path.components]
  split
  · simp
  · next relative =>
    rw [Path.isAbsolute_iff ne] at relative
    obtain ⟨part, parts, shape⟩ := List.exists_cons_of_ne_nil p.parts_ne_nil
    rw [shape] at relative ⊢
    by_cases dot : part = "."
    · simp [dot]
    · have counts : part ≠ "" := fun empty => relative (by rw [empty]; rfl)
      by_cases up : part = ".."
      · simp [up, PathComponent.ofPart?]
      · simp [PathComponent.ofPart?, counts, dot, up]

private theorem components_entryPath_current {p : Path} {m : Location} (located : t.locate p = .ok m) {part : String}
    (whole : '/' ∉ part.toList) (current : (entryPath p part).components = [.current]) :
    p.components = [.current] ∧ part = "." := by
  rw [entryPath] at current
  split at current
  · next here =>
    refine ⟨here, ?_⟩
    rw [Path.components, Path.parts_of_whole whole] at current
    by_contra other
    split at current
    · cases current
    · simp only [List.head?_cons, beq_iff_eq, Option.some.injEq, other, if_false, List.nil_append,
        List.filterMap_cons, List.filterMap_nil, PathComponent.ofPart?] at current
      split at current
      · cases current
      · next component found =>
        split at found
        · cases found
        · split at found
          · obtain rfl := Option.some.inj found
            simp at current
          · obtain rfl := Option.some.inj found
            simp at current
  · next elsewhere =>
    rw [Path.components_join (locate_eq_ok_iff.mp located).1] at current
    have filled := components_ne_nil located
    cases components : p.components with
    | nil => exact absurd components filled
    | cons first more =>
      rw [components, List.cons_append] at current
      obtain ⟨rfl, rest⟩ := List.cons.inj current
      rw [(List.append_eq_nil_iff.mp rest).1] at components
      exact absurd components elsewhere

private theorem locate_entryPath_of_follow {p : Path} {m m' : Location} {part : String} (located : t.locate p = .ok m)
    (follows : t.follow m part = .ok m') (whole : '/' ∉ part.toList)
    (counts : p.components = [.current] → part ≠ "") : t.locate (entryPath p part) = .ok m' := by
  have walked : t.walk m (Path.mk part).parts = .ok m' := by
    have one : t.walk m ([] ++ [part]) = .ok m' := walk_concat_eq_ok_iff.mpr ⟨m, rfl, follows⟩
    rw [Path.parts_of_whole whole]
    exact one
  rw [entryPath]
  split
  · next here =>
    obtain rfl : m = t.base := by
      rw [locate_eq_placeOf located, here]
      rfl
    have relative : (Path.mk part).isAbsolute = false := by
      rw [Path.isAbsolute, beq_eq_false_iff_ne]
      exact fun slash => whole (List.mem_of_head? slash)
    rw [locate_eq_ok_iff, start, relative]
    exact ⟨counts here, walked⟩
  · have directory := (follow_eq_ok_iff.mp follows).1
    exact (locate_join_eq_ok_iff (locate_eq_ok_iff.mp located).1).mpr ⟨m, located, directory, walked⟩

def literalStep (part : List Char) : PatternStep := ⟨false, part.map .char⟩

private theorem takeStep_literal (p : Path) (part : List Char) :
    t.takeStep (literalStep part) p =
      if part = ['.'] || part = ['.', '.'] then
        if t.isDirectory p then [entryPath p (String.ofList part)] else []
      else if (t.entryAt? (entryPath p (String.ofList part))).isSome then
        [entryPath p (String.ofList part)]
      else [] := by
  rw [takeStep, literalStep, literal?_map_char]
  rfl

def takeSteps (t : FileTree) (steps : List PatternStep) (ps : List Path) : List Path :=
  steps.foldl (fun ps s => ps.flatMap (t.takeStep s)) ps

private theorem takeSteps_nil (steps : List PatternStep) : t.takeSteps steps [] = [] := by
  induction steps with
  | nil => rfl
  | cons s steps ih => exact ih

private theorem takeSteps_cons (s : PatternStep) (steps : List PatternStep) (p : Path) :
    t.takeSteps (s :: steps) [p] = t.takeSteps steps (t.takeStep s p) := by
  rw [takeSteps, List.foldl_cons, List.flatMap_singleton]
  rfl

private theorem takeStep_literal_of_follow {p : Path} {m m' : Location} {part : List Char}
    (located : t.locate p = .ok m) (follows : t.follow m (String.ofList part) = .ok m')
    (stands : (t.lookup m').isSome = true) (whole : '/' ∉ part) (counts : p.components = [.current] → part ≠ []) :
    t.takeStep (literalStep part) p = [entryPath p (String.ofList part)] ∧
      t.locate (entryPath p (String.ofList part)) = .ok m' := by
  have wholeText : '/' ∉ (String.ofList part).toList := by rwa [String.toList_ofList]
  have leads : t.locate (entryPath p (String.ofList part)) = .ok m' := by
    refine locate_entryPath_of_follow located follows wholeText fun here empty => ?_
    exact counts here (String.ofList_eq_empty_iff.mp empty)
  have directory : t.isDirectory p = true := isDirectory_iff.mpr ⟨m, located, (follow_eq_ok_iff.mp follows).1⟩
  have entry : (t.entryAt? (entryPath p (String.ofList part))).isSome = true := by
    rw [entryAt?, leads]
    exact stands
  refine ⟨?_, leads⟩
  rw [takeStep_literal, if_pos directory, if_pos entry, ite_self]

/-- Whether an empty part stands right behind the dots at the front. -/
def stalls (parts : List (List Char)) : Bool := (parts.dropWhile (· == ['.'])).head? == some []

private theorem takeSteps_literal {parts : List (List Char)} {p : Path} {m l : Location} (located : t.locate p = .ok m)
    (walked : t.walk m (parts.map String.ofList) = .ok l) (directory : t.lookup l = some .directory)
    (whole : ∀ part ∈ parts, '/' ∉ part) (goes : p.components = [.current] → stalls parts = false) :
    ∃ base, t.takeSteps (parts.map literalStep) [p] = [base] ∧ t.locate base = .ok l := by
  induction parts generalizing p m with
  | nil =>
    obtain rfl : m = l := Except.ok.inj walked
    exact ⟨p, rfl, located⟩
  | cons part parts ih =>
    have unfolded : t.walk m ((part :: parts).map String.ofList) =
        (t.follow m (String.ofList part)).bind fun d => t.walk d (parts.map String.ofList) := by
      rw [walk, List.map_cons, List.foldlM_cons]
      rfl
    rw [unfolded] at walked
    cases follows : t.follow m (String.ofList part) with
    | error why =>
      rw [follows] at walked
      cases walked
    | ok m' =>
      rw [follows] at walked
      have walked : t.walk m' (parts.map String.ofList) = .ok l := walked
      have next : t.lookup m' = some .directory := by
        cases parts with
        | nil =>
          obtain rfl : m' = l := Except.ok.inj walked
          exact directory
        | cons other parts => exact lookup_of_walk (by simp) walked
      have counts : p.components = [.current] → part ≠ [] := by
        rintro here rfl
        exact absurd (goes here) (by simp [stalls])
      obtain ⟨step, leads⟩ := takeStep_literal_of_follow located follows (by simp [next])
        (whole part List.mem_cons_self) counts
      rw [List.map_cons, takeSteps_cons, step]
      refine ih leads walked (fun other mem => whole other (List.mem_cons_of_mem part mem)) fun current => ?_
      obtain ⟨here, dot⟩ := components_entryPath_current located
        (by rw [String.toList_ofList]; exact whole part List.mem_cons_self) current
      have isDot : part = ['.'] := by simpa using congrArg String.toList dot
      have stalled := goes here
      rw [stalls, isDot, List.dropWhile_cons_of_pos (by simp)] at stalled
      exact stalled

private theorem takeSteps_of_stalls {parts : List (List Char)} (stalled : stalls parts = true) {p : Path}
    (here : p.components = [.current]) : t.takeSteps (parts.map literalStep) [p] = [] := by
  induction parts generalizing p with
  | nil => cases stalled
  | cons part parts ih =>
    rw [List.map_cons, takeSteps_cons, takeStep_literal]
    by_cases dot : part = ['.']
    · have next : entryPath p (String.ofList part) = ⟨"."⟩ := by
        rw [entryPath, if_pos here, dot]
      rw [stalls, dot, List.dropWhile_cons_of_pos (by simp)] at stalled
      rw [if_pos (by simp [dot]), next]
      split
      · exact ih stalled rfl
      · exact takeSteps_nil _
    · have empty : part = [] := by
        rw [stalls, List.dropWhile_cons_of_neg (by simp [dot])] at stalled
        simpa using stalled
      have nowhere : t.entryAt? (entryPath p (String.ofList part)) = none := by
        rw [entryPath, if_pos here, empty]
        rfl
      rw [if_neg (by simp [empty]), nowhere]
      exact takeSteps_nil _

/-- A tree in which each entry stands in a directory, under a name that a path can go down by. -/
def IsTree (t : FileTree) : Prop := ∀ entry ∈ t.entries, Reached t entry.1

instance Reached.decidable (t : FileTree) (l : Location) : Decidable (Reached t l) :=
  decidable_of_iff ((∀ name ∈ l, Path.isIdle name = false ∧ name ≠ ".." ∧ '/' ∉ name.toList) ∧
      ∀ n < l.length, t.lookup (l.take n) = some .directory)
    ⟨fun h => ⟨fun name mem => have ⟨counts, down, whole⟩ := h.1 name mem
        ⟨counts, down, whole⟩, h.2⟩,
      fun h => ⟨fun name mem => have proper := h.proper name mem
        ⟨proper.counts, proper.down, proper.whole⟩, h.above⟩⟩

instance IsTree.decidable (t : FileTree) : Decidable t.IsTree :=
  inferInstanceAs (Decidable (∀ entry ∈ t.entries, Reached t entry.1))

private theorem reached_above {l m : Location} (reached : Reached t m) (above : l <+: m) : Reached t l := by
  refine ⟨fun name mem => reached.proper name (above.mem mem), fun n lt => ?_⟩
  obtain ⟨more, rfl⟩ := above
  have stands := reached.above n (by rw [List.length_append]; omega)
  rwa [List.take_append_of_le_length (Nat.le_of_lt lt)] at stands

private theorem mem_standing_iff {m : Location} {e : Entry} : (m, e) ∈ t.standing ↔
    m ≠ [] ∧ m <+: t.base ∧ e = .directory ∨ ¬m <+: t.base ∧ (m, e) ∈ t.entries := by
  rw [standing, List.mem_append, List.mem_map, List.mem_filter]
  refine or_congr ⟨?_, ?_⟩ ?_
  · rintro ⟨n, lt, same⟩
    obtain ⟨rfl, rfl⟩ := Prod.mk.inj same
    rw [List.mem_range] at lt
    refine ⟨fun empty => ?_, List.take_prefix _ _, rfl⟩
    have length := congrArg List.length empty
    rw [List.length_take, Nat.min_eq_left (by omega)] at length
    cases length
  · rintro ⟨ne, above, rfl⟩
    have filled := List.length_pos_of_ne_nil ne
    have shorter := above.length_le
    refine ⟨m.length - 1, List.mem_range.mpr (by omega), ?_⟩
    rw [Nat.sub_add_cancel filled, ← List.prefix_iff_eq_take.mp above]
  · rw [and_comm, Bool.not_eq_true', Bool.eq_false_iff, ne_eq, List.isPrefixOf_iff_prefix]

theorem IsTree.reached (isTree : t.IsTree) {m : Location} {e : Entry} (mem : (m, e) ∈ t.standing) :
    Reached t m := by
  rcases mem_standing_iff.mp mem with ⟨-, above, -⟩ | ⟨-, mem⟩
  · exact reached_above reached_base above
  · exact isTree _ mem

private theorem mem_below_iff {l names : Location} {e : Entry} :
    (names, e) ∈ t.below l ↔ names ≠ [] ∧ (l ++ names, e) ∈ t.standing := by
  rw [below, List.mem_filterMap]
  constructor
  · rintro ⟨⟨m, e'⟩, mem, found⟩
    dsimp only at found
    split at found
    · next lies =>
      rw [Bool.and_eq_true, List.isPrefixOf_iff_prefix, decide_eq_true_iff] at lies
      obtain ⟨more, rfl⟩ := lies.1
      rw [List.drop_left] at found
      obtain ⟨rfl, rfl⟩ := Prod.mk.inj (Option.some.inj found)
      refine ⟨?_, mem⟩
      rintro rfl
      simp at lies
    · cases found
  · rintro ⟨ne, mem⟩
    have longer : l.length < (l ++ names).length := by
      have := List.length_pos_of_ne_nil ne
      rw [List.length_append]
      omega
    refine ⟨_, mem, ?_⟩
    dsimp only
    rw [if_pos (by simpa [List.isPrefixOf_iff_prefix] using longer), List.drop_left]

private theorem mem_of_lookup {l : Location} {content : Content} (stands : t.lookup l = some (.file content)) :
    (l, Entry.file content) ∈ t.standing := by
  have apart := not_prefix_of_lookup (t := t) (l := l) (by simp [stands])
  rw [lookup, if_neg (by rwa [List.isPrefixOf_iff_prefix])] at stands
  obtain ⟨before, after, entries, -⟩ := List.lookup_eq_some_iff.mp stands
  refine mem_standing_iff.mpr (.inr ⟨apart, ?_⟩)
  rw [entries]
  simp

theorem mem_entriesBelow_iff {p : Path} {l : Location} (located : t.locate p = .ok l)
    (directory : t.lookup l = some .directory) {found : Path × Location × Entry} :
    found ∈ t.entriesBelow p ↔ ∃ names e, names ≠ [] ∧ (l ++ names, e) ∈ t.standing ∧
      found = (pathBelow p names, names, e) := by
  rw [entriesBelow, located]
  dsimp only
  rw [if_pos (isDirectoryAt_iff.mpr directory), List.mem_map]
  constructor
  · rintro ⟨⟨names, e⟩, mem, rfl⟩
    obtain ⟨ne, stands⟩ := mem_below_iff.mp mem
    exact ⟨names, e, ne, stands, rfl⟩
  · rintro ⟨names, e, ne, stands, rfl⟩
    exact ⟨(names, e), mem_below_iff.mpr ⟨ne, stands⟩, rfl⟩

end FileTree

def componentPieces : List Piece := .anySequence :: ".vue".toList.map .char

private theorem Piece.mem_suffixes_iff {cs ends : List Char} : ends ∈ suffixes cs ↔ ends <:+ cs := by
  induction cs with
  | nil => simp [suffixes]
  | cons c cs ih => rw [suffixes, List.mem_cons, ih, List.suffix_cons_iff]

private theorem matchesName_componentPieces {cs : List Char} :
    Piece.matchesName componentPieces cs = true ↔ ".vue".toList <:+ cs := by
  have literal : Piece.literal? (".vue".toList.map .char) = some ".vue".toList := literal?_map_char _
  rw [componentPieces, Piece.matchesName, List.any_eq_true]
  constructor
  · rintro ⟨ends, mem, matched⟩
    rw [Piece.matchesName_literal literal, decide_eq_true_iff] at matched
    exact matched ▸ Piece.mem_suffixes_iff.mp mem
  · intro isEnd
    refine ⟨_, Piece.mem_suffixes_iff.mpr isEnd, ?_⟩
    rw [Piece.matchesName_literal literal, decide_eq_true_iff]

def directoryParts (directory : String) : List (List Char) :=
  Text.split '/' (Text.dropEndWhile (· == '/') directory.toList)

private theorem parts_eq_directoryParts (directory : String) : ∃ idle : List String,
    (∀ part ∈ idle, Path.isIdle part = true) ∧
      (Path.mk directory).parts = (directoryParts directory).map String.ofList ++ idle := by
  obtain ⟨slashes, whole, allSlash, -⟩ := Text.dropEndWhile_spec (· == '/') directory.toList
  cases slashes with
  | nil =>
    refine ⟨[], by simp, ?_⟩
    rw [List.append_nil] at whole
    rw [Path.parts, directoryParts, whole, List.append_nil]
  | cons slash slashes =>
    have isSlash : slash = '/' := by simpa using allSlash slash List.mem_cons_self
    refine ⟨(Text.split '/' slashes).map String.ofList, fun part mem => ?_, ?_⟩
    · obtain ⟨piece, found, rfl⟩ := List.mem_map.mp mem
      have absent := Text.not_mem_of_mem_split found
      cases piece with
      | nil => rfl
      | cons c piece =>
        have inside : c ∈ slashes := by
          rw [← Text.join_split '/' slashes]
          exact Text.mem_join_of_mem found List.mem_cons_self
        have again : c = '/' := by simpa using allSlash c (List.mem_cons_of_mem slash inside)
        rw [again] at absent
        simp at absent
    · rw [isSlash] at whole
      rw [Path.parts, directoryParts, ← List.map_append, ← Text.split_append_sep, whole]

def followedParts (directory : String) : List (List Char) :=
  if (Path.mk directory).isAbsolute then (directoryParts directory).tail else directoryParts directory

private theorem toList_patternBelow (directory : String) : (patternBelow directory).toList =
    Text.dropEndWhile (· == '/') directory.toList ++ '/' :: "**/*.vue".toList := by
  simp [patternBelow, componentExtension]

theorem head?_patternBelow {directory : String} (ne : directory ≠ "") :
    ((patternBelow directory).toList.head? == some '/') = (Path.mk directory).isAbsolute := by
  obtain ⟨slashes, whole, allSlash, -⟩ := Text.dropEndWhile_spec (· == '/') directory.toList
  rw [Path.isAbsolute, toList_patternBelow]
  dsimp only
  by_cases kept : Text.dropEndWhile (· == '/') directory.toList = []
  · rw [kept, List.nil_append] at whole ⊢
    cases slashes with
    | nil => exact absurd (String.toList_eq_nil_iff.mp whole.symm) ne
    | cons slash slashes =>
      have isSlash : slash = '/' := by simpa using allSlash slash List.mem_cons_self
      rw [← whole, isSlash]
      rfl
  · conv_rhs => rw [← whole]
    rw [List.head?_append_of_ne_nil _ kept, List.head?_append_of_ne_nil _ kept]

private theorem partsOf_patternBelow {directory : String} (ne : directory ≠ "") :
    Pattern.partsOf (Pattern.behindRoot (patternBelow directory).toList) =
      followedParts directory ++ ["**".toList, "*.vue".toList] := by
  have tail : Text.split '/' "**/*.vue".toList = ["**".toList, "*.vue".toList] := by decide
  have split : Text.split '/' (patternBelow directory).toList =
      directoryParts directory ++ ["**".toList, "*.vue".toList] := by
    rw [toList_patternBelow, Text.split_append_sep, tail, directoryParts]
  have behind : Text.split '/' (Pattern.behindRoot (patternBelow directory).toList) =
      followedParts directory ++ ["**".toList, "*.vue".toList] := by
    have filled : directoryParts directory ≠ [] := Text.split_ne_nil _ _
    rw [followedParts, ← head?_patternBelow ne]
    cases list : (patternBelow directory).toList with
    | nil =>
      rw [toList_patternBelow] at list
      simp at list
    | cons c cs =>
      rw [list] at split
      by_cases slash : c = '/'
      · rw [slash, Text.split, if_pos rfl] at split
        rw [slash, Pattern.behindRoot, if_pos (by simp)]
        rw [← List.tail_append_of_ne_nil filled, ← split]
        rfl
      · have same : Pattern.behindRoot (c :: cs) = c :: cs := by
          unfold Pattern.behindRoot
          split
          · next text eq => exact absurd (List.cons.inj eq).1 slash
          · rfl
        rw [same, if_neg (by simpa using slash), split]
  rw [Pattern.partsOf, behind]
  simp

private theorem mem_directoryParts_of_followed {directory : String} {part : List Char}
    (mem : part ∈ followedParts directory) : part ∈ directoryParts directory := by
  rw [followedParts] at mem
  split at mem
  · exact List.mem_of_mem_tail mem
  · exact mem

private theorem parse?_patternBelow {directory : String} (ne : directory ≠ "")
    (markless : ∀ c ∈ directory.toList, isMark c = false) :
    Pattern.parse? (patternBelow directory) = some
      { steps := (followedParts directory).map FileTree.literalStep ++ [⟨true, componentPieces⟩]
        endsDeep := false
        wantsDirectory := false
        isAbsolute := (Path.mk directory).isAbsolute } := by
  have noMarks : ∀ part ∈ followedParts directory, ∀ c ∈ part, isMark c = false := by
    intro part found c mem
    obtain ⟨slashes, whole, -, -⟩ := Text.dropEndWhile_spec (· == '/') directory.toList
    refine markless c ?_
    rw [← whole, ← Text.join_split '/' (Text.dropEndWhile _ _)]
    exact List.mem_append_left _ (Text.mem_join_of_mem (mem_directoryParts_of_followed found) mem)
  have deep : Pattern.readSteps? false ["**".toList, "*.vue".toList] =
      some ([⟨true, componentPieces⟩], false) := by decide
  have last : (patternBelow directory).toList.getLast? = some 'e' := by
    rw [toList_patternBelow, List.getLast?_append_of_ne_nil _ (by simp)]
    decide
  rw [Pattern.parse?, partsOf_patternBelow ne, readSteps?_markless_append noMarks, deep, last,
    head?_patternBelow ne]
  rfl

namespace FileTree

variable {t : FileTree}

def origin (isAbsolute : Bool) : Path := if isAbsolute then root else here

private theorem locate_origin (p : Path) : t.locate (origin p.isAbsolute) = .ok (t.start p) := by
  rw [origin, start]
  split
  · have parts : root.parts = ["", ""] := by decide
    rw [locate_eq_ok_iff, parts]
    exact ⟨by decide, walk_of_idle (lookup_above List.nil_prefix) (by decide)⟩
  · have parts : here.parts = ["."] := by decide
    rw [locate_eq_ok_iff, parts]
    exact ⟨by decide, walk_of_idle (lookup_above List.prefix_rfl) (by decide)⟩

private theorem glob_patternBelow {directory : String} (ne : directory ≠ "")
    (markless : ∀ c ∈ directory.toList, isMark c = false) {q : Pattern}
    (parsed : Pattern.parse? (patternBelow directory) = some q) :
    t.glob q = (t.takeSteps ((followedParts directory).map literalStep)
      [origin (Path.mk directory).isAbsolute]).flatMap (t.takeStep ⟨true, componentPieces⟩) := by
  rw [parse?_patternBelow ne markless] at parsed
  obtain rfl := Option.some.inj parsed
  rw [glob]
  simp [takeSteps, origin]

private theorem walk_followedParts {directory : String} {l : Location} (located : t.locate ⟨directory⟩ = .ok l) :
    t.walk (t.start ⟨directory⟩) ((followedParts directory).map String.ofList) = .ok l := by
  obtain ⟨ne, walked⟩ := locate_eq_ok_iff.mp located
  obtain ⟨idle, allIdle, parts⟩ := parts_eq_directoryParts directory
  have filled : directoryParts directory ≠ [] := Text.split_ne_nil _ _
  rw [parts] at walked
  have walked := walk_idle allIdle walked
  rw [followedParts]
  split
  · next absolute =>
    obtain ⟨first, rest, shape⟩ := List.exists_cons_of_ne_nil filled
    have empty : String.ofList first = "" := by
      rw [Path.isAbsolute_iff ne, parts, shape] at absolute
      simpa using absolute
    rw [shape, List.map_cons, empty] at walked
    rw [shape, List.tail_cons]
    have step : t.follow (t.start ⟨directory⟩) "" = .ok (t.start ⟨directory⟩) := by
      refine follow_eq_ok_iff.mpr ⟨lookup_of_walk (by simp) walked, ?_⟩
      rw [if_pos (by decide)]
    have first : t.walk (t.start ⟨directory⟩) ("" :: rest.map String.ofList) =
        (t.follow (t.start ⟨directory⟩) "").bind fun d => t.walk d (rest.map String.ofList) := by
      rw [walk, List.foldlM_cons]
      rfl
    rw [first, step] at walked
    exact walked
  · exact walked

structure IsComponentPlace (t : FileTree) (m : Location) : Prop where
  isFile : ∃ content, t.lookup m = some (.file content)
  extension : ∃ name, m.getLast? = some name ∧ (splitName name).2 = some componentExtension

private theorem isComponentPlace_iff {p : Path} {m : Location} (located : t.locate p = .ok m) :
    t.IsComponentPlace m ↔ t.isFile p = true ∧ p.isComponent = true := by
  constructor
  · rintro ⟨⟨content, stands⟩, name, last, extension⟩
    have fileName := fileName?_of_locate located (by simp [stands])
    refine ⟨isFile_iff.mpr ⟨m, content, located, stands⟩, ?_⟩
    rw [Path.isComponent, Path.extension?, fileName, last]
    simpa using extension
  · rintro ⟨isFile, isComponent⟩
    obtain ⟨m', content, located', stands⟩ := isFile_iff.mp isFile
    obtain rfl := Except.ok.inj (located.symm.trans located')
    have fileName := fileName?_of_locate located (by simp [stands])
    rw [Path.isComponent, Path.extension?, fileName] at isComponent
    cases last : m.getLast? with
    | none => simp [last] at isComponent
    | some name => exact ⟨⟨content, stands⟩, name, last, by simpa [last] using isComponent⟩

private theorem mem_deepStep_iff (isTree : t.IsTree) {base : Path} {l : Location} (located : t.locate base = .ok l)
    (directory : t.lookup l = some .directory) {p : Path} :
    p ∈ (t.takeStep ⟨true, componentPieces⟩ base).filter (fun p => t.isFile p && p.isComponent) ↔
      ∃ names, p = pathBelow base names ∧ t.locate p = .ok (l ++ names) ∧ t.IsComponentPlace (l ++ names) := by
  simp only [takeStep, if_true, List.mem_filter (p := fun p => t.isFile p && p.isComponent),
    Bool.and_eq_true, List.mem_map]
  constructor
  · rintro ⟨⟨found, mem, rfl⟩, isFile, isComponent⟩
    obtain ⟨names, e, -, stands, rfl⟩ :=
      (mem_entriesBelow_iff located directory).mp (List.mem_of_mem_filter mem)
    have leads := locate_pathBelow located (isTree.reached stands)
    exact ⟨names, rfl, leads, (isComponentPlace_iff leads).mpr ⟨isFile, isComponent⟩⟩
  · rintro ⟨names, rfl, leads, place⟩
    obtain ⟨⟨content, stands⟩, name, last, extension⟩ := place
    have ne : names ≠ [] := by
      rintro rfl
      rw [List.append_nil, directory] at stands
      cases stands
    have lastName : names.getLast? = some name := by
      rwa [List.getLast?_append_of_ne_nil _ ne] at last
    obtain ⟨stem, cut⟩ : ∃ stem, splitName name = (stem, some componentExtension) :=
      ⟨_, Prod.ext rfl extension⟩
    have isEnd : ".vue".toList <:+ name.toList := by
      rw [(splitName_eq_some_iff.mp cut).1]
      exact ⟨stem.toList, by simp [componentExtension]⟩
    refine ⟨⟨(pathBelow base names, names, .file content), List.mem_filter.mpr ⟨?_, ?_⟩, rfl⟩, ?_⟩
    · exact (mem_entriesBelow_iff located directory).mpr ⟨names, _, ne, mem_of_lookup stands, rfl⟩
    · dsimp only
      rw [lastName]
      exact matchesName_componentPieces.mpr isEnd
    · exact (isComponentPlace_iff leads).mp ⟨⟨content, stands⟩, name, last, extension⟩

end FileTree

open FileTree

variable {t : FileTree}

private theorem discover_singleton {pattern : String} {ps : List Path} (found : named t pattern = .ok ps) :
    discover t [pattern] = .ok (listed ps) := by
  rw [discover_eq, List.mapM_cons, found]
  simp [bind, Except.bind, pure, Except.pure, Except.map]

private theorem mem_map_locate_listed {ps : List Path} {m : Location} (leads : ∀ p ∈ ps, ∃ m, t.locate p = .ok m) :
    .ok m ∈ (listed ps).map t.locate ↔ .ok m ∈ ps.map t.locate := by
  rw [List.mem_map, List.mem_map]
  constructor
  · rintro ⟨p, mem, located⟩
    exact ⟨p, mem_of_mem_listed mem, located⟩
  · rintro ⟨p, mem, located⟩
    obtain ⟨q, found, same⟩ := exists_mem_listed mem
    obtain ⟨m', located'⟩ := leads q (mem_of_mem_listed found)
    refine ⟨q, found, ?_⟩
    rw [located', locate_eq_placeOf located', locate_eq_placeOf located, same]

/-- Whether the path of a directory stalls: from the working directory an empty part leads nowhere. -/
def stallsAt (directory : String) : Bool :=
  !(Path.mk directory).isAbsolute && stalls (directoryParts directory)

private theorem exists_matching_directory {directory : String} {l : Location}
    (located : t.locate ⟨directory⟩ = .ok l) (isDirectory : t.lookup l = some .directory)
    (markless : ∀ c ∈ directory.toList, isMark c = false) :
    if stallsAt directory then named t directory = .ok []
    else ∃ base, t.locate base = .ok l ∧ named t directory =
      .ok ((t.takeStep ⟨true, componentPieces⟩ base).filter fun p => t.isFile p && p.isComponent) := by
  have search : named t directory = matching t (patternBelow directory) := by
    rw [named, if_pos (isDirectory_iff.mpr ⟨l, located, isDirectory⟩)]
  have ne := (locate_eq_ok_iff.mp located).1
  have parsed := parse?_patternBelow ne markless
  rw [search, matching, parsed]
  dsimp only
  rw [glob_patternBelow ne markless parsed]
  split
  · next stalled =>
    rw [stallsAt, Bool.and_eq_true, Bool.not_eq_true'] at stalled
    rw [followedParts, stalled.1, if_neg (by decide), takeSteps_of_stalls stalled.2 rfl]
    rfl
  · next goes =>
    have whole : ∀ part ∈ followedParts directory, '/' ∉ part := fun part mem =>
      Text.not_mem_of_mem_split (mem_directoryParts_of_followed mem)
    have unstalled : (origin (Path.mk directory).isAbsolute).components = [.current] →
        stalls (followedParts directory) = false := by
      intro current
      cases absolute : (Path.mk directory).isAbsolute with
      | true =>
        rw [absolute] at current
        exact absurd current (by decide)
      | false =>
        rw [followedParts, absolute, if_neg (by decide)]
        simpa [stallsAt, absolute] using goes
    obtain ⟨base, steps, leads⟩ := takeSteps_literal (locate_origin _) (walk_followedParts located)
      isDirectory whole unstalled
    refine ⟨base, leads, ?_⟩
    rw [steps, List.flatMap_singleton]

/-- **What a directory names.** A path without marks that leads to a directory of a tree names the component files
below it, in order and each once, unless it starts at the working directory and an empty part stands right behind
the dots at its front: then it names nothing. Whatever the path, it is refused exactly if its marks cannot be read.
-/
theorem discover_directory_finds_components_below {directory : String} {l : Location} (isTree : t.IsTree)
    (located : t.locate ⟨directory⟩ = .ok l) (isDirectory : t.lookup l = some .directory) :
    (∀ fault, discover t [directory] = .error fault ↔
      fault.pattern = patternBelow directory ∧ Pattern.parse? (patternBelow directory) = none) ∧
    ((∀ c ∈ directory.toList, isMark c = false) →
      ∃ ps, discover t [directory] = .ok ps ∧ Ascending ps ∧ (ps.map t.locate).Nodup ∧
        (∀ p ∈ ps, t.isFile p = true) ∧
        ∀ m, .ok m ∈ ps.map t.locate ↔
          stallsAt directory = false ∧ l <+: m ∧ t.IsComponentPlace m) := by
  refine ⟨fun fault => ?_, fun markless => ?_⟩
  · have search : named t directory = matching t (patternBelow directory) := by
      rw [named, if_pos (isDirectory_iff.mpr ⟨l, located, isDirectory⟩)]
    rw [← matching_eq_error_iff, ← search]
    cases found : named t directory with
    | error other => simp [discover, found, bind, Except.bind]
    | ok ps => simp [discover_singleton found]
  · have names := exists_matching_directory located isDirectory markless
    split at names
    · next stalled => exact ⟨[], discover_singleton names, .nil, .nil, by simp, by simp [stalled]⟩
    · next goes =>
      obtain ⟨base, leads, names⟩ := names
      have found {p : Path} := mem_deepStep_iff isTree leads isDirectory (p := p)
      generalize (t.takeStep ⟨true, componentPieces⟩ base).filter _ = ps at names found
      have places : ∀ p ∈ ps, ∃ m, t.locate p = .ok m := fun p mem =>
        have ⟨_, _, located, _⟩ := found.mp mem
        ⟨_, located⟩
      have once : (listed ps).Nodup := (nodup_components_of_ascending (ascending_listed ps)).of_map _
      refine ⟨listed ps, discover_singleton names, ascending_listed ps, once.map_on ?_, fun p mem => ?_, fun m => ?_⟩
      · intro p memP q memQ same
        obtain ⟨names, rfl, locatedP, -⟩ := found.mp (mem_of_mem_listed memP)
        obtain ⟨names', rfl, locatedQ, -⟩ := found.mp (mem_of_mem_listed memQ)
        rw [locatedP, locatedQ, Except.ok.injEq, List.append_cancel_left_eq] at same
        rw [same]
      · exact (isComponent_of_named names (mem_of_mem_listed mem)).1
      · rw [mem_map_locate_listed places, List.mem_map]
        constructor
        · rintro ⟨p, mem, locatedM⟩
          obtain ⟨below, -, located, place⟩ := found.mp mem
          obtain rfl := Except.ok.inj (locatedM.symm.trans located)
          exact ⟨by simpa using goes, List.prefix_append l below, place⟩
        · rintro ⟨-, ⟨below, rfl⟩, place⟩
          obtain ⟨content, stands⟩ := place.isFile
          have located := locate_pathBelow leads (isTree.reached (mem_of_lookup stands))
          exact ⟨_, found.mpr ⟨below, rfl, located, place⟩, located⟩

/-- Component files at different depths, beside other files. -/
def nestedTree : FileTree where
  entries := [
    (["work", "src"], .directory),
    (["work", "src", "a"], .directory),
    (["work", "src", "a", "X.vue"], .file (.text "")),
    (["work", "src", "a", "x.ts"], .file (.text "")),
    (["work", "src", ".b.vue"], .file (.bytes [0xff])),
    (["work", "src", ".vue"], .file (.text "")),
    (["work", "y.vue"], .file (.text "")),
    (["z.vue"], .file (.text ""))]

theorem nested_components_found_below_src :
    nestedTree.IsTree ∧ nestedTree.locate ⟨"./src/a/..//"⟩ = .ok ["work", "src"] ∧
      (∃ ps, discover nestedTree ["./src/a/..//"] = .ok ps ∧ (ps.map nestedTree.locate).Nodup ∧
        .ok ["work", "src", "a", "X.vue"] ∈ ps.map nestedTree.locate ∧
        .ok ["work", "src", ".b.vue"] ∈ ps.map nestedTree.locate ∧
        .ok ["work", "src", ".vue"] ∉ ps.map nestedTree.locate ∧
        .ok ["work", "y.vue"] ∉ ps.map nestedTree.locate) ∧
      ∃ ps, discover nestedTree ["/"] = .ok ps ∧ (ps.map nestedTree.locate).Nodup ∧
        .ok ["work", "src", ".b.vue"] ∈ ps.map nestedTree.locate ∧ .ok ["z.vue"] ∈ ps.map nestedTree.locate := by
  have isTree : nestedTree.IsTree := by decide
  have located : nestedTree.locate ⟨"./src/a/..//"⟩ = .ok ["work", "src"] := by decide
  have isDirectory : nestedTree.lookup ["work", "src"] = some .directory := by decide
  have plain : "./src/a/..//".toList.any isMark = false ∧ stallsAt "./src/a/..//" = false := by decide
  have markless : ∀ c ∈ "./src/a/..//".toList, isMark c = false := fun c mem => by
    simpa using List.any_eq_false.mp plain.1 c mem
  obtain ⟨ps, found, -, once, -, places⟩ :=
    (discover_directory_finds_components_below isTree located isDirectory).2 markless
  have rootLocated : nestedTree.locate ⟨"/"⟩ = .ok [] := by decide
  have rootPlain : "/".toList.any isMark = false ∧ stallsAt "/" = false := by decide
  have rootMarkless : ∀ c ∈ "/".toList, isMark c = false := fun c mem => by
    simpa using List.any_eq_false.mp rootPlain.1 c mem
  obtain ⟨all, foundAll, -, onceAll, -, allPlaces⟩ :=
    (discover_directory_finds_components_below isTree rootLocated rfl).2 rootMarkless
  have hidden : nestedTree.IsComponentPlace ["work", "src", ".b.vue"] :=
    ⟨⟨.bytes [0xff], rfl⟩, ".b.vue", rfl, by decide⟩
  refine ⟨isTree, located, ⟨ps, found, once, (places _).mpr ⟨plain.2, ?_, ⟨?_, ?_⟩⟩,
    (places _).mpr ⟨plain.2, ?_, hidden⟩, fun mem => ?_, fun mem => ?_⟩, all, foundAll, onceAll,
    (allPlaces _).mpr ⟨rootPlain.2, List.nil_prefix, hidden⟩,
    (allPlaces _).mpr ⟨rootPlain.2, List.nil_prefix, ⟨.text "", rfl⟩, "z.vue", rfl, by decide⟩⟩
  · exact ⟨["a", "X.vue"], rfl⟩
  · exact ⟨.text "", rfl⟩
  · exact ⟨"X.vue", rfl, by decide⟩
  · exact ⟨[".b.vue"], rfl⟩
  · obtain ⟨-, -, -, name, last, extension⟩ := (places _).mp mem
    obtain rfl : ".vue" = name := Option.some.inj last
    exact absurd extension (by decide)
  · obtain ⟨-, lies, -⟩ := (places _).mp mem
    exact absurd lies (by decide)

def bracketTree : FileTree where
  entries := [(["work", "a[b]"], .directory), (["work", "a[b]", "x.vue"], .file (.text ""))]

def plainTree : FileTree where
  entries := [(["work", "a"], .directory), (["work", "a", "x.vue"], .file (.text ""))]

/-- Brackets in the name of a directory are taken for a class of characters, and an empty part leads nowhere
from the working directory: no file is found. -/
theorem bracketed_directory_names_nothing :
    bracketTree.IsTree ∧ bracketTree.isDirectory ⟨"a[b]"⟩ = true ∧
      bracketTree.isFile ⟨"a[b]/x.vue"⟩ = true ∧ discover bracketTree ["a[b]"] = .ok [] ∧
    plainTree.IsTree ∧ plainTree.isDirectory ⟨".//a"⟩ = true ∧
      plainTree.isFile ⟨".//a/x.vue"⟩ = true ∧ discover plainTree [".//a"] = .ok [] := by
  decide

end VueOptions.Project
