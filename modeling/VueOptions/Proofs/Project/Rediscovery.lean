import Mathlib.Data.List.Basic
import VueOptions.Proofs.Project.Discovered
import VueOptions.Proofs.Project.Outputs

/-!
What patterns name in a tree that has outputs in it. A file with the name of an output is passed over, and
nothing lies below a file; so the paths that count are the same whether such files stand in a tree or not
(`filter_glob`). A pattern that was read as one may now be the path of a file, and then it names no other
files any more (`named_of_sameBesides`).
-/

set_option autoImplicit false

namespace VueOptions.Project

/-! ### Entries of directories -/

namespace FileTree

variable {t u : FileTree} {suffix : String}

theorem parts_join {p : Path} (ne : p.text ≠ "") (name : String) : ∃ kept idle, kept ≠ [] ∧
    p.parts = kept ++ idle ∧ (∀ part ∈ idle, Path.isIdle part = true) ∧
      (p.join name).parts = kept ++ (Path.mk name).parts := by
  have filled : p.text.isEmpty = false := by simpa [String.isEmpty_iff] using ne
  by_cases slash : p.text.toList.getLast? = some '/'
  · obtain ⟨front, text⟩ := List.getLast?_eq_some_iff.mp slash
    refine ⟨(Text.split '/' front).map String.ofList, [""], by simp [Text.split_ne_nil], ?_, by decide, ?_⟩
    · rw [Path.parts, text, Text.split_append_sep]
      simp [Text.split]
    · have joined : (p.join name).text = p.text ++ name := by
        rw [Path.join]
        simp [slash]
      rw [Path.parts, joined, String.toList_append, text, List.append_assoc, List.singleton_append,
        Text.split_append_sep, List.map_append]
      rfl
  · refine ⟨p.parts, [], p.parts_ne_nil, by simp, by simp, ?_⟩
    have joined : (p.join name).text = p.text ++ "/" ++ name := by
      rw [Path.join]
      simp [slash, filled]
    have list : (p.text ++ "/" ++ name).toList = p.text.toList ++ '/' :: name.toList := by simp
    rw [Path.parts, joined, list, Text.split_append_sep, List.map_append]
    rfl

theorem walk_of_idle {d : Location} (directory : t.lookup d = some .directory) {idle : List String}
    (allIdle : ∀ part ∈ idle, Path.isIdle part = true) : t.walk d idle = .ok d := by
  induction idle using List.reverseRecOn with
  | nil => rfl
  | append_singleton idle part ih =>
    have before := ih fun other mem => allIdle other (List.mem_append_left _ mem)
    have last : Path.isIdle part = true := allIdle part (by simp)
    exact walk_concat_eq_ok_iff.mpr ⟨d, before, follow_eq_ok_iff.mpr ⟨directory, by rw [if_pos last]⟩⟩

theorem lookup_of_walk {d m : Location} {parts : List String} (ne : parts ≠ [])
    (walked : t.walk d parts = .ok m) : t.lookup d = some .directory := by
  obtain ⟨part, rest, rfl⟩ := List.exists_cons_of_ne_nil ne
  have first : t.walk d (part :: rest) = (t.follow d part).bind fun l => t.walk l rest := by
    rw [walk, List.foldlM_cons]
    rfl
  rw [first] at walked
  cases step : t.follow d part with
  | error why =>
    rw [step] at walked
    cases walked
  | ok l => exact (follow_eq_ok_iff.mp step).1

theorem locate_join_eq_ok_iff {p : Path} (ne : p.text ≠ "") {name : String} {m : Location} :
    t.locate (p.join name) = .ok m ↔
      ∃ d, t.locate p = .ok d ∧ t.lookup d = some .directory ∧ t.walk d (Path.mk name).parts = .ok m := by
  obtain ⟨kept, idle, -, parts, allIdle, joined⟩ := parts_join ne name
  have front : ∃ more, (p.join name).text.toList = p.text.toList ++ more := by
    rw [Path.join]
    split
    · exact ⟨name.toList, by simp⟩
    · exact ⟨'/' :: name.toList, by simp⟩
  obtain ⟨more, text⟩ := front
  have listNe : p.text.toList ≠ [] := fun empty => ne (String.toList_eq_nil_iff.mp empty)
  have joinNe : (p.join name).text ≠ "" := by
    intro empty
    rw [empty] at text
    exact listNe (List.append_eq_nil_iff.mp text.symm).1
  have starts : t.start (p.join name) = t.start p := by
    rw [start, start, Path.isAbsolute, Path.isAbsolute, text, List.head?_append_of_ne_nil _ listNe]
  simp only [locate_eq_ok_iff, joined, parts, starts]
  constructor
  · rintro ⟨-, walked⟩
    rw [walk_append] at walked
    cases reached : t.walk (t.start p) kept with
    | error why =>
      rw [reached] at walked
      cases walked
    | ok d =>
      rw [reached] at walked
      have directory := lookup_of_walk (Path.parts_ne_nil _) walked
      refine ⟨d, ⟨ne, ?_⟩, directory, walked⟩
      rw [walk_append, reached]
      exact walk_of_idle directory allIdle
  · rintro ⟨d, ⟨-, walkedBefore⟩, -, walked⟩
    refine ⟨joinNe, ?_⟩
    rw [walk_append, walk_idle allIdle walkedBefore]
    exact walked

theorem locate_entryPath {p : Path} {l : Location} {name : String} (located : t.locate p = .ok l)
    (directory : t.lookup l = some .directory) (proper : IsProper name) :
    t.locate (entryPath p name) = .ok (l ++ [name]) := by
  have parts := Path.parts_of_whole proper.whole
  have follows (d : Location) (directory : t.lookup d = some .directory) :
      t.walk d (Path.mk name).parts = .ok (d ++ [name]) := by
    have step : t.follow d name = .ok (d ++ [name]) := by
      refine follow_eq_ok_iff.mpr ⟨directory, ?_⟩
      rw [if_neg (by simp [proper.counts]), if_neg proper.down]
    have start : t.walk d ([] ++ [name]) = .ok (d ++ [name]) := walk_concat_eq_ok_iff.mpr ⟨d, rfl, step⟩
    rw [parts]
    exact start
  rw [entryPath]
  split
  · next here =>
    have top : l = t.base := by
      rw [locate_eq_placeOf located, here]
      rfl
    have text : name ≠ "" := by
      rintro rfl
      exact absurd proper.counts (by decide)
    have relative : (Path.mk name).isAbsolute = false := by
      rw [Path.isAbsolute, beq_eq_false_iff_ne]
      exact fun slash => proper.whole (List.mem_of_head? slash)
    rw [top] at directory ⊢
    rw [locate_eq_ok_iff, start, relative]
    exact ⟨text, follows t.base directory⟩
  · have ne := (locate_eq_ok_iff.mp located).1
    exact (locate_join_eq_ok_iff ne).mpr ⟨l, located, directory, follows l directory⟩

theorem locate_pathBelow {p : Path} {l names : Location} (located : t.locate p = .ok l)
    (reached : Reached t (l ++ names)) : t.locate (pathBelow p names) = .ok (l ++ names) := by
  induction names generalizing p l with
  | nil => simpa [pathBelow] using located
  | cons name names ih =>
    have directory : t.lookup l = some .directory := by
      have above := reached.above l.length (by simp)
      rwa [List.take_left] at above
    have next := locate_entryPath located directory (reached.proper name (by simp))
    have shift : l ++ name :: names = (l ++ [name]) ++ names := by simp
    rw [shift] at reached ⊢
    exact ih next reached

end FileTree

/-! ### Trees that differ in outputs -/

namespace FileTree

variable {t u : FileTree} {suffix : String}

/-- Whether a path counts when outputs are passed over: it is not named like one, or leads to a
directory. -/
def counts (t : FileTree) (suffix : String) (p : Path) : Bool := !p.isOutput suffix || t.isDirectory p

theorem SameDirectories.counts (same : SameDirectories t u) : t.counts suffix = u.counts suffix := by
  funext p
  rw [FileTree.counts, FileTree.counts, same.isDirectory]

theorem counts_eq_false {p : Path} {m : Location} (located : t.locate p = .ok m)
    (other : t.lookup m ≠ some .directory) (output : p.isOutput suffix = true) : t.counts suffix p = false := by
  have noDirectory : t.isDirectory p = false := by
    rw [Bool.eq_false_iff, ne_eq, isDirectory_iff]
    rintro ⟨m', located', directory⟩
    rw [Except.ok.inj (located.symm.trans located')] at other
    exact other directory
  rw [counts, output, noDirectory]
  rfl

theorem SameDirectories.locate_alike (same : SameDirectories t u) (p : Path) :
    (∃ l, t.locate p = .ok l ∧ u.locate p = .ok l) ∨
      ∃ why why', t.locate p = .error why ∧ u.locate p = .error why' := by
  cases here : t.locate p with
  | ok l => exact .inl ⟨l, rfl, same.locate.mp here⟩
  | error why =>
    cases there : u.locate p with
    | error why' => exact .inr ⟨why, why', rfl, rfl⟩
    | ok l =>
      rw [same.locate.mpr there] at here
      cases here

/-- Two trees that differ only in files which are named like outputs. -/
structure SameBesides (suffix : String) (t u : FileTree) : Prop where
  directories : SameDirectories t u
  files : ∀ m content, t.lookup m = some (.file content) → ∃ content', u.lookup m = some (.file content')
  entry : ∀ p : Path, p.isOutput suffix = false → t.entryAt? p = u.entryAt? p
  below : ∀ p, (t.entriesBelow p).filter (fun e => t.counts suffix e.1) =
    (u.entriesBelow p).filter (fun e => t.counts suffix e.1)

theorem SameBesides.refl (suffix : String) (t : FileTree) : SameBesides suffix t t :=
  ⟨.refl t, fun _ content stands => ⟨content, stands⟩, fun _ _ => rfl, fun _ => rfl⟩

theorem SameBesides.trans {v : FileTree} (first : SameBesides suffix t u) (second : SameBesides suffix u v) :
    SameBesides suffix t v := by
  refine ⟨first.directories.trans second.directories, fun m content stands => ?_, fun p other => ?_, fun p => ?_⟩
  · obtain ⟨content', stands'⟩ := first.files m content stands
    exact second.files m content' stands'
  · rw [first.entry p other, second.entry p other]
  · have later := second.below p
    rw [← first.directories.counts] at later
    rw [first.below, later]

theorem filterMap_putEntry {β : Type} {f : Location × Entry → Option β} {m : Location}
    (skips : ∀ e, f (m, e) = none) (e : Entry) (es : List (Location × Entry)) :
    (putEntry m e es).filterMap f = es.filterMap f := by
  induction es with
  | nil => simp [putEntry, skips]
  | cons x es ih =>
    obtain ⟨m', e'⟩ := x
    rw [putEntry]
    split
    · next same =>
      subst same
      simp [skips]
    · simp [List.filterMap_cons, ih]

theorem filterMap_standing_put {β : Type} {f : Location × Entry → Option β} {m : Location}
    (skips : ∀ e, f (m, e) = none) (e : Entry) :
    (t.put m e).standing.filterMap f = t.standing.filterMap f := by
  rw [standing, standing, List.filterMap_append, List.filterMap_append, List.filterMap_filter,
    List.filterMap_filter, put]
  congr 1
  exact filterMap_putEntry (fun e => by simp [skips]) e t.entries

theorem sameBesides_put {m : Location} {name : String} {content : Content} (reached : Reached t m)
    (other : t.lookup m ≠ some .directory) (last : m.getLast? = some name)
    (recognised : isOutputName suffix name = true) : SameBesides suffix t (t.put m (.file content)) := by
  have ne := not_prefix_of_lookup other
  have directories : SameDirectories t (t.put m (.file content)) := sameDirectories_put other
  have isOutput {p : Path} (located : t.locate p = .ok m) : p.isOutput suffix = true := by
    have fileName : p.fileName? = some name := (fileName?_of_locate located other).trans last
    rw [Path.isOutput_of_fileName? fileName, recognised]
  refine ⟨directories, fun m' content' stands => ?_, fun p notOutput => ?_, fun p => ?_⟩
  · rw [lookup_put _ _ _ _ ne]
    split
    · exact ⟨content, rfl⟩
    · exact ⟨content', stands⟩
  · rw [entryAt?, entryAt?]
    rcases directories.locate_alike p with ⟨l, located, there⟩ | ⟨why, why', located, there⟩
    · rw [located, there]
      dsimp only
      rw [lookup_put _ _ _ _ ne]
      split
      · next same =>
        rw [same] at located
        rw [isOutput located] at notOutput
        cases notOutput
      · rfl
    · rw [located, there]
  · rw [entriesBelow, entriesBelow]
    rcases directories.locate_alike p with ⟨l, located, there⟩ | ⟨why, why', located, there⟩
    · have alike : t.isDirectoryAt l = (t.put m (.file content)).isDirectoryAt l := by
        rw [Bool.eq_iff_iff, isDirectoryAt_iff, isDirectoryAt_iff, directories.lookup l]
      rw [located, there]
      dsimp only
      rw [← alike]
      split
      · rw [below, below, List.map_filterMap, List.map_filterMap, List.filter_filterMap,
          List.filter_filterMap]
        refine (filterMap_standing_put (fun e => ?_) _).symm
        dsimp only
        split
        · next lies =>
          rw [Bool.and_eq_true, List.isPrefixOf_iff_prefix] at lies
          have whole : l ++ m.drop l.length = m := List.prefix_iff_eq_append.mp lies.1
          have leads := locate_pathBelow located (whole.symm ▸ reached)
          rw [whole] at leads
          simp [counts_eq_false leads other (isOutput leads)]
        · rfl
      · rfl
    · rw [located, there]

/-! ### What patterns match -/

theorem entriesBelow_eq_nil {p : Path} (noDirectory : t.isDirectory p = false) : t.entriesBelow p = [] := by
  rw [entriesBelow]
  cases located : t.locate p with
  | error why => rfl
  | ok l =>
    have absent : ¬t.isDirectoryAt l = true := by
      rw [isDirectoryAt_iff]
      intro directory
      rw [isDirectory_iff.mpr ⟨l, located, directory⟩] at noDirectory
      cases noDirectory
    exact if_neg absent

theorem takeStep_eq_nil {p : Path} (skipped : t.counts suffix p = false) (s : PatternStep) :
    t.takeStep s p = [] := by
  rw [counts, Bool.or_eq_false_iff, Bool.not_eq_false'] at skipped
  obtain ⟨isOutput, noDirectory⟩ := skipped
  have filled : p.text ≠ "" ∧ p.components ≠ [.current] := by
    constructor
    · intro empty
      have none : (Path.mk p.text).fileName? = none := by
        rw [empty]
        rfl
      rw [Path.isOutput, Path.stem?, none] at isOutput
      cases isOutput
    · intro here
      rw [Path.isOutput, Path.stem?, Path.fileName?, here] at isOutput
      cases isOutput
  have nowhere (name : String) : (t.entryAt? (entryPath p name)).isSome = false := by
    rw [entryPath, if_neg filled.2, entryAt?]
    cases located : t.locate (p.join name) with
    | error why => rfl
    | ok m =>
      obtain ⟨d, leads, directory, -⟩ := (locate_join_eq_ok_iff filled.1).mp located
      rw [isDirectory_iff.mpr ⟨d, leads, directory⟩] at noDirectory
      cases noDirectory
  rw [takeStep, entriesBelow_eq_nil noDirectory, noDirectory]
  dsimp only
  split
  · rfl
  · split
    · rw [nowhere]
      simp
    · simp

theorem filter_map_fst_congr {keep : Path → Bool} (fits : Path × Location × Entry → Bool)
    {es es' : List (Path × Location × Entry)}
    (alike : es.filter (fun e => keep e.1) = es'.filter (fun e => keep e.1)) :
    ((es.filter fits).map fun e => e.1).filter keep = ((es'.filter fits).map fun e => e.1).filter keep := by
  have swap (es : List (Path × Location × Entry)) : ((es.filter fits).map fun e => e.1).filter keep =
      ((es.filter fun e => keep e.1).filter fits).map fun e => e.1 := by
    rw [List.filter_map, List.filter_comm]
    rfl
  rw [swap, swap, alike]

theorem filter_takeStep (same : SameBesides suffix t u) (s : PatternStep) (p : Path) :
    (t.takeStep s p).filter (t.counts suffix) = (u.takeStep s p).filter (t.counts suffix) := by
  have stands {q : Path} (counted : t.counts suffix q = true) : (t.entryAt? q).isSome = (u.entryAt? q).isSome := by
    rw [counts, Bool.or_eq_true, Bool.not_eq_true'] at counted
    rcases counted with other | directory
    · rw [same.entry q other]
    · have there := directory
      rw [same.directories.isDirectory] at there
      rw [isDirectory, beq_iff_eq] at directory there
      rw [directory, there]
  rw [takeStep, takeStep, same.directories.isDirectory p]
  dsimp only
  split
  · exact filter_map_fst_congr _ (same.below p)
  · split
    · next text literal =>
      split
      · rfl
      · cases counted : t.counts suffix (entryPath p (String.ofList text)) with
        | true => rw [stands counted]
        | false =>
          have skipped : [entryPath p (String.ofList text)].filter (t.counts suffix) = [] := by
            simp [counted]
          split <;> split <;> simp [skipped]
    · rw [List.filter_append, List.filter_append]
      congr 1
      refine filter_map_fst_congr _ ?_
      rw [List.filter_comm, same.below p, List.filter_comm]

theorem filter_flatMap_congr {α : Type} {f g : α → List α} {keep : α → Bool}
    (skips : ∀ a, keep a = false → f a = []) (skips' : ∀ a, keep a = false → g a = [])
    (same : ∀ a, (f a).filter keep = (g a).filter keep) {as bs : List α}
    (start : as.filter keep = bs.filter keep) : (as.flatMap f).filter keep = (bs.flatMap g).filter keep := by
  have kept {f : α → List α} (skips : ∀ a, keep a = false → f a = []) (as : List α) :
      (as.flatMap f).filter keep = (as.filter keep).flatMap fun a => (f a).filter keep := by
    induction as with
    | nil => rfl
    | cons a as ih =>
      rw [List.flatMap_cons, List.filter_append, ih]
      cases here : keep a with
      | true => simp [here]
      | false => simp [here, skips a here]
  rw [kept skips, kept skips', start]
  simp only [same]

theorem filter_foldl_takeStep (same : SameBesides suffix t u) (steps : List PatternStep) {ps qs : List Path}
    (start : ps.filter (t.counts suffix) = qs.filter (t.counts suffix)) :
    (steps.foldl (fun ps s => ps.flatMap (t.takeStep s)) ps).filter (t.counts suffix) =
      (steps.foldl (fun ps s => ps.flatMap (u.takeStep s)) qs).filter (t.counts suffix) := by
  induction steps generalizing ps qs with
  | nil => exact start
  | cons s steps ih =>
    refine ih (filter_flatMap_congr (fun p => (takeStep_eq_nil · s)) (fun p skipped => ?_)
      (filter_takeStep same s) start)
    rw [same.directories.counts] at skipped
    exact takeStep_eq_nil skipped s

theorem filter_glob (same : SameBesides suffix t u) (q : Pattern) :
    (t.glob q).filter (t.counts suffix) = (u.glob q).filter (t.counts suffix) := by
  have reached := filter_foldl_takeStep same q.steps
    (rfl : [if q.isAbsolute then root else here].filter (t.counts suffix) = _)
  have directories : t.isDirectory = u.isDirectory := funext same.directories.isDirectory
  have final {ps qs : List Path} (alike : ps.filter (t.counts suffix) = qs.filter (t.counts suffix)) :
      (if q.wantsDirectory then ps.filter t.isDirectory else ps).filter (t.counts suffix) =
        (if q.wantsDirectory then qs.filter u.isDirectory else qs).filter (t.counts suffix) := by
    split
    · rw [← directories, List.filter_comm, alike, List.filter_comm]
    · exact alike
  refine final ?_
  split
  · refine filter_flatMap_congr (fun p skipped => ?_) (fun p skipped => ?_)
      (fun p => filter_map_fst_congr _ (same.below p)) reached
    · rw [counts, Bool.or_eq_false_iff] at skipped
      rw [entriesBelow_eq_nil skipped.2]
      rfl
    · rw [counts, Bool.or_eq_false_iff, directories] at skipped
      rw [entriesBelow_eq_nil skipped.2]
      rfl
  · exact reached

theorem SameBesides.isFile_of_not_isOutput (same : SameBesides suffix t u) {p : Path}
    (other : p.isOutput suffix = false) : t.isFile p = u.isFile p := by
  rw [isFile, isFile, same.entry p other]

end FileTree

open FileTree

variable {t u : FileTree} {suffix : String}

theorem matching_of_sameBesides (same : SameBesides suffix t u) {text : String} {ps : List Path}
    (found : matching t text = .ok ps) : ∃ qs, matching u text = .ok qs ∧
      qs.filter (fun p => !p.isOutput suffix) = ps.filter fun p => !p.isOutput suffix := by
  unfold matching at found ⊢
  cases parsed : Pattern.parse? text with
  | none =>
    rw [parsed] at found
    cases found
  | some q =>
    rw [parsed] at found
    obtain rfl := Except.ok.inj found
    refine ⟨_, rfl, ?_⟩
    have narrowed (v : FileTree) (agrees : ∀ p : Path, p.isOutput suffix = false → t.isFile p = v.isFile p) :
        ((v.glob q).filter fun p => v.isFile p && p.isComponent).filter (fun p => !p.isOutput suffix) =
          ((v.glob q).filter (t.counts suffix)).filter fun p =>
            !p.isOutput suffix && (t.isFile p && p.isComponent) := by
      rw [List.filter_filter, List.filter_filter]
      refine List.filter_congr fun p _ => ?_
      cases output : p.isOutput suffix with
      | true => rfl
      | false => simp [counts, output, agrees p output]
    rw [narrowed t fun _ _ => rfl, narrowed u fun _ => same.isFile_of_not_isOutput, filter_glob same q]

/-! ### Patterns that are the path of a file -/

def isMark (c : Char) : Bool := c == '*' || c == '?' || c == '['

theorem read?_of_markless {cs : List Char} (markless : ∀ c ∈ cs, isMark c = false) {fuel : Nat}
    (enough : cs.length ≤ fuel) : Piece.read? fuel cs = some (cs.map .char) := by
  induction cs generalizing fuel with
  | nil => simp [Piece.read?]
  | cons c cs ih =>
    obtain ⟨fuel, rfl⟩ : ∃ n, fuel = n + 1 := ⟨fuel - 1, by rw [List.length_cons] at enough; omega⟩
    have here := markless c List.mem_cons_self
    simp only [isMark, Bool.or_eq_false_iff, beq_eq_false_iff_ne] at here
    obtain ⟨⟨star, question⟩, bracket⟩ := here
    have later := ih (fun d mem => markless d (List.mem_cons_of_mem c mem)) (by simpa using enough)
    rw [Piece.read? , later]
    · rfl
    · exact fun _ same _ => star same
    · exact star
    · exact question
    · exact bracket

theorem literal?_map_char (cs : List Char) : Piece.literal? (cs.map .char) = some cs := by
  induction cs with
  | nil => rfl
  | cons c cs ih => simp [Piece.literal?, ih]

theorem readSteps?_markless_append {parts : List (List Char)}
    (markless : ∀ part ∈ parts, ∀ c ∈ part, isMark c = false) (more : List (List Char)) :
    Pattern.readSteps? false (parts ++ more) = (Pattern.readSteps? false more).map fun r =>
      ((parts.map fun part => ⟨false, part.map .char⟩) ++ r.1, r.2) := by
  induction parts with
  | nil => simp
  | cons part parts ih =>
    have here := markless part List.mem_cons_self
    have noStars : part ≠ ['*', '*'] := by
      rintro rfl
      exact absurd (here '*' (by simp)) (by decide)
    rw [List.cons_append, Pattern.readSteps?, if_neg noStars, read?_of_markless here (Nat.le_refl _),
      ih fun other mem => markless other (List.mem_cons_of_mem part mem)]
    cases Pattern.readSteps? false more <;> rfl

theorem readSteps?_of_markless {parts : List (List Char)} (markless : ∀ part ∈ parts, ∀ c ∈ part, isMark c = false) :
    Pattern.readSteps? false parts = some (parts.map fun part => ⟨false, part.map .char⟩, false) := by
  have read := readSteps?_markless_append markless []
  rw [List.append_nil] at read
  rw [read]
  simp [Pattern.readSteps?]

theorem parts_entryPath (p : Path) {name : String} (whole : '/' ∉ name.toList) :
    ∃ kept, (entryPath p name).parts = kept ++ [name] := by
  have single := Path.parts_of_whole whole
  rw [entryPath]
  split
  · exact ⟨[], single⟩
  · by_cases empty : p.text = ""
    · refine ⟨[], ?_⟩
      rw [Path.join, empty]
      simpa using single
    · obtain ⟨kept, -, -, -, -, joined⟩ := parts_join empty name
      exact ⟨kept, by rw [joined, single]⟩

theorem behindRoot_suffix {text : List Char} : Pattern.behindRoot text <:+ text := by
  unfold Pattern.behindRoot
  split
  · exact List.suffix_cons _ _
  · exact List.suffix_refl _

theorem split_behindRoot (text : List Char) :
    Text.split '/' (Pattern.behindRoot text) = Text.split '/' text ∨
      Text.split '/' text = [] :: Text.split '/' (Pattern.behindRoot text) := by
  unfold Pattern.behindRoot
  split
  · exact .inr (by simp [Text.split])
  · exact .inl rfl

theorem fileName?_of_mem_glob {pattern : String} (markless : pattern.toList.any isMark = false)
    {before : List String} {name : String} (parts : (Path.mk pattern).parts = before ++ [name])
    (proper : IsProper name) {q : Pattern} (parsed : Pattern.parse? pattern = some q) {p : Path}
    (mem : p ∈ t.glob q) : p.fileName? = some name := by
  have pieces : Text.split '/' pattern.toList = (before ++ [name]).map String.toList := by
    rw [← parts, Path.parts, List.map_map]
    simp
  have nameNe : name.toList ≠ [] := by
    intro empty
    rw [String.toList_eq_nil_iff] at empty
    rw [empty] at proper
    exact absurd proper.counts (by decide)
  obtain ⟨before, pieces'⟩ : ∃ before, Text.split '/' (Pattern.behindRoot pattern.toList) =
      (before ++ [name]).map String.toList := by
    rcases split_behindRoot pattern.toList with same | root
    · exact ⟨before, same.trans pieces⟩
    · rw [pieces] at root
      cases before with
      | nil => exact absurd (List.cons.inj root).1 nameNe
      | cons first before => exact ⟨before, (List.cons.inj root).2.symm⟩
  have whole : Pattern.partsOf (Pattern.behindRoot pattern.toList) = (before ++ [name]).map String.toList := by
    rw [Pattern.partsOf, pieces', List.map_append, List.reverse_append]
    cases list : name.toList with
    | nil => exact absurd list nameNe
    | cons c cs => simp [list]
  have noMarks : ∀ part ∈ (before ++ [name]).map String.toList, ∀ c ∈ part, isMark c = false := by
    intro part found c mem
    rw [← pieces'] at found
    have inside : c ∈ Pattern.behindRoot pattern.toList := by
      rw [← Text.join_split '/' (Pattern.behindRoot pattern.toList)]
      exact Text.mem_join_of_mem found mem
    have marked := List.any_eq_false.mp markless c (behindRoot_suffix.mem inside)
    exact Bool.eq_false_iff.mpr marked
  rw [Pattern.parse?, whole, readSteps?_of_markless noMarks] at parsed
  obtain rfl := Option.some.inj parsed
  have final : p ∈ (((before ++ [name]).map String.toList).map fun part =>
      (⟨false, part.map .char⟩ : PatternStep)).foldl (fun ps s => ps.flatMap (t.takeStep s))
        [if pattern.toList.head? == some '/' then root else here] := by
    rw [glob] at mem
    simp only [Bool.false_eq_true, if_false] at mem
    split at mem
    · exact List.mem_of_mem_filter mem
    · exact mem
  rw [List.map_append, List.map_append, List.foldl_append] at final
  obtain ⟨p', -, step⟩ := List.mem_flatMap.mp final
  have notDot : ¬(decide (name.toList = ['.']) || decide (name.toList = ['.', '.'])) = true := by
    rw [Bool.or_eq_true, decide_eq_true_iff, decide_eq_true_iff, not_or]
    constructor
    · intro dot
      have same : name = "." := String.toList_inj.mp dot
      rw [same] at proper
      exact absurd proper.counts (by decide)
    · exact fun dots => proper.down (String.toList_inj.mp dots)
  rw [takeStep, literal?_map_char] at step
  dsimp only at step
  rw [if_neg (by decide), if_neg notDot, String.ofList_toList] at step
  split at step
  · obtain rfl := List.mem_singleton.mp step
    obtain ⟨kept, parts⟩ := parts_entryPath p' proper.whole
    exact Path.fileName?_of_parts parts proper
  · cases step

theorem isOutput_of_matching {pattern : String} (markless : pattern.toList.any isMark = false)
    (file : u.isFile ⟨pattern⟩ = true) (output : (Path.mk pattern).isOutput suffix = true) {ps : List Path}
    (found : matching t pattern = .ok ps) : ∀ p ∈ ps, p.isOutput suffix = true := by
  intro p mem
  obtain ⟨l, content, located, stands⟩ := isFile_iff.mp file
  obtain ⟨before, d, name, parts, -, -, -, proper⟩ := exists_parts_of_locate located (by simp [stands])
  unfold matching at found
  cases parsed : Pattern.parse? pattern with
  | none =>
    rw [parsed] at found
    cases found
  | some q =>
    rw [parsed] at found
    obtain rfl := Except.ok.inj found
    have fileName := fileName?_of_mem_glob markless parts proper parsed (List.mem_of_mem_filter mem)
    rw [Path.isOutput_of_fileName? (Path.fileName?_of_parts parts proper)] at output
    rw [Path.isOutput_of_fileName? fileName, output]

/-- What a pattern names when outputs have come into a tree. Only a pattern with marks that has become the
path of a file may name less than before. -/
theorem named_of_sameBesides (same : SameBesides suffix t u) {pattern : String} {ps : List Path}
    (found : named t pattern = .ok ps) : ∃ qs, named u pattern = .ok qs ∧
      (∀ p ∈ qs, p.isOutput suffix = false → p ∈ ps) ∧
      ((pattern.toList.any isMark = true → u.isFile ⟨pattern⟩ = true → t.isFile ⟨pattern⟩ = true) →
        qs.filter (fun p => !p.isOutput suffix) = ps.filter fun p => !p.isOutput suffix) := by
  have matched {text : String} (found : matching t text = .ok ps) : ∃ qs, matching u text = .ok qs ∧
      (∀ p ∈ qs, p.isOutput suffix = false → p ∈ ps) ∧
        qs.filter (fun p => !p.isOutput suffix) = ps.filter fun p => !p.isOutput suffix := by
    obtain ⟨qs, there, alike⟩ := matching_of_sameBesides same found
    refine ⟨qs, there, fun p mem other => ?_, alike⟩
    have kept : p ∈ qs.filter fun p => !p.isOutput suffix := List.mem_filter.mpr ⟨mem, by simp [other]⟩
    rw [alike] at kept
    exact List.mem_of_mem_filter kept
  unfold named at found ⊢
  dsimp only at found ⊢
  rw [← same.directories.isDirectory]
  split
  · next directory =>
    rw [if_pos directory] at found
    obtain ⟨qs, there, subset, alike⟩ := matched found
    exact ⟨qs, there, subset, fun _ => alike⟩
  · next noDirectory =>
    rw [if_neg noDirectory] at found
    by_cases file : t.isFile ⟨pattern⟩ = true
    · have fileThere : u.isFile ⟨pattern⟩ = true := by
        obtain ⟨l, content, located, stands⟩ := isFile_iff.mp file
        obtain ⟨content', stands'⟩ := same.files l content stands
        exact isFile_iff.mpr ⟨l, content', same.directories.locate.mp located, stands'⟩
      rw [if_pos file] at found
      obtain rfl := Except.ok.inj found
      rw [if_pos fileThere]
      exact ⟨_, rfl, fun _ mem _ => mem, fun _ => rfl⟩
    · rw [if_neg file] at found
      by_cases fileThere : u.isFile ⟨pattern⟩ = true
      · have output : (Path.mk pattern).isOutput suffix = true := by
          by_contra other
          rw [Bool.not_eq_true] at other
          rw [same.isFile_of_not_isOutput other] at file
          exact file fileThere
        have outputs : ∀ p ∈ (if (Path.mk pattern).isComponent then [Path.mk pattern] else []),
            p.isOutput suffix = true := by
          intro p mem
          split at mem
          · rw [List.mem_singleton.mp mem]
            exact output
          · cases mem
        rw [if_pos fileThere]
        refine ⟨_, rfl, fun p mem other => ?_, fun marked => ?_⟩
        · rw [outputs p mem] at other
          cases other
        · have markless : pattern.toList.any isMark = false := by
            by_contra marks
            exact file (marked (by simpa using marks) fileThere)
          have matchedOutputs := isOutput_of_matching markless fileThere output found
          rw [List.filter_eq_nil_iff.mpr fun p mem => by simp [outputs p mem],
            List.filter_eq_nil_iff.mpr fun p mem => by simp [matchedOutputs p mem]]
      · rw [if_neg fileThere]
        obtain ⟨qs, there, subset, alike⟩ := matched found
        exact ⟨qs, there, subset, fun _ => alike⟩

/-! ### The files of a job -/

def PatternsKept (patterns : List String) (t u : FileTree) : Prop :=
  ∀ pattern ∈ patterns, pattern.toList.any isMark = true →
    u.isFile ⟨pattern⟩ = true → t.isFile ⟨pattern⟩ = true

theorem mapM_of_sameBesides (same : SameBesides suffix t u) {patterns : List String} {lists : List (List Path)}
    (found : patterns.mapM (named t) = .ok lists) : ∃ lists', patterns.mapM (named u) = .ok lists' ∧
      (∀ p ∈ lists'.flatten, p.isOutput suffix = false → p ∈ lists.flatten) ∧
      (PatternsKept patterns t u → lists'.flatten.filter (fun p => !p.isOutput suffix) =
        lists.flatten.filter fun p => !p.isOutput suffix) := by
  induction patterns generalizing lists with
  | nil =>
    obtain rfl : [] = lists := Except.ok.inj found
    exact ⟨[], rfl, fun p mem _ => mem, fun _ => rfl⟩
  | cons pattern patterns ih =>
    obtain ⟨ps, later, first, rest, rfl⟩ := mapM_cons_eq_ok_iff.mp found
    obtain ⟨qs, first', subset, alike⟩ := named_of_sameBesides same first
    obtain ⟨later', rest', subsets, alikes⟩ := ih rest
    refine ⟨qs :: later', mapM_cons_eq_ok_iff.mpr ⟨qs, later', first', rest', rfl⟩, fun p mem other => ?_,
      fun kept => ?_⟩
    · rw [List.flatten_cons, List.mem_append] at mem ⊢
      rcases mem with here | there
      · exact .inl (subset p here other)
      · exact .inr (subsets p there other)
    · rw [List.flatten_cons, List.flatten_cons, List.filter_append, List.filter_append,
        alike (kept pattern List.mem_cons_self),
        alikes fun other mem => kept other (List.mem_cons_of_mem pattern mem)]

theorem isOutput_of_order_eq {p q : Path} (same : p.order q = .eq) : p.isOutput suffix = q.isOutput suffix := by
  have components : p.components = q.components := PathComponent.orderAll_eq_iff.mp same
  have fileNames : p.fileName? = q.fileName? := by rw [Path.fileName?, Path.fileName?, components]
  rw [Path.isOutput, Path.isOutput, Path.stem?, Path.stem?, fileNames]

theorem inputs_of_sameBesides {j : Job} (beside : j.overwrites = false)
    (same : SameBesides j.configuration.suffix t u) {inputs : List Path} (found : j.inputs t = .ok inputs) :
    ∃ inputs', j.inputs u = .ok inputs' ∧
      (∀ p ∈ inputs', t.isFile p = true ∧ ∃ q ∈ inputs, q.components = p.components) ∧
      (PatternsKept j.patterns t u → inputs' = inputs) := by
  obtain ⟨lists, names, rfl⟩ := inputs_eq_ok_iff.mp found
  obtain ⟨lists', names', subset, alike⟩ := mapM_of_sameBesides same names
  have passes : j.passesOver = fun p => p.isOutput j.configuration.suffix := by
    funext p
    rw [Job.passesOver, beside]
    rfl
  have respects : ∀ p q : Path, p.order q = .eq →
      (!p.isOutput j.configuration.suffix) = !q.isOutput j.configuration.suffix := fun p q order => by
    rw [isOutput_of_order_eq order]
  refine ⟨_, inputs_eq_ok_iff.mpr ⟨lists', names', rfl⟩, ?_⟩
  rw [passes, filter_listed respects, filter_listed respects]
  refine ⟨fun p mem => ?_, fun kept => by rw [alike kept]⟩
  obtain ⟨listed', other⟩ := List.mem_filter.mp (mem_of_mem_listed mem)
  have before := subset p listed' (by simpa using other)
  obtain ⟨pattern, -, ps, named, mem⟩ := mem_flatten_of_mapM names before
  exact ⟨(isComponent_of_named named mem).1, exists_mem_listed (List.mem_filter.mpr ⟨before, other⟩)⟩

end VueOptions.Project
