import Mathlib.Data.List.Infix
import VueOptions.Project.FileTree

/-!
Where paths lead. A path is followed part by part, and only a directory can be followed further; so the
place of a path depends on the directories of a tree alone, and writing files moves no place
(`locate_congr`). A path that leads to no directory ends with the name of its place
(`exists_parts_of_locate`).
-/

set_option autoImplicit false

namespace VueOptions.Project

structure IsProper (name : String) : Prop where
  counts : Path.isIdle name = false
  down : name ≠ ".."
  whole : '/' ∉ name.toList

private theorem isProper_iff {name : String} : Path.isProper name = true ↔ IsProper name := by
  simp only [Path.isProper, Bool.and_eq_true, Bool.not_eq_true', bne_iff_ne, ne_eq,
    List.contains_eq_mem, decide_eq_false_iff_not]
  exact ⟨fun ⟨⟨counts, down⟩, whole⟩ => ⟨counts, down, whole⟩,
    fun proper => ⟨⟨proper.counts, proper.down⟩, proper.whole⟩⟩

namespace Path

theorem slash_not_mem_of_mem_parts {p : Path} {part : String} (mem : part ∈ p.parts) :
    '/' ∉ part.toList := by
  obtain ⟨piece, found, rfl⟩ := List.mem_map.mp mem
  have absent := Text.not_mem_of_mem_split found
  rwa [String.toList_ofList]

theorem parts_ne_nil (p : Path) : p.parts ≠ [] := by
  simp [parts, Text.split_ne_nil]

private theorem ofPart?_eq_some {name : String} (proper : IsProper name) :
    PathComponent.ofPart? name = some (.name name) := by
  have counts := proper.counts
  simp only [isIdle, Bool.or_eq_false_iff, decide_eq_false_iff_not] at counts
  simp [PathComponent.ofPart?, counts.1, counts.2, proper.down]

theorem fileName?_of_parts {p : Path} {before : List String} {name : String}
    (parts : p.parts = before ++ [name]) (proper : IsProper name) : p.fileName? = some name := by
  have last : p.components.getLast? = some (.name name) := by
    rw [components, parts, List.filterMap_append, ← List.append_assoc]
    simp [ofPart?_eq_some proper]
  rw [fileName?, last]

end Path

namespace FileTree

variable {t u : FileTree}

def walk (t : FileTree) (l : Location) (parts : List String) : Except Obstacle Location :=
  parts.foldlM t.follow l

theorem locate_eq_ok_iff {p : Path} {l : Location} :
    t.locate p = .ok l ↔ p.text ≠ "" ∧ t.walk (t.start p) p.parts = .ok l := by
  rw [locate]
  split
  · next refused => simp [String.isEmpty_iff.mp refused]
  · next accepted =>
    rw [String.isEmpty_iff] at accepted
    simp [accepted, walk]

theorem follow_eq_ok_iff {l m : Location} {part : String} :
    t.follow l part = .ok m ↔ t.lookup l = some .directory ∧
      if Path.isIdle part then m = l
      else if part = ".." then m = l.dropLast
      else m = l ++ [part] := by
  rw [follow]
  cases stands : t.lookup l with
  | none => simp
  | some e =>
    cases e with
    | file content => simp
    | directory =>
      dsimp only
      by_cases idle : Path.isIdle part = true
      · rw [if_pos idle, if_pos idle, Except.ok.injEq]
        exact ⟨fun same => ⟨rfl, same.symm⟩, fun same => same.2.symm⟩
      rw [if_neg idle, if_neg idle]
      by_cases up : part = ".."
      · rw [if_pos up, if_pos up, Except.ok.injEq]
        exact ⟨fun same => ⟨rfl, same.symm⟩, fun same => same.2.symm⟩
      · rw [if_neg up, if_neg up, Except.ok.injEq]
        exact ⟨fun same => ⟨rfl, same.symm⟩, fun same => same.2.symm⟩

theorem walk_append (l : Location) (before after : List String) :
    t.walk l (before ++ after) = (t.walk l before).bind fun m => t.walk m after := by
  rw [walk, List.foldlM_append]
  rfl

theorem walk_concat_eq_ok_iff {l m : Location} {before : List String} {part : String} :
    t.walk l (before ++ [part]) = .ok m ↔ ∃ d, t.walk l before = .ok d ∧ t.follow d part = .ok m := by
  rw [walk_append]
  cases reached : t.walk l before with
  | error o => simp [Except.bind]
  | ok d =>
    have one : t.walk d [part] = t.follow d part := by simp [walk]
    simp [Except.bind, one]

def advance (l : Location) : PathComponent → Location
  | .root => []
  | .current => l
  | .parent => l.dropLast
  | .name n => l ++ [n]

def placeOf (t : FileTree) (components : List PathComponent) : Location :=
  components.foldl advance t.base

theorem lookup_above {l : Location} (above : l <+: t.base) : t.lookup l = some .directory :=
  if_pos (List.isPrefixOf_iff_prefix.mpr above)

theorem not_prefix_of_lookup {l : Location} (other : t.lookup l ≠ some .directory) : ¬l <+: t.base :=
  fun above => other (lookup_above above)

/-- A place that a path leads to: its names are proper, and there are directories above it. -/
structure Reached (t : FileTree) (l : Location) : Prop where
  proper : ∀ name ∈ l, IsProper name
  above : ∀ n < l.length, t.lookup (l.take n) = some .directory

theorem Reached.nil : Reached t [] := ⟨nofun, nofun⟩

theorem reached_base : Reached t t.base where
  proper name mem := isProper_iff.mp (List.all_eq_true.mp t.proper name mem)
  above n _ := lookup_above (List.take_prefix n t.base)

private theorem reached_start (p : Path) : Reached t (t.start p) := by
  rw [start]
  split
  · exact .nil
  · exact reached_base

theorem Reached.concat {l : Location} {name : String} (reached : Reached t l)
    (directory : t.lookup l = some .directory) (proper : IsProper name) : Reached t (l ++ [name]) := by
  constructor
  · intro other mem
    rcases List.mem_append.mp mem with old | new
    · exact reached.proper other old
    · exact List.mem_singleton.mp new ▸ proper
  · intro n lt
    rw [List.length_append, List.length_singleton] at lt
    by_cases within : n < l.length
    · rw [List.take_append_of_le_length (Nat.le_of_lt within)]
      exact reached.above n within
    · have all : n = l.length := by omega
      rw [all, List.take_left]
      exact directory

private theorem Reached.lookup_dropLast {l : Location} (reached : Reached t l) :
    t.lookup l.dropLast = some .directory := by
  by_cases top : l = []
  · rw [top]
    exact lookup_above List.nil_prefix
  · rw [List.dropLast_eq_take]
    apply reached.above
    have := List.length_pos_iff.mpr top
    omega

theorem Reached.dropLast {l : Location} (reached : Reached t l) : Reached t l.dropLast := by
  constructor
  · exact fun name mem => reached.proper name (List.mem_of_mem_dropLast mem)
  · intro n lt
    rw [List.length_dropLast] at lt
    rw [List.dropLast_eq_take, List.take_take, Nat.min_eq_left (by omega)]
    exact reached.above n (by omega)

theorem Reached.follow {l m : Location} {part : String} (reached : Reached t l)
    (whole : '/' ∉ part.toList) (step : t.follow l part = .ok m) : Reached t m := by
  obtain ⟨directory, goes⟩ := follow_eq_ok_iff.mp step
  split at goes
  · rwa [goes]
  · next counts =>
    split at goes
    · rw [goes]
      exact reached.dropLast
    · next down =>
      rw [goes]
      exact reached.concat directory ⟨by simpa using counts, down, whole⟩

theorem Reached.walk {l m : Location} {parts : List String} (reached : Reached t l)
    (whole : ∀ part ∈ parts, '/' ∉ part.toList) (walked : t.walk l parts = .ok m) : Reached t m := by
  induction parts using List.reverseRecOn generalizing m with
  | nil =>
    obtain rfl : l = m := Except.ok.inj walked
    exact reached
  | append_singleton before part ih =>
    obtain ⟨d, walked, step⟩ := walk_concat_eq_ok_iff.mp walked
    have before := ih (fun other mem => whole other (List.mem_append_left _ mem)) walked
    exact before.follow (whole part (by simp)) step

theorem reached_of_locate {p : Path} {l : Location} (located : t.locate p = .ok l) : Reached t l := by
  obtain ⟨-, walked⟩ := locate_eq_ok_iff.mp located
  exact (reached_start p).walk (fun _ => Path.slash_not_mem_of_mem_parts) walked

private theorem walk_eq_foldl {l m : Location} {parts : List String} (walked : t.walk l parts = .ok m) :
    m = (parts.filterMap PathComponent.ofPart?).foldl advance l := by
  induction parts using List.reverseRecOn generalizing m with
  | nil => exact (Except.ok.inj walked).symm
  | append_singleton before part ih =>
    obtain ⟨d, walked, step⟩ := walk_concat_eq_ok_iff.mp walked
    obtain ⟨-, goes⟩ := follow_eq_ok_iff.mp step
    rw [List.filterMap_append, List.foldl_append, ← ih walked]
    by_cases idle : Path.isIdle part = true
    · have nothing : PathComponent.ofPart? part = none := if_pos idle
      rw [if_pos idle] at goes
      simp [goes, nothing]
    · rw [if_neg idle] at goes
      by_cases up : part = ".."
      · rw [if_pos up] at goes
        simp [goes, up, PathComponent.ofPart?, advance]
      · have named : PathComponent.ofPart? part = some (.name part) := (if_neg idle).trans (if_neg up)
        rw [if_neg up] at goes
        simp [goes, named, advance]

theorem locate_eq_placeOf {p : Path} {m : Location} (located : t.locate p = .ok m) :
    m = t.placeOf p.components := by
  obtain ⟨-, walked⟩ := locate_eq_ok_iff.mp located
  rw [walk_eq_foldl walked, placeOf, Path.components, List.foldl_append, start]
  split
  · rfl
  · split <;> rfl

theorem exists_parts_of_locate {p : Path} {l : Location} (located : t.locate p = .ok l)
    (other : t.lookup l ≠ some .directory) : ∃ before d name, p.parts = before ++ [name] ∧
      t.walk (t.start p) before = .ok d ∧ t.lookup d = some .directory ∧ l = d ++ [name] ∧ IsProper name := by
  obtain ⟨-, walked⟩ := locate_eq_ok_iff.mp located
  obtain ⟨before, name, parts⟩ : ∃ before name, p.parts = before ++ [name] :=
    ⟨_, _, (List.dropLast_append_getLast p.parts_ne_nil).symm⟩
  rw [parts] at walked
  obtain ⟨d, walkedBefore, step⟩ := walk_concat_eq_ok_iff.mp walked
  obtain ⟨directory, goes⟩ := follow_eq_ok_iff.mp step
  have whole : ∀ part ∈ before ++ [name], '/' ∉ part.toList := fun part mem =>
    Path.slash_not_mem_of_mem_parts (parts ▸ mem)
  split at goes
  · exact absurd (goes ▸ directory) other
  · next counts =>
    split at goes
    · have reached : Reached t d := (reached_start p).walk
        (fun part mem => whole part (List.mem_append_left _ mem)) walkedBefore
      exact absurd (goes ▸ reached.lookup_dropLast) other
    · next down =>
      exact ⟨before, d, name, parts, walkedBefore, directory, goes, by simpa using counts, down,
        whole name (by simp)⟩

theorem fileName?_of_locate {p : Path} {l : Location} (located : t.locate p = .ok l)
    (other : t.lookup l ≠ some .directory) : p.fileName? = l.getLast? := by
  obtain ⟨before, d, name, parts, -, -, rfl, proper⟩ := exists_parts_of_locate located other
  rw [Path.fileName?_of_parts parts proper]
  simp

structure SameDirectories (t u : FileTree) : Prop where
  base : t.base = u.base
  lookup : ∀ l, t.lookup l = some .directory ↔ u.lookup l = some .directory

theorem SameDirectories.refl (t : FileTree) : SameDirectories t t := ⟨rfl, fun _ => Iff.rfl⟩

theorem SameDirectories.trans {v : FileTree} (first : SameDirectories t u) (second : SameDirectories u v) :
    SameDirectories t v :=
  ⟨first.base.trans second.base, fun l => (first.lookup l).trans (second.lookup l)⟩

theorem SameDirectories.follow (same : SameDirectories t u) {l m : Location} {part : String} :
    t.follow l part = .ok m ↔ u.follow l part = .ok m := by
  rw [follow_eq_ok_iff, follow_eq_ok_iff, same.lookup l]

theorem SameDirectories.walk (same : SameDirectories t u) {l m : Location} {parts : List String} :
    t.walk l parts = .ok m ↔ u.walk l parts = .ok m := by
  induction parts using List.reverseRecOn generalizing m with
  | nil => rfl
  | append_singleton before part ih =>
    simp only [walk_concat_eq_ok_iff, ih, same.follow]

theorem SameDirectories.locate (same : SameDirectories t u) {p : Path} {l : Location} :
    t.locate p = .ok l ↔ u.locate p = .ok l := by
  rw [locate_eq_ok_iff, locate_eq_ok_iff, same.walk, start, start, same.base]

theorem isDirectoryAt_iff {l : Location} : t.isDirectoryAt l = true ↔ t.lookup l = some .directory := by
  simp [isDirectoryAt]

theorem isDirectory_iff {p : Path} :
    t.isDirectory p = true ↔ ∃ l, t.locate p = .ok l ∧ t.lookup l = some .directory := by
  rw [isDirectory, entryAt?]
  cases located : t.locate p <;> simp

theorem SameDirectories.isDirectory (same : SameDirectories t u) (p : Path) :
    t.isDirectory p = u.isDirectory p := by
  rw [Bool.eq_iff_iff, isDirectory_iff, isDirectory_iff]
  exact exists_congr fun l => and_congr same.locate (same.lookup l)

theorem isFile_iff {p : Path} :
    t.isFile p = true ↔ ∃ l content, t.locate p = .ok l ∧ t.lookup l = some (.file content) := by
  rw [isFile, entryAt?]
  cases located : t.locate p with
  | error o => simp
  | ok l => cases stands : t.lookup l with
    | none => simp [stands]
    | some e => cases e <;> simp [stands]

theorem read_congr {p : Path} {l : Location} (here : t.locate p = .ok l) (there : u.locate p = .ok l)
    (same : t.lookup l = u.lookup l) : t.read p = u.read p := by
  rw [read, read, here, there]
  dsimp only
  rw [same]

theorem write_eq_ok_iff {p : Path} {s : String} :
    t.write p s = .ok u ↔ ∃ l, t.locate p = .ok l ∧ t.lookup l ≠ some .directory ∧
      u = t.put l (.file (.text s)) := by
  rw [write]
  cases located : t.locate p with
  | error o => simp
  | ok l =>
    dsimp only
    by_cases directory : t.lookup l = some .directory
    · simp [isDirectoryAt, directory]
    · have stands : ¬t.isDirectoryAt l = true := fun holds => directory (isDirectoryAt_iff.mp holds)
      rw [if_neg stands, Except.ok.injEq]
      constructor
      · exact fun same => ⟨l, rfl, directory, same.symm⟩
      · rintro ⟨m, same, -, rfl⟩
        rw [Except.ok.inj same]

theorem sameDirectories_put {l : Location} {content : Content} (other : t.lookup l ≠ some .directory) :
    SameDirectories t (t.put l (.file content)) := by
  refine ⟨rfl, fun m => ?_⟩
  rw [lookup_put t l m _ (not_prefix_of_lookup other)]
  split
  · next here =>
    rw [here]
    simp [other]
  · exact Iff.rfl

theorem put_eq_self {l : Location} {e : Entry} (below : ¬l <+: t.base) (stands : t.lookup l = some e) :
    t.put l e = t := by
  have entries : ∀ es : List (Location × Entry), es.lookup l = some e → putEntry l e es = es := by
    intro es
    induction es with
    | nil => simp
    | cons x es ih =>
      obtain ⟨m, f⟩ := x
      intro found
      rw [List.lookup_cons] at found
      by_cases here : m = l
      · subst here
        simp only [beq_self_eq_true, Option.some.injEq] at found
        rw [putEntry, if_pos rfl, found]
      · have skipped : (l == m) = false := by simpa using Ne.symm here
        rw [skipped] at found
        rw [putEntry, if_neg here, ih found]
  rw [lookup, if_neg (by rwa [List.isPrefixOf_iff_prefix])] at stands
  rw [put, entries t.entries stands]

end FileTree

end VueOptions.Project
