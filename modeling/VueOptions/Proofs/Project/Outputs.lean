import VueOptions.Project.Conversion
import VueOptions.Project.Discovery
import VueOptions.Proofs.Project.Places

/-!
Names of component files and of their outputs. A name is cut at its last dot, so the stem of a component
file can be read off the name of its output, and an output lies in the directory of its input
(`exists_component`). With a suffix that holds no dot the output is recognised by its name
(`isOutputName_outputName`).
-/

set_option autoImplicit false

namespace VueOptions.Project

theorem splitName_eq_some_iff {name stem extension : String} :
    splitName name = (stem, some extension) ↔ name = stem ++ "." ++ extension ∧ stem ≠ "" ∧
      '.' ∉ extension.toList ∧ name ≠ ".." := by
  constructor
  · intro h
    rw [splitName] at h
    split at h
    · next dot c before cut =>
      split at h
      · cases h
      · next ne =>
        obtain ⟨rfl, rest⟩ := Prod.mk.inj h
        obtain rfl := Option.some.inj rest
        have isDot : dot = '.' := by
          have := List.head?_dropWhile_not (· != '.') name.toList.reverse
          rw [cut] at this
          simpa using this
        have whole : name.toList = (c :: before).reverse ++
            '.' :: (name.toList.reverse.takeWhile (· != '.')).reverse := by
          have parts := List.takeWhile_append_dropWhile (p := (· != '.')) (l := name.toList.reverse)
          rw [cut, isDot] at parts
          have back := congrArg List.reverse parts
          rw [List.reverse_reverse, List.reverse_append, List.reverse_cons, List.append_assoc] at back
          exact back.symm
        refine ⟨?_, ?_, ?_, ne⟩
        · rw [← String.toList_inj]
          simpa using whole
        · intro empty
          have := congrArg String.toList empty
          simp at this
        · rw [String.toList_ofList, List.mem_reverse]
          intro mem
          have := List.all_eq_true.mp (List.all_takeWhile (p := (· != '.'))) _ mem
          simp at this
    · cases h
  · rintro ⟨whole, stemNe, absent, ne⟩
    have list : name.toList.reverse = extension.toList.reverse ++ '.' :: stem.toList.reverse := by
      rw [whole]
      simp
    have before : ∀ c ∈ extension.toList.reverse, (c != '.') = true := by
      intro c mem
      simp only [bne_iff_ne, ne_eq]
      rintro rfl
      exact absent (List.mem_reverse.mp mem)
    have taken : name.toList.reverse.takeWhile (· != '.') = extension.toList.reverse := by
      rw [list, List.takeWhile_append_of_pos before]
      simp
    have dropped : name.toList.reverse.dropWhile (· != '.') = '.' :: stem.toList.reverse := by
      rw [list, List.dropWhile_append_of_pos before]
      simp
    cases reversed : stem.toList.reverse with
    | nil =>
      rw [List.reverse_eq_nil_iff, String.toList_eq_nil_iff] at reversed
      exact absurd reversed stemNe
    | cons c rest =>
      rw [reversed] at dropped
      rw [splitName, dropped, taken]
      dsimp only
      rw [if_neg ne, ← reversed]
      simp

def isOutputName (suffix name : String) : Bool := (Path.mk (splitName name).1).extension? == some suffix

theorem Path.isOutput_of_fileName? {p : Path} {name : String} (named : p.fileName? = some name)
    (suffix : String) : p.isOutput suffix = isOutputName suffix name := by
  simp [Path.isOutput, Path.stem?, named, isOutputName]

def outputName (stem suffix : String) : String := stem ++ "." ++ suffix ++ "." ++ componentExtension

theorem outputName_injective {stem stem' suffix : String} (same : outputName stem suffix = outputName stem' suffix) :
    stem = stem' := by
  rw [← String.toList_inj] at same ⊢
  simpa [outputName] using same

private theorem isProper_name {stem extension : String} (wholeStem : '/' ∉ stem.toList)
    (wholeExtension : '/' ∉ extension.toList) (ne : stem ++ "." ++ extension ≠ "..") (stemNe : stem ≠ "") :
    IsProper (stem ++ "." ++ extension) := by
  refine ⟨?_, ne, ?_⟩
  · have long : 2 ≤ (stem ++ "." ++ extension).toList.length := by
      have := List.length_pos_iff.mpr (fun h => stemNe (String.toList_eq_nil_iff.mp h))
      simp only [String.toList_append, List.length_append]
      have : ".".toList.length = 1 := rfl
      omega
    simp only [Path.isIdle, Bool.or_eq_false_iff, decide_eq_false_iff_not]
    constructor <;> intro h <;> rw [h] at long <;> exact absurd long (by decide)
  · simp [wholeStem, wholeExtension]

theorem Path.parts_of_whole {name : String} (whole : '/' ∉ name.toList) : (Path.mk name).parts = [name] := by
  simp [Path.parts, Text.split_of_not_mem whole]

private theorem Path.extension?_of_isProper {name : String} (proper : IsProper name) :
    (Path.mk name).extension? = (splitName name).2 := by
  have parts : (Path.mk name).parts = [] ++ [name] := Path.parts_of_whole proper.whole
  simp [Path.extension?, Path.fileName?_of_parts parts proper]

theorem isOutputName_outputName {stem suffix : String} (stemNe : stem ≠ "") (wholeStem : '/' ∉ stem.toList)
    (dotless : '.' ∉ suffix.toList) (slashless : '/' ∉ suffix.toList) (named : suffix ≠ "" ∨ stem ≠ ".") :
    isOutputName suffix (outputName stem suffix) = true := by
  have inner : stem ++ "." ++ suffix ≠ ".." := by
    intro same
    have lists := congrArg String.toList same
    simp only [String.toList_append] at lists
    cases list : stem.toList with
    | nil => exact stemNe (String.toList_eq_nil_iff.mp list)
    | cons c cs =>
      rw [list] at lists
      have length := congrArg List.length lists
      have total : "..".toList.length = 2 := rfl
      have dot : ".".toList.length = 1 := rfl
      simp only [List.cons_append, List.length_cons, List.length_append] at length
      have noStem : cs = [] := List.eq_nil_of_length_eq_zero (by omega)
      have noSuffix : suffix.toList = [] := List.eq_nil_of_length_eq_zero (by omega)
      rcases named with suffixNe | stemNe'
      · exact suffixNe (String.toList_eq_nil_iff.mp noSuffix)
      · have first : c = '.' := by
          rw [noStem, noSuffix] at lists
          exact (List.cons.inj lists).1
        exact stemNe' (String.toList_inj.mp (by rw [list, noStem, first]; rfl))
  have outer : splitName (outputName stem suffix) = (stem ++ "." ++ suffix, some componentExtension) := by
    refine splitName_eq_some_iff.mpr ⟨rfl, ?_, by decide, ?_⟩
    · intro empty
      have := congrArg String.toList empty
      simp at this
    · intro same
      have := congrArg (fun s => s.toList.length) same
      have total : "..".toList.length = 2 := rfl
      have vue : componentExtension.toList.length = 3 := rfl
      simp only [outputName, String.toList_append, List.length_append] at this
      omega
  have recognised : (splitName (stem ++ "." ++ suffix)).2 = some suffix := by
    rw [splitName_eq_some_iff.mpr ⟨rfl, stemNe, dotless, inner⟩]
  rw [isOutputName, outer, Path.extension?_of_isProper (isProper_name wholeStem slashless inner stemNe),
    recognised]
  simp

namespace Path

theorem toList_intercalate (parts : List String) :
    ("/".intercalate parts).toList = Text.join '/' (parts.map String.toList) := by
  rw [String.toList_intercalate]
  induction parts with
  | nil => rfl
  | cons part parts ih =>
    cases parts with
    | nil => simp [Text.join]
    | cons next parts =>
      rw [List.map_cons, List.map_cons, Text.join_cons (by simp), ← List.map_cons, ← ih]
      simp

private theorem parts_intercalate {parts : List String} (ne : parts ≠ [])
    (whole : ∀ part ∈ parts, '/' ∉ part.toList) : (Path.mk ("/".intercalate parts)).parts = parts := by
  rw [Path.parts, toList_intercalate, Text.split_join (by simpa using ne) (by simpa using whole)]
  simp

theorem isAbsolute_iff {p : Path} (ne : p.text ≠ "") : p.isAbsolute = true ↔ p.parts.head? = some "" := by
  cases list : p.text.toList with
  | nil => exact absurd (String.toList_eq_nil_iff.mp list) ne
  | cons c cs =>
    by_cases slash : c = '/'
    · simp [isAbsolute, parts, list, Text.split, slash]
    · cases pieces : Text.split '/' cs with
      | nil => exact absurd pieces (Text.split_ne_nil '/' cs)
      | cons piece rest => simp [isAbsolute, parts, list, Text.split, slash, pieces]

private theorem intercalate_ne {parts : List String} {part : String} (mem : part ∈ parts) (ne : part ≠ "") :
    "/".intercalate parts ≠ "" := by
  intro empty
  have found : Text.join '/' (parts.map String.toList) ≠ [] :=
    Text.join_ne_nil (List.mem_map_of_mem mem) fun h => ne (String.toList_eq_nil_iff.mp h)
  rw [← toList_intercalate, empty] at found
  exact found rfl

private theorem getLast?_join_ne {pieces : List (List Char)} (whole : ∀ piece ∈ pieces, '/' ∉ piece)
    (last : ∀ piece ∈ pieces.getLast?, piece ≠ []) : (Text.join '/' pieces).getLast? ≠ some '/' := by
  intro slash
  cases pieces using List.reverseRecOn with
  | nil => cases slash
  | append_singleton pieces piece =>
    have ne := last piece (by simp)
    have absent := whole piece (by simp)
    have ends : (Text.join '/' (pieces ++ [piece])).getLast? = piece.getLast? := by
      by_cases none : pieces = []
      · rw [none]
        rfl
      · rw [Text.join_concat none, List.getLast?_append_of_ne_nil _ (by simp), List.getLast?_cons]
        cases h : piece.getLast? with
        | none => exact absurd (List.getLast?_eq_none_iff.mp h) ne
        | some c => rfl
    rw [ends] at slash
    exact absent (List.mem_of_getLast? slash)

private theorem join_text {kept : List String} {name : String} (whole : ∀ part ∈ kept, '/' ∉ part.toList)
    (last : ∀ part ∈ kept.getLast?, part ≠ "") :
    ((Path.mk ("/".intercalate kept)).join name).text = "/".intercalate (kept ++ [name]) := by
  by_cases none : kept = []
  · rw [none]
    simp [join, String.isEmpty]
  · have ends : ("/".intercalate kept).toList.getLast? ≠ some '/' := by
      rw [toList_intercalate]
      refine getLast?_join_ne (by simpa using whole) ?_
      intro piece found
      rw [List.getLast?_map, Option.mem_def, Option.map_eq_some_iff] at found
      obtain ⟨part, isLast, rfl⟩ := found
      exact fun empty => last part isLast (String.toList_eq_nil_iff.mp empty)
    have filled : "/".intercalate kept ≠ "" := by
      obtain ⟨part, isLast⟩ := Option.ne_none_iff_exists'.mp (fun h => none (List.getLast?_eq_none_iff.mp h))
      exact intercalate_ne (List.mem_of_getLast? isLast) (last part isLast)
    rw [join]
    dsimp only
    have behind : ¬(("/".intercalate kept).isEmpty || ("/".intercalate kept).toList.getLast? == some '/') = true := by
      rw [Bool.or_eq_true, String.isEmpty_iff, beq_iff_eq, not_or]
      exact ⟨filled, ends⟩
    rw [if_neg behind, ← String.toList_inj]
    rw [String.toList_append, String.toList_append, toList_intercalate, toList_intercalate, List.map_append,
      List.map_singleton, Text.join_concat (by simpa using none)]
    simp

private theorem exists_directory {p : Path} {before : List String} {name : String}
    (parts : p.parts = before ++ [name]) (proper : IsProper name) :
    ∃ kept idle, before = kept ++ idle ∧ (∀ part ∈ idle, isIdle part = true) ∧
      (kept.head? = some "" ↔ p.parts.head? = some "") ∧
      ∀ other, (p.directory.join other).text = "/".intercalate (kept ++ [other]) := by
  have notDot : name ≠ "." := by
    rintro rfl
    exact absurd proper.counts (by decide)
  have notEmpty : name ≠ "" := by
    rintro rfl
    exact absurd proper.counts (by decide)
  have whole : ∀ part ∈ before, '/' ∉ part.toList := fun part mem =>
    slash_not_mem_of_mem_parts (p := p) (by rw [parts]; exact List.mem_append_left _ mem)
  have dropped (ps : List String) : dropLastPart (ps ++ [name]) = Text.dropEndWhile isIdle ps := by
    have kept : Text.dropEndWhile isIdle (ps ++ [name]) = ps ++ [name] :=
      Text.dropEndWhile_eq_self (by simp [proper.counts])
    rw [dropLastPart, kept, List.dropLast_concat]
  have lastNe (ps : List String) : ∀ part ∈ (Text.dropEndWhile isIdle ps).getLast?, part ≠ "" := by
    rintro part last rfl
    obtain ⟨-, -, -, counts⟩ := Text.dropEndWhile_spec isIdle ps
    exact absurd (counts "" last) (by decide)
  rw [directory]
  split
  · next rest empty =>
    rw [parts] at empty
    cases before with
    | nil => exact absurd (List.cons.inj empty).1 notEmpty
    | cons first before =>
      obtain ⟨rfl, later⟩ := List.cons.inj empty
      have later : rest = before ++ [name] := later.symm
      obtain ⟨idle, cut, allIdle, -⟩ := Text.dropEndWhile_spec isIdle before
      refine ⟨"" :: Text.dropEndWhile isIdle before, idle, ?_, allIdle, ?_, fun other => ?_⟩
      · rw [List.cons_append, cut]
      · rw [parts]
        simp
      · rw [later, dropped]
        cases kept : Text.dropEndWhile isIdle before with
        | nil => simp [join]
        | cons next more =>
          have text : "/" ++ "/".intercalate (next :: more) = "/".intercalate ("" :: next :: more) := by
            have join : Text.join '/' (("" :: next :: more).map String.toList) =
                "".toList ++ '/' :: Text.join '/' ((next :: more).map String.toList) :=
              Text.join_cons (List.cons_ne_nil _ _)
            rw [← String.toList_inj, String.toList_append, toList_intercalate, toList_intercalate, join]
            rfl
          rw [text]
          refine join_text (fun part mem => ?_) fun part last => ?_
          · rw [← kept] at mem
            rcases List.mem_cons.mp mem with rfl | mem
            · exact whole _ List.mem_cons_self
            · exact whole part (List.mem_cons_of_mem _ (cut ▸ List.mem_append_left _ mem))
          · rw [List.getLast?_cons_cons, ← kept] at last
            exact lastNe before part last
  · next rest dot =>
    rw [parts] at dot
    cases before with
    | nil => exact absurd (List.cons.inj dot).1 notDot
    | cons first before =>
      obtain ⟨rfl, later⟩ := List.cons.inj dot
      have later : rest = before ++ [name] := later.symm
      obtain ⟨idle, cut, allIdle, -⟩ := Text.dropEndWhile_spec isIdle before
      refine ⟨"." :: Text.dropEndWhile isIdle before, idle, ?_, allIdle, ?_, fun other => ?_⟩
      · rw [List.cons_append, cut]
      · rw [parts]
        simp
      · rw [later, dropped]
        refine join_text (fun part mem => ?_) fun part last => ?_
        · rcases List.mem_cons.mp mem with rfl | mem
          · exact whole _ List.mem_cons_self
          · exact whole part (List.mem_cons_of_mem _ (cut ▸ List.mem_append_left _ mem))
        · cases kept : Text.dropEndWhile isIdle before with
          | nil =>
            rw [kept] at last
            obtain rfl := Option.some.inj last
            decide
          | cons next rest =>
            rw [kept, List.getLast?_cons_cons, ← kept] at last
            exact lastNe before part last
  · next filled _ =>
    obtain ⟨idle, cut, allIdle, -⟩ := Text.dropEndWhile_spec isIdle before
    have head : p.parts.head? ≠ some "" := by
      intro empty
      obtain ⟨rest, shape⟩ := List.head?_eq_some_iff.mp empty
      exact filled rest shape
    refine ⟨Text.dropEndWhile isIdle before, idle, cut.symm, allIdle, ?_, fun other => ?_⟩
    · refine ⟨fun empty => absurd ?_ head, fun empty => absurd empty head⟩
      obtain ⟨rest, shape⟩ := List.head?_eq_some_iff.mp empty
      rw [parts, ← cut, shape]
      rfl
    · rw [parts, dropped]
      exact join_text (fun part mem => whole part (cut ▸ List.mem_append_left _ mem)) (lastNe before)

end Path

namespace FileTree

variable {t : FileTree}

theorem walk_idle {l m : Location} {before idle : List String} (allIdle : ∀ part ∈ idle, Path.isIdle part = true)
    (walked : t.walk l (before ++ idle) = .ok m) : t.walk l before = .ok m := by
  induction idle using List.reverseRecOn generalizing m with
  | nil => simpa using walked
  | append_singleton idle part ih =>
    rw [← List.append_assoc] at walked
    obtain ⟨d, walked, step⟩ := walk_concat_eq_ok_iff.mp walked
    obtain ⟨-, goes⟩ := follow_eq_ok_iff.mp step
    rw [if_pos (allIdle part (by simp))] at goes
    rw [goes]
    exact ih (fun other mem => allIdle other (List.mem_append_left _ mem)) walked

private theorem locate_withFileName {p : Path} {before : List String} {d : Location} {name other : String}
    (filled : p.text ≠ "") (parts : p.parts = before ++ [name])
    (walked : t.walk (t.start p) before = .ok d) (directory : t.lookup d = some .directory)
    (proper : IsProper name) (proper' : IsProper other) :
    t.locate (p.withFileName other) = .ok (d ++ [other]) := by
  obtain ⟨kept, idle, whole, allIdle, head, text⟩ := Path.exists_directory parts proper
  have notEmpty : other ≠ "" := by
    rintro rfl
    exact absurd proper'.counts (by decide)
  have wholeAll : ∀ part ∈ kept ++ [other], '/' ∉ part.toList := by
    intro part mem
    rcases List.mem_append.mp mem with old | new
    · exact Path.slash_not_mem_of_mem_parts (p := p) (by rw [parts, whole]; simp [old])
    · exact List.mem_singleton.mp new ▸ proper'.whole
  have path : p.withFileName other = ⟨"/".intercalate (kept ++ [other])⟩ := by
    rw [Path.withFileName, Path.fileName?_of_parts parts proper]
    exact congrArg Path.mk (text other)
  have textNe : "/".intercalate (kept ++ [other]) ≠ "" :=
    Path.intercalate_ne (List.mem_append_right _ (List.mem_singleton_self other)) notEmpty
  have spelled := Path.parts_intercalate (by simp) wholeAll
  have start : t.start ⟨"/".intercalate (kept ++ [other])⟩ = t.start p := by
    have alike : (Path.mk ("/".intercalate (kept ++ [other]))).isAbsolute = p.isAbsolute := by
      have absolute := Path.isAbsolute_iff (p := ⟨"/".intercalate (kept ++ [other])⟩) textNe
      rw [Bool.eq_iff_iff, Path.isAbsolute_iff filled, absolute, spelled, ← head]
      cases kept with
      | nil => simpa using notEmpty
      | cons first kept => rfl
    rw [FileTree.start, FileTree.start, alike]
  rw [path, locate_eq_ok_iff, start, spelled, walk_concat_eq_ok_iff]
  refine ⟨textNe, d, walk_idle allIdle (whole ▸ walked), follow_eq_ok_iff.mpr ⟨directory, ?_⟩⟩
  rw [if_neg (by simp [proper'.counts]), if_neg proper'.down]

/-- A path leads to a name of component files in a directory, and outputs go beside it. -/
structure IsComponentAt (t : FileTree) (p : Path) (d : Location) (stem : String) : Prop where
  located : t.locate p = .ok (d ++ [stem ++ "." ++ componentExtension])
  stem_ne : stem ≠ ""
  whole : '/' ∉ stem.toList
  fileName : p.fileName? = some (stem ++ "." ++ componentExtension)
  /-- An output beside the file. -/
  output : ∀ suffix : String, '/' ∉ suffix.toList →
    t.locate (outputPath p false suffix) = .ok (d ++ [outputName stem suffix])

theorem exists_component {p : Path} (file : t.isFile p = true) (component : p.isComponent = true) :
    ∃ d stem, IsComponentAt t p d stem := by
  obtain ⟨l, content, located, stands⟩ := isFile_iff.mp file
  have other : t.lookup l ≠ some .directory := by simp [stands]
  obtain ⟨before, d, name, parts, walked, directory, rfl, proper⟩ := exists_parts_of_locate located other
  have named := Path.fileName?_of_parts parts proper
  have extension : (splitName name).2 = some componentExtension := by
    simpa [Path.isComponent, Path.extension?, named] using component
  obtain ⟨stem, cut⟩ : ∃ stem, splitName name = (stem, some componentExtension) :=
    ⟨_, Prod.ext rfl extension⟩
  obtain ⟨rfl, stemNe, -, ne⟩ := splitName_eq_some_iff.mp cut
  have whole : '/' ∉ stem.toList := fun mem => proper.whole (by simp [mem])
  refine ⟨d, stem, located, stemNe, whole, named, fun suffix slashless => ?_⟩
  have filled := (locate_eq_ok_iff.mp located).1
  have proper' : IsProper (outputName stem suffix) := by
    refine isProper_name (by simp [whole, slashless]) (by decide) ?_ ?_
    · intro same
      have length := congrArg (fun s => s.toList.length) same
      have total : "..".toList.length = 2 := rfl
      have vue : componentExtension.toList.length = 3 := rfl
      simp only [String.toList_append, List.length_append] at length
      omega
    · intro empty
      have := congrArg String.toList empty
      simp at this
  have spelled : outputPath p false suffix = p.withFileName (outputName stem suffix) := by
    simp [outputPath, Path.stem?, Path.extension?, named, cut, outputName]
  rw [spelled]
  exact locate_withFileName filled parts walked directory proper proper'

theorem IsComponentAt.locate_output {j : Job} {p : Path} {d : Location} {stem : String}
    (component : t.IsComponentAt p d stem)
    (beside : j.overwrites = false) (slashless : '/' ∉ j.configuration.suffix.toList) :
    t.locate (j.output p) = .ok (d ++ [outputName stem j.configuration.suffix]) := by
  rw [Job.output, beside]
  exact component.output _ slashless

end FileTree

end VueOptions.Project
