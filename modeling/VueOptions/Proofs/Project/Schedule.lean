import Mathlib.Data.List.Induction
import Mathlib.Data.List.Nodup
import VueOptions.Proofs.Project.Discovered
import VueOptions.Proofs.Project.Outputs
import VueOptions.Proofs.Project.Steps

/-!
Files converted in any order. The files of a job stand at different places, and none of them stands where
an output goes: the outputs are passed over when files are looked for, and they are recognised by their
names. So the files spare each other (`spares_of_inputs`), and whatever the order, each is converted as if
it were alone.
-/

set_option autoImplicit false

namespace VueOptions.Project

/-- A path that is made of names only: it does not start at the root, and nowhere leads to itself or
upwards. -/
def Path.IsPlain (p : Path) : Prop := ∃ names : List String, p.components = names.map PathComponent.name

theorem FileTree.foldl_advance_names (l : Location) (names : List String) :
    (names.map PathComponent.name).foldl advance l = l ++ names := by
  induction names generalizing l with
  | nil => simp
  | cons name names ih => simp [advance, ih]

private theorem FileTree.components_eq_of_locate {t : FileTree} {p q : Path} {m : Location}
    (plain : p.IsPlain) (plain' : q.IsPlain) (here : t.locate p = .ok m) (there : t.locate q = .ok m) :
    p.components = q.components := by
  obtain ⟨names, components⟩ := plain
  obtain ⟨names', components'⟩ := plain'
  have same := (locate_eq_placeOf here).symm.trans (locate_eq_placeOf there)
  rw [placeOf, placeOf, components, components', foldl_advance_names, foldl_advance_names] at same
  rw [components, components', List.append_cancel_left same]

section Beside

variable {j : Job} {l : Linter} {t : FileTree} {p q : Path} {d : Location} {stem : String}

structure Recognised (suffix : String) (p : Path) : Prop where
  dotless : '.' ∉ suffix.toList
  slashless : '/' ∉ suffix.toList
  named : suffix ≠ "" ∨ p.fileName? ≠ some "..vue"

theorem Recognised.isOutputName {suffix : String} (recognised : Recognised suffix p)
    (component : t.IsComponentAt p d stem) : isOutputName suffix (outputName stem suffix) = true := by
  refine isOutputName_outputName component.stem_ne component.whole recognised.dotless recognised.slashless ?_
  rcases recognised.named with filled | other
  · exact .inl filled
  · right
    rintro rfl
    exact other component.fileName

theorem put?_eq_of_component (first : t.IsComponentAt p d stem) (second : t.IsComponentAt q d stem)
    (beside : j.overwrites = false) (slashless : '/' ∉ j.configuration.suffix.toList) :
    j.put? l t p = j.put? l t q := by
  have read : t.read p = t.read q := by
    rw [FileTree.read, FileTree.read, first.located, second.located]
  refine Option.ext fun place => ?_
  obtain ⟨m, s⟩ := place
  rw [put?_eq_some_iff, put?_eq_some_iff, read, first.locate_output beside slashless,
    second.locate_output beside slashless]

theorem locate_ne_of_recognised {d' : Location} {stem' : String} (first : t.IsComponentAt q d stem)
    (second : t.IsComponentAt p d' stem') (beside : j.overwrites = false)
    (recognised : Recognised j.configuration.suffix q) (kept : p.isOutput j.configuration.suffix = false)
    {m : Location} (written : t.locate (j.output q) = .ok m) : t.locate p ≠ .ok m := by
  intro located
  rw [first.locate_output beside recognised.slashless] at written
  rw [second.located] at located
  obtain ⟨-, names⟩ := List.append_inj' (Except.ok.inj (written.trans located.symm)) rfl
  have output := recognised.isOutputName first
  rw [(List.cons.inj names).1, ← Path.isOutput_of_fileName? second.fileName, kept] at output
  cases output

theorem spares_of_recognised {d' : Location} {stem' : String} (first : t.IsComponentAt q d stem)
    (second : t.IsComponentAt p d' stem') (beside : j.overwrites = false)
    (recognised : Recognised j.configuration.suffix q) (kept : p.isOutput j.configuration.suffix = false) :
    Batch.Spares j l t q p := by
  constructor
  · intro m s put
    exact locate_ne_of_recognised first second beside recognised kept (put?_eq_some_iff.mp put).2.1
  · intro m s s' put put'
    obtain ⟨-, written, -⟩ := put?_eq_some_iff.mp put
    obtain ⟨-, written', -⟩ := put?_eq_some_iff.mp put'
    rw [first.locate_output beside recognised.slashless] at written
    rw [second.locate_output beside recognised.slashless] at written'
    obtain ⟨rfl, names⟩ := List.append_inj' (Except.ok.inj (written.trans written'.symm)) rfl
    obtain rfl := outputName_injective (List.cons.inj names).1
    rw [put?_eq_of_component first second beside recognised.slashless, put'] at put
    exact (Prod.mk.inj (Option.some.inj put)).2.symm

end Beside

section Inputs

variable {j : Job} {l : Linter} {t : FileTree} {inputs : List Path}

theorem nodup_components_of_ascending {ps : List Path} (ascending : Ascending ps) :
    (ps.map Path.components).Nodup := by
  refine List.pairwise_map.mpr (ascending.imp fun {p q} before same => ?_)
  have equal : p.order q = .eq := PathComponent.orderAll_eq_iff.mpr same
  rw [equal] at before
  cases before

theorem component_of_inputs (found : j.inputs t = .ok inputs) {p : Path} (mem : p ∈ inputs) :
    ∃ d stem, t.IsComponentAt p d stem := by
  obtain ⟨isFile, isComponent, -⟩ := isComponent_of_inputs found mem
  exact FileTree.exists_component isFile isComponent

theorem isOutput_of_inputs (beside : j.overwrites = false) (found : j.inputs t = .ok inputs) {p : Path}
    (mem : p ∈ inputs) : p.isOutput j.configuration.suffix = false := by
  have kept := (isComponent_of_inputs found mem).2.2
  rwa [Job.passesOver, beside] at kept

private theorem spares_of_inputs (suffixNe : j.configuration.suffix ≠ "")
    (dotless : '.' ∉ j.configuration.suffix.toList) (slashless : '/' ∉ j.configuration.suffix.toList)
    (found : j.inputs t = .ok inputs) (plain : ∀ p ∈ inputs, p.IsPlain) {p q : Path} (left : q ∈ inputs)
    (right : p ∈ inputs) (ne : q ≠ p) : Batch.Spares j l t q p := by
  obtain ⟨d, stem, atQ⟩ := component_of_inputs found left
  obtain ⟨d', stem', atP⟩ := component_of_inputs found right
  have places : d ++ [stem ++ "." ++ componentExtension] ≠ d' ++ [stem' ++ "." ++ componentExtension] := by
    intro same
    have components : q.components = p.components :=
      FileTree.components_eq_of_locate (plain q left) (plain p right) (same ▸ atQ.located) atP.located
    have once := nodup_components_of_ascending (ascending_of_inputs found)
    exact ne (List.inj_on_of_nodup_map once left right components)
  cases overwrites : j.overwrites with
  | true =>
    have self (r : Path) : j.output r = r := by rw [Job.output, outputPath, if_pos overwrites]
    constructor
    · intro m s put located
      obtain ⟨-, written, -⟩ := put?_eq_some_iff.mp put
      rw [self, atQ.located] at written
      rw [atP.located] at located
      exact places (Except.ok.inj (written.trans located.symm))
    · intro m s s' put put'
      obtain ⟨-, written, -⟩ := put?_eq_some_iff.mp put
      obtain ⟨-, written', -⟩ := put?_eq_some_iff.mp put'
      rw [self, atQ.located] at written
      rw [self, atP.located] at written'
      exact absurd (Except.ok.inj (written.trans written'.symm)) places
  | false =>
    exact spares_of_recognised atQ atP overwrites ⟨dotless, slashless, .inl suffixNe⟩
      (isOutput_of_inputs overwrites found right)

theorem ready_of_inputs (slashless : '/' ∉ j.configuration.suffix.toList) (found : j.inputs t = .ok inputs)
    {p : Path} (mem : p ∈ inputs) : Batch.Ready j t p := by
  obtain ⟨d, stem, component⟩ := component_of_inputs found mem
  refine ⟨⟨_, component.located⟩, ?_⟩
  cases overwrites : j.overwrites with
  | true => exact ⟨_, by rw [Job.output, overwrites]; exact component.located⟩
  | false => exact ⟨_, component.locate_output overwrites slashless⟩

end Inputs

def LintRequest.path? : LintRequest → Option Path
  | .file p => some p
  | .text _ => none

namespace Batch

variable {j : Job} {l : Linter} {t u v : FileTree}

def lintedPaths (b : Batch) : List Path := b.requests.filterMap LintRequest.path?

def inOrderOf (b : Batch) (inputs : List Path) : Batch :=
  { b with reports := inputs.filterMap fun p => b.reports.find? fun r => r.input == p }

private theorem WithOutputs.lookup_eq {ps qs : List Path} (first : WithOutputs j l t ps u)
    (second : WithOutputs j l t qs v) (same : ∀ p, p ∈ ps ↔ p ∈ qs) (m : Location) :
    u.lookup m = v.lookup m := by
  by_cases written : ∃ p ∈ ps, ∃ s, j.put? l t p = some (m, s)
  · obtain ⟨p, mem, s, put⟩ := written
    rw [first.written p mem m s put, second.written p ((same p).mp mem) m s put]
  · have never : ∀ p ∈ ps, ∀ s, j.put? l t p ≠ some (m, s) := fun p mem s put => written ⟨p, mem, s, put⟩
    rw [first.kept m never, second.kept m fun p mem => never p ((same p).mpr mem)]

private theorem requests_convert_text {p : Path} : ∃ texts : List String,
    (convert j l t p).requests = texts.map LintRequest.text := by
  unfold convert
  cases t.read p with
  | error why => exact ⟨[], rfl⟩
  | ok text =>
    dsimp only
    cases j.table? (Blocks.ComponentFile.parse text) with
    | error why => exact ⟨[], rfl⟩
    | ok table =>
      dsimp only
      cases (Blocks.ComponentFile.parse text).compile j.dialect with
      | error why => cases why <;> exact ⟨[], rfl⟩
      | ok compiled =>
        refine ⟨(compiled.script.map fun b => b.content).toList, ?_⟩
        dsimp only
        cases t.write (j.output p) (l.mendFile compiled).print <;> cases compiled.script <;> rfl

private theorem lintedPaths_withOutputsLinted {b : Batch} {texts : List String}
    (asked : b.requests = texts.map LintRequest.text) : b.withOutputsLinted.lintedPaths = b.outputs := by
  have texts : (texts.map LintRequest.text).filterMap LintRequest.path? = [] := by
    simp [LintRequest.path?]
  have files : (b.outputs.map LintRequest.file).filterMap LintRequest.path? = b.outputs := by
    simp [List.filterMap_map, Function.comp_def, LintRequest.path?]
  rw [lintedPaths, withOutputsLinted]
  dsimp only
  rw [List.filterMap_append, asked, texts, files, List.nil_append]

private theorem requests_ofInputs_text (ps : List Path) : ∃ texts : List String,
    (ofInputs j l t ps).requests = texts.map LintRequest.text := by
  induction ps using List.reverseRecOn with
  | nil => exact ⟨[], rfl⟩
  | append_singleton ps p ih =>
    obtain ⟨before, earlier⟩ := ih
    obtain ⟨texts, last⟩ := requests_convert_text (j := j) (l := l) (t := (ofInputs j l t ps).tree) (p := p)
    refine ⟨before ++ texts, ?_⟩
    rw [ofInputs_append, ofInputs_singleton, List.map_append, ← earlier, ← last]

private theorem filterMap_find?_of_perm {rs found : List Report} (once : (rs.map Report.input).Nodup)
    (perm : found.Perm rs) :
    ((rs.map Report.input).filterMap fun p => found.find? fun r => r.input == p) = rs := by
  have finds : ∀ r ∈ rs, found.find? (fun r' => r'.input == r.input) = some r := by
    intro r mem
    have there := perm.mem_iff.mpr mem
    obtain ⟨r', here⟩ : ∃ r', found.find? (fun r' => r'.input == r.input) = some r' :=
      Option.isSome_iff_exists.mp (List.find?_isSome.mpr ⟨r, there, by simp⟩)
    have same : r'.input = r.input := by simpa using List.find?_some here
    rw [here, List.inj_on_of_nodup_map once (perm.mem_iff.mp (List.mem_of_find?_eq_some here)) mem same]
  rw [List.filterMap_map]
  conv_rhs => rw [← List.filterMap_some (l := rs)]
  exact List.filterMap_congr finds

private theorem reports_cons (p : Path) (ps : List Path) :
    (ofInputs j l t (p :: ps)).reports =
      (convert j l t p).report :: (ofInputs j l (convert j l t p).tree ps).reports := by
  have cons : p :: ps = [p] ++ ps := rfl
  rw [cons, ofInputs_append, ofInputs_singleton]
  rfl

def treeBefore (j : Job) (l : Linter) (t : FileTree) (order : List Path) (p : Path) : FileTree :=
  (ofInputs j l t (order.takeWhile (· != p))).tree

theorem takeWhile_of_nodup {before after : List Path} {p : Path}
    (once : (before ++ p :: after).Nodup) :
    (before ++ p :: after).takeWhile (· != p) = before := by
  have apart : ∀ q ∈ before, (q != p) = true := by
    intro q mem
    have ne := (List.nodup_append.mp once).2.2 q mem p List.mem_cons_self
    simpa using ne
  rw [List.takeWhile_append_of_pos apart]
  simp

private theorem find?_reports {order : List Path} (once : order.Nodup) {p : Path} (mem : p ∈ order) :
    (ofInputs j l t order).reports.find? (fun r => r.input == p) =
      some (convert j l (treeBefore j l t order p) p).report := by
  obtain ⟨before, after, rfl⟩ := List.append_of_mem mem
  have earlier : (ofInputs j l t before).reports.find? (fun r => r.input == p) = none := by
    refine List.find?_eq_none.mpr fun r reported => ?_
    have taken : r.input ∈ before := by
      rw [← map_input_reports (j := j) (l := l) (t := t) before]
      exact List.mem_map_of_mem reported
    have ne := (List.nodup_append.mp once).2.2 _ taken p List.mem_cons_self
    simpa using ne
  rw [treeBefore, takeWhile_of_nodup once, ofInputs_append]
  dsimp only
  rw [reports_cons, List.find?_append, earlier, Option.none_or, List.find?_cons_of_pos]
  exact beq_iff_eq.mpr input_report_convert

theorem report_eq_of_mem {order : List Path} (once : order.Nodup) {r : Report}
    (mem : r ∈ (ofInputs j l t order).reports) :
    r = (convert j l (treeBefore j l t order r.input) r.input).report := by
  have inputs := map_input_reports (j := j) (l := l) (t := t) order
  have input : r.input ∈ order := inputs ▸ List.mem_map_of_mem mem
  have found := List.mem_of_find?_eq_some (find?_reports (j := j) (l := l) (t := t) once input)
  rw [← inputs] at once
  exact List.inj_on_of_nodup_map once mem found input_report_convert.symm

end Batch

/-- Do a job on some files, converted in an order of their own. -/
def Job.runInOrder (j : Job) (l : Linter) (t : FileTree) (inputs order : List Path) : Batch :=
  ((Batch.ofInputs j l t order).inOrderOf inputs).withOutputsLinted

theorem nodup_of_inputs {j : Job} {t : FileTree} {inputs : List Path}
    (found : j.inputs t = .ok inputs) : inputs.Nodup :=
  (nodup_components_of_ascending (ascending_of_inputs found)).of_map _

theorem reports_runInOrder {j : Job} {l : Linter} {t : FileTree} {inputs order : List Path}
    (once : order.Nodup) (taken : ∀ p ∈ inputs, p ∈ order) :
    (j.runInOrder l t inputs order).reports =
      inputs.map fun p => (convert j l (Batch.treeBefore j l t order p) p).report := by
  have finds : ∀ p ∈ inputs, (Batch.ofInputs j l t order).reports.find? (fun r => r.input == p) =
      some (convert j l (Batch.treeBefore j l t order p) p).report := fun p mem =>
    Batch.find?_reports once (taken p mem)
  rw [← List.filterMap_eq_map']
  exact List.filterMap_congr finds

theorem map_input_runInOrder {j : Job} {l : Linter} {t : FileTree} {inputs order : List Path}
    (once : order.Nodup) (taken : ∀ p ∈ inputs, p ∈ order) :
    (j.runInOrder l t inputs order).reports.map Report.input = inputs := by
  rw [reports_runInOrder once taken, List.map_map]
  exact (List.map_congr_left fun p _ => input_report_convert).trans (List.map_id inputs)

theorem run_eq_runInOrder {j : Job} {l : Linter} {t : FileTree} {inputs : List Path}
    (found : j.inputs t = .ok inputs) : j.run l t = .ok (j.runInOrder l t inputs inputs) := by
  have back := Batch.map_input_reports (j := j) (l := l) (t := t) inputs
  have once : ((Batch.ofInputs j l t inputs).reports.map Report.input).Nodup := by
    rw [back]
    exact nodup_of_inputs found
  have finds := Batch.filterMap_find?_of_perm once (.refl _)
  rw [back] at finds
  have same : (Batch.ofInputs j l t inputs).inOrderOf inputs = Batch.ofInputs j l t inputs := by
    rw [Batch.inOrderOf, finds]
  rw [Job.runInOrder, same]
  exact run_eq_ok_iff.mpr ⟨inputs, found, rfl⟩

/-- **Order does not matter.** Files that are found by paths of names only, with a suffix for the outputs
that holds neither a dot nor a slash, are converted in any order with the same reports, the same files
afterwards, the same files linted and the same exit code. -/
theorem runInOrder_agrees_with_run (j : Job) (l : Linter) (t : FileTree) (inputs order : List Path)
    (suffixNe : j.configuration.suffix ≠ "") (dotless : '.' ∉ j.configuration.suffix.toList)
    (slashless : '/' ∉ j.configuration.suffix.toList) (found : j.inputs t = .ok inputs)
    (plain : ∀ p ∈ inputs, p.IsPlain) (perm : order.Perm inputs) :
    ∃ b, j.run l t = .ok b ∧ (j.runInOrder l t inputs order).reports = b.reports ∧
      (∀ m, (j.runInOrder l t inputs order).tree.lookup m = b.tree.lookup m) ∧
      (j.runInOrder l t inputs order).lintedPaths = b.lintedPaths ∧
      (j.runInOrder l t inputs order).requests.Perm b.requests ∧
      (j.runInOrder l t inputs order).exitCode = b.exitCode := by
  have once := nodup_of_inputs found
  -- whatever the order, each file is converted as if it were alone
  have ready {ps : List Path} (perm : ps.Perm inputs) : ∀ p ∈ ps, Batch.Ready j t p := fun p mem =>
    ready_of_inputs slashless found (perm.mem_iff.mp mem)
  have spares {ps : List Path} (perm : ps.Perm inputs) : ps.Pairwise (Batch.Spares j l t) := by
    refine (perm.nodup_iff.mpr once).imp_of_mem fun {q p} left right ne => ?_
    exact spares_of_inputs suffixNe dotless slashless found plain (perm.mem_iff.mp left)
      (perm.mem_iff.mp right) ne
  obtain ⟨reports, requests, outputs⟩ := Batch.ofInputs_of_spares (ready perm) (spares perm)
  obtain ⟨reports', requests', outputs'⟩ := Batch.ofInputs_of_spares (ready (.refl _)) (spares (.refl _))
  have listed : (j.runInOrder l t inputs order).reports = (Batch.ofInputs j l t inputs).reports := by
    have back := Batch.map_input_reports (j := j) (l := l) (t := t) inputs
    have permuted : (Batch.ofInputs j l t order).reports.Perm (Batch.ofInputs j l t inputs).reports := by
      rw [reports, reports']
      exact perm.map _
    have finds := Batch.filterMap_find?_of_perm (by rw [back]; exact once) permuted
    rw [back] at finds
    exact finds
  have linted : ((Batch.ofInputs j l t order).inOrderOf inputs).outputs =
      (Batch.ofInputs j l t inputs).outputs := congrArg (List.filterMap _) listed
  refine ⟨_, run_eq_ok_iff.mpr ⟨inputs, found, rfl⟩, listed, ?_, ?_, ?_, ?_⟩
  · exact outputs.lookup_eq outputs' fun p => perm.mem_iff
  · obtain ⟨texts, asked⟩ := Batch.requests_ofInputs_text (j := j) (l := l) (t := t) order
    obtain ⟨texts', asked'⟩ := Batch.requests_ofInputs_text (j := j) (l := l) (t := t) inputs
    have asked : ((Batch.ofInputs j l t order).inOrderOf inputs).requests = texts.map LintRequest.text := asked
    rw [Job.runInOrder, Batch.lintedPaths_withOutputsLinted asked, Batch.lintedPaths_withOutputsLinted asked',
      linted]
  · have permuted : (Batch.ofInputs j l t order).requests.Perm (Batch.ofInputs j l t inputs).requests := by
      rw [requests, requests']
      exact perm.flatMap_right _
    rw [Job.runInOrder, Batch.withOutputsLinted, Batch.withOutputsLinted, linted]
    exact permuted.append_right _
  · rw [Batch.exitCode, Batch.failed, Batch.count, listed]
    rfl

/-- Two components, one of them in a directory and with an output of an earlier run. -/
def cardTree : FileTree where
  entries := [
    (["work", "Card.vue"], .file (.text "<script>@Component class Card \x7b\x7d</script>")),
    (["work", "base"], .directory),
    (["work", "base", "Box.vue"], .file (.text "<script>let x</script>")),
    (["work", "base", "Box.options.vue"], .file (.text "<script>let y</script>"))]

def cardJob : Job := { patterns := ["."] }

theorem card_and_box_in_either_order :
    cardJob.inputs cardTree = .ok [⟨"Card.vue"⟩, ⟨"base/Box.vue"⟩] ∧
    ∃ b, cardJob.run .idle cardTree = .ok b ∧ (cardJob.runInOrder .idle cardTree
      [⟨"Card.vue"⟩, ⟨"base/Box.vue"⟩] [⟨"base/Box.vue"⟩, ⟨"Card.vue"⟩]).reports = b.reports := by
  have found : cardJob.inputs cardTree = .ok [⟨"Card.vue"⟩, ⟨"base/Box.vue"⟩] := by decide +kernel
  have plain : ∀ p ∈ [Path.mk "Card.vue", ⟨"base/Box.vue"⟩], p.IsPlain := by
    have card : (Path.mk "Card.vue").components = [.name "Card.vue"] := by decide
    have box : (Path.mk "base/Box.vue").components = [.name "base", .name "Box.vue"] := by decide
    intro p mem
    rcases List.mem_cons.mp mem with rfl | rest
    · exact ⟨["Card.vue"], card⟩
    · obtain rfl := List.mem_singleton.mp rest
      exact ⟨["base", "Box.vue"], box⟩
  obtain ⟨b, ran, same, -⟩ := runInOrder_agrees_with_run cardJob .idle cardTree [⟨"Card.vue"⟩, ⟨"base/Box.vue"⟩]
    [⟨"base/Box.vue"⟩, ⟨"Card.vue"⟩] (by decide) (by decide) (by decide) found plain (List.Perm.swap _ _ _)
  exact ⟨found, b, ran, same⟩

end VueOptions.Project
