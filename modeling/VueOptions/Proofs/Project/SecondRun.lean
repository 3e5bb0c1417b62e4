import Mathlib.Data.List.Induction
import VueOptions.Proofs.Project.Isolation
import VueOptions.Proofs.Project.Rediscovery
import VueOptions.Proofs.Project.Schedule

/-!
A job that is done a second time. When outputs are recognised by their names, the files of the second run
are files of the first one (`inputs_of_sameBesides`), they are converted alike, and what is written stands
there already (`ofInputs_again`).
-/

set_option autoImplicit false

namespace VueOptions.Project

variable {j : Job} {l : Linter} {t u : FileTree} {p q : Path} {d : Location} {stem : String}

private theorem sameBesides_ofInputs (beside : j.overwrites = false) {ps : List Path}
    (components : ∀ p ∈ ps, ∃ d stem, t.IsComponentAt p d stem)
    (recognised : ∀ p ∈ ps, Recognised j.configuration.suffix p) :
    FileTree.SameBesides j.configuration.suffix t (Batch.ofInputs j l t ps).tree := by
  induction ps using List.reverseRecOn with
  | nil => exact .refl _ _
  | append_singleton ps p ih =>
    have before := ih (fun q mem => components q (List.mem_append_left _ mem))
      (fun q mem => recognised q (List.mem_append_left _ mem))
    rw [Batch.ofInputs_append, Batch.ofInputs_singleton]
    refine before.trans ?_
    dsimp only
    cases put : j.put? l (Batch.ofInputs j l t ps).tree p with
    | none =>
      rw [(convert_of_not_put put).1]
      exact .refl _ _
    | some place =>
      obtain ⟨m, s⟩ := place
      obtain ⟨-, located, other⟩ := put?_eq_some_iff.mp put
      obtain ⟨d, stem, component⟩ := components p (by simp)
      have known := recognised p (by simp)
      have place : m = d ++ [outputName stem j.configuration.suffix] := by
        have first := before.directories.locate.mpr located
        rw [component.locate_output beside known.slashless] at first
        exact (Except.ok.inj first).symm
      rw [(convert_of_put put).1]
      exact FileTree.sameBesides_put (FileTree.reached_of_locate located) other (by simp [place])
        (known.isOutputName component)

private theorem convert_again (directories : FileTree.SameDirectories t u) (ready : Batch.Ready j t p)
    (read : t.read p = u.read p) (done : ∀ m s, j.put? l t p = some (m, s) → u.lookup m = some (.file (.text s))) :
    convert j l u p = ⟨(convert j l t p).report, u, (convert j l t p).requests⟩ := by
  have put := put?_congr (j := j) (l := l) directories read
  have report : (convert j l u p).report = (convert j l t p).report := ready.report_convert directories read
  have tree : (convert j l u p).tree = u := by
    cases here : j.put? l u p with
    | none => exact (convert_of_not_put here).1
    | some place =>
      obtain ⟨m, s⟩ := place
      have other := (put?_eq_some_iff.mp here).2.2
      rw [(convert_of_put here).1]
      exact FileTree.put_eq_self (FileTree.not_prefix_of_lookup other) (done m s (put.trans here))
  calc convert j l u p
      = ⟨(convert j l u p).report, (convert j l u p).tree, (convert j l u p).requests⟩ := rfl
    _ = ⟨(convert j l t p).report, u, (convert j l t p).requests⟩ := by
        rw [report, tree, requests_convert_congr read]

private theorem ofInputs_again {ps : List Path}
    (again : ∀ p ∈ ps, convert j l u p = ⟨(convert j l t p).report, u, (convert j l t p).requests⟩) :
    Batch.ofInputs j l u ps = ⟨ps.map fun p => (convert j l t p).report, u,
      ps.flatMap fun p => (convert j l t p).requests⟩ := by
  induction ps using List.reverseRecOn with
  | nil => rfl
  | append_singleton ps p ih =>
    rw [Batch.ofInputs_append, ih fun q mem => again q (List.mem_append_left _ mem)]
    dsimp only
    rw [Batch.ofInputs_singleton, again p (by simp)]
    simp

private theorem component_unique {d' : Location} {stem' : String} (first : t.IsComponentAt p d stem)
    (second : t.IsComponentAt q d' stem') (same : p.components = q.components) : d' = d ∧ stem' = stem := by
  have places : d' ++ [stem' ++ "." ++ componentExtension] = d ++ [stem ++ "." ++ componentExtension] := by
    rw [FileTree.locate_eq_placeOf first.located, FileTree.locate_eq_placeOf second.located, same]
  obtain ⟨directories, names⟩ := List.append_inj' places rfl
  refine ⟨directories, ?_⟩
  have name := congrArg String.toList (List.cons.inj names).1
  simpa [← String.toList_inj] using name

private theorem Batch.mem_outputs {b : Batch} {output : Path} :
    output ∈ b.outputs ↔ ∃ r ∈ b.reports, r.outcome = .converted output := by
  rw [outputs, List.mem_filterMap]
  refine exists_congr fun r => and_congr_right fun _ => ?_
  cases r.outcome <;> simp

theorem exists_run {inputs : List Path} (found : j.inputs t = .ok inputs) : ∃ b, j.run l t = .ok b ∧
    b.reports.map Report.input = inputs ∧ b.outputs = (Batch.ofInputs j l t inputs).outputs ∧
      b.tree = (Batch.ofInputs j l t inputs).tree :=
  ⟨_, run_eq_ok_iff.mpr ⟨inputs, found, rfl⟩, Batch.map_input_reports inputs, rfl, rfl⟩

private theorem exists_two_runs {inputs inputs' outputs : List Path} (found : j.inputs t = .ok inputs)
    (after : ((Batch.ofInputs j l t inputs).outputs, j.inputs (Batch.ofInputs j l t inputs).tree) =
      (outputs, .ok inputs')) :
    ∃ b b', j.run l t = .ok b ∧ j.run l b.tree = .ok b' ∧ b.reports.map Report.input = inputs ∧
      b.outputs = outputs ∧ b'.reports.map Report.input = inputs' := by
  obtain ⟨made, found'⟩ := Prod.mk.inj after
  obtain ⟨b, ran, reported, outputsOf, tree⟩ := exists_run (l := l) found
  rw [← tree] at found'
  obtain ⟨b', ran', reported', -, -⟩ := exists_run (l := l) found'
  exact ⟨b, b', ran, ran', reported, outputsOf.trans made, reported'⟩

/-- Files that a job finds and converts to outputs beside them, which are recognised. -/
structure RunsBeside (j : Job) (t : FileTree) (inputs : List Path) : Prop where
  beside : j.overwrites = false
  found : j.inputs t = .ok inputs
  recognised : ∀ p ∈ inputs, Recognised j.configuration.suffix p

namespace RunsBeside

variable {inputs : List Path}

theorem spares (runs : RunsBeside j t inputs) (left : q ∈ inputs) (right : t.IsComponentAt p d stem)
    (kept : p.isOutput j.configuration.suffix = false) : Batch.Spares j l t q p := by
  obtain ⟨d', stem', component⟩ := component_of_inputs runs.found left
  exact spares_of_recognised component right runs.beside (runs.recognised q left) kept

theorem ready (runs : RunsBeside j t inputs) (mem : p ∈ inputs) : Batch.Ready j t p :=
  ready_of_inputs (runs.recognised p mem).slashless runs.found mem

private theorem converts_alone (runs : RunsBeside j t inputs) :
    Batch.ofInputs j l t inputs = ⟨inputs.map fun p => (convert j l t p).report, (Batch.ofInputs j l t inputs).tree,
        inputs.flatMap fun p => (convert j l t p).requests⟩ ∧
      Batch.WithOutputs j l t inputs (Batch.ofInputs j l t inputs).tree := by
  have apart : inputs.Pairwise (Batch.Spares j l t) := by
    refine List.Pairwise.imp_of_mem (fun {q p} left right _ => ?_) (ascending_of_inputs runs.found)
    obtain ⟨d, stem, component⟩ := component_of_inputs runs.found right
    exact runs.spares left component (isOutput_of_inputs runs.beside runs.found right)
  obtain ⟨reports, requests, outputs⟩ := Batch.ofInputs_of_spares (fun _ => runs.ready) apart
  refine ⟨?_, outputs⟩
  rw [← reports, ← requests]

private theorem sameBesides (runs : RunsBeside j t inputs) :
    FileTree.SameBesides j.configuration.suffix t (Batch.ofInputs j l t inputs).tree :=
  sameBesides_ofInputs runs.beside (fun _ => component_of_inputs runs.found) runs.recognised

theorem again (runs : RunsBeside j t inputs) (outputs : Batch.WithOutputs j l t inputs u) (isFile : t.isFile p = true)
    (isComponent : p.isComponent = true) (kept : p.isOutput j.configuration.suffix = false) (mem : q ∈ inputs)
    (same : q.components = p.components) :
    convert j l u p = ⟨(convert j l t p).report, u, (convert j l t p).requests⟩ := by
  have slashless := (runs.recognised q mem).slashless
  obtain ⟨d, stem, component⟩ := FileTree.exists_component isFile isComponent
  obtain ⟨d', stem', componentQ⟩ := component_of_inputs runs.found mem
  obtain ⟨rfl, rfl⟩ := component_unique component componentQ same.symm
  have ready : Batch.Ready j t p := ⟨⟨_, component.located⟩, _, component.locate_output runs.beside slashless⟩
  have read := outputs.read ready fun q left => runs.spares left component kept
  refine convert_again outputs.directories ready read fun m s put => ?_
  rw [put?_eq_of_component component componentQ runs.beside slashless] at put
  exact outputs.written q mem m s put

end RunsBeside

/-- A job that is done a second time, when the outputs of the first one are recognised: nothing is written
that does not stand there, no output is taken for an input, and the reports are the same unless a pattern
with marks has become the path of an output. -/
theorem second_run_changes_nothing (j : Job) (t : FileTree) (b : Batch) (beside : j.overwrites = false)
    (dotless : '.' ∉ j.configuration.suffix.toList) (slashless : '/' ∉ j.configuration.suffix.toList)
    (named : j.configuration.suffix ≠ "" ∨ ∀ r ∈ b.reports, r.input.fileName? ≠ some "..vue")
    (ran : j.run .idle t = .ok b) :
    ∃ b', j.run .idle b.tree = .ok b' ∧ b'.tree = b.tree ∧
      (∀ r' ∈ b'.reports, ∃ r ∈ b.reports, r.input.components = r'.input.components) ∧
      (∀ r' ∈ b'.reports, ∀ output ∈ b.outputs, ∀ m, b.tree.locate output = .ok m →
        b.tree.locate r'.input ≠ .ok m) ∧
      (PatternsKept j.patterns t b.tree → b' = b) := by
  obtain ⟨inputs, found, rfl⟩ := run_eq_ok_iff.mp ran
  have reported := Batch.map_input_reports (j := j) (l := .idle) (t := t) inputs
  have runs : RunsBeside j t inputs := by
    refine ⟨beside, found, fun p mem => ⟨dotless, slashless, named.imp_right fun unnamed => ?_⟩⟩
    rw [← reported] at mem
    obtain ⟨r, found, rfl⟩ := List.mem_map.mp mem
    exact unnamed r found
  obtain ⟨first, outputs⟩ := runs.converts_alone (l := .idle)
  have same := runs.sameBesides (l := .idle)
  obtain ⟨inputs', found', before, alike⟩ := inputs_of_sameBesides beside same found
  have second := ofInputs_again (j := j) (l := .idle) (t := t) (u := (Batch.ofInputs j .idle t inputs).tree)
    fun p (mem : p ∈ inputs') => by
      obtain ⟨isFile, q, found, components⟩ := before p mem
      have isComponent := (isComponent_of_inputs found' mem).2.1
      exact runs.again outputs isFile isComponent (isOutput_of_inputs beside found' mem) found components
  have reported' := Batch.map_input_reports (j := j) (l := .idle) (t := (Batch.ofInputs j .idle t inputs).tree) inputs'
  have input {r' : Report} (mem : r' ∈ (Batch.ofInputs j .idle (Batch.ofInputs j .idle t inputs).tree
      inputs').reports) : r'.input ∈ inputs' := reported' ▸ List.mem_map_of_mem mem
  refine ⟨_, run_eq_ok_iff.mpr ⟨inputs', found', rfl⟩, ?_, fun r' mem => ?_, fun r' mem output made m there here => ?_,
    fun kept => ?_⟩
  · have tree := congrArg Batch.tree second
    exact tree
  · obtain ⟨-, q, found, components⟩ := before r'.input (input mem)
    rw [← reported] at found
    obtain ⟨r, reportedFirst, rfl⟩ := List.mem_map.mp found
    exact ⟨r, reportedFirst, components⟩
  · obtain ⟨r, reportedFirst, converted⟩ := Batch.mem_outputs.mp made
    obtain ⟨q, found, rfl⟩ := Batch.exists_input_of_converted reportedFirst converted
    obtain ⟨d, stem, component⟩ := component_of_inputs runs.found found
    obtain ⟨isFile, -⟩ := before r'.input (input mem)
    obtain ⟨d', stem', component'⟩ := FileTree.exists_component isFile (isComponent_of_inputs found' (input mem)).2.1
    exact locate_ne_of_recognised component component' beside (runs.recognised q found)
      (isOutput_of_inputs beside found' (input mem)) (same.directories.locate.mpr there)
      (same.directories.locate.mpr here)
  · obtain rfl := alike kept
    have repeated : Batch.ofInputs j .idle (Batch.ofInputs j .idle t inputs').tree inputs' =
        Batch.ofInputs j .idle t inputs' := second.trans first.symm
    exact congrArg Batch.withOutputsLinted repeated

def emptyComponent : String := "<script>@Component class A \x7b\x7d</script>"

def besideJob : Job := { patterns := ["."] }

def besideTree : FileTree where
  entries := [(["work", "a.vue"], .file (.text emptyComponent)),
    (["work", "a.options.vue"], .file (.text "<script>old</script>"))]

theorem empty_component_second_run : ∃ b, besideJob.run .idle besideTree = .ok b ∧
    b.outputs = [⟨"a.options.vue"⟩] ∧ besideJob.run .idle b.tree = .ok b := by
  have found : besideJob.inputs besideTree = .ok [⟨"a.vue"⟩] := by decide +kernel
  have made : (Batch.ofInputs besideJob .idle besideTree [⟨"a.vue"⟩]).outputs = [⟨"a.options.vue"⟩] := by
    decide +kernel
  obtain ⟨b, ran, -, outputs, -⟩ := exists_run found
  have kept : PatternsKept besideJob.patterns besideTree b.tree := by
    intro pattern mem marked
    obtain rfl : pattern = "." := List.mem_singleton.mp mem
    exact absurd marked (by decide)
  obtain ⟨b', again, -, -, -, same⟩ := second_run_changes_nothing besideJob besideTree b rfl (by decide) (by decide)
    (.inl (by decide)) ran
  rw [same kept] at again
  exact ⟨b, ran, outputs.trans made, again⟩

def dottedJob : Job := { patterns := ["."], configuration := { suffix := "x.y" } }

def dottedTree : FileTree where
  entries := [(["work", "a.vue"], .file (.text emptyComponent))]

def starJob : Job := { patterns := ["*.vue", "*.options.vue"] }

/-- A component with a star for its name, beside a hidden file without a script. -/
def starTree : FileTree where
  entries := [(["work", "*.vue"], .file (.text emptyComponent)),
    (["work", ".options.vue"], .file (.text ""))]

/-- With a dot in the suffix an output is taken for an input. A pattern that is the path of an output by
now names nothing else any more. -/
theorem second_run_may_differ :
    (∃ b b', dottedJob.run .idle dottedTree = .ok b ∧ dottedJob.run .idle b.tree = .ok b' ∧
      b.reports.map Report.input = [⟨"a.vue"⟩] ∧ b.outputs = [⟨"a.x.y.vue"⟩] ∧
      b'.reports.map Report.input = [⟨"a.vue"⟩, ⟨"a.x.y.vue"⟩]) ∧
    ∃ b b', starJob.run .idle starTree = .ok b ∧ starJob.run .idle b.tree = .ok b' ∧
      b.reports.map Report.input = [⟨"*.vue"⟩, ⟨".options.vue"⟩] ∧ b.outputs = [⟨"*.options.vue"⟩] ∧
      b'.reports.map Report.input = [⟨"*.vue"⟩] := by
  constructor
  · have after : ((Batch.ofInputs dottedJob .idle dottedTree [⟨"a.vue"⟩]).outputs,
        dottedJob.inputs (Batch.ofInputs dottedJob .idle dottedTree [⟨"a.vue"⟩]).tree) =
          ([⟨"a.x.y.vue"⟩], .ok [⟨"a.vue"⟩, ⟨"a.x.y.vue"⟩]) := by decide +kernel
    exact exists_two_runs (by decide +kernel) after
  · have after : ((Batch.ofInputs starJob .idle starTree [⟨"*.vue"⟩, ⟨".options.vue"⟩]).outputs,
        starJob.inputs (Batch.ofInputs starJob .idle starTree [⟨"*.vue"⟩, ⟨".options.vue"⟩]).tree) =
          ([⟨"*.options.vue"⟩], .ok [⟨"*.vue"⟩]) := by decide +kernel
    exact exists_two_runs (by decide +kernel) after

end VueOptions.Project
