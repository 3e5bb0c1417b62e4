import Mathlib.Data.List.Induction
import VueOptions.Proofs.Project.Discovered
import VueOptions.Proofs.Project.Schedule
import VueOptions.Proofs.Project.Steps

/-!
What one file of a run has to do with the others, in whatever order they are converted. Converting a
file changes the place of its output and nothing else, and a file that is not converted changes nothing
(`convertsAtomically`).
-/

set_option autoImplicit false

namespace VueOptions.Project

open Blocks Options

variable {j : Job} {l : Linter} {t : FileTree}

structure ConvertsAtomically (j : Job) (l : Linter) (t : FileTree) (p : Path) : Prop where
  kept : (∀ output, (convert j l t p).report.outcome ≠ .converted output) → (convert j l t p).tree = t
  written : ∀ output, (convert j l t p).report.outcome = .converted output → output = j.output p ∧
    ∃ text compiled m, t.read p = .ok text ∧ (ComponentFile.parse text).compile j.dialect = .ok compiled ∧
      t.locate output = .ok m ∧ ∀ m', (convert j l t p).tree.lookup m' =
        if m' = m then some (.file (.text (l.mendFile compiled).print)) else t.lookup m'

theorem convertsAtomically (p : Path) : ConvertsAtomically j l t p := by
  cases put : j.put? l t p with
  | none =>
    obtain ⟨same, never⟩ := convert_of_not_put put
    exact ⟨fun _ => same, fun output converted => absurd converted (never output)⟩
  | some place =>
    obtain ⟨m, s⟩ := place
    obtain ⟨tree, outcome⟩ := convert_of_put put
    obtain ⟨planned, located, other⟩ := put?_eq_some_iff.mp put
    obtain ⟨text, table, compiled, read, -, compiles, rfl⟩ := text?_plan_eq_some_iff.mp planned
    refine ⟨fun never => absurd outcome (never _), fun output converted => ?_⟩
    obtain rfl : j.output p = output := Outcome.converted.inj (outcome.symm.trans converted)
    refine ⟨rfl, text, compiled, m, read, compiles, located, fun m' => ?_⟩
    rw [tree, FileTree.lookup_put _ _ _ _ (FileTree.not_prefix_of_lookup other)]

/-- What is said of a run over some files that are converted in some order. -/
structure IsolatesFiles (j : Job) (l : Linter) (t : FileTree) (inputs order : List Path) (b : Batch) :
    Prop where
  reported : b.reports.map Report.input = inputs
  /-- What differs afterwards are outputs that are reported. -/
  changed : ∀ m, b.tree.lookup m ≠ t.lookup m →
    ∃ r ∈ b.reports, ∃ output, r.outcome = .converted output ∧ t.locate output = .ok m
  /-- Without a file that is not converted, everything else comes out the same. -/
  dropped : ∀ before p after, order = before ++ p :: after →
    (∀ r ∈ b.reports, r.input = p → ∀ output, r.outcome ≠ .converted output) →
      (j.runInOrder l t (inputs.filter (· != p)) (before ++ after)).reports =
        b.reports.filter (fun r => r.input != p) ∧
      (j.runInOrder l t (inputs.filter (· != p)) (before ++ after)).tree = b.tree
  /-- A file is reported as if it were alone, unless an output takes its place before its turn. -/
  alone : ∀ before p after, order = before ++ p :: after →
    (∀ q ∈ before, ∀ m, t.locate (j.output q) = .ok m → t.locate p ≠ .ok m) →
      ∃ r ∈ b.reports, r.input = p ∧ (r = (convert j l t p).report ∨
        (∀ m, t.locate (j.output p) ≠ .ok m) ∧ BothUnwritable (j.output p) (convert j l t p).report r)

namespace Batch

private theorem changed_ofInputs {ps : List Path} {m : Location}
    (differs : (ofInputs j l t ps).tree.lookup m ≠ t.lookup m) :
    ∃ r ∈ (ofInputs j l t ps).reports, ∃ output, r.outcome = .converted output ∧ t.locate output = .ok m := by
  induction ps using List.reverseRecOn with
  | nil => exact absurd rfl differs
  | append_singleton ps p ih =>
    rw [ofInputs_append, ofInputs_singleton] at differs ⊢
    by_cases before : (ofInputs j l t ps).tree.lookup m = t.lookup m
    · rw [← before] at differs
      cases put : j.put? l (ofInputs j l t ps).tree p with
      | none =>
        rw [(convert_of_not_put put).1] at differs
        exact absurd rfl differs
      | some place =>
        obtain ⟨m', s⟩ := place
        obtain ⟨tree, outcome⟩ := convert_of_put put
        obtain ⟨-, located, other⟩ := put?_eq_some_iff.mp put
        rw [tree, FileTree.lookup_put _ _ _ _ (FileTree.not_prefix_of_lookup other)] at differs
        obtain rfl : m = m' := by
          by_contra apart
          rw [if_neg apart] at differs
          exact differs rfl
        exact ⟨_, List.mem_append_right _ (List.mem_singleton_self _), _, outcome,
          (sameDirectories_ofInputs ps).locate.mpr located⟩
    · obtain ⟨r, mem, rest⟩ := ih before
      exact ⟨r, List.mem_append_left _ mem, rest⟩

private theorem treeBefore_dropped {before after : List Path} {p q : Path}
    (once : (before ++ p :: after).Nodup)
    (never : ∀ output, (convert j l (ofInputs j l t before).tree p).report.outcome ≠ .converted output)
    (ne : q ≠ p) : treeBefore j l t (before ++ after) q = treeBefore j l t (before ++ p :: after) q := by
  have same := (convertsAtomically (j := j) (l := l) p).kept never
  have other : (p != q) = true := by simpa using ne.symm
  rw [treeBefore, treeBefore]
  by_cases early : q ∈ before
  · obtain ⟨front, back, rfl⟩ := List.append_of_mem early
    have once' : (front ++ q :: (back ++ after)).Nodup := by
      refine once.sublist ?_
      simp
    rw [List.append_assoc, List.append_assoc, List.cons_append, List.cons_append,
      takeWhile_of_nodup once', takeWhile_of_nodup (by simpa using once)]
  · have pass : ∀ r ∈ before, (r != q) = true := by
      intro r mem
      simpa using fun equal : r = q => early (equal ▸ mem)
    have cons : p :: after.takeWhile (· != q) = [p] ++ after.takeWhile (· != q) := rfl
    rw [List.takeWhile_append_of_pos pass, List.takeWhile_append_of_pos pass,
      List.takeWhile_cons_of_pos (p := (· != q)) other, cons, ofInputs_append, ofInputs_append before,
      ofInputs_append [p], ofInputs_singleton]
    dsimp only
    rw [same]

private theorem tree_dropped {before after : List Path} {p : Path}
    (never : ∀ output, (convert j l (ofInputs j l t before).tree p).report.outcome ≠ .converted output) :
    (ofInputs j l t (before ++ after)).tree = (ofInputs j l t (before ++ p :: after)).tree := by
  have same := (convertsAtomically (j := j) (l := l) p).kept never
  have one : before ++ p :: after = before ++ ([p] ++ after) := rfl
  rw [one, ofInputs_append before after, ofInputs_append before ([p] ++ after), ofInputs_append [p] after,
    ofInputs_singleton]
  dsimp only
  rw [same]

theorem exists_input_of_converted {ps : List Path} {r : Report} {output : Path}
    (mem : r ∈ (ofInputs j l t ps).reports) (outcome : r.outcome = .converted output) :
    ∃ q ∈ ps, output = j.output q := by
  induction ps using List.reverseRecOn with
  | nil => cases mem
  | append_singleton ps p ih =>
    rw [ofInputs_append, ofInputs_singleton] at mem
    rcases List.mem_append.mp mem with old | new
    · obtain ⟨q, found, same⟩ := ih old
      exact ⟨q, List.mem_append_left _ found, same⟩
    · rw [List.mem_singleton.mp new] at outcome
      exact ⟨p, by simp, ((convertsAtomically p).written output outcome).1⟩

private theorem lookup_ofInputs {ps : List Path} {m : Location} (apart : ∀ q ∈ ps, t.locate (j.output q) ≠ .ok m) :
    (ofInputs j l t ps).tree.lookup m = t.lookup m := by
  by_contra differs
  obtain ⟨r, mem, output, outcome, located⟩ := changed_ofInputs differs
  obtain ⟨q, found, rfl⟩ := exists_input_of_converted mem outcome
  exact apart q found located

end Batch

section Order

variable {inputs before after : List Path} {p : Path}

private theorem report_runInOrder (once : (before ++ p :: after).Nodup)
    (perm : (before ++ p :: after).Perm inputs) :
    (convert j l (Batch.ofInputs j l t before).tree p).report ∈
      (j.runInOrder l t inputs (before ++ p :: after)).reports := by
  rw [reports_runInOrder once fun q mem => perm.mem_iff.mpr mem]
  refine List.mem_map.mpr ⟨p, perm.mem_iff.mp (by simp), ?_⟩
  rw [Batch.treeBefore, Batch.takeWhile_of_nodup once]

private theorem reports_dropped (once : (before ++ p :: after).Nodup) (perm : (before ++ p :: after).Perm inputs)
    (never : ∀ output,
      (convert j l (Batch.ofInputs j l t before).tree p).report.outcome ≠ .converted output) :
    (j.runInOrder l t (inputs.filter (· != p)) (before ++ after)).reports =
      (j.runInOrder l t inputs (before ++ p :: after)).reports.filter (fun r => r.input != p) := by
  have kept : ∀ q ∈ inputs.filter (· != p), q ≠ p ∧ q ∈ before ++ after := by
    intro q mem
    obtain ⟨input, ne⟩ := List.mem_filter.mp mem
    have ne : q ≠ p := by simpa using ne
    have mem := perm.mem_iff.mpr input
    simp only [List.mem_append, List.mem_cons, ne, false_or] at mem
    exact ⟨ne, List.mem_append.mpr mem⟩
  have sublist : (before ++ after).Sublist (before ++ p :: after) := by simp
  rw [reports_runInOrder (once.sublist sublist) fun q mem => (kept q mem).2,
    reports_runInOrder once fun q mem => perm.mem_iff.mpr mem, List.filter_map]
  have inputsOf : (fun r : Report => r.input != p) ∘ (fun q =>
      (convert j l (Batch.treeBefore j l t (before ++ p :: after) q) q).report) = (· != p) := by
    funext q
    exact congrArg (· != p) input_report_convert
  rw [inputsOf]
  refine List.map_congr_left fun q mem => ?_
  rw [Batch.treeBefore_dropped once never (kept q mem).1]

private theorem report_alone (isFile : t.isFile p = true)
    (apart : ∀ q ∈ before, ∀ m, t.locate (j.output q) = .ok m → t.locate p ≠ .ok m) :
    (convert j l (Batch.ofInputs j l t before).tree p).report = (convert j l t p).report ∨
      (∀ m, t.locate (j.output p) ≠ .ok m) ∧ BothUnwritable (j.output p) (convert j l t p).report
        (convert j l (Batch.ofInputs j l t before).tree p).report := by
  have directories := Batch.sameDirectories_ofInputs (j := j) (l := l) (t := t) before
  obtain ⟨m, -, located, -⟩ := FileTree.isFile_iff.mp isFile
  have stays : (Batch.ofInputs j l t before).tree.lookup m = t.lookup m :=
    Batch.lookup_ofInputs fun q mem same => apart q mem m same located
  have read : t.read p = (Batch.ofInputs j l t before).tree.read p :=
    FileTree.read_congr located (directories.locate.mp located) stays.symm
  rcases report_convert_congr (j := j) (l := l) directories read with same | unwritable
  · exact .inl same.symm
  · exact .inr unwritable

end Order

private theorem isolatesFiles_runInOrder {inputs order : List Path} (files : ∀ p ∈ inputs, t.isFile p = true)
    (once : inputs.Nodup) (perm : order.Perm inputs) :
    IsolatesFiles j l t inputs order (j.runInOrder l t inputs order) := by
  have once' : order.Nodup := perm.nodup_iff.mpr once
  have reports := reports_runInOrder (j := j) (l := l) (t := t) once' fun p mem => perm.mem_iff.mpr mem
  constructor
  case reported => exact map_input_runInOrder once' fun p mem => perm.mem_iff.mpr mem
  case changed =>
    intro m differs
    obtain ⟨r, mem, rest⟩ := Batch.changed_ofInputs differs
    refine ⟨r, ?_, rest⟩
    have input : r.input ∈ order := by
      rw [← Batch.map_input_reports (j := j) (l := l) (t := t) order]
      exact List.mem_map_of_mem mem
    rw [reports]
    refine List.mem_map.mpr ⟨r.input, perm.mem_iff.mp input, ?_⟩
    exact (Batch.report_eq_of_mem once' mem).symm
  case dropped =>
    rintro before p after rfl never
    have report := report_runInOrder (j := j) (l := l) (t := t) once' perm
    have never := never _ report input_report_convert
    exact ⟨reports_dropped once' perm never, Batch.tree_dropped never⟩
  case alone =>
    rintro before p after rfl apart
    refine ⟨_, report_runInOrder once' perm, input_report_convert, ?_⟩
    exact report_alone (files p (perm.mem_iff.mp (by simp))) apart

/-- A run fails at the first pattern that cannot be read, and before it touches a file; otherwise each of
its files is converted as a whole or not at all, whatever becomes of the others and in whatever order they
are converted. -/
theorem run_converts_files_apart (j : Job) (l : Linter) (t : FileTree) :
    (∀ p, ConvertsAtomically j l t p) ∧
    (∀ e, j.run l t = .error e ↔ IsFirstFault t j.patterns e) ∧
    ∀ b, j.run l t = .ok b → ∃ inputs, j.inputs t = .ok inputs ∧ b = j.runInOrder l t inputs inputs ∧
      ∀ order, order.Perm inputs → IsolatesFiles j l t inputs order (j.runInOrder l t inputs order) := by
  refine ⟨convertsAtomically, fun e => run_eq_error_iff, fun b ran => ?_⟩
  obtain ⟨inputs, found, -⟩ := run_eq_ok_iff.mp ran
  have files : ∀ p ∈ inputs, t.isFile p = true := fun p mem => (isComponent_of_inputs found mem).1
  refine ⟨inputs, found, Except.ok.inj (ran.symm.trans (run_eq_runInOrder found)), fun order perm => ?_⟩
  exact isolatesFiles_runInOrder files (nodup_of_inputs found) perm

end VueOptions.Project
