import VueOptions.Proofs.Options.Compilation
import VueOptions.Proofs.Project.Isolation
import VueOptions.Proofs.Project.Schedule

/-!
Runs that report the tables of components beside runs that do not, with the files converted in any
order. A script is compiled exactly if it has a table, and both are refused for the same fault. So a file
whose table is wanted is refused earlier, and with another message, but for nothing else; all files come
out the same. Main statement: `shown_tables_only_observe`.
-/

set_option autoImplicit false

namespace VueOptions.Project

open Blocks Options Source

theorem exists_compileScript_eq_map (d : Dialect) (script : String) :
    ∃ write, compileScript d script = (Table.ofScript d script).map write := by
  unfold compileScript Table.ofScript
  cases Module.parse? script with
  | none => exact ⟨fun _ => "", rfl⟩
  | some m => exact ⟨generate d m, rfl⟩

theorem ofScript_ne_noScript (d : Dialect) (script : String) : Table.ofScript d script ≠ .error .noScript := by
  unfold Table.ofScript
  cases Module.parse? script with
  | none => simp
  | some m =>
    dsimp only
    cases run : Table.ofNodes d Pass.all m.nodes with
    | error e =>
      rw [Table.ofModule_of_error run]
      intro same
      obtain rfl := Except.error.inj same
      exact isNodeFault_of_ofNodes run
    | ok t =>
      rw [Table.ofModule_of_ok run]
      split <;> simp

def Job.showing (j : Job) (shows : Bool) : Job := { j with showsTables := shows }

/-- What has been read of a file holds a script that is not blank and has a table. -/
def HasTable (d : Dialect) (read : Except Obstacle String) (table : Table) : Prop :=
  ∃ text script, read = .ok text ∧ (ComponentFile.parse text).script = some script ∧
    isBlankScript script.content = false ∧ Table.ofScript d script.content = .ok table

structure ReportedWith (d : Dialect) (read : Except Obstacle String) (shown hidden : Report) : Prop where
  input : shown.input = hidden.input
  outcome : shown.outcome = hidden.outcome ∨ ∃ why why', shown.outcome = .failed why ∧
    hidden.outcome = .failed why' ∧ why.message shown.input =
      "cannot analyze " ++ shown.input.text ++ ": " ++ why'.message hidden.input
  shows : ∀ table, shown.table = some table ↔ HasTable d read table
  hides : hidden.table = none

section Step

variable {j : Job} {l : Linter} {t : FileTree} {p : Path}

def Plan.withTable (table : Option Table) : Plan → Plan
  | .leave outcome _ requests => .leave outcome table requests
  | .write text _ requests => .write text table requests

theorem Plan.carryOut_withTable (plan : Plan) (table : Option Table) (t : FileTree) (input output : Path) :
    (plan.withTable table).carryOut t input output =
      { plan.carryOut t input output with
        report := { (plan.carryOut t input output).report with table := table } } := by
  cases plan with
  | leave outcome old requests => rfl
  | write text old requests =>
    rw [withTable, carryOut, carryOut]
    cases t.write output text <;> rfl

theorem scriptToCompile?_eq_some_iff {f : ComponentFile} {script : Block} :
    f.scriptToCompile? = some script ↔ f.script = some script ∧ isBlankScript script.content = false := by
  simp [ComponentFile.scriptToCompile?, Option.filter_eq_some_iff]

theorem hasTable_ok_iff {d : Dialect} {text : String} {table : Table} :
    HasTable d (.ok text) table ↔ ∃ script, (ComponentFile.parse text).scriptToCompile? = some script ∧
      Table.ofScript d script.content = .ok table := by
  simp [HasTable, scriptToCompile?_eq_some_iff, and_assoc]

theorem plan_showing (read : Except Obstacle String) :
    (∃ (plan : Plan) (table : Option Table), (∀ u, table = some u ↔ HasTable j.dialect read u) ∧
      (j.showing true).plan l read = plan.withTable table ∧
      (j.showing false).plan l read = plan.withTable none) ∨
    ∃ why, (∀ u, ¬HasTable j.dialect read u) ∧
      (j.showing true).plan l read = .leave (.failed (.unanalyzed why)) none [] ∧
      (j.showing false).plan l read = .leave (.failed (.uncompiled why)) none [] := by
  cases read with
  | error why =>
    exact .inl ⟨.leave (.failed (.unreadable why)) none [], none, by simp [HasTable], rfl, rfl⟩
  | ok text =>
    have dialect (shows : Bool) : (j.showing shows).dialect = j.dialect := rfl
    have hides : (j.showing false).table? (ComponentFile.parse text) = .ok none := rfl
    cases script : (ComponentFile.parse text).scriptToCompile? with
    | none =>
      have shows : (j.showing true).table? (ComponentFile.parse text) = .ok none := by
        simp [Job.table?, Job.showing, script]
      have compiled : (ComponentFile.parse text).compile j.dialect = .error .noScript := by
        simp [ComponentFile.compile, script]
      refine .inl ⟨.leave .skipped none [], none, by simp [hasTable_ok_iff, script], ?_, ?_⟩
      · simp only [Job.plan, dialect, shows, compiled, Plan.withTable]
      · simp only [Job.plan, dialect, hides, compiled, Plan.withTable]
    | some b =>
      have shows : (j.showing true).table? (ComponentFile.parse text) =
          (Table.ofScript j.dialect b.content).map some := by
        simp [Job.table?, Job.showing, script, Job.dialect]
      obtain ⟨write, compiles⟩ := exists_compileScript_eq_map j.dialect b.content
      cases found : Table.ofScript j.dialect b.content with
      | error why =>
        have compiled : (ComponentFile.parse text).compile j.dialect = .error why := by
          simp [ComponentFile.compile, script, compiles, found, Except.map]
        refine .inr ⟨why, by simp [hasTable_ok_iff, script, found], ?_, ?_⟩
        · simp only [Job.plan, shows, found, Except.map]
        · simp only [Job.plan, dialect, hides, compiled]
          cases why with
          | noScript => exact absurd found (ofScript_ne_noScript j.dialect b.content)
          | _ => rfl
      | ok table =>
        obtain ⟨c, compiled⟩ : ∃ c, (ComponentFile.parse text).compile j.dialect = .ok c := by
          simp [ComponentFile.compile, script, compiles, found, Except.map]
        refine .inl ⟨.write (l.mendFile c).print none (c.script.map fun b => LintRequest.text b.content).toList,
          some table, ?_, ?_, ?_⟩
        · simp [hasTable_ok_iff, script, found]
        · simp only [Job.plan, dialect, shows, found, Except.map, compiled, Plan.withTable]
        · simp only [Job.plan, dialect, hides, compiled, Plan.withTable]

theorem convert_showing (j : Job) (l : Linter) (t : FileTree) (p : Path) :
    ReportedWith j.dialect (t.read p) (convert (j.showing true) l t p).report
        (convert (j.showing false) l t p).report ∧
      (convert (j.showing true) l t p).tree = (convert (j.showing false) l t p).tree ∧
      (convert (j.showing true) l t p).requests = (convert (j.showing false) l t p).requests := by
  have output (shows : Bool) : (j.showing shows).output p = j.output p := rfl
  rw [convert_eq_carryOut, convert_eq_carryOut, output, output]
  rcases plan_showing (j := j) (l := l) (t.read p) with
    ⟨plan, table, declares, shown, hidden⟩ | ⟨why, declares, shown, hidden⟩
  · rw [shown, hidden, Plan.carryOut_withTable, Plan.carryOut_withTable]
    exact ⟨⟨rfl, .inl rfl, declares, rfl⟩, rfl, rfl⟩
  · rw [shown, hidden]
    refine ⟨⟨rfl, .inr ⟨_, _, rfl, rfl, rfl⟩, fun u => ?_, rfl⟩, rfl, rfl⟩
    exact ⟨fun none => absurd none (Option.some_ne_none u).symm, fun has => absurd has (declares u)⟩

end Step

def Outcome.output? : Outcome → Option Path
  | .converted output => some output
  | _ => none

namespace Batch

variable {j : Job} {l : Linter} {t : FileTree}

theorem tree_showing (ps : List Path) :
    (ofInputs (j.showing true) l t ps).tree = (ofInputs (j.showing false) l t ps).tree := by
  induction ps using List.reverseRecOn with
  | nil => rfl
  | append_singleton ps p ih =>
    rw [ofInputs_append, ofInputs_append, ih]
    exact (convert_showing j l _ p).2.1

theorem requests_showing (ps : List Path) :
    (ofInputs (j.showing true) l t ps).requests = (ofInputs (j.showing false) l t ps).requests := by
  induction ps using List.reverseRecOn with
  | nil => rfl
  | append_singleton ps p ih =>
    rw [ofInputs_append, ofInputs_append, ih, tree_showing]
    exact congrArg (_ ++ ·) (convert_showing j l _ p).2.2

theorem treeBefore_showing (order : List Path) (p : Path) :
    treeBefore (j.showing true) l t order p = treeBefore (j.showing false) l t order p :=
  tree_showing _

end Batch

section Order

variable {j : Job} {l : Linter} {t : FileTree} {inputs order : List Path}

theorem map_reports_showing {γ : Type} {f : Outcome → γ}
    (blind : ∀ why why', f (.failed why) = f (.failed why')) (once : order.Nodup)
    (taken : ∀ p ∈ inputs, p ∈ order) :
    ((j.showing true).runInOrder l t inputs order).reports.map (fun r => f r.outcome) =
      ((j.showing false).runInOrder l t inputs order).reports.map (fun r => f r.outcome) := by
  rw [reports_runInOrder once taken, reports_runInOrder once taken, List.map_map, List.map_map]
  refine List.map_congr_left fun p _ => ?_
  dsimp only [Function.comp_apply]
  rw [Batch.treeBefore_showing]
  obtain ⟨⟨-, outcome, -, -⟩, -⟩ :=
    convert_showing j l (Batch.treeBefore (j.showing false) l t order p) p
  rcases outcome with same | ⟨why, why', shown, hidden, -⟩
  · rw [same]
  · rw [shown, hidden, blind why why']

theorem count_showing {f : Outcome → Bool} (blind : ∀ why why', f (.failed why) = f (.failed why'))
    (once : order.Nodup) (taken : ∀ p ∈ inputs, p ∈ order) :
    ((j.showing true).runInOrder l t inputs order).count f =
      ((j.showing false).runInOrder l t inputs order).count f := by
  have counted := congrArg (List.countP id)
    (map_reports_showing (j := j) (l := l) (t := t) blind once taken)
  rw [List.countP_map, List.countP_map, List.countP_eq_length_filter,
    List.countP_eq_length_filter] at counted
  exact counted

theorem requests_runInOrder_showing (once : order.Nodup) (taken : ∀ p ∈ inputs, p ∈ order) :
    ((j.showing true).runInOrder l t inputs order).requests =
      ((j.showing false).runInOrder l t inputs order).requests := by
  have listed := congrArg (List.filterMap id)
    (map_reports_showing (j := j) (l := l) (t := t) (f := Outcome.output?) (fun _ _ => rfl) once taken)
  rw [List.filterMap_map, List.filterMap_map] at listed
  have outputs : ((Batch.ofInputs (j.showing true) l t order).inOrderOf inputs).outputs =
      ((Batch.ofInputs (j.showing false) l t order).inOrderOf inputs).outputs := listed
  rw [Job.runInOrder, Job.runInOrder, Batch.withOutputsLinted, Batch.withOutputsLinted, outputs]
  exact congrArg (· ++ _) (Batch.requests_showing order)

end Order

/-- Two runs over some files that are converted in some order, with tables shown and without. -/
structure OnlyShowsTables (j : Job) (l : Linter) (t : FileTree) (inputs order : List Path)
    (shown hidden : Batch) : Prop where
  reported : shown.reports.map Report.input = inputs ∧ hidden.reports.map Report.input = inputs
  tree : shown.tree = hidden.tree
  requests : shown.requests = hidden.requests
  lintedPaths : shown.lintedPaths = hidden.lintedPaths
  counts : shown.converted = hidden.converted ∧ shown.skipped = hidden.skipped ∧ shown.failed = hidden.failed
  exitCode : shown.exitCode = hidden.exitCode
  /-- The two reports on a file, which is read when it is its turn. -/
  reports : ∀ (i : Nat) p, inputs[i]? = some p → ∃ s h, shown.reports[i]? = some s ∧
    hidden.reports[i]? = some h ∧ s.input = p ∧
      ReportedWith j.dialect ((Batch.treeBefore (j.showing false) l t order p).read p) s h

theorem onlyShowsTables_runInOrder {j : Job} {l : Linter} {t : FileTree} {inputs order : List Path}
    (once : order.Nodup) (taken : ∀ p ∈ inputs, p ∈ order) :
    OnlyShowsTables j l t inputs order ((j.showing true).runInOrder l t inputs order)
      ((j.showing false).runInOrder l t inputs order) := by
  have requests := requests_runInOrder_showing (j := j) (l := l) (t := t) once taken
  have failed : ((j.showing true).runInOrder l t inputs order).failed =
      ((j.showing false).runInOrder l t inputs order).failed :=
    count_showing (fun _ _ => rfl) once taken
  have reports (shows : Bool) :=
    reports_runInOrder (j := j.showing shows) (l := l) (t := t) once taken
  constructor
  case reported => exact ⟨map_input_runInOrder once taken, map_input_runInOrder once taken⟩
  case tree => exact Batch.tree_showing order
  case requests => exact requests
  case lintedPaths => exact congrArg (List.filterMap LintRequest.path?) requests
  case counts =>
    exact ⟨count_showing (fun _ _ => rfl) once taken, count_showing (fun _ _ => rfl) once taken, failed⟩
  case exitCode => exact congrArg (fun n => if n > 0 then 1 else 0) failed
  case reports =>
    intro i p input
    have step := (convert_showing j l (Batch.treeBefore (j.showing false) l t order p) p).1
    refine ⟨_, _, ?_, ?_, input_report_convert, step⟩
    · rw [reports, List.getElem?_map, input, Option.map_some, Batch.treeBefore_showing]
    · rw [reports, List.getElem?_map, input]
      rfl

/-- Reporting tables only observes. With tables shown and without, a job takes the same files, and in
whatever order these are converted, it comes to the same files, the same requests to the linter, the same
counts and the same exit code; only the message of a failure may say in addition that the file cannot be
analyzed. A table is reported for the files that hold a script that is not blank and has a table. -/
theorem shown_tables_only_observe (j : Job) (l : Linter) (t : FileTree) :
    (∀ e, (j.showing true).run l t = .error e ↔ (j.showing false).run l t = .error e) ∧
    (∀ inputs, j.inputs t = .ok inputs →
      (∀ shows, (j.showing shows).run l t = .ok ((j.showing shows).runInOrder l t inputs inputs)) ∧
      ∀ order : List Path, order.Perm inputs → OnlyShowsTables j l t inputs order
        ((j.showing true).runInOrder l t inputs order) ((j.showing false).runInOrder l t inputs order)) := by
  refine ⟨fun e => by rw [run_eq_error_iff, run_eq_error_iff]; rfl, fun inputs found => ⟨?_, ?_⟩⟩
  · intro shows
    exact run_eq_runInOrder (j := j.showing shows) found
  · intro order perm
    exact onlyShowsTables_runInOrder (perm.nodup_iff.mpr (nodup_of_inputs found))
      fun p mem => perm.mem_iff.mpr mem

end VueOptions.Project
