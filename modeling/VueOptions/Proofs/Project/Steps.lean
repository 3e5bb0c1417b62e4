import Mathlib.Data.List.Induction
import VueOptions.Project.Batch
import VueOptions.Proofs.Project.Places

/-!
Converting files one after another. What is to be done with a file follows from its text alone
(`Job.plan`), and a conversion puts one file at the place of the output or nothing at all. So a file is
converted alike in all trees that have the same directories and the same text at its place; files that
spare each other are converted as if each of them were alone (`ofInputs_of_spares`).
-/

set_option autoImplicit false

namespace VueOptions.Project

open Blocks Options

inductive Plan
  | leave (outcome : Outcome) (table : Option Table) (requests : List LintRequest)
  | write (text : String) (table : Option Table) (requests : List LintRequest)

/-- The plan for a file: all that happens before anything is written. -/
def Job.plan (j : Job) (l : Linter) (read : Except Obstacle String) : Plan :=
  match read with
  | .error why => .leave (.failed (.unreadable why)) none []
  | .ok text =>
    match j.table? (ComponentFile.parse text) with
    | .error why => .leave (.failed (.unanalyzed why)) none []
    | .ok table =>
      match (ComponentFile.parse text).compile j.dialect with
      | .error .noScript => .leave .skipped table []
      | .error why => .leave (.failed (.uncompiled why)) table []
      | .ok compiled => .write (l.mendFile compiled).print table
          (compiled.script.map fun b => LintRequest.text b.content).toList

namespace Plan

def text? : Plan → Option String
  | .leave _ _ _ => none
  | .write text _ _ => some text

def carryOut (plan : Plan) (t : FileTree) (input output : Path) : Conversion :=
  match plan with
  | .leave outcome table requests => ⟨⟨input, outcome, table⟩, t, requests⟩
  | .write text table requests =>
    match t.write output text with
    | .error why => ⟨⟨input, .failed (.unwritable output why), table⟩, t, requests⟩
    | .ok written => ⟨⟨input, .converted output, table⟩, written, requests⟩

end Plan

section Step

variable {j : Job} {l : Linter} {t u : FileTree} {p : Path}

theorem convert_eq_carryOut :
    convert j l t p = (j.plan l (t.read p)).carryOut t p (j.output p) := by
  unfold convert Job.plan
  cases t.read p with
  | error why => rfl
  | ok text =>
    dsimp only
    cases j.table? (ComponentFile.parse text) with
    | error why => rfl
    | ok table =>
      dsimp only
      cases (ComponentFile.parse text).compile j.dialect with
      | error why => cases why <;> rfl
      | ok compiled => rfl

theorem text?_plan_eq_some_iff {read : Except Obstacle String} {s : String} :
    (j.plan l read).text? = some s ↔ ∃ text table compiled, read = .ok text ∧
      j.table? (ComponentFile.parse text) = .ok table ∧
      (ComponentFile.parse text).compile j.dialect = .ok compiled ∧ s = (l.mendFile compiled).print := by
  unfold Job.plan
  cases read with
  | error why => simp [Plan.text?]
  | ok text =>
    dsimp only
    cases table : j.table? (ComponentFile.parse text) with
    | error why => simp [Plan.text?, table]
    | ok found =>
      dsimp only
      cases compiled : (ComponentFile.parse text).compile j.dialect with
      | error why => cases why <;> simp [Plan.text?, compiled]
      | ok file =>
        simp only [Plan.text?, Option.some.injEq, Except.ok.injEq, exists_eq_left', table, compiled,
          exists_and_left]
        exact eq_comm

theorem leave_ne_converted {read : Except Obstacle String} {outcome : Outcome} {table : Option Table}
    {requests : List LintRequest} (plan : j.plan l read = .leave outcome table requests) (output : Path) :
    outcome ≠ .converted output := by
  rintro rfl
  unfold Job.plan at plan
  cases read with
  | error why => cases plan
  | ok text =>
    dsimp only at plan
    cases found : j.table? (ComponentFile.parse text) with
    | error why =>
      rw [found] at plan
      cases plan
    | ok found =>
      rw [found] at plan
      cases compiled : (ComponentFile.parse text).compile j.dialect with
      | error why =>
        rw [compiled] at plan
        cases why <;> cases plan
      | ok file =>
        rw [compiled] at plan
        cases plan

/-- The place and the text that are written when a file is converted. -/
def Job.put? (j : Job) (l : Linter) (t : FileTree) (p : Path) : Option (Location × String) :=
  match (j.plan l (t.read p)).text?, t.locate (j.output p) with
  | some text, .ok m => if t.isDirectoryAt m then none else some (m, text)
  | _, _ => none

theorem put?_eq_some_iff {m : Location} {s : String} :
    j.put? l t p = some (m, s) ↔ (j.plan l (t.read p)).text? = some s ∧ t.locate (j.output p) = .ok m ∧
      t.lookup m ≠ some .directory := by
  unfold Job.put?
  cases (j.plan l (t.read p)).text? with
  | none => simp
  | some text =>
    cases located : t.locate (j.output p) with
    | error why => simp
    | ok place =>
      dsimp only
      by_cases directory : t.lookup place = some .directory
      · rw [if_pos (FileTree.isDirectoryAt_iff.mpr directory)]
        simp only [reduceCtorEq, false_iff, Except.ok.injEq]
        rintro ⟨-, rfl, other⟩
        exact other directory
      · rw [if_neg fun holds => directory (FileTree.isDirectoryAt_iff.mp holds)]
        simp only [Option.some.injEq, Prod.mk.injEq, Except.ok.injEq]
        constructor
        · rintro ⟨rfl, rfl⟩
          exact ⟨rfl, rfl, directory⟩
        · rintro ⟨rfl, rfl, -⟩
          exact ⟨rfl, rfl⟩

theorem convert_of_put {m : Location} {s : String} (put : j.put? l t p = some (m, s)) :
    (convert j l t p).tree = t.put m (.file (.text s)) ∧
      (convert j l t p).report.outcome = .converted (j.output p) := by
  obtain ⟨text, located, other⟩ := put?_eq_some_iff.mp put
  have written : t.write (j.output p) s = .ok (t.put m (.file (.text s))) :=
    FileTree.write_eq_ok_iff.mpr ⟨m, located, other, rfl⟩
  rw [convert_eq_carryOut]
  cases plan : j.plan l (t.read p) with
  | leave outcome table requests =>
    rw [plan] at text
    cases text
  | write text' table requests =>
    rw [plan] at text
    obtain rfl := Option.some.inj text
    rw [Plan.carryOut, written]
    exact ⟨rfl, rfl⟩

theorem convert_of_not_put (put : j.put? l t p = none) :
    (convert j l t p).tree = t ∧ ∀ output, (convert j l t p).report.outcome ≠ .converted output := by
  rw [convert_eq_carryOut]
  cases plan : j.plan l (t.read p) with
  | leave outcome table requests => exact ⟨rfl, fun output => leave_ne_converted plan output⟩
  | write text table requests =>
    rw [Plan.carryOut]
    cases written : t.write (j.output p) text with
    | error why => exact ⟨rfl, by simp⟩
    | ok u =>
      obtain ⟨m, located, other, -⟩ := FileTree.write_eq_ok_iff.mp written
      have some : j.put? l t p = some (m, text) :=
        put?_eq_some_iff.mpr ⟨by rw [plan]; rfl, located, other⟩
      rw [put] at some
      cases some

theorem input_report_convert : (convert j l t p).report.input = p := by
  rw [convert_eq_carryOut]
  cases j.plan l (t.read p) with
  | leave outcome table requests => rfl
  | write text table requests =>
    rw [Plan.carryOut]
    cases t.write (j.output p) text <;> rfl

theorem sameDirectories_convert : FileTree.SameDirectories t (convert j l t p).tree := by
  cases put : j.put? l t p with
  | none =>
    rw [(convert_of_not_put put).1]
    exact .refl t
  | some place =>
    obtain ⟨-, -, other⟩ := put?_eq_some_iff.mp put
    rw [(convert_of_put put).1]
    exact FileTree.sameDirectories_put other

theorem put?_congr (same : FileTree.SameDirectories t u) (read : t.read p = u.read p) :
    j.put? l t p = j.put? l u p := by
  refine Option.ext fun place => ?_
  obtain ⟨m, s⟩ := place
  rw [put?_eq_some_iff, put?_eq_some_iff, read, same.locate, ne_eq, same.lookup m]

theorem requests_convert_congr (read : t.read p = u.read p) :
    (convert j l t p).requests = (convert j l u p).requests := by
  rw [convert_eq_carryOut, convert_eq_carryOut, read]
  cases j.plan l (u.read p) with
  | leave outcome table requests => rfl
  | write text table requests =>
    rw [Plan.carryOut, Plan.carryOut]
    cases t.write (j.output p) text <;> cases u.write (j.output p) text <;> rfl

/-- Two reports that the same output cannot be written, perhaps for different reasons. -/
def BothUnwritable (output : Path) (r r' : Report) : Prop :=
  ∃ why why', r.outcome = .failed (.unwritable output why) ∧
    r' = { r with outcome := .failed (.unwritable output why') }

theorem report_convert_congr (same : FileTree.SameDirectories t u) (read : t.read p = u.read p) :
    (convert j l t p).report = (convert j l u p).report ∨
      (∀ m, t.locate (j.output p) ≠ .ok m) ∧
        BothUnwritable (j.output p) (convert j l t p).report (convert j l u p).report := by
  rw [convert_eq_carryOut, convert_eq_carryOut, read]
  cases j.plan l (u.read p) with
  | leave outcome table requests => exact .inl rfl
  | write text table requests =>
    rw [Plan.carryOut, Plan.carryOut, FileTree.write, FileTree.write]
    cases here : t.locate (j.output p) with
    | ok m =>
      left
      rw [same.locate.mp here]
      dsimp only
      have alike : t.isDirectoryAt m = u.isDirectoryAt m := by
        rw [Bool.eq_iff_iff, FileTree.isDirectoryAt_iff, FileTree.isDirectoryAt_iff, same.lookup m]
      rw [alike]
      cases u.isDirectoryAt m <;> rfl
    | error why =>
      right
      cases there : u.locate (j.output p) with
      | ok m =>
        rw [same.locate.mpr there] at here
        cases here
      | error why' => exact ⟨by simp, why, why', rfl, rfl⟩

end Step

namespace Batch

variable {j : Job} {l : Linter} {t u : FileTree}

theorem foldl_add (b : Batch) (ps : List Path) :
    ps.foldl (add j l) b =
      ⟨b.reports ++ (ofInputs j l b.tree ps).reports, (ofInputs j l b.tree ps).tree,
        b.requests ++ (ofInputs j l b.tree ps).requests⟩ := by
  induction ps generalizing b with
  | nil => simp [ofInputs]
  | cons p ps ih =>
    have first : ofInputs j l b.tree (p :: ps) = ps.foldl (add j l) (add j l ⟨[], b.tree, []⟩ p) := rfl
    rw [List.foldl_cons, ih, first, ih (add j l _ p)]
    simp [add]

theorem ofInputs_append (ps qs : List Path) :
    ofInputs j l t (ps ++ qs) =
      ⟨(ofInputs j l t ps).reports ++ (ofInputs j l (ofInputs j l t ps).tree qs).reports,
        (ofInputs j l (ofInputs j l t ps).tree qs).tree,
        (ofInputs j l t ps).requests ++ (ofInputs j l (ofInputs j l t ps).tree qs).requests⟩ := by
  rw [ofInputs, List.foldl_append, foldl_add]
  rfl

theorem ofInputs_singleton (p : Path) :
    ofInputs j l t [p] = ⟨[(convert j l t p).report], (convert j l t p).tree, (convert j l t p).requests⟩ :=
  rfl

theorem map_input_reports (ps : List Path) : (ofInputs j l t ps).reports.map Report.input = ps := by
  induction ps using List.reverseRecOn with
  | nil => rfl
  | append_singleton ps p ih =>
    rw [ofInputs_append, List.map_append, ih, ofInputs_singleton, List.map_singleton, input_report_convert]

theorem sameDirectories_ofInputs (ps : List Path) :
    FileTree.SameDirectories t (ofInputs j l t ps).tree := by
  induction ps using List.reverseRecOn with
  | nil => exact .refl t
  | append_singleton ps p ih =>
    rw [ofInputs_append, ofInputs_singleton]
    exact ih.trans sameDirectories_convert

structure Ready (j : Job) (t : FileTree) (p : Path) : Prop where
  input : ∃ m, t.locate p = .ok m
  output : ∃ m, t.locate (j.output p) = .ok m

/-- What is written for one file is neither read for another, nor overwritten with something else. -/
structure Spares (j : Job) (l : Linter) (t : FileTree) (q p : Path) : Prop where
  input : ∀ m s, j.put? l t q = some (m, s) → t.locate p ≠ .ok m
  output : ∀ m s s', j.put? l t q = some (m, s) → j.put? l t p = some (m, s') → s = s'

structure WithOutputs (j : Job) (l : Linter) (t : FileTree) (ps : List Path) (u : FileTree) : Prop where
  directories : FileTree.SameDirectories t u
  written : ∀ p ∈ ps, ∀ m s, j.put? l t p = some (m, s) → u.lookup m = some (.file (.text s))
  kept : ∀ m, (∀ p ∈ ps, ∀ s, j.put? l t p ≠ some (m, s)) → u.lookup m = t.lookup m

theorem WithOutputs.nil : WithOutputs j l t [] t := ⟨.refl t, nofun, fun _ _ => rfl⟩

variable {ps : List Path} {p : Path}

theorem Ready.report_convert (ready : Ready j t p) (directories : FileTree.SameDirectories t u)
    (read : t.read p = u.read p) : (convert j l u p).report = (convert j l t p).report := by
  rcases report_convert_congr (j := j) (l := l) directories read with same | ⟨nowhere, -⟩
  · exact same.symm
  · obtain ⟨m, located⟩ := ready.output
    exact absurd located (nowhere m)

theorem WithOutputs.read (outputs : WithOutputs j l t ps u) (ready : Ready j t p)
    (spares : ∀ q ∈ ps, Spares j l t q p) : t.read p = u.read p := by
  obtain ⟨m, located⟩ := ready.input
  have stays : u.lookup m = t.lookup m :=
    outputs.kept m fun q mem s put => (spares q mem).input m s put located
  exact FileTree.read_congr located (outputs.directories.locate.mp located) stays.symm

theorem WithOutputs.step (outputs : WithOutputs j l t ps u) (ready : Ready j t p)
    (spares : ∀ q ∈ ps, Spares j l t q p) :
    (convert j l u p).report = (convert j l t p).report ∧
      (convert j l u p).requests = (convert j l t p).requests ∧
      WithOutputs j l t (ps ++ [p]) (convert j l u p).tree := by
  have read := outputs.read ready spares
  have put := put?_congr (j := j) (l := l) outputs.directories read
  refine ⟨ready.report_convert outputs.directories read, (requests_convert_congr read).symm,
    outputs.directories.trans sameDirectories_convert, ?_, ?_⟩
  · intro q mem m s written
    cases here : j.put? l u p with
    | none =>
      rw [(convert_of_not_put here).1]
      rcases List.mem_append.mp mem with old | new
      · exact outputs.written q old m s written
      · rw [List.mem_singleton.mp new, put, here] at written
        cases written
    | some place =>
      obtain ⟨m', s'⟩ := place
      have other := (put?_eq_some_iff.mp here).2.2
      rw [(convert_of_put here).1, FileTree.lookup_put _ _ _ _ (FileTree.not_prefix_of_lookup other)]
      split
      · next same =>
        subst same
        rcases List.mem_append.mp mem with old | new
        · rw [(spares q old).output m s s' written (put.trans here)]
        · rw [List.mem_singleton.mp new, put, here] at written
          rw [(Prod.mk.inj (Option.some.inj written)).2]
      · next differs =>
        rcases List.mem_append.mp mem with old | new
        · exact outputs.written q old m s written
        · rw [List.mem_singleton.mp new, put, here] at written
          exact absurd (Prod.mk.inj (Option.some.inj written)).1.symm differs
  · intro m untouched
    have before : u.lookup m = t.lookup m :=
      outputs.kept m fun q mem => untouched q (List.mem_append_left _ mem)
    cases here : j.put? l u p with
    | none => rw [(convert_of_not_put here).1, before]
    | some place =>
      obtain ⟨m', s'⟩ := place
      have other := (put?_eq_some_iff.mp here).2.2
      have differs : m ≠ m' := by
        rintro rfl
        exact untouched p (by simp) s' (put.trans here)
      rw [(convert_of_put here).1, FileTree.lookup_put _ _ _ _ (FileTree.not_prefix_of_lookup other),
        if_neg differs, before]

theorem ofInputs_of_spares (ready : ∀ p ∈ ps, Ready j t p) (spares : ps.Pairwise (Spares j l t)) :
    (ofInputs j l t ps).reports = ps.map (fun p => (convert j l t p).report) ∧
      (ofInputs j l t ps).requests = ps.flatMap (fun p => (convert j l t p).requests) ∧
      WithOutputs j l t ps (ofInputs j l t ps).tree := by
  induction ps using List.reverseRecOn with
  | nil => exact ⟨rfl, rfl, .nil⟩
  | append_singleton ps p ih =>
    obtain ⟨earlier, -, last⟩ := List.pairwise_append.mp spares
    obtain ⟨reports, requests, outputs⟩ := ih (fun q mem => ready q (List.mem_append_left _ mem)) earlier
    obtain ⟨report, request, next⟩ := outputs.step (ready p (by simp)) fun q mem => last q mem p (by simp)
    rw [ofInputs_append, ofInputs_singleton]
    refine ⟨?_, ?_, next⟩
    · rw [reports, report, List.map_append, List.map_singleton]
    · rw [requests, request, List.flatMap_append, List.flatMap_singleton]

end Batch

end VueOptions.Project
