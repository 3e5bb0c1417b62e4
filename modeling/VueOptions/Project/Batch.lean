import VueOptions.Project.Conversion
import VueOptions.Project.Discovery

/-!
A run over many files: those that the patterns name are converted one after another, and then the
linter is sent to each output. A file that fails does not stop the others.
-/

set_option autoImplicit false

namespace VueOptions.Project

structure Batch where
  /-- One report for each file, in order. -/
  reports : List Report
  /-- All files afterwards. -/
  tree : FileTree
  /-- What the linter was asked, in order. -/
  requests : List LintRequest
  deriving DecidableEq, Repr

namespace Batch

def add (j : Job) (l : Linter) (b : Batch) (input : Path) : Batch :=
  let c := convert j l b.tree input
  ⟨b.reports ++ [c.report], c.tree, b.requests ++ c.requests⟩

def ofInputs (j : Job) (l : Linter) (t : FileTree) (inputs : List Path) : Batch :=
  inputs.foldl (add j l) ⟨[], t, []⟩

def outputs (b : Batch) : List Path :=
  b.reports.filterMap fun r =>
    match r.outcome with
    | .converted output => some output
    | _ => none

def withOutputsLinted (b : Batch) : Batch :=
  { b with requests := b.requests ++ b.outputs.map LintRequest.file }

/-- How many reports have an outcome of some kind. -/
def count (b : Batch) (p : Outcome → Bool) : Nat := (b.reports.filter fun r => p r.outcome).length

def converted (b : Batch) : Nat :=
  b.count fun
    | .converted _ => true
    | _ => false

def skipped (b : Batch) : Nat := b.count (· == .skipped)

def failed (b : Batch) : Nat :=
  b.count fun
    | .failed _ => true
    | _ => false

def exitCode (b : Batch) : Nat := if b.failed > 0 then 1 else 0

end Batch

def Job.inputs (j : Job) (t : FileTree) : Except PatternFault (List Path) :=
  (discover t j.patterns).map fun found => found.filter fun p => !j.passesOver p

def Job.run (j : Job) (l : Linter) (t : FileTree) : Except PatternFault Batch :=
  (j.inputs t).map fun inputs => (Batch.ofInputs j l t inputs).withOutputsLinted

end VueOptions.Project
