import VueOptions.CommandLine.Arguments
import VueOptions.Options.TableJson
import VueOptions.Project.Batch

/-!
The program as a function: from the arguments and the files below the working directory to the exit
code, the output and the files afterwards.
-/

set_option autoImplicit false

namespace VueOptions.CommandLine

open Project

structure Ending where
  exit : Nat
  stdout : String := ""
  /-- All files afterwards. -/
  tree : FileTree
  /-- The files that were written. -/
  outputs : List Project.Path := []
  /-- The arguments of each run of the outside linter, in order. -/
  lintCalls : List (List String) := []
  /-- What is said to the user besides the output. -/
  complaints : List String := []
  deriving DecidableEq, Repr

def Arguments.job (a : Arguments) (t : FileTree) : Except ConfigurationFault Job := do
  let found ← Configuration.resolve t (a.config.map Project.Path.mk)
  let configuration := match a.target with
    | some target => { found with dialect := { found.dialect with target := target } }
    | none => found
  pure {
    patterns := a.files
    overwrites := a.overwrite
    linter := a.linter
    showsTables := a.dumpIr
    configuration := configuration }

def tableText (r : Report) : Option String := r.table.map fun t => t.toJson.print

def tablesText (reports : List Report) : String :=
  String.join (reports.filterMap fun r =>
    (tableText r).map fun text => "// " ++ r.input.text ++ "\n" ++ text ++ "\n")

def failureText? (r : Report) : Option String :=
  match r.outcome with
  | .failed why => some (r.input.text ++ " failed: " ++ why.message r.input)
  | _ => none

def finish (run : Runner) (t : FileTree) (j : Job) : Ending :=
  let linter := match j.linter with
    | some configuration => (Eslint.mk configuration).linter run
    | none => .idle
  match j.run linter t with
  | .error f => { exit := 1, tree := t, complaints := [f.message] }
  | .ok b =>
    { exit := b.exitCode
      stdout := tablesText b.reports
      tree := b.tree
      outputs := b.outputs
      lintCalls := match j.linter with
        | some configuration => b.requests.map (Eslint.mk configuration).arguments
        | none => []
      complaints := b.reports.filterMap failureText? }

def invoke (run : Runner) (t : FileTree) (arguments : List String) : Ending :=
  match Arguments.parse arguments with
  | .error .help => { exit := 0, stdout := helpText, tree := t }
  | .error .version => { exit := 0, stdout := versionText, tree := t }
  | .error (.fault f) => { exit := 2, tree := t, complaints := [f.message] }
  | .ok a =>
    if a.files.isEmpty then { exit := 1, stdout := helpText, tree := t }
    else match a.job t with
      | .error f => { exit := 1, tree := t, complaints := [f.message] }
      | .ok j => finish run t j

end VueOptions.CommandLine
