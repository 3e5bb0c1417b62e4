import VueOptions.Blocks.Compile
import VueOptions.Project.Configuration
import VueOptions.Project.Linter

/-!
Converting one file: it is read, its script is compiled and linted, and the result is written beside
it or in its place.
-/

set_option autoImplicit false

namespace VueOptions.Project

open Blocks Options

structure Job where
  /-- Paths of files and directories, and patterns of paths. -/
  patterns : List String
  /-- Whether outputs take the place of their inputs. -/
  overwrites : Bool := false
  /-- The configuration file of the linter. -/
  linter : Option String := none
  /-- Whether the table of each component is reported. -/
  showsTables : Bool := false
  configuration : Configuration := {}
  deriving DecidableEq, Repr

/-- Where the output for an input goes: a suffix is put before the extension of its name. -/
def outputPath (input : Path) (overwrites : Bool) (suffix : String) : Path :=
  if overwrites then input
  else
    let stem := input.stem?.getD ""
    input.withFileName (match input.extension? with
      | some extension => stem ++ "." ++ suffix ++ "." ++ extension
      | none => stem ++ "." ++ suffix)

/-- Whether a path is named like the output of an earlier run. -/
def Path.isOutput (p : Path) (suffix : String) : Bool :=
  p.stem?.bind (fun stem => (Path.mk stem).extension?) == some suffix

namespace Job

def dialect (j : Job) : Dialect := j.configuration.dialect

def output (j : Job) (input : Path) : Path := outputPath input j.overwrites j.configuration.suffix

/-- Whether a path is left alone because it looks like an output. -/
def passesOver (j : Job) (p : Path) : Bool := !j.overwrites && p.isOutput j.configuration.suffix

end Job

inductive Failure
  | unreadable (why : Obstacle)
  | unanalyzed (why : Fault)
  | uncompiled (why : Fault)
  | unwritable (output : Path) (why : Obstacle)
  deriving DecidableEq, Repr

def Failure.message (input : Path) : Failure → String
  | .unreadable why => "cannot read " ++ input.text ++ ": " ++ why.message
  | .unanalyzed why => "cannot analyze " ++ input.text ++ ": " ++ why.message
  | .uncompiled why => why.message
  | .unwritable output why => "cannot write " ++ output.text ++ ": " ++ why.message

inductive Outcome
  | converted (output : Path)
  /-- There is no script to convert. -/
  | skipped
  | failed (why : Failure)
  deriving DecidableEq, Repr

structure Report where
  input : Path
  outcome : Outcome
  table : Option Table
  deriving DecidableEq, Repr

structure Conversion where
  report : Report
  /-- All files afterwards. -/
  tree : FileTree
  /-- What the linter was asked on the way. -/
  requests : List LintRequest
  deriving DecidableEq, Repr

/-- The table to report about a component file, if one is wanted and there is a script. -/
def Job.table? (j : Job) (f : ComponentFile) : Except Fault (Option Table) :=
  if j.showsTables then
    match f.scriptToCompile? with
    | some script => (Table.ofScript j.dialect script.content).map some
    | none => .ok none
  else .ok none

/-- The content of a script after linting, which begins on a line of its own. A linter that fails
changes nothing. -/
def Linter.mend (l : Linter) (content : String) : String :=
  match l.lintText content with
  | .ok mended => "\n" ++ String.ofList (Text.trimStart mended.toList)
  | .error _ => content

def Linter.mendFile (l : Linter) (f : ComponentFile) : ComponentFile :=
  { f with script := f.script.map fun b => { b with content := l.mend b.content } }

/-- Convert a file. Nothing is written unless everything before went well. -/
def convert (j : Job) (l : Linter) (t : FileTree) (input : Path) : Conversion :=
  let unchanged := fun outcome table requests => Conversion.mk ⟨input, outcome, table⟩ t requests
  match t.read input with
  | .error why => unchanged (.failed (.unreadable why)) none []
  | .ok text =>
    let file := ComponentFile.parse text
    match j.table? file with
    | .error why => unchanged (.failed (.unanalyzed why)) none []
    | .ok table =>
      match file.compile j.dialect with
      | .error .noScript => unchanged .skipped table []
      | .error why => unchanged (.failed (.uncompiled why)) table []
      | .ok compiled =>
        let requests := (compiled.script.map fun b => LintRequest.text b.content).toList
        let output := j.output input
        match t.write output (l.mendFile compiled).print with
        | .error why => unchanged (.failed (.unwritable output why)) table requests
        | .ok written => ⟨⟨input, .converted output, table⟩, written, requests⟩

end VueOptions.Project
