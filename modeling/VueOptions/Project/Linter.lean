import VueOptions.Json.Reader
import VueOptions.Project.Path
import VueOptions.Text.Blank

/-!
Linters, which mend a text or a file, and the one that is an outside program: how it is called, and
how its report is read. A linter that fails is never a reason to fail.
-/

set_option autoImplicit false

namespace VueOptions.Project

inductive LintFault
  | notStarted
  | silent (complaint : String)
  | unexpectedReport
  | failed (path : Path) (complaint : String)
  deriving DecidableEq, Repr

def LintFault.message : LintFault → String
  | .notStarted => "failed to start eslint"
  | .silent complaint => "eslint produced no output: " ++ complaint
  | .unexpectedReport => "unexpected eslint report"
  | .failed path complaint => "eslint failed on " ++ path.text ++ ": " ++ complaint

/-- A linter: what it makes of a text, and whether it can mend a file in its place. -/
structure Linter where
  lintText : String → Except LintFault String
  lintFile : Path → Except LintFault Unit

def Linter.idle : Linter := ⟨.ok, fun _ => .ok ()⟩

inductive LintRequest
  | text (value : String)
  | file (path : Path)
  deriving DecidableEq, Repr

structure Completed where
  exit : Nat
  stdout : String
  stderr : String
  deriving DecidableEq, Repr

/-- A way to run a program with arguments and an input; there is no answer if it cannot be started. -/
abbrev Runner := List String → String → Option Completed

structure Eslint where
  configuration : String
  deriving DecidableEq, Repr

namespace Eslint

def textArguments (e : Eslint) : List String :=
  ["eslint", "--config", e.configuration, "--stdin", "--stdin-filename", "component.ts",
    "--fix-dry-run", "--format", "json"]

def fileArguments (e : Eslint) (path : Path) : List String :=
  ["eslint", "--config", e.configuration, "--fix", path.text]

def arguments (e : Eslint) : LintRequest → List String
  | .text _ => e.textArguments
  | .file path => e.fileArguments path

def output? : Json → Option (Option String)
  | .string s => some (some s)
  | .null => some none
  | _ => none

/-- The mended text of one result: an object with at most one such entry, or a list of just that. -/
def result? : Json → Option (Option String)
  | .object entries => Json.field? entries "output" none output?
  | .array [v] => output? v
  | _ => none

def report? (text : String) : Option (List (Option String)) :=
  match Json.parse? text with
  | some (.array results) => results.mapM result?
  | _ => none

/-- The text without the blanks at both ends. -/
def trimmed (s : String) : String := String.ofList (Text.trim s.toList)

/-- What becomes of a text: the first result of the report, or the text as it was. -/
def lintText (e : Eslint) (run : Runner) (text : String) : Except LintFault String :=
  match run e.textArguments text with
  | none => .error .notStarted
  | some done =>
    if done.stdout.isEmpty then .error (.silent (trimmed done.stderr))
    else match report? done.stdout with
      | none => .error .unexpectedReport
      | some results => .ok ((results.head?.bind id).getD text)

/-- Mending a file. Only the exit code two says that it failed. -/
def lintFile (e : Eslint) (run : Runner) (path : Path) : Except LintFault Unit :=
  match run (e.fileArguments path) "" with
  | none => .error .notStarted
  | some done => if done.exit = 2 then .error (.failed path (trimmed done.stderr)) else .ok ()

def linter (e : Eslint) (run : Runner) : Linter := ⟨e.lintText run, e.lintFile run⟩

end Eslint

end VueOptions.Project
