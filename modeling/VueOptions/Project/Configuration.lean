import VueOptions.Json.Reader
import VueOptions.Options.DialectJson
import VueOptions.Project.FileTree

/-!
The configuration of a project: a dialect, and the word that is put into the names of output files. It
is an object with the entries of the dialect and one more.
-/

set_option autoImplicit false

namespace VueOptions.Project

open Options

structure Configuration where
  dialect : Dialect := {}
  /-- The word before the extension of an output file. -/
  suffix : String := "options"
  deriving DecidableEq, Repr

inductive ConfigurationFault
  | unreadable (path : Path)
  | invalid (path : Path)
  deriving DecidableEq, Repr

def ConfigurationFault.message : ConfigurationFault → String
  | .unreadable path => "cannot read config " ++ path.text
  | .invalid path => "invalid config " ++ path.text

namespace Configuration

def standardFile : Path := ⟨"d2o.json"⟩

def ofJson? : Json → Option Configuration
  | .object entries => do
    let standard : Configuration := {}
    let suffix ← Json.field? entries "generated_file_suffix" standard.suffix Json.text?
    let dialect ← Dialect.ofEntries? entries
    pure ⟨dialect, suffix⟩
  | _ => none

def parse? (text : String) : Option Configuration := (Json.parse? text).bind ofJson?

def load (t : FileTree) (path : Path) : Except ConfigurationFault Configuration :=
  match t.read path with
  | .error _ => .error (.unreadable path)
  | .ok text =>
    match parse? text with
    | some c => .ok c
    | none => .error (.invalid path)

def resolve (t : FileTree) (path : Option Path) : Except ConfigurationFault Configuration :=
  match path with
  | some path => load t path
  | none => if t.isFile standardFile then load t standardFile else .ok {}

def toJson (c : Configuration) : Json :=
  .object [("dialect", c.dialect.toJson), ("generated_file_suffix", .string c.suffix)]

end Configuration

end VueOptions.Project
