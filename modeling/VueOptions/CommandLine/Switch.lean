/-!
The switches of the command line, and the texts that say what they do.
-/

set_option autoImplicit false

namespace VueOptions.CommandLine

inductive Switch
  | files
  | overwrite
  | linter
  | silent
  | verbose
  | target
  | config
  | dumpIr
  | help
  | version
  deriving DecidableEq, Repr

/-- How many values a switch takes. -/
inductive Arity
  | none
  | one
  | many
  deriving DecidableEq, Repr

namespace Switch

def all : List Switch :=
  [.files, .overwrite, .linter, .silent, .verbose, .target, .config, .dumpIr, .help, .version]

def long : Switch → String
  | .files => "files"
  | .overwrite => "overwrite"
  | .linter => "linter"
  | .silent => "silent"
  | .verbose => "verbose"
  | .target => "target"
  | .config => "config"
  | .dumpIr => "dump-ir"
  | .help => "help"
  | .version => "version"

def short? : Switch → Option Char
  | .files => some 'f'
  | .overwrite => some 'o'
  | .linter => some 'l'
  | .silent => some 's'
  | .verbose => some 'v'
  | .help => some 'h'
  | .version => some 'V'
  | .target | .config | .dumpIr => Option.none

def arity : Switch → Arity
  | .files => .many
  | .linter | .target | .config => .one
  | _ => .none

def ofLong? (name : String) : Option Switch := all.find? fun s => s.long == name

def ofShort? (letter : Char) : Option Switch := all.find? fun s => s.short? == some letter

end Switch

def version : String := "0.1.0"

def versionText : String := "d2o " ++ version ++ "\n"

namespace Switch

def valueName : Switch → String
  | .files => " <PATHS>..."
  | .linter => " <CONFIG>"
  | .target => " <VERSION>"
  | .config => " <PATH>"
  | _ => ""

def summary : Switch → String
  | .files => "Files, directories or glob patterns to convert"
  | .overwrite => "Replace the input files instead of writing Name.options.vue"
  | .linter => "ESLint config used to fix the generated files"
  | .silent => "Only report errors"
  | .verbose => "Log every classified member"
  | .target => "Lifecycle hook set of the generated component [possible values: vue2, vue3]"
  | .config => "Path to d2o.json"
  | .dumpIr => "Print each component's symbol table as JSON"
  | .help => "Print help"
  | .version => "Print version"

def spelling (s : Switch) : String :=
  (match s.short? with
    | some letter => String.ofList ['-', letter, ',', ' ']
    | none => "    ") ++ "--" ++ s.long ++ s.valueName

def column : Nat := (all.map fun s => s.spelling.length).foldl max 0

def helpLine (s : Switch) : String :=
  "  " ++ s.spelling ++ String.ofList (List.replicate (column - s.spelling.length + 2) ' ') ++ s.summary

end Switch

def helpText : String :=
  String.join ((["Rewrites Vue class-decorator components into defineComponent options components", "",
    "Usage: d2o [OPTIONS]", "", "Options:"] ++ Switch.all.map Switch.helpLine).map (· ++ "\n"))

end VueOptions.CommandLine
