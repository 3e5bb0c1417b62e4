import VueOptions.CommandLine.Switch
import VueOptions.Options.Dialect

/-!
Reading the command line. Arguments are read from left to right. The values of a switch are only
looked at when the next switch comes or the line ends, so a later argument that cannot be read at all
is noticed before a bad value.
-/

set_option autoImplicit false

namespace VueOptions.CommandLine

open Options (Target)

structure Arguments where
  files : List String := []
  overwrite : Bool := false
  linter : Option String := none
  silent : Bool := false
  verbose : Bool := false
  target : Option Target := none
  config : Option String := none
  dumpIr : Bool := false
  deriving DecidableEq, Repr

inductive UsageFault
  | unknownArgument
  | invalidValue
  | argumentConflict
  | tooManyValues
  deriving DecidableEq, Repr

def UsageFault.message : UsageFault → String
  | .unknownArgument => "unexpected argument found"
  | .invalidValue => "a value is missing or invalid"
  | .argumentConflict => "an argument cannot be used multiple times"
  | .tooManyValues => "a value is given to an argument that takes none"

inductive Halt
  | help
  | version
  | fault (f : UsageFault)
  deriving DecidableEq, Repr

structure Reading where
  arguments : Arguments := {}
  /-- The switches whose values have been looked at. -/
  given : List Switch := []
  /-- A switch with values that have not been looked at. -/
  pending : Option (Switch × List String) := none
  /-- Whether the next value belongs to that switch. -/
  isOpen : Bool := false
  /-- Whether two dashes have ended the switches. -/
  isClosed : Bool := false
  deriving DecidableEq, Repr

namespace Reading

def refuse {α : Type} (f : UsageFault) : Except Halt α := .error (.fault f)

/-- Set what a switch says; a switch other than the one for files may be given once. -/
def accept (r : Reading) (s : Switch) (values : List String) : Except Halt Reading :=
  let arguments := r.arguments
  let set := fun arguments => Except.ok { r with arguments := arguments, given := s :: r.given }
  let once := fun (next : Except Halt Reading) =>
    if r.given.contains s then refuse .argumentConflict else next
  match s, values with
  | .help, _ => .error .help
  | .version, _ => .error .version
  | .overwrite, _ => once (set { arguments with overwrite := true })
  | .silent, _ => once (set { arguments with silent := true })
  | .verbose, _ => once (set { arguments with verbose := true })
  | .dumpIr, _ => once (set { arguments with dumpIr := true })
  | _, [] => refuse .invalidValue
  | .files, _ => set { arguments with files := arguments.files ++ values }
  | .linter, value :: _ => once (set { arguments with linter := some value })
  | .config, value :: _ => once (set { arguments with config := some value })
  | .target, value :: _ => once <|
    match Target.ofLabel? value with
    | some t => set { arguments with target := some t }
    | none => refuse .invalidValue

def settle (r : Reading) : Except Halt Reading :=
  match r.pending with
  | none => .ok { r with isOpen := false }
  | some (s, values) => { r with pending := none, isOpen := false }.accept s values

def complete (r : Reading) (s : Switch) (values : List String) : Except Halt Reading := do
  (← r.settle).accept s values

def expectValues (r : Reading) (s : Switch) : Except Halt Reading := do
  pure { ← r.settle with pending := some (s, []), isOpen := true }

/-- A long name, perhaps with a value behind an equals sign. -/
def readLong (r : Reading) (body : List Char) : Except Halt Reading :=
  let value := match body.dropWhile (· != '=') with
    | _ :: value => some (String.ofList value)
    | [] => none
  match Switch.ofLong? (String.ofList (body.takeWhile (· != '='))) with
  | none => refuse .unknownArgument
  | some s =>
    match s.arity, value with
    | .none, some _ => refuse .tooManyValues
    | .none, none => r.complete s []
    | _, some value => r.complete s [value]
    | _, none => r.expectValues s

/-- Letters, of which one that takes values ends the list and may have its value behind it. -/
def readShort (r : Reading) : List Char → Except Halt Reading
  | [] => .ok r
  | letter :: rest =>
    match Switch.ofShort? letter with
    | none => refuse .unknownArgument
    | some s =>
      if s.arity = .none then do (← r.complete s []).readShort rest
      else match rest with
        | [] => r.expectValues s
        | '=' :: value => r.complete s [String.ofList value]
        | value => r.complete s [String.ofList value]

def readValue (r : Reading) (value : String) : Except Halt Reading :=
  match r.pending with
  | some (s, values) =>
    if r.isOpen then
      .ok { r with pending := some (s, values ++ [value]), isOpen := s.arity == .many }
    else refuse .unknownArgument
  | none => refuse .unknownArgument

def read (r : Reading) (argument : String) : Except Halt Reading :=
  if r.isClosed then refuse .unknownArgument
  else match argument.toList with
    | ['-', '-'] => .ok { r with isClosed := true }
    | '-' :: '-' :: body => r.readLong body
    | '-' :: letter :: rest => r.readShort (letter :: rest)
    | _ => r.readValue argument

end Reading

def Arguments.parse (arguments : List String) : Except Halt Arguments := do
  pure (← (← arguments.foldlM Reading.read {}).settle).arguments

end VueOptions.CommandLine
