import VueOptions.Project.FileTree
import VueOptions.Project.Pattern

/-!
Finding the component files that patterns name. A pattern that is the path of a directory stands for
all component files below it, the path of a file for that file, and anything else for the paths it
matches. What is found is ordered, and each path is listed once, as it was first spelled.
-/

set_option autoImplicit false

namespace VueOptions.Project

namespace FileTree

def here : Path := ⟨"."⟩

def root : Path := ⟨"/"⟩

/-- The path of an entry of a directory; entries of the working directory go by their names. -/
def entryPath (p : Path) (name : String) : Path :=
  if p.components = [.current] then ⟨name⟩ else p.join name

def pathBelow (p : Path) (names : Location) : Path := names.foldl entryPath p

def entriesBelow (t : FileTree) (p : Path) : List (Path × Location × Entry) :=
  match t.locate p with
  | .ok l =>
    if t.isDirectoryAt l then (t.below l).map fun (names, e) => (pathBelow p names, names, e) else []
  | .error _ => []

/-- The paths that a step leads to from a path. A step without marks follows its text. A step with
marks looks at the entries of a directory, and also at the two that lead to itself and upwards if it
begins with a dot. -/
def takeStep (t : FileTree) (s : PatternStep) (p : Path) : List Path :=
  let found := fun (es : List (Path × Location × Entry)) =>
    (es.filter fun e =>
      match e.2.1.getLast? with
      | some name => Piece.matchesName s.pieces name.toList
      | none => false).map fun e => e.1
  if s.isDeep then found (t.entriesBelow p)
  else match Piece.literal? s.pieces with
    | some text =>
      let next := entryPath p (String.ofList text)
      if text = ['.'] || text = ['.', '.'] then if t.isDirectory p then [next] else []
      else if (t.entryAt? next).isSome then [next] else []
    | none =>
      found ((t.entriesBelow p).filter fun e => e.2.1.length == 1)
        ++ if t.isDirectory p && s.pieces.head? == some (.char '.') then
          ([".", ".."].filter fun name => Piece.matchesName s.pieces name.toList).map p.join
        else []

def glob (t : FileTree) (q : Pattern) : List Path :=
  let start := if q.isAbsolute then root else here
  let reached := q.steps.foldl (fun ps s => ps.flatMap (t.takeStep s)) [start]
  let ends := if q.endsDeep then
    reached.flatMap fun p => ((t.entriesBelow p).filter fun e => e.2.2 == .directory).map fun e => e.1
    else reached
  if q.wantsDirectory then ends.filter t.isDirectory else ends

end FileTree

def componentExtension : String := "vue"

def Path.isComponent (p : Path) : Bool := p.extension? == some componentExtension

/-- Put a path at its place among others, unless it is listed already. -/
def Path.insert (p : Path) : List Path → List Path
  | [] => [p]
  | q :: qs =>
    match p.order q with
    | .lt => p :: q :: qs
    | .eq => q :: qs
    | .gt => q :: p.insert qs

structure PatternFault where
  pattern : String
  deriving DecidableEq, Repr

def PatternFault.message (f : PatternFault) : String := "invalid pattern `" ++ f.pattern ++ "`"

def matching (t : FileTree) (pattern : String) : Except PatternFault (List Path) :=
  match Pattern.parse? pattern with
  | none => .error ⟨pattern⟩
  | some q => .ok ((t.glob q).filter fun p => t.isFile p && p.isComponent)

def patternBelow (directory : String) : String :=
  String.ofList (Text.dropEndWhile (· == '/') directory.toList) ++ "/**/*." ++ componentExtension

def named (t : FileTree) (pattern : String) : Except PatternFault (List Path) :=
  let p : Path := ⟨pattern⟩
  if t.isDirectory p then matching t (patternBelow pattern)
  else if t.isFile p then .ok (if p.isComponent then [p] else [])
  else matching t pattern

/-- The component files that patterns name, ordered and each once. -/
def discover (t : FileTree) (patterns : List String) : Except PatternFault (List Path) :=
  patterns.foldlM (fun found pattern => do
    let more ← named t pattern
    pure (more.foldl (fun found p => p.insert found) found)) []

end VueOptions.Project
