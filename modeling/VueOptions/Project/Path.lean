import VueOptions.Text.Blank
import VueOptions.Text.Lines

/-!
Paths as they are written. A path keeps its spelling; two spellings with the same components name the
same path, and paths are ordered by their components.
-/

set_option autoImplicit false

namespace VueOptions.Project

structure Path where
  text : String
  deriving DecidableEq, Repr, Inhabited

inductive PathComponent
  | root
  | current
  | parent
  | name (text : String)
  deriving DecidableEq, Repr

namespace PathComponent

def rank : PathComponent → Nat
  | .root => 0
  | .current => 1
  | .parent => 2
  | .name _ => 3

def order : PathComponent → PathComponent → Ordering
  | .name a, .name b => compare a b
  | a, b => compare a.rank b.rank

def orderAll : List PathComponent → List PathComponent → Ordering
  | [], [] => .eq
  | [], _ :: _ => .lt
  | _ :: _, [] => .gt
  | a :: as, b :: bs =>
    match order a b with
    | .eq => orderAll as bs
    | o => o

/-- What a part between slashes stands for; an empty part and a single dot stand for nothing. -/
def ofPart? (part : String) : Option PathComponent :=
  if part = "" || part = "." then none
  else if part = ".." then some .parent
  else some (.name part)

end PathComponent

/-- The stem of a file name and its extension. A dot at the front starts no extension. -/
def splitName (name : String) : String × Option String :=
  let reversed := name.toList.reverse
  match reversed.dropWhile (· != '.') with
  | _ :: c :: before =>
    if name = ".." then (name, none)
    else (String.ofList (c :: before).reverse,
      some (String.ofList (reversed.takeWhile (· != '.')).reverse))
  | _ => (name, none)

namespace Path

def parts (p : Path) : List String := (Text.split '/' p.text.toList).map String.ofList

/-- Whether the path starts at the root of the file system. -/
def isAbsolute (p : Path) : Bool := p.text.toList.head? == some '/'

def components (p : Path) : List PathComponent :=
  (if p.isAbsolute then [PathComponent.root]
    else if p.parts.head? == some "." then [PathComponent.current]
    else [])
  ++ p.parts.filterMap PathComponent.ofPart?

def order (p q : Path) : Ordering := PathComponent.orderAll p.components q.components

def fileName? (p : Path) : Option String :=
  match p.components.getLast? with
  | some (.name n) => some n
  | _ => none

def stem? (p : Path) : Option String := p.fileName?.map fun n => (splitName n).1

def extension? (p : Path) : Option String := p.fileName?.bind fun n => (splitName n).2

def join (p : Path) (name : String) : Path :=
  ⟨if p.text.isEmpty || p.text.toList.getLast? == some '/' then p.text ++ name
    else p.text ++ "/" ++ name⟩

/-- Whether a part between slashes stands for nothing. -/
def isIdle (part : String) : Bool := part = "" || part = "."

/-- Whether a part between slashes goes down. -/
def isProper (part : String) : Bool := !isIdle part && part != ".." && !part.toList.contains '/'

/-- Parts without the last one that counts and the idle ones around it. -/
def dropLastPart (parts : List String) : List String :=
  Text.dropEndWhile isIdle (Text.dropEndWhile isIdle parts).dropLast

/-- The directory that a path with a file name lies in, as it is written there. -/
def directory (p : Path) : Path :=
  match p.parts with
  | "" :: parts => ⟨"/" ++ "/".intercalate (dropLastPart parts)⟩
  | "." :: parts => ⟨"/".intercalate ("." :: dropLastPart parts)⟩
  | parts => ⟨"/".intercalate (dropLastPart parts)⟩

def withFileName (p : Path) (name : String) : Path :=
  match p.fileName? with
  | some _ => p.directory.join name
  | none => p.join name

end Path

end VueOptions.Project
