import VueOptions.Project.Path

/-!
A file system as a value, with a working directory in it. A location is the list of names from the root
down; a path is followed name by name to its location, from the root or from the working directory. Main
statement: what is found after an entry has been put at a location (`lookup_put`).
-/

set_option autoImplicit false

namespace VueOptions.Project

abbrev Location := List String

/-- What a file holds: a text, or bytes that are none. -/
inductive Content
  | text (value : String)
  | bytes (raw : List UInt8)
  deriving DecidableEq, Repr

def Content.ofBytes (raw : List UInt8) : Content :=
  match String.fromUTF8? (ByteArray.mk raw.toArray) with
  | some s => .text s
  | none => .bytes raw

inductive Entry
  | file (content : Content)
  | directory
  deriving DecidableEq, Repr

/-- Why a file cannot be read or written. -/
inductive Obstacle
  | missing
  | notDirectory
  | isDirectory
  | notText
  deriving DecidableEq, Repr

def Obstacle.message : Obstacle → String
  | .missing => "No such file or directory (os error 2)"
  | .notDirectory => "Not a directory (os error 20)"
  | .isDirectory => "Is a directory (os error 21)"
  | .notText => "stream did not contain valid UTF-8"

theorem isProper_work : ["work"].all Path.isProper = true := rfl

structure FileTree where
  entries : List (Location × Entry) := []
  /-- The working directory, where paths start that do not start at the root. -/
  base : Location := ["work"]
  proper : base.all Path.isProper = true := by exact isProper_work
  deriving DecidableEq, Repr

namespace FileTree

def inDirectory (p : Path) : FileTree where
  base := p.parts.filter Path.isProper
  proper := by simp

/-- What stands at a location. Down to the working directory there are directories. -/
def lookup (t : FileTree) (l : Location) : Option Entry :=
  if l.isPrefixOf t.base then some .directory else t.entries.lookup l

def putEntry (l : Location) (e : Entry) : List (Location × Entry) → List (Location × Entry)
  | [] => [(l, e)]
  | (m, f) :: rest => if m = l then (l, e) :: rest else (m, f) :: putEntry l e rest

def put (t : FileTree) (l : Location) (e : Entry) : FileTree :=
  { t with entries := putEntry l e t.entries }

theorem lookup_putEntry (l m : Location) (e : Entry) (es : List (Location × Entry)) :
    (putEntry l e es).lookup m = if m = l then some e else es.lookup m := by
  induction es with
  | nil =>
    by_cases h : m = l
    · simp [putEntry, h]
    · have : (m == l) = false := by simpa using h
      simp [putEntry, List.lookup_cons, h, this]
  | cons x xs ih =>
    obtain ⟨k, f⟩ := x
    by_cases hk : k = l
    · subst hk
      by_cases h : m = k
      · simp [putEntry, h]
      · have : (m == k) = false := by simpa using h
        simp [putEntry, List.lookup_cons, h, this]
    · simp only [putEntry, hk, if_false, List.lookup_cons]
      by_cases hm : m = k
      · subst hm
        simp [hk]
      · have : (m == k) = false := by simpa using hm
        simp [this, ih]

theorem lookup_put (t : FileTree) (l m : Location) (e : Entry) (hl : ¬l <+: t.base) :
    (t.put l e).lookup m = if m = l then some e else t.lookup m := by
  by_cases hm : m <+: t.base
  · have ne : m ≠ l := fun same => hl (same ▸ hm)
    simp [lookup, put, hm, ne]
  · simp [lookup, hm, put, lookup_putEntry]

def isDirectoryAt (t : FileTree) (l : Location) : Bool := t.lookup l == some .directory

def withDirectory (t : FileTree) (l : Location) : FileTree :=
  (List.range l.length).foldl (fun t n =>
    let above := t.base ++ l.take (n + 1)
    if (t.lookup above).isNone then t.put above .directory else t) t

/-- The tree with an entry at a location below the working directory and directories above it. -/
def add (t : FileTree) (l : Location) (e : Entry) : FileTree :=
  (t.withDirectory l.dropLast).put (t.base ++ l) e

/-- Go one part further; only from a directory can one go on. -/
def follow (t : FileTree) (l : Location) (part : String) : Except Obstacle Location :=
  match t.lookup l with
  | none => .error .missing
  | some (.file _) => .error .notDirectory
  | some .directory =>
    if Path.isIdle part then .ok l
    else if part = ".." then .ok l.dropLast
    else .ok (l ++ [part])

def start (t : FileTree) (p : Path) : Location := if p.isAbsolute then [] else t.base

def locate (t : FileTree) (p : Path) : Except Obstacle Location :=
  if p.text.isEmpty then .error .missing else p.parts.foldlM t.follow (t.start p)

def entryAt? (t : FileTree) (p : Path) : Option Entry :=
  match t.locate p with
  | .ok l => t.lookup l
  | .error _ => none

def isDirectory (t : FileTree) (p : Path) : Bool := t.entryAt? p == some .directory

def isFile (t : FileTree) (p : Path) : Bool :=
  match t.entryAt? p with
  | some (.file _) => true
  | _ => false

def read (t : FileTree) (p : Path) : Except Obstacle String :=
  match t.locate p with
  | .error o => .error o
  | .ok l =>
    match t.lookup l with
    | none => .error .missing
    | some .directory => .error .isDirectory
    | some (.file (.bytes _)) => .error .notText
    | some (.file (.text s)) => .ok s

def write (t : FileTree) (p : Path) (s : String) : Except Obstacle FileTree :=
  match t.locate p with
  | .error o => .error o
  | .ok l => if t.isDirectoryAt l then .error .isDirectory else .ok (t.put l (.file (.text s)))

/-- Everything that stands somewhere, the directories down to the working directory first. -/
def standing (t : FileTree) : List (Location × Entry) :=
  (List.range t.base.length).map (fun n => (t.base.take (n + 1), Entry.directory))
    ++ t.entries.filter fun e => !e.1.isPrefixOf t.base

def below (t : FileTree) (l : Location) : List (Location × Entry) :=
  t.standing.filterMap fun (m, e) =>
    if l.isPrefixOf m && l.length < m.length then some (m.drop l.length, e) else none

/-- The files below the working directory with their paths, in the order of the characters of the
paths. -/
def files (t : FileTree) : List (Path × Content) :=
  let found := (t.below t.base).filterMap fun (l, e) =>
    match e with
    | .file c => some (Path.mk ("/".intercalate l), c)
    | .directory => none
  found.mergeSort fun a b => compare a.1.text b.1.text != .gt

end FileTree

end VueOptions.Project
