import VueOptions.CommandLine.Run

/-!
The program itself: the files below the working directory are read, the program is run as a function,
and the files that it has written are stored. Other programs are not started from here, so a linter is
never available.
-/

set_option autoImplicit false

namespace VueOptions

open Project

/-- The tree with the entries of a directory. -/
partial def addEntries (t : FileTree) (l : Location) (entries : Array IO.FS.DirEntry) :
    IO FileTree := do
  let mut t := t
  for e in entries do
    let here := l ++ [e.fileName]
    if ← e.path.isDir then
      t ← addEntries (t.add here .directory) here (← e.path.readDir)
    else
      let bytes ← try IO.FS.readBinFile e.path catch _ => pure ByteArray.empty
      t := t.add here (.file (Content.ofBytes bytes.toList))
  pure t

def workingTree : IO FileTree := do
  let directory ← IO.currentDir
  addEntries (.inDirectory ⟨directory.toString⟩) [] (← directory.readDir)

def store (t : FileTree) (outputs : List Project.Path) : IO Unit := do
  for path in outputs do
    match t.read path with
    | .ok text => IO.FS.writeFile path.text text
    | .error _ => pure ()

end VueOptions

open VueOptions in
def main (arguments : List String) : IO UInt32 := do
  let ending := CommandLine.invoke (fun _ _ => none) (← workingTree) arguments
  store ending.tree ending.outputs
  for complaint in ending.complaints do
    IO.eprintln complaint
  IO.print ending.stdout
  pure ending.exit.toUInt32
