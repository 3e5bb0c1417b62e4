import VueOptions.Blocks.ComponentFile
import VueOptions.Options.Generate

/-!
Compiling a component file: the script is replaced by its options component, and every other block
stays as it is.
-/

set_option autoImplicit false

namespace VueOptions.Blocks

open Options

def isBlankScript (content : String) : Bool := (Text.trim content.toList).isEmpty

def ComponentFile.scriptToCompile? (f : ComponentFile) : Option Block :=
  f.script.filter fun b => !isBlankScript b.content

/-- A script block with new content; without a language it is in TypeScript. -/
def Block.withCompiled (b : Block) (output : String) : Block :=
  let b := { b with content := "\n" ++ output }
  if b.lang.isNone then b.withLang "ts" else b

def ComponentFile.compile (d : Dialect) (f : ComponentFile) : Except Fault ComponentFile :=
  match f.scriptToCompile? with
  | none => .error .noScript
  | some script =>
    (compileScript d script.content).map fun output =>
      { f with script := some (script.withCompiled output) }

end VueOptions.Blocks
