import VueOptions.Options.Generate
import VueOptions.Text.Spelled

/-!
Scripts that are spelled out. What is read of a script and what it is compiled to depends on its characters
only: for a script and an output that are spelled out, both are stated on lists of characters.
-/

set_option autoImplicit false

namespace VueOptions.Options

open Layout Script Source Text

def moduleOf? (script : List Char) : Option Module := (Tree.ofModule? script).map (Module.ofTree script)

def compileChars (d : Dialect) (script : List Char) : Except Fault (List Char) :=
  match moduleOf? script with
  | none => .error .unreadable
  | some m => (Table.ofModule d m).map fun t =>
      normalize (Writer.print d.indentWidth (renderModule d m t)) d.indentWidth

theorem compileScript_eq_map (d : Dialect) (script : String) :
    compileScript d script = (compileChars d script.toList).map String.ofList := by
  have parsed : Module.parse? script = moduleOf? script.toList := rfl
  unfold compileScript compileChars
  rw [parsed]
  cases moduleOf? script.toList with
  | none => rfl
  | some m =>
    dsimp only
    cases Table.ofModule d m <;> rfl

section

variable {d : Dialect} {script : String} {chars : List Char} (spelled : Spelled script chars)

include spelled

theorem parse?_of_spelled : Module.parse? script = moduleOf? chars := by
  rw [Module.parse?, spelled.toList_eq, moduleOf?]

theorem ofScript_of_spelled :
    Table.ofScript d script = (moduleOf? chars).elim (.error .unreadable) (Table.ofModule d) := by
  unfold Table.ofScript
  rw [parse?_of_spelled spelled]
  cases moduleOf? chars <;> rfl

theorem compileScript_of_spelled {output : String} {written : List Char} (out : Spelled output written)
    (compiled : compileChars d chars = .ok written) : compileScript d script = .ok output := by
  rw [compileScript_eq_map, spelled.toList_eq, compiled, ← out.ofList_eq]
  rfl

theorem compileScript_refused_of_spelled {e : Fault} (refused : compileChars d chars = .error e) :
    compileScript d script = .error e := by
  rw [compileScript_eq_map, spelled.toList_eq, refused]
  rfl

end

end VueOptions.Options
