/-!
Strings that are spelled out. The characters of a literal, and of literals one behind another, are known
without decoding the string, so what is read of it can be evaluated on a list of characters.
-/

set_option autoImplicit false

namespace VueOptions.Text

structure Spelled (s : String) (chars : List Char) : Prop where
  toList_eq : s.toList = chars

namespace Spelled

variable {s t : String} {chars more : List Char}

theorem literal (written : s = String.ofList chars) : Spelled s chars :=
  ⟨written ▸ String.toList_ofList⟩

theorem append (first : Spelled s chars) (second : Spelled t more) : Spelled (s ++ t) (chars ++ more) :=
  ⟨by rw [String.toList_append, first.toList_eq, second.toList_eq]⟩

theorem ofList_eq (spelled : Spelled s chars) : String.ofList chars = s := by
  rw [← spelled.toList_eq, String.ofList_toList]

theorem eq_of_same (first : Spelled s chars) (second : Spelled t more) (same : chars = more) : s = t := by
  rw [← first.ofList_eq, ← second.ofList_eq, same]

end Spelled

end VueOptions.Text
