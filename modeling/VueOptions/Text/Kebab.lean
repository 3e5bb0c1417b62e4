/-!
Names in lower case. Each upper-case ASCII letter becomes its lower-case letter with a hyphen before
it; a letter at the front gets no hyphen.
-/

set_option autoImplicit false

namespace VueOptions.Text

def hyphenateTail : List Char → List Char
  | [] => []
  | c :: cs => if c.isUpper then '-' :: c.toLower :: hyphenateTail cs else c :: hyphenateTail cs

def hyphenateChars : List Char → List Char
  | [] => []
  | c :: cs => c.toLower :: hyphenateTail cs

/-- A name in lower case with hyphens, so that `addToCount` becomes `add-to-count`. -/
def hyphenate (name : String) : String := String.ofList (hyphenateChars name.toList)

end VueOptions.Text
