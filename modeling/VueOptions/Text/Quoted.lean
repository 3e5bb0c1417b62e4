/-!
Quoting. A text is written as a literal in single quotes: a backslash and a single quote get a
backslash before them, all else stands for itself.
-/

set_option autoImplicit false

namespace VueOptions.Text

def quoteBody : List Char → List Char
  | [] => []
  | c :: cs => if c = '\\' || c = '\'' then '\\' :: c :: quoteBody cs else c :: quoteBody cs

def singleQuoted (text : String) : String :=
  String.ofList ('\'' :: quoteBody text.toList ++ ['\''])

end VueOptions.Text
