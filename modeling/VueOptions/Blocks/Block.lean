import VueOptions.Blocks.Tag

/-!
Blocks of a component file and how they are printed.
-/

set_option autoImplicit false

namespace VueOptions.Blocks

/-- A block: its tag name, its content, its attributes in order, and its language. -/
structure Block where
  kind : String
  content : String
  attributes : List Attribute
  lang : Option String
  deriving DecidableEq, Repr

def escapeQuotes : List Char → List Char
  | [] => []
  | c :: cs => if c = '"' then "&quot;".toList ++ escapeQuotes cs else c :: escapeQuotes cs

/-- A value in quotes: double ones unless the value holds one, then single ones; a value that holds
both kinds is escaped. -/
def quoteValue (value : String) : String :=
  let cs := value.toList
  if cs.contains '"' then
    if cs.contains '\'' then "\"" ++ String.ofList (escapeQuotes cs) ++ "\"" else "'" ++ value ++ "'"
  else "\"" ++ value ++ "\""

def Attribute.print (a : Attribute) : String :=
  if a.value.isEmpty then " " ++ a.key else " " ++ a.key ++ "=" ++ quoteValue a.value

namespace Block

def plain (kind content : String) : Block := ⟨kind, content, [], none⟩

def withLang (b : Block) (lang : String) : Block :=
  { b with attributes := Attribute.insert b.attributes ⟨"lang", lang⟩, lang := some lang }

def print (b : Block) : String :=
  "<" ++ b.kind ++ String.join (b.attributes.map Attribute.print) ++ ">" ++ b.content ++ "</" ++ b.kind
    ++ ">\n"

end Block

end VueOptions.Blocks
