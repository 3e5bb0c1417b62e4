import VueOptions.Blocks.Block

/-!
Component files: a template, a script, styles and other blocks. A file is read block by block; what
stands between the blocks, comments and tags that close themselves are passed over, and an unclosed
block ends the reading. A template ends at the closing tag that matches it, any other block at the
first closing tag of its name.
-/

set_option autoImplicit false

namespace VueOptions.Blocks

open Text

structure ComponentFile where
  template : Option Block := none
  script : Option Block := none
  styles : List Block := []
  others : List Block := []
  deriving DecidableEq, Repr

/-- The text after the name of a template tag, and whether it is a closing one. -/
def templateTag? (cs : List Char) : Option (Bool × List Char) :=
  let named := fun (isClosing : Bool) (after : Option (List Char)) =>
    match after with
    | some (c :: rest) =>
      if isBlank c || c = '>' || c = '/' then some (isClosing, rest) else none
    | _ => none
  match named true (dropLead? "</template".toList cs) with
  | some r => some r
  | none => named false (dropLead? "<template".toList cs)

/-- The content up to the closing tag that matches, at a depth of open templates, and the text from
that tag on. -/
def templateClose? : Nat → List Char → Option (List Char × List Char)
  | _, [] => none
  | depth, c :: cs =>
    match templateTag? (c :: cs) with
    | some (true, _) =>
      if depth = 1 then some ([], c :: cs)
      else (templateClose? (depth - 1) cs).map fun r => (c :: r.1, r.2)
    | some (false, _) => (templateClose? (depth + 1) cs).map fun r => (c :: r.1, r.2)
    | none => (templateClose? depth cs).map fun r => (c :: r.1, r.2)

/-- The content of a block and the text after its closing tag. -/
def blockClose? (kind : List Char) (cs : List Char) : Option (List Char × List Char) :=
  if kind = "template".toList then
    (templateClose? 1 cs).map fun r => (r.1, (r.2.dropWhile (· != '>')).drop 1)
  else splitAt? ("</".toList ++ kind ++ ">".toList) cs

/-- The text after a comment at the front of a text, which ends with the text if it is left open. -/
def afterComment? (cs : List Char) : Option (List Char) :=
  if "<!--".toList.isPrefixOf cs then
    match splitAt? "-->".toList cs with
    | some (_, after) => some after
    | none => some []
  else none

def Block.ofTag (tag : OpenTag) (content : List Char) : Block :=
  let attributes := Attribute.ofText tag.attributes
  { kind := String.ofList tag.name
    content := String.ofList content
    attributes := attributes
    lang := Attribute.find? attributes "lang" }

/-- The blocks of a text in order; `fuel` bounds the number of angles looked at. -/
def readBlocks : Nat → List Char → List Block
  | 0, _ => []
  | fuel + 1, cs =>
    match cs.dropWhile (· != '<') with
    | [] => []
    | angle :: rest =>
      match afterComment? (angle :: rest) with
      | some after => readBlocks fuel after
      | none =>
        match OpenTag.read? (angle :: rest) with
        | none => readBlocks fuel rest
        | some tag =>
          if tag.isSelfClosing then readBlocks fuel tag.after
          else match blockClose? tag.name tag.after with
            | none => []
            | some (content, after) => Block.ofTag tag content :: readBlocks fuel after

namespace ComponentFile

/-- The file with one more block: the first template and the first script have places of their
own. -/
def add (f : ComponentFile) (b : Block) : ComponentFile :=
  if b.kind == "template" && f.template.isNone then { f with template := some b }
  else if b.kind == "script" && f.script.isNone then { f with script := some b }
  else if b.kind == "style" then { f with styles := f.styles ++ [b] }
  else { f with others := f.others ++ [b] }

def ofBlocks (bs : List Block) : ComponentFile := bs.foldl add {}

def parse (text : String) : ComponentFile :=
  ofBlocks (readBlocks (text.toList.length + 1) text.toList)

def blocks (f : ComponentFile) : List Block :=
  f.template.toList ++ f.script.toList ++ f.styles ++ f.others

/-- The file as it is printed, with a blank line between each two blocks. -/
def print (f : ComponentFile) : String := "\n".intercalate (f.blocks.map Block.print)

end ComponentFile

end VueOptions.Blocks
