import VueOptions.Text.Blank
import VueOptions.Text.Category
import VueOptions.Text.Search

/-!
Opening tags. A tag is a name, attributes with blanks before them, and a closing angle, perhaps with
a slash before it. An attribute value in quotes may hold any other character; if the tag cannot be
completed behind its closing quote, the value is read up to the next blank or closing angle instead.
-/

set_option autoImplicit false

namespace VueOptions.Blocks

open Text

structure Attribute where
  key : String
  value : String
  deriving DecidableEq, Repr

/-- Characters of words: letters, marks, digits and connectors of any script. -/
def isWordChar (c : Char) : Bool :=
  if c.toNat < 0x80 then c.isAlphanum || c = '_'
  else Category.isLetter c || Category.isMark c || Category.isEnclosingMark c
    || Category.isDecimalDigit c || Category.isConnector c
    || c.toNat == 0x200c || c.toNat == 0x200d
    || (0x24b6 ≤ c.toNat && c.toNat ≤ 0x24e9) || (0x1f130 ≤ c.toNat && c.toNat ≤ 0x1f149)
    || (0x1f150 ≤ c.toNat && c.toNat ≤ 0x1f169) || (0x1f170 ≤ c.toNat && c.toNat ≤ 0x1f189)

/-- Characters of a tag name after its first letter. -/
def isTagChar (c : Char) : Bool := isWordChar c || c = '-'

def isKeyChar (c : Char) : Bool := !(isBlank c || c = '=' || c = '/' || c = '>')

def isBareChar (c : Char) : Bool := !(isBlank c || c = '>')

def quotedValue? (quote : Char) (cs : List Char) : Option (List Char × List Char) :=
  match cs.dropWhile (· != quote) with
  | _ :: after => some (cs.takeWhile (· != quote), after)
  | [] => none

/-- The ways to read a value at the front of a text, each with the text after it, the preferred way
first. -/
def valueReadings (cs : List Char) : List (List Char × List Char) :=
  let quoted := match cs with
    | '"' :: rest => (quotedValue? '"' rest).toList
    | '\'' :: rest => (quotedValue? '\'' rest).toList
    | _ => []
  let bare := cs.takeWhile isBareChar
  quoted ++ if bare.isEmpty then [] else [(bare, cs.dropWhile isBareChar)]

/-- The text after the equals sign that follows a key and blanks. -/
def afterEquals? (cs : List Char) : Option (List Char) :=
  match trimStart cs with
  | '=' :: rest => some (trimStart rest)
  | _ => none

/-- The texts that may follow an attribute at the front of a text, the preferred one first. -/
def attributeRests (cs : List Char) : List (List Char) :=
  if (cs.takeWhile isKeyChar).isEmpty then []
  else
    let after := cs.dropWhile isKeyChar
    match afterEquals? after with
    | some value => (valueReadings value).map fun r => r.2
    | none => [after]

/-- The end of a tag: whether it closes itself, and the text after it. -/
def tagEnd? (cs : List Char) : Option (Bool × List Char) :=
  match trimStart cs with
  | '>' :: rest => some (false, rest)
  | '/' :: '>' :: rest => some (true, rest)
  | _ => none

/-- What a read of attributes leaves: the text where they end, whether the tag closes itself, and the
text after the tag. -/
structure TagRest where
  attributesEnd : List Char
  isSelfClosing : Bool
  after : List Char
  deriving Repr

/-- Read attributes as far as possible such that the tag can be completed; `fuel` bounds their
number. -/
def readAttributes : Nat → List Char → Option TagRest
  | 0, _ => none
  | fuel + 1, cs =>
    let longer :=
      match cs with
      | c :: _ =>
        if isBlank c then (attributeRests (trimStart cs)).findSome? (readAttributes fuel) else none
      | [] => none
    match longer with
    | some r => some r
    | none => (tagEnd? cs).map fun r => ⟨cs, r.1, r.2⟩

/-- An opening tag: its name, the text of its attributes, whether it closes itself, and the text
after it. -/
structure OpenTag where
  name : List Char
  attributes : List Char
  isSelfClosing : Bool
  after : List Char
  deriving Repr

def OpenTag.read? (cs : List Char) : Option OpenTag :=
  match cs with
  | '<' :: c :: rest =>
    if c.isAlpha then
      let body := rest.dropWhile isTagChar
      (readAttributes (body.length + 1) body).map fun r =>
        { name := c :: rest.takeWhile isTagChar
          attributes := body.take (body.length - r.attributesEnd.length)
          isSelfClosing := r.isSelfClosing
          after := r.after }
    else none
  | _ => none

namespace Attribute

/-- Add an attribute: a key that is there keeps its place and takes the new value. -/
def insert (as : List Attribute) (a : Attribute) : List Attribute :=
  match as with
  | [] => [a]
  | b :: bs => if b.key == a.key then { b with value := a.value } :: bs else b :: insert bs a

def find? (as : List Attribute) (key : String) : Option String :=
  (as.find? fun a => a.key == key).map fun a => a.value

/-- The keys and values in the text of attributes; `fuel` bounds their number. -/
def readPairs : Nat → List Char → List (List Char × List Char)
  | 0, _ => []
  | fuel + 1, cs =>
    let cs := cs.dropWhile fun c => !isKeyChar c
    let key := cs.takeWhile isKeyChar
    if key.isEmpty then []
    else
      let after := cs.dropWhile isKeyChar
      match (afterEquals? after).bind fun value => (valueReadings value).head? with
      | some (value, rest) => (key, value) :: readPairs fuel rest
      | none => (key, []) :: readPairs fuel after

def ofText (cs : List Char) : List Attribute :=
  ((readPairs (cs.length + 1) cs).map fun p => ⟨String.ofList p.1, String.ofList p.2⟩).foldl insert []

end Attribute

end VueOptions.Blocks
