import VueOptions.Json.Value

/-!
Reading JSON text. The grammar is the strict one: no comments, no trailing commas, no leading zeros,
no bare control characters in strings, no unpaired surrogates, and nothing behind the value. Values
may be nested at most 127 deep, and a number may not be too large for a double.
-/

set_option autoImplicit false

namespace VueOptions.Json

abbrev Reader (α : Type) := List Char → Option (α × List Char)

def isGap (c : Char) : Bool := c = ' ' || c = '\n' || c = '\t' || c = '\r'

def skipGap (cs : List Char) : List Char := cs.dropWhile isGap

def hexValue? (c : Char) : Option Nat :=
  if '0' ≤ c ∧ c ≤ '9' then some (c.toNat - '0'.toNat)
  else if 'a' ≤ c ∧ c ≤ 'f' then some (c.toNat - 'a'.toNat + 10)
  else if 'A' ≤ c ∧ c ≤ 'F' then some (c.toNat - 'A'.toNat + 10)
  else none

def readUnit : Reader Nat
  | a :: b :: c :: d :: rest => do
    let a ← hexValue? a
    let b ← hexValue? b
    let c ← hexValue? c
    let d ← hexValue? d
    pure (((a * 16 + b) * 16 + c) * 16 + d, rest)
  | _ => none

/-- What stands behind a backslash and a letter u: a code unit, or a pair of surrogates. -/
def readCodePoint : Reader Char := fun cs => do
  let (high, rest) ← readUnit cs
  if 0xdc00 ≤ high ∧ high ≤ 0xdfff then none
  else if 0xd800 ≤ high ∧ high ≤ 0xdbff then
    match rest with
    | '\\' :: 'u' :: rest => do
      let (low, rest) ← readUnit rest
      if 0xdc00 ≤ low ∧ low ≤ 0xdfff then
        pure (Char.ofNat (0x10000 + (high - 0xd800) * 0x400 + (low - 0xdc00)), rest)
      else none
    | _ => none
  else pure (Char.ofNat high, rest)

def readEscape : Reader Char
  | '"' :: rest => some ('"', rest)
  | '\\' :: rest => some ('\\', rest)
  | '/' :: rest => some ('/', rest)
  | 'b' :: rest => some ('\x08', rest)
  | 'f' :: rest => some ('\x0c', rest)
  | 'n' :: rest => some ('\n', rest)
  | 'r' :: rest => some ('\r', rest)
  | 't' :: rest => some ('\t', rest)
  | 'u' :: rest => readCodePoint rest
  | _ => none

/-- The characters of a string behind its opening quote; `fuel` bounds their number. -/
def readChars : Nat → Reader (List Char)
  | 0, _ => none
  | _ + 1, [] => none
  | fuel + 1, c :: cs =>
    if c = '"' then some ([], cs)
    else if c = '\\' then do
      let (d, rest) ← readEscape cs
      let (ds, rest) ← readChars fuel rest
      pure (d :: ds, rest)
    else if c.toNat < 0x20 then none
    else do
      let (ds, rest) ← readChars fuel cs
      pure (c :: ds, rest)

def readString : Reader String := fun cs =>
  (readChars (cs.length + 1) cs).map fun (ds, rest) => (String.ofList ds, rest)

def decimal (digits : List Char) : Nat :=
  digits.foldl (fun n c => 10 * n + (c.toNat - '0'.toNat)) 0

def readDigits : Reader (List Char) := fun cs =>
  let digits := cs.takeWhile Char.isDigit
  if digits.isEmpty then none else some (digits, cs.dropWhile Char.isDigit)

def readWhole : Reader (List Char) := fun cs => do
  let (digits, rest) ← readDigits cs
  match digits with
  | '0' :: _ :: _ => none
  | _ => pure (digits, rest)

def readFraction : Reader (Option (List Char))
  | '.' :: rest => (readDigits rest).map fun (digits, rest) => (some digits, rest)
  | cs => some (none, cs)

def readExponent : Reader (Option (Bool × List Char))
  | c :: rest =>
    if c = 'e' || c = 'E' then
      let (isNegative, rest) := match rest with
        | '-' :: rest => (true, rest)
        | '+' :: rest => (false, rest)
        | rest => (false, rest)
      (readDigits rest).map fun (digits, rest) => (some (isNegative, digits), rest)
    else some (none, c :: rest)
  | [] => some (none, [])

/-- Numbers from here on are too large for a double: they round to a power of two above all
doubles. -/
def doubleLimit : Nat := Nat.pow 2 1024 - Nat.pow 2 970

/-- Whether a number is small enough for a double: digits, of which `places` are behind the point,
times a power of ten. A negative power beyond the number of digits makes no difference. -/
def fitsDouble (digits : List Char) (places : Nat) : Option (Bool × List Char) → Bool
  | none => decimal digits < doubleLimit * Nat.pow 10 places
  | some (true, power) =>
    decimal digits < doubleLimit * Nat.pow 10 (places + min (decimal power) digits.length)
  | some (false, power) =>
    decimal digits == 0 || (decimal power < places + 400 &&
      decimal digits * Nat.pow 10 (decimal power) < doubleLimit * Nat.pow 10 places)

/-- The largest whole number that is kept as such. -/
def maxNatural : Nat := Nat.pow 2 64 - 1

def readNumber : Reader Json := fun cs => do
  let (isNegative, body) := match cs with
    | '-' :: rest => (true, rest)
    | cs => (false, cs)
  let (whole, rest) ← readWhole body
  let (fraction, rest) ← readFraction rest
  let (exponent, rest) ← readExponent rest
  let places := fraction.getD []
  if !fitsDouble (whole ++ places) places.length exponent then none
  else if !isNegative && fraction.isNone && exponent.isNone && decimal whole ≤ maxNatural then
    pure (.natural (decimal whole), rest)
  else pure (.number (String.ofList (cs.take (cs.length - rest.length))), rest)

/-- Items with commas between them up to a closing bracket, the first item being due; `fuel` bounds
their number. -/
def readItems {α : Type} (item : Reader α) (closing : Char) : Nat → Reader (List α)
  | 0, _ => none
  | fuel + 1, cs => do
    let (x, rest) ← item cs
    match skipGap rest with
    | c :: rest =>
      if c = closing then pure ([x], rest)
      else if c = ',' then do
        let (xs, rest) ← readItems item closing fuel rest
        pure (x :: xs, rest)
      else none
    | [] => none

/-- Items behind an opening bracket, of which there may be none. -/
def readSequence {α : Type} (item : Reader α) (closing : Char) : Reader (List α) := fun cs =>
  match skipGap cs with
  | c :: rest => if c = closing then some ([], rest) else readItems item closing (cs.length + 1) cs
  | [] => none

def readEntry (value : Reader Json) : Reader (String × Json) := fun cs =>
  match skipGap cs with
  | '"' :: rest => do
    let (key, rest) ← readString rest
    match skipGap rest with
    | ':' :: rest => do
      let (v, rest) ← value rest
      pure ((key, v), rest)
    | _ => none
  | _ => none

def readWord (word : String) (v : Json) : Reader Json := fun cs =>
  if word.toList.isPrefixOf cs then some (v, cs.drop word.length) else none

/-- A value that is nested less than `depth` deep, with blanks before it. -/
def readValue : Nat → Reader Json
  | 0, _ => none
  | depth + 1, cs =>
    match skipGap cs with
    | '"' :: rest => (readString rest).map fun (s, rest) => (.string s, rest)
    | '[' :: rest =>
      if depth = 0 then none
      else (readSequence (readValue depth) ']' rest).map fun (vs, rest) => (.array vs, rest)
    | '\x7b' :: rest =>
      if depth = 0 then none
      else (readSequence (readEntry (readValue depth)) '\x7d' rest).map fun (es, rest) =>
        (.object es, rest)
    | 'n' :: rest => readWord "null" .null ('n' :: rest)
    | 't' :: rest => readWord "true" (.bool true) ('t' :: rest)
    | 'f' :: rest => readWord "false" (.bool false) ('f' :: rest)
    | rest => readNumber rest

/-- How deep values may be nested, plus one. -/
def depthLimit : Nat := 128

def parse? (text : String) : Option Json :=
  match readValue depthLimit text.toList with
  | some (v, rest) => if (skipGap rest).isEmpty then some v else none
  | none => none

end VueOptions.Json
