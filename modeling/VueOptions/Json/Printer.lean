import VueOptions.Json.Value

/-!
JSON values as indented text: two blanks for each level, a blank after each colon, and nothing
between the brackets of an empty array or object.
-/

set_option autoImplicit false

namespace VueOptions.Json

def hexDigit (n : Nat) : Char := "0123456789abcdef".toList.getD n '0'

/-- A character of a string as it is printed: quotes, backslashes and control characters are
escaped. -/
def escapeChar (c : Char) : List Char :=
  if c = '"' then ['\\', '"']
  else if c = '\\' then ['\\', '\\']
  else if c = '\n' then ['\\', 'n']
  else if c = '\r' then ['\\', 'r']
  else if c = '\t' then ['\\', 't']
  else if c = '\x08' then ['\\', 'b']
  else if c = '\x0c' then ['\\', 'f']
  else if c.toNat < 0x20 then ['\\', 'u', '0', '0', hexDigit (c.toNat / 16), hexDigit (c.toNat % 16)]
  else [c]

def quote (s : String) : String := "\"" ++ String.ofList (s.toList.flatMap escapeChar) ++ "\""

def lineBreak (depth : Nat) : String := "\n" ++ String.ofList (List.replicate (2 * depth) ' ')

def bracket (depth : Nat) (opening closing : String) (items : List String) : String :=
  if items.isEmpty then opening ++ closing
  else opening ++ lineBreak (depth + 1) ++ ("," ++ lineBreak (depth + 1)).intercalate items
    ++ lineBreak depth ++ closing

mutual
def printAt (depth : Nat) : Json → String
  | .null => "null"
  | .bool true => "true"
  | .bool false => "false"
  | .natural n => toString n
  | .number text => text
  | .string s => quote s
  | .array items => bracket depth "[" "]" (printItems (depth + 1) items)
  | .object entries => bracket depth "\x7b" "\x7d" (printEntries (depth + 1) entries)

def printItems (depth : Nat) : List Json → List String
  | [] => []
  | v :: vs => printAt depth v :: printItems depth vs

def printEntries (depth : Nat) : List (String × Json) → List String
  | [] => []
  | (key, v) :: es => (quote key ++ ": " ++ printAt depth v) :: printEntries depth es
end

def print (v : Json) : String := printAt 0 v

end VueOptions.Json
