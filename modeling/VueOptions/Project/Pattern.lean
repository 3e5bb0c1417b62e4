import VueOptions.Text.Lines

/-!
Patterns of file names: a question mark stands for one character, a star for any number of them, and
brackets for one character in or out of a class. Main statement: a pattern without such marks matches
its own text only (`matchesName_literal`).
-/

set_option autoImplicit false

namespace VueOptions.Project

structure CharRange where
  first : Char
  last : Char
  deriving DecidableEq, Repr

def CharRange.contains (r : CharRange) (c : Char) : Bool := r.first ≤ c && c ≤ r.last

inductive Piece
  | char (c : Char)
  | anyChar
  | anySequence
  | oneOf (isNegated : Bool) (ranges : List CharRange)
  deriving DecidableEq, Repr

namespace Piece

def takes : Piece → Char → Bool
  | .char d, c => c = d
  | .anyChar, _ => true
  | .anySequence, _ => false
  | .oneOf isNegated ranges, c => (ranges.any fun r => r.contains c) != isNegated

/-- A text and all its ends, the whole text first. -/
def suffixes : List Char → List (List Char)
  | [] => [[]]
  | c :: cs => (c :: cs) :: suffixes cs

def matchesName : List Piece → List Char → Bool
  | [], cs => cs.isEmpty
  | .anySequence :: ps, cs => (suffixes cs).any (matchesName ps)
  | _ :: _, [] => false
  | p :: ps, c :: cs => p.takes c && matchesName ps cs

def literal? : List Piece → Option (List Char)
  | [] => some []
  | .char c :: ps => (literal? ps).map (c :: ·)
  | _ => none

theorem matchesName_literal {ps : List Piece} {text : List Char} (h : literal? ps = some text)
    (cs : List Char) : matchesName ps cs = decide (cs = text) := by
  induction ps generalizing text cs with
  | nil => simp only [literal?, Option.some.injEq] at h; subst h; cases cs <;> simp [matchesName]
  | cons p ps ih =>
    cases p with
    | char c =>
      obtain ⟨rest, hr, rfl⟩ := Option.map_eq_some_iff.1 h
      cases cs with
      | nil => simp [matchesName]
      | cons d ds =>
        simp only [matchesName, takes, ih hr ds, List.cons.injEq]
        by_cases hd : d = c <;> simp [hd]
    | anyChar => exact absurd h (by simp [literal?])
    | anySequence => exact absurd h (by simp [literal?])
    | oneOf => exact absurd h (by simp [literal?])

/-- The ranges of a class: two characters with a dash between them, or single characters. -/
def ranges : List Char → List CharRange
  | a :: '-' :: b :: cs => ⟨a, b⟩ :: ranges cs
  | c :: cs => ⟨c, c⟩ :: ranges cs
  | [] => []

/-- The text before and after the first closing bracket. -/
def closeClass? (cs : List Char) : Option (List Char × List Char) :=
  match cs.dropWhile (· != ']') with
  | _ :: after => some (cs.takeWhile (· != ']'), after)
  | [] => none

/-- A class behind its opening bracket. Its first character may be a closing bracket. -/
def readClass? : List Char → Option (Piece × List Char)
  | '!' :: c :: cs => (closeClass? cs).map fun r => (.oneOf true (ranges (c :: r.1)), r.2)
  | '!' :: [] => none
  | c :: cs => (closeClass? cs).map fun r => (.oneOf false (ranges (c :: r.1)), r.2)
  | [] => none

/-- The pieces of a part of a pattern; two stars in a row are none. `fuel` bounds their number. -/
def read? : Nat → List Char → Option (List Piece)
  | _, [] => some []
  | 0, _ => none
  | _ + 1, '*' :: '*' :: _ => none
  | fuel + 1, '*' :: cs => (read? fuel cs).map (.anySequence :: ·)
  | fuel + 1, '?' :: cs => (read? fuel cs).map (.anyChar :: ·)
  | fuel + 1, '[' :: cs =>
    match readClass? cs with
    | some (p, rest) => (read? fuel rest).map (p :: ·)
    | none => none
  | fuel + 1, c :: cs => (read? fuel cs).map (.char c :: ·)

end Piece

/-- A step down a tree: to an entry of the directory, or, if the step is deep, to any entry below it;
the name of the entry has to match. -/
structure PatternStep where
  isDeep : Bool
  pieces : List Piece
  deriving DecidableEq, Repr

structure Pattern where
  steps : List PatternStep
  /-- Two stars at the end, which stand for any directory below. -/
  endsDeep : Bool
  /-- A slash at the end. -/
  wantsDirectory : Bool
  /-- A slash at the front. -/
  isAbsolute : Bool
  deriving DecidableEq, Repr

namespace Pattern

/-- The parts of a pattern between its slashes; a slash at the end adds none. -/
def partsOf (text : List Char) : List (List Char) :=
  match (Text.split '/' text).reverse with
  | [] :: part :: parts => (part :: parts).reverse
  | parts => parts.reverse

/-- Steps for parts. A part of two stars makes the step after it deep. -/
def readSteps? (isDeep : Bool) : List (List Char) → Option (List PatternStep × Bool)
  | [] => some ([], isDeep)
  | part :: parts =>
    if part = ['*', '*'] then readSteps? true parts
    else do
      let pieces ← Piece.read? part.length part
      let (steps, endsDeep) ← readSteps? false parts
      pure (⟨isDeep, pieces⟩ :: steps, endsDeep)

/-- The text of a pattern without the slash at its front. -/
def behindRoot : List Char → List Char
  | '/' :: text => text
  | text => text

def parse? (text : String) : Option Pattern :=
  (readSteps? false (partsOf (behindRoot text.toList))).map fun (steps, endsDeep) =>
    { steps := steps
      endsDeep := endsDeep
      wantsDirectory := text.toList.getLast? == some '/'
      isAbsolute := text.toList.head? == some '/' }

end Pattern

end VueOptions.Project
