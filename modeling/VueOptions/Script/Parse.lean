import VueOptions.Script.Tree

/-!
Reading a text token by token. A reading either moves the cursor on, or is refused; a reading that
goes on after a mistake marks the cursor as flawed, and a flawed reading is refused at the end. The
setting says what the surrounding construct allows.

A cursor carries the proof that its places cut its text between tokens, and keeps the tokens that were
passed on the way, which follow one another in the text.
-/

set_option autoImplicit false

namespace VueOptions.Script

/-- What the construct around a piece of text allows. -/
structure Setting where
  /-- How often a repetition may go round. -/
  bound : Nat
  /-- Whether `in` is an operator here. -/
  allowsIn : Bool := true
  /-- Whether this is the body of a generator. -/
  inGenerator : Bool := false
  /-- Whether `await` is an operator here. -/
  inAsync : Bool := false
  /-- Whether `return` has a function to leave. -/
  inFunction : Bool := false
  /-- Whether a bracket after an expression belongs to the next class member. -/
  inDecorator : Bool := false
  /-- Whether `extends` after a type begins no conditional type. -/
  refusesConditional : Bool := false
  /-- Whether this only declares what stands elsewhere. -/
  isAmbient : Bool := false

structure Passage where
  token : Token
  taken : List Char

namespace Passage

def opening (text : List Char) : Text.Place text :=
  match text with
  | '#' :: '!' :: cs =>
    let line := cs.takeWhile fun c => !isLineBreak c
    (Text.Place.first ('#' :: '!' :: cs)).past (2 + Text.byteLength line)
      (cs.dropWhile fun c => !isLineBreak c)
      ⟨'#' :: '!' :: line, by simp [line, Text.Place.first], by
        rw [Text.byteLength_cons, Text.byteLength_cons, ← Nat.add_assoc]
        rfl⟩
  | cs => Text.Place.first cs

/-- Passages follow one another from the opening of a text, the latest first, up to an offset and the
text after it: between each two there are only blanks and comments. -/
inductive Follow (text : List Char) : List Passage → Nat → List Char → Prop
  | opening : Follow text [] (opening text).offset (opening text).after
  | next {ps : List Passage} {n : Nat} {after rest : List Char} {p : Passage}
    (before : Follow text ps n after)
    (cut : (Cut.mk p.token.lexeme p.taken rest p.token.isEscaped).From
      (Trivia.skip .between 0 false after).rest)
    (start : p.token.span.start = n + (Trivia.skip .between 0 false after).bytes)
    (stop : p.token.span.stop = p.token.span.start + Text.byteLength p.taken)
    (hasBreak : p.token.afterBreak = (Trivia.skip .between 0 false after).hasBreak) :
    Follow text (p :: ps) p.token.span.stop rest

end Passage

structure Cursor (text : List Char) where
  /-- Where the token to be read next starts. -/
  place : Text.Place text
  /-- Whether a line ends before it. -/
  afterBreak : Bool
  /-- The token as it is cut there. -/
  cut : Cut
  /-- Where the token before ends. -/
  lastStop : Nat
  /-- Whether a mistake was passed over. -/
  isFlawed : Bool
  /-- Where shorthand entries with a default stand that no assignment has claimed yet. -/
  unclaimed : List Nat
  /-- The tokens that were passed, the latest first. -/
  passed : List Passage
  cut_from : cut.From place.after
  lastStop_inLine : Text.EndsInLine text lastStop
  follows : ∃ n after, Passage.Follow text passed n after ∧
    place.offset = n + (Trivia.skip .between 0 false after).bytes ∧
    place.after = (Trivia.skip .between 0 false after).rest ∧
    afterBreak = (Trivia.skip .between 0 false after).hasBreak

namespace Cursor

variable {text : List Char}

def stop (c : Cursor text) : Nat := c.place.offset + Text.byteLength c.cut.consumed

def token (c : Cursor text) : Token :=
  ⟨c.cut.lexeme, ⟨c.place.offset, c.stop⟩, c.afterBreak, c.cut.isEscaped⟩

def seek (p : Text.Place text) (lastStop : Nat) (inLine : Text.EndsInLine text lastStop)
    (passed : List Passage) (follow : Passage.Follow text passed p.offset p.after) : Cursor text :=
  let skipped := Trivia.skip .between 0 false p.after
  { place := p.past skipped.bytes skipped.rest <| by
      obtain ⟨taken, whole, bytes⟩ := Trivia.skip_takes .between 0 false p.after
      exact ⟨taken, whole, by rw [← bytes, Nat.zero_add]⟩
    afterBreak := skipped.hasBreak
    cut := Lexeme.cutAfter skipped
    lastStop := lastStop
    isFlawed := false
    unclaimed := []
    passed := passed
    cut_from := Lexeme.cutAfter_cutFrom .between 0 false p.after
    lastStop_inLine := inLine
    follows := ⟨p.offset, p.after, follow, rfl, rfl, rfl⟩ }

def start (text : List Char) : Cursor text :=
  seek (Passage.opening text) 0 (Text.endsInLine_zero text) [] .opening

theorem follow_next (c : Cursor text) :
    Passage.Follow text (⟨c.token, c.cut.consumed⟩ :: c.passed) c.stop c.cut.rest := by
  obtain ⟨n, after, follow, offset, rest, hasBreak⟩ := c.follows
  exact follow.next (p := ⟨c.token, c.cut.consumed⟩) (rest ▸ c.cut_from) offset rfl hasBreak

/-- The cursor past its token. Where the text ends there is no token to stop after. -/
def next (c : Cursor text) : Cursor text :=
  { seek (c.place.past (Text.byteLength c.cut.consumed) c.cut.rest ⟨_, c.cut_from.whole, rfl⟩)
      (if c.cut.consumed.isEmpty then c.lastStop else c.stop) (by
        split
        · exact c.lastStop_inLine
        · next ne =>
          exact c.place.endsInLine_past c.cut_from.whole (fun h => ne (List.isEmpty_iff.mpr h))
            fun feed => absurd (c.cut_from.solid _ feed) (by decide))
      (⟨c.token, c.cut.consumed⟩ :: c.passed) c.follow_next with
    isFlawed := c.isFlawed
    unclaimed := c.unclaimed }

/-- The cursor with its token cut in another way, if there is such a cut. -/
def recut (c : Cursor text) (r : Recut) : Cursor text :=
  match found : r.cut? c.place.after with
  | some cut => { c with cut := cut, cut_from := r.cut?_cutFrom found }
  | none => c

end Cursor

def Parse (α : Type) := (text : List Char) → Setting → Cursor text → Option (α × Cursor text)

namespace Parse

variable {α σ : Type}

instance : Monad Parse where
  pure a := fun _ _ c => some (a, c)
  bind p f := fun text s c =>
    match p text s c with
    | some (a, c') => f a text s c'
    | none => none

instance : MonadReaderOf Setting Parse where
  read := fun _ s c => some (s, c)

def reject : Parse α := fun _ _ _ => none

def look (f : (text : List Char) → Cursor text → α) : Parse α := fun text _ c => some (f text c, c)

def move (f : (text : List Char) → Cursor text → Cursor text) : Parse Unit :=
  fun text _ c => some ((), f text c)

/-- Pass over a mistake; the text is refused in the end. -/
def flaw : Parse Unit := move fun _ c => { c with isFlawed := true }

/-- Whether a mistake was passed over. -/
def isFlawed : Parse Bool := look fun _ c => c.isFlawed

def flawIf (b : Bool) : Parse Unit := if b then flaw else pure ()

def within (f : Setting → Setting) (p : Parse α) : Parse α := fun text s c => p text (f s) c

def ahead (p : Parse α) : Parse α := fun text s c => (p text s c).map fun r => (r.1, c)

/-- Whether a reading that answers a question says yes; a refused one says no. -/
def foretells (p : Parse Bool) : Parse Bool := fun text s c =>
  match p text s c with
  | some (b, _) => some (b, c)
  | none => some (false, c)

def attempt (p : Parse α) : Parse (Option α) := fun text s c =>
  match p text s c with
  | some (a, c') => some (some a, c')
  | none => some (none, c)

inductive Round (σ : Type)
  | again (state : σ)
  | stop (state : σ)

def rounds (step : σ → Parse (Round σ)) : Nat → σ → Parse σ
  | 0, _ => reject
  | n + 1, s => do
    match ← step s with
    | .stop s => pure s
    | .again s => rounds step n s

def repeatFrom (s : σ) (step : σ → Parse (Round σ)) : Parse σ := do
  rounds step (← read).bound s

def token : Parse Token := look fun _ c => c.token

def lexeme : Parse Lexeme := look fun _ c => c.cut.lexeme

def here : Parse Nat := look fun _ c => c.place.offset

def lastStop : Parse Nat := look fun _ c => c.lastStop

/-- Whether a line ends before the token to be read next. -/
def afterBreak : Parse Bool := look fun _ c => c.afterBreak

def advance : Parse Unit := move fun _ c => c.next

def sees (m : Mark) : Parse Bool := return (← lexeme) == .mark m

def seesWord (k : Keyword) : Parse Bool := return (← lexeme) == .keyword k

/-- Whether one of several marks comes next. -/
def seesAny (ms : List Mark) : Parse Bool := do
  match ← lexeme with
  | .mark m => return ms.contains m
  | _ => return false

/-- Move past a word; one that is written with an escape does not count as a word. -/
def takeWord : Parse Unit := do
  flawIf (← token).isEscaped
  advance

def eat (m : Mark) : Parse Bool := do
  if ← sees m then advance; return true else return false

def eatWord (k : Keyword) : Parse Bool := do
  if ← seesWord k then takeWord; return true else return false

def expect (m : Mark) : Parse Unit := do
  if ← sees m then advance else reject

def expectWord (k : Keyword) : Parse Unit := do
  if ← seesWord k then takeWord else reject

/-- Read the next token again in another way. -/
def reread (r : Recut) : Parse Unit := move fun _ c => c.recut r

def splitAngle : Parse Unit := do
  if ← sees .shiftLeft then reread .openingAngle

/-- Put a closing angle together with the angles and the equals sign right after it. -/
def joinAngle : Parse Unit := do
  if ← sees .rangle then reread .closingAngles

/-- Read a slash as the start of a regular expression. -/
def rereadPattern : Parse Unit := do
  if ← seesAny [.slash, .slashEq] then reread .pattern else reject

/-- Read a closing brace as the end of a substitution in a template. -/
def rereadChunk : Parse Unit := do
  if ← sees .rbrace then reread .chunk else reject

def afterNext (p : Parse Bool) : Parse Bool := foretells (advance *> p)

def node (start : Nat) (kind : Kind) (children : List Tree) : Parse Tree :=
  return .node kind ⟨start, ← lastStop⟩ children

/-- A node from the next token to the last one read; a reading that takes nothing is refused. -/
def spanning (p : Parse Tree) : Parse Tree := do
  let start ← here
  let t ← p
  let stop ← lastStop
  if start < stop then return .node t.kind ⟨start, stop⟩ t.children else reject

def leaf (kind : Kind) : Parse Tree := do
  let start ← here
  advance
  node start kind []

def mayEndHere : Parse Bool := do
  let t ← token
  return t.afterBreak || t.lexeme == .mark .rbrace || t.lexeme == .endOfText
    || t.lexeme == .mark .semicolon

/-- The end of a statement: a semicolon, or a place where none is needed. -/
def semicolon : Parse Unit := do
  if ← eat .semicolon then return
  if ← mayEndHere then return
  reject

def itemsUntil (closing : Mark) (item : Parse Tree) : Parse (List Tree) := do
  let found ← repeatFrom [] fun (found : List Tree) => do
    if ← sees closing then return .stop found
    if (← lexeme) == .endOfText then reject
    return .again ((← item) :: found)
  return found.reverse

/-- One more item behind a mark, or the end of the items; the latest one stands first. -/
def separatedRound (separator closing : Mark) (item : Parse Tree) :
    List Tree × Option Nat → Parse (Round (List Tree × Option Nat))
  | (found, _) => do
    if ← sees closing then return .stop (found, none)
    let place ← here
    expect separator
    if ← sees closing then return .stop (found, some place)
    return .again ((← item) :: found, none)

/-- Read items with a mark between each two up to a closing mark, which is not read. One mark may
follow the last item; the answer says where that mark starts. -/
def separated (separator closing : Mark) (item : Parse Tree) :
    Parse (List Tree × Option Nat) := do
  if ← sees closing then return ([], none)
  let first ← item
  let (found, trailing) ← repeatFrom ([first], none) (separatedRound separator closing item)
  return (found.reverse, trailing)

def commaSeparated (closing : Mark) (item : Parse Tree) : Parse (List Tree) := do
  return (← separated .comma closing item).1

end Parse

end VueOptions.Script
