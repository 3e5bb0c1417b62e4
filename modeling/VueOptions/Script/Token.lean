import VueOptions.Script.Keyword
import VueOptions.Script.Mark
import VueOptions.Script.Spelling
import VueOptions.Script.Span

/-!
Tokens: blanks and comments are skipped, then the longest lexeme is cut from the front of the text.
A token keeps its span and whether a line ends before it. What a slash, an angle or a closing brace
begins depends on the grammar, so such a token can be read again in another way (`Recut`).

What is skipped and what is cut are the front of the text (`skip_takes`, `cut_cutFrom`), and each
lexeme is spelled as it has to be (`Lexeme.Spells`).
-/

set_option autoImplicit false

namespace VueOptions.Script

inductive Lexeme
  | endOfText
  | name (text : String)
  | keyword (k : Keyword)
  | privateName (text : String)
  | numeral (text : String)
  | string (value : String)
  | pattern (text : String)
  | template (raw : String) (isLast isValid : Bool)
  | mark (m : Mark)
  | malformed
  deriving DecidableEq, Repr

structure Token where
  lexeme : Lexeme
  span : Span
  afterBreak : Bool
  isEscaped : Bool
  deriving DecidableEq, Repr

def isLineBreak (c : Char) : Bool :=
  c = '\n' || c = '\r' || c.toNat = 0x2028 || c.toNat = 0x2029

/-- Characters that separate tokens within a line. -/
def isSpace (c : Char) : Bool :=
  let n := c.toNat
  n == 9 || n == 11 || n == 12 || n == 32 || n == 0x85 || n == 0xa0 || n == 0xfeff || n == 0x1680
    || n == 0x180e || (0x2000 ≤ n && n ≤ 0x200b) || n == 0x202f || n == 0x205f || n == 0x3000

theorem isLineBreak_or_isSpace {c : Char} (blank : Text.isBlank c = true) :
    (isLineBreak c || isSpace c) = true :=
  List.all_eq_true.mp (by decide : Text.blanks.all fun c => isLineBreak c || isSpace c) c
    (Text.mem_blanks_of_isBlank blank)

namespace Trivia

/-- Where a read of blanks and comments stands; two marks of a block comment are read one after the
other. -/
inductive Mode
  | between
  | line
  | opening
  | block
  | closing
  deriving DecidableEq, Repr

namespace Mode

def isOpen : Mode → Bool
  | .opening | .block => true
  | _ => false

/-- Where a read stands after a character, given the next one; nothing if a token starts there. -/
def past? (c : Char) (next : Option Char) : Mode → Option Mode
  | .between =>
    if isLineBreak c || isSpace c then some .between
    else if c = '/' && next = some '/' then some .line
    else if c = '/' && next = some '*' then some .opening
    else none
  | .line => if isLineBreak c then some .between else some .line
  | .opening => some .block
  | .block => if c = '*' && next = some '/' then some .closing else some .block
  | .closing => some .between

end Mode

/-- Blanks and comments that were skipped: their bytes, whether a line ended among them, the text
after them, and whether a comment was left open. -/
structure Skipped where
  bytes : Nat
  hasBreak : Bool
  rest : List Char
  isOpen : Bool
  deriving Repr

def skip : Mode → Nat → Bool → List Char → Skipped
  | mode, n, b, [] => ⟨n, b, [], mode.isOpen⟩
  | mode, n, b, c :: cs =>
    match mode.past? c cs.head? with
    | none => ⟨n, b, c :: cs, false⟩
    | some mode => skip mode (n + c.utf8Size) (b || isLineBreak c) cs

theorem skip_takes (mode : Mode) (n : Nat) (b : Bool) (cs : List Char) :
    ∃ taken, taken ++ (skip mode n b cs).rest = cs ∧
      n + Text.byteLength taken = (skip mode n b cs).bytes := by
  fun_induction skip mode n b cs with
  | case1 mode n b => exact ⟨[], rfl, rfl⟩
  | case2 mode n b c cs _ => exact ⟨[], rfl, rfl⟩
  | case3 mode n b c cs mode' _ ih =>
    obtain ⟨taken, whole, bytes⟩ := ih
    refine ⟨c :: taken, by rw [List.cons_append, whole], ?_⟩
    rw [← bytes, Text.byteLength_cons, Nat.add_assoc]

theorem head?_skip_solid (mode : Mode) (n : Nat) (b : Bool) (cs : List Char) :
    ∀ c ∈ (skip mode n b cs).rest.head?, Text.isBlank c = false := by
  fun_induction skip mode n b cs with
  | case1 mode n b => exact nofun
  | case2 mode n b c cs starts =>
    rintro _ ⟨⟩
    cases blank : Text.isBlank c with
    | false => rfl
    | true =>
      cases mode <;> simp only [Mode.past?, isLineBreak_or_isSpace blank, if_true] at starts <;>
        first | cases starts | (split at starts <;> cases starts)
  | case3 mode n b c cs mode' _ ih => exact ih

theorem rest_of_isOpen {mode : Mode} {n : Nat} {b : Bool} {cs : List Char}
    (h : (skip mode n b cs).isOpen = true) : (skip mode n b cs).rest = [] := by
  fun_induction skip mode n b cs with
  | case1 mode n b => rfl
  | case2 mode n b c cs _ => cases h
  | case3 mode n b c cs mode' _ ih => exact ih h

end Trivia

structure Cut where
  lexeme : Lexeme
  consumed : List Char
  rest : List Char
  isEscaped : Bool

/-- How lexemes are spelled: a string stands in quotes, a template between the mark that opens it and
the one that ends it; all others stand within a line. -/
def Lexeme.Spells : Lexeme → List Char → Prop
  | .string value, cs => ∃ quote body, (quote = '"' ∨ quote = '\'') ∧ cs = quote :: body ++ [quote] ∧
      Literal.IsBody quote body ∧ Literal.value? body = some value.toList
  | .template raw isLast _, cs => ∃ opening, (opening = '\x60' ∨ opening = '\x7d') ∧
      cs = opening :: raw.toList ++ (Literal.Chunk.mk raw.toList isLast []).closing
  | .mark m, cs => cs = m.spelling
  | .endOfText, cs => cs = []
  | _, cs => '\n' ∉ cs

/-- What lexemes are called: a name stands for a word, and a number for itself. -/
def Lexeme.Called : Lexeme → List Char → Prop
  | .name text, _ => Name.IsWord text.toList
  | .privateName text, _ => Name.IsWord text.toList
  | .numeral text, cs => cs = text.toList ∧ Literal.IsNumeral cs
  | _, _ => True

/-- The cut is made at the front of the text, takes something unless the text has ended, does not end
with a blank, and is spelled and called as its lexeme. -/
structure Cut.From (k : Cut) (cs : List Char) : Prop where
  whole : k.consumed ++ k.rest = cs
  advances : k.consumed = [] → cs = []
  solid : ∀ c ∈ k.consumed.getLast?, Text.isBlank c = false
  spelled : k.lexeme.Spells k.consumed
  called : k.lexeme.Called k.consumed

theorem Cut.From.of_cutSolid {k : Cut} {cs : List Char} (h : Text.CutSolid k.consumed k.rest cs)
    (ne : k.consumed ≠ []) (spelled : k.lexeme.Spells k.consumed) (called : k.lexeme.Called k.consumed) :
    k.From cs :=
  ⟨h.whole, fun none => absurd none ne, h.getLast?_solid, spelled, called⟩

namespace Lexeme

def ofName (decoded : List Char) : Lexeme :=
  match Keyword.ofSpelling? decoded with
  | some k => .keyword k
  | none => .name (String.ofList decoded)

def cutName (hash : Bool) (cs : List Char) : Option Cut :=
  (Name.read .plain true cs).bind fun r =>
    if r.decoded.isEmpty then none
    else some {
      lexeme := if hash then .privateName (String.ofList r.decoded) else ofName r.decoded
      consumed := if hash then '#' :: r.consumed else r.consumed
      rest := r.rest
      isEscaped := r.escaped }

def cutString (quote : Char) (cs : List Char) : Option Cut :=
  (Literal.scanString quote false cs).bind fun r =>
    (Literal.value? r.1).map fun v =>
      ⟨.string (String.ofList v), quote :: r.1 ++ [quote], r.2, false⟩

def cutChunk (opening : Char) (cs : List Char) : Option Cut :=
  (Literal.scanChunk false cs).map fun k =>
    ⟨.template (String.ofList k.body) k.isLast (Literal.chunkValid k.body),
      opening :: k.body ++ k.closing, k.rest, false⟩

def cutNumber (cs : List Char) : Option Cut :=
  (Literal.scanNumber cs).map fun r => ⟨.numeral (String.ofList r.1), r.1, r.2, false⟩

def cutPattern (cs : List Char) : Option Cut :=
  (Literal.scanPattern false false cs).bind fun r =>
    let flags := r.2.takeWhile Name.isPart
    let rest := r.2.dropWhile Name.isPart
    let text := '/' :: r.1 ++ '/' :: flags
    if Literal.flagsValid flags then some ⟨.pattern (String.ofList text), text, rest, false⟩
    else none

def cutMark (cs : List Char) : Option Cut :=
  (Mark.ofText? cs).map fun m => ⟨.mark m, m.spelling, cs.drop m.spelling.length, false⟩

def cutKnown? (c : Char) (rest : List Char) : Option Cut :=
  if c = '"' || c = '\'' then cutString c rest
  else if c = '\x60' then cutChunk c rest
  else if c = '#' then cutName true rest
  else if c.isDigit then cutNumber (c :: rest)
  else if Name.isStart c || c = '\\' then cutName false (c :: rest)
  else if c = '.' && rest.head?.any Char.isDigit then cutNumber (c :: rest)
  else cutMark (c :: rest)

/-- Cut the lexeme at the front of a text that starts with neither a blank nor a comment. -/
def cut : List Char → Cut
  | [] => ⟨.endOfText, [], [], false⟩
  | c :: rest => (cutKnown? c rest).getD ⟨.malformed, [c], rest, false⟩

/-- Cut the lexeme after blanks and comments; a comment that was left open has none. -/
def cutAfter (skipped : Trivia.Skipped) : Cut :=
  if skipped.isOpen then ⟨.malformed, [], skipped.rest, false⟩ else cut skipped.rest

theorem ofName_spells (decoded : List Char) {cs : List Char} (inLine : '\n' ∉ cs) :
    (ofName decoded).Spells cs := by
  unfold ofName
  split <;> exact inLine

theorem ofName_called {decoded : List Char} (word : Name.IsWord decoded) (cs : List Char) :
    (ofName decoded).Called cs := by
  unfold ofName
  split
  · trivial
  · rw [Called, String.toList_ofList]
    exact word

theorem cutName_cutFrom {hash : Bool} {cs : List Char} {k : Cut} (h : cutName hash cs = some k) :
    k.From (if hash then '#' :: cs else cs) := by
  obtain ⟨r, hr, hk⟩ := Option.bind_eq_some_iff.mp h
  have taken := Name.cutSolid_of_read hr
  split at hk
  · cases hk
  · next named =>
    cases hk
    have ne : r.decoded ≠ [] := fun none => named (by simp [none])
    have word := Name.isWord_of_read hr ne
    cases hash
    · exact .of_cutSolid taken (Name.consumed_ne_nil_of_read hr ne)
        (ofName_spells r.decoded taken.feed_not_mem) (ofName_called word _)
    · have hashed : Text.CutSolid ('#' :: r.consumed) r.rest ('#' :: cs) := .cons (by decide) taken
      refine .of_cutSolid hashed (List.cons_ne_nil _ _) hashed.feed_not_mem ?_
      rw [if_pos rfl, Called, String.toList_ofList]
      exact word

theorem cutString_cutFrom {quote : Char} {cs : List Char} {k : Cut} (mark : quote = '"' ∨ quote = '\'')
    (h : cutString quote cs = some k) : k.From (quote :: cs) := by
  obtain ⟨r, hr, hk⟩ := Option.bind_eq_some_iff.mp h
  obtain ⟨v, hv, rfl⟩ := Option.map_eq_some_iff.mp hk
  refine ⟨?_, nofun, ?_, ⟨quote, r.1, mark, rfl, Literal.scanString_body hr [], ?_⟩, trivial⟩
  · rw [← Literal.scanString_append hr]
    simp
  · rw [List.getLast?_append]
    rcases mark with rfl | rfl <;> rintro _ ⟨⟩ <;> rfl
  · rw [hv, String.toList_ofList]

theorem cutChunk_cutFrom {opening : Char} {cs : List Char} {k : Cut}
    (mark : opening = '\x60' ∨ opening = '\x7d') (h : cutChunk opening cs = some k) :
    k.From (opening :: cs) := by
  obtain ⟨chunk, hchunk, rfl⟩ := Option.map_eq_some_iff.mp h
  refine ⟨?_, nofun, ?_, ⟨opening, mark, by rw [String.toList_ofList]; rfl⟩, trivial⟩
  · rw [← Literal.scanChunk_append hchunk]
    rfl
  · rw [List.getLast?_append, Literal.Chunk.closing]
    cases chunk.isLast <;> rintro _ ⟨⟩ <;> rfl

theorem cutNumber_cutFrom {cs : List Char} {k : Cut} (starts : Literal.StartsNumber cs)
    (h : cutNumber cs = some k) : k.From cs := by
  obtain ⟨r, hr, rfl⟩ := Option.map_eq_some_iff.mp h
  obtain ⟨taken, ne⟩ := Literal.scanNumber_cutSolid hr
  refine .of_cutSolid (k := ⟨_, r.1, r.2, false⟩) taken ne taken.feed_not_mem ⟨?_, ?_⟩
  · exact String.toList_ofList.symm
  · exact Literal.isNumeral_of_scanNumber hr starts

theorem cutPattern_cutFrom {cs : List Char} {k : Cut} (h : cutPattern cs = some k) :
    k.From ('/' :: cs) := by
  obtain ⟨r, hr, hk⟩ := Option.bind_eq_some_iff.mp h
  have flags := Text.CutSolid.takeWhile Name.solid_isPart r.2
  have tail := Text.CutSolid.cons (by decide : Text.isBlank '/' = false) flags
  dsimp only at hk
  split at hk
  · cases hk
    refine ⟨?_, nofun, ?_, ?_, trivial⟩
    · rw [← Literal.scanPattern_append hr, ← flags.whole]
      simp
    · rw [List.getLast?_append, List.getLast?_eq_some_getLast (List.cons_ne_nil _ _), Option.some_or,
        ← List.getLast?_eq_some_getLast]
      exact tail.getLast?_solid
    · have body : '\n' ∉ '/' :: r.1 :=
        List.not_mem_cons_of_ne_of_not_mem (by decide) (Literal.feed_not_mem_of_scanPattern hr)
      exact List.not_mem_append body tail.feed_not_mem
  · cases hk

theorem cutMark_cutFrom {cs : List Char} {k : Cut} (h : cutMark cs = some k) : k.From cs := by
  obtain ⟨m, hm, rfl⟩ := Option.map_eq_some_iff.mp h
  exact .of_cutSolid (k := ⟨.mark m, m.spelling, cs.drop m.spelling.length, false⟩)
    ⟨Mark.spelling_ofText? hm, m.solid_spelling⟩ m.spelling_ne_nil rfl trivial

theorem cutKnown?_cutFrom {c : Char} {rest : List Char} {k : Cut}
    (h : cutKnown? c rest = some k) : k.From (c :: rest) := by
  unfold cutKnown? at h
  split at h
  · next quote => exact cutString_cutFrom (by simpa using quote) h
  split at h
  · next opening => exact cutChunk_cutFrom (.inl opening) h
  split at h
  · next hash => exact hash ▸ cutName_cutFrom h
  split at h
  · next digit => exact cutNumber_cutFrom (.inl digit) h
  split at h
  · exact cutName_cutFrom h
  split at h
  · next dot => exact cutNumber_cutFrom (.inr (by simpa using dot)) h
  · exact cutMark_cutFrom h

theorem cut_cutFrom {cs : List Char} (head : ∀ c ∈ cs.head?, Text.isBlank c = false) :
    (cut cs).From cs := by
  cases cs with
  | nil => exact ⟨rfl, fun _ => rfl, nofun, rfl, trivial⟩
  | cons c rest =>
    have solid : Text.isBlank c = false := head c rfl
    rw [cut]
    cases known : cutKnown? c rest with
    | none =>
      have taken : Text.CutSolid [c] rest (c :: rest) := .cons solid (.nil rest)
      exact .of_cutSolid (k := ⟨.malformed, [c], rest, false⟩) taken (List.cons_ne_nil _ _)
        taken.feed_not_mem trivial
    | some k => exact cutKnown?_cutFrom known

theorem cutAfter_cutFrom (mode : Trivia.Mode) (n : Nat) (b : Bool) (cs : List Char) :
    (cutAfter (Trivia.skip mode n b cs)).From (Trivia.skip mode n b cs).rest := by
  unfold cutAfter
  split
  · next isOpen => exact ⟨rfl, fun _ => Trivia.rest_of_isOpen isOpen, nofun, List.not_mem_nil, trivial⟩
  · exact cut_cutFrom (Trivia.head?_skip_solid mode n b cs)

end Lexeme

/-- Another way to cut the token at the front of a text. -/
structure Recut where
  cut? : List Char → Option Cut
  cut?_cutFrom : ∀ {cs k}, cut? cs = some k → k.From cs

namespace Recut

def openingAngle : Recut where
  cut?
    | '<' :: cs => some ⟨.mark .langle, ['<'], cs, false⟩
    | _ => none
  cut?_cutFrom := by
    intro cs k h
    split at h
    · cases h
      exact ⟨rfl, nofun, by rintro _ ⟨⟩; rfl, rfl, trivial⟩
    · cases h

def closingAngles : Recut where
  cut?
    | '>' :: cs =>
      let m := Mark.ofAfterAngle cs
      some ⟨.mark m, m.spelling, cs.drop (m.spelling.length - 1), false⟩
    | _ => none
  cut?_cutFrom := by
    intro cs k h
    split at h
    · cases h
      exact .of_cutSolid (k := ⟨.mark _, Mark.spelling _, _, false⟩)
        ⟨Mark.spelling_ofAfterAngle _, Mark.solid_spelling _⟩ (Mark.spelling_ne_nil _) rfl trivial
    · cases h

def pattern : Recut where
  cut?
    | '/' :: cs => Lexeme.cutPattern cs
    | _ => none
  cut?_cutFrom := by
    intro cs k h
    split at h
    · exact Lexeme.cutPattern_cutFrom h
    · cases h

def chunk : Recut where
  cut?
    | '\x7d' :: cs => Lexeme.cutChunk '\x7d' cs
    | _ => none
  cut?_cutFrom := by
    intro cs k h
    split at h
    · exact Lexeme.cutChunk_cutFrom (.inr rfl) h
    · cases h

end Recut

end VueOptions.Script
