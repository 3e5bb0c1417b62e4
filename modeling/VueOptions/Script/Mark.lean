import VueOptions.Text.Blank

/-!
Punctuation marks. A mark is read by longest match; the marks that begin with `>` are put together
by the reader of expressions only, since `>` alone closes type arguments.
-/

set_option autoImplicit false

namespace VueOptions.Script

inductive Mark
  | lparen | rparen | lbrack | rbrack | lbrace | rbrace | semicolon | comma | dot | ellipsis
  | question | questionDot | colon | arrow | atSign | langle | rangle | lessEq | greaterEq
  | eqEq | notEq | eqEqEq | notEqEq | plus | minus | star | starStar | slash | percent
  | plusPlus | minusMinus | shiftLeft | shiftRight | shiftRightZero | amp | pipe | caret
  | bang | tilde | ampAmp | pipePipe | coalesce | eq | plusEq | minusEq | starEq | starStarEq
  | slashEq | percentEq | shiftLeftEq | shiftRightEq | shiftRightZeroEq | ampEq | pipeEq
  | caretEq | ampAmpEq | pipePipeEq | coalesceEq
  deriving DecidableEq, Repr

namespace Mark

def spelling : Mark → List Char
  | .lparen => ['(']
  | .rparen => [')']
  | .lbrack => ['[']
  | .rbrack => [']']
  | .lbrace => ['\x7b']
  | .rbrace => ['\x7d']
  | .semicolon => [';']
  | .comma => [',']
  | .dot => ['.']
  | .ellipsis => ['.', '.', '.']
  | .question => ['?']
  | .questionDot => ['?', '.']
  | .colon => [':']
  | .arrow => ['=', '>']
  | .atSign => ['@']
  | .langle => ['<']
  | .rangle => ['>']
  | .lessEq => ['<', '=']
  | .greaterEq => ['>', '=']
  | .eqEq => ['=', '=']
  | .notEq => ['!', '=']
  | .eqEqEq => ['=', '=', '=']
  | .notEqEq => ['!', '=', '=']
  | .plus => ['+']
  | .minus => ['-']
  | .star => ['*']
  | .starStar => ['*', '*']
  | .slash => ['/']
  | .percent => ['%']
  | .plusPlus => ['+', '+']
  | .minusMinus => ['-', '-']
  | .shiftLeft => ['<', '<']
  | .shiftRight => ['>', '>']
  | .shiftRightZero => ['>', '>', '>']
  | .amp => ['&']
  | .pipe => ['|']
  | .caret => ['^']
  | .bang => ['!']
  | .tilde => ['~']
  | .ampAmp => ['&', '&']
  | .pipePipe => ['|', '|']
  | .coalesce => ['?', '?']
  | .eq => ['=']
  | .plusEq => ['+', '=']
  | .minusEq => ['-', '=']
  | .starEq => ['*', '=']
  | .starStarEq => ['*', '*', '=']
  | .slashEq => ['/', '=']
  | .percentEq => ['%', '=']
  | .shiftLeftEq => ['<', '<', '=']
  | .shiftRightEq => ['>', '>', '=']
  | .shiftRightZeroEq => ['>', '>', '>', '=']
  | .ampEq => ['&', '=']
  | .pipeEq => ['|', '=']
  | .caretEq => ['^', '=']
  | .ampAmpEq => ['&', '&', '=']
  | .pipePipeEq => ['|', '|', '=']
  | .coalesceEq => ['?', '?', '=']

/-- The marks a scan looks for, the longer ones first. -/
def scanOrder : List Mark :=
  [.ellipsis, .eqEqEq, .notEqEq, .starStarEq, .shiftLeftEq, .ampAmpEq, .pipePipeEq, .coalesceEq,
   .questionDot, .arrow, .lessEq, .eqEq, .notEq, .starStar, .plusPlus, .minusMinus, .shiftLeft,
   .ampAmp, .pipePipe, .coalesce, .plusEq, .minusEq, .starEq, .slashEq, .percentEq, .ampEq,
   .pipeEq, .caretEq, .lparen, .rparen, .lbrack, .rbrack, .lbrace, .rbrace, .semicolon, .comma,
   .dot, .question, .colon, .atSign, .langle, .rangle, .plus, .minus, .star, .slash, .percent,
   .amp, .pipe, .caret, .bang, .tilde, .eq]

/-- The longest mark that the text starts with, apart from those that begin with `>`. A `?.` before
a digit is a question mark. -/
def ofText? (cs : List Char) : Option Mark :=
  (scanOrder.find? fun m => m.spelling.isPrefixOf cs).map fun m =>
    match m, cs with
    | .questionDot, _ :: _ :: d :: _ => if d.isDigit then .question else m
    | m, _ => m

def ofAfterAngle (cs : List Char) : Mark :=
  match [shiftRightZeroEq, shiftRightZero, shiftRightEq, shiftRight, greaterEq].find? fun m =>
      m.spelling.tail.isPrefixOf cs with
  | some m => m
  | none => rangle

def isAssignment : Mark → Bool
  | .eq | .plusEq | .minusEq | .starEq | .starStarEq | .slashEq | .percentEq | .shiftLeftEq
  | .shiftRightEq | .shiftRightZeroEq | .ampEq | .pipeEq | .caretEq | .ampAmpEq | .pipePipeEq
  | .coalesceEq => true
  | _ => false

/-- How tightly a mark binds as a binary operator; marks that are none give nothing. -/
def binding? : Mark → Option Nat
  | .coalesce => some 1
  | .pipePipe => some 2
  | .ampAmp => some 3
  | .pipe => some 4
  | .caret => some 5
  | .amp => some 6
  | .eqEq | .notEq | .eqEqEq | .notEqEq => some 7
  | .langle | .rangle | .lessEq | .greaterEq => some 8
  | .shiftLeft | .shiftRight | .shiftRightZero => some 9
  | .plus | .minus => some 10
  | .star | .slash | .percent => some 11
  | .starStar => some 12
  | _ => none

theorem solid_spelling (m : Mark) : ∀ c ∈ m.spelling, Text.isBlank c = false := by
  have none : m.spelling.any Text.isBlank = false := by cases m <;> decide
  simpa using none

theorem spelling_ne_nil (m : Mark) : m.spelling ≠ [] := by
  cases m <;> exact nofun

theorem spelling_ofText? {cs : List Char} {m : Mark} (h : ofText? cs = some m) :
    m.spelling ++ cs.drop m.spelling.length = cs := by
  obtain ⟨n, found, hm⟩ := Option.map_eq_some_iff.mp h
  have starts := List.find?_some found
  obtain ⟨rest, rfl⟩ := List.isPrefixOf_iff_prefix.mp starts
  split at hm
  · split at hm <;> subst hm
    · rfl
    · rw [List.drop_left]
  · subst hm
    rw [List.drop_left]

theorem spelling_ofAfterAngle (cs : List Char) :
    (ofAfterAngle cs).spelling ++ cs.drop ((ofAfterAngle cs).spelling.length - 1) = '>' :: cs := by
  unfold ofAfterAngle
  split
  · next m found =>
    have starts := List.find?_some found
    obtain ⟨rest, rfl⟩ := List.isPrefixOf_iff_prefix.mp starts
    have angle : m.spelling = '>' :: m.spelling.tail := by
      have mem := List.mem_of_find?_eq_some found
      simp only [List.mem_cons, List.not_mem_nil, or_false] at mem
      rcases mem with rfl | rfl | rfl | rfl | rfl <;> rfl
    rw [← List.length_tail, List.drop_left, ← List.cons_append, ← angle]
  · rfl

end Mark

end VueOptions.Script
