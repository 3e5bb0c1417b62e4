import VueOptions.Script.Grammar.Expression
import VueOptions.Proofs.Script.Dissection

/-!
How the head of an entry of an object literal is read. A word or a number is cut off the front of any text
that goes on with a blank, a parenthesis or a colon; so an entry that is written with such a name is read
under that name wherever it stands. Words that would be modifiers elsewhere, such as `get` and `async`, are
names there.
-/

set_option autoImplicit false

namespace VueOptions.Script

open Text

namespace Name

private def separators : List Nat :=
  [9, 10, 11, 12, 13, 32, 0x85, 0xa0, 0x1680, 0x180e, 0x2000, 0x2001, 0x2002, 0x2003, 0x2004, 0x2005, 0x2006,
    0x2007, 0x2008, 0x2009, 0x200a, 0x200b, 0x2028, 0x2029, 0x202f, 0x205f, 0x3000, 0xfeff]

theorem not_separates_of_isStart {c : Char} (start : isStart c = true) :
    (isLineBreak c || isSpace c) = false := by
  cases separates : isLineBreak c || isSpace c with
  | false => rfl
  | true =>
    have mem : c.toNat ∈ separators := by
      simp only [isLineBreak, isSpace, Bool.or_eq_true, Bool.and_eq_true, decide_eq_true_eq, beq_iff_eq]
        at separates
      rcases separates with (((rfl | rfl) | h) | h) | h
      · decide
      · decide
      all_goals
        simp only [separators, List.mem_cons]
        omega
    have stops : (separators.all fun n => !isStart (Char.ofNat n)) = true := by decide +kernel
    have stop := List.all_eq_true.mp stops _ mem
    rw [Char.ofNat_toNat, start] at stop
    cases stop

theorem not_isDigit_of_isStart {c : Char} (start : isStart c = true) : c.isDigit = false := by
  cases digit : c.isDigit with
  | false => rfl
  | true =>
    simp only [Char.isDigit, Bool.and_eq_true, decide_eq_true_eq, ge_iff_le, UInt32.le_iff_toNat_le] at digit
    have range : 48 ≤ c.toNat ∧ c.toNat ≤ 57 := digit
    have ascii : c.toNat < 0x80 := by omega
    rw [isStart, if_pos ascii] at start
    simp only [Bool.or_eq_true, decide_eq_true_eq] at start
    rcases start with (letter | rfl) | rfl
    · rcases Bool.or_eq_true_iff.mp letter with upper | lower
      · have low : 65 ≤ c.toNat := UInt32.le_iff_toNat_le.mp (of_decide_eq_true upper).1
        omega
      · have low : 97 ≤ c.toNat := UInt32.le_iff_toNat_le.mp (of_decide_eq_true (Bool.and_eq_true_iff.mp lower).1)
        omega
    · revert range; decide
    · revert range; decide

end Name

theorem Literal.not_separates_of_isDigit {c : Char} (digit : c.isDigit = true) :
    (isLineBreak c || isSpace c) = false := by
  simp only [Char.isDigit, Bool.and_eq_true, decide_eq_true_eq, ge_iff_le, UInt32.le_iff_toNat_le] at digit
  have range : 48 ≤ c.toNat ∧ c.toNat ≤ 57 := digit
  have apart (n : Nat) (out : n < 48 ∨ 57 < n) : c.toNat ≠ n := by omega
  have feed : c ≠ '\n' := by rintro rfl; revert range; decide
  have back : c ≠ '\r' := by rintro rfl; revert range; decide
  simp only [isLineBreak, isSpace, Bool.or_eq_false_iff, Bool.and_eq_false_iff, decide_eq_false_iff_not,
    beq_eq_false_iff_ne]
  refine ⟨⟨⟨⟨feed, back⟩, ?_⟩, ?_⟩, ?_⟩ <;> omega

namespace Lexeme

theorem cut_word {w rest : List Char} (word : Name.IsWord w) (ends : Name.EndsName rest) :
    cut (w ++ rest) = ⟨ofName w, w, rest, false⟩ := by
  cases w with
  | nil => cases word
  | cons c cs =>
    have digit := Name.not_isDigit_of_isStart word.1
    have other (d : Char) (stop : Name.isStart d = false) : c ≠ d := by
      rintro rfl
      rw [word.1] at stop
      cases stop
    have named : cutName false (c :: (cs ++ rest)) = some ⟨ofName (c :: cs), c :: cs, rest, false⟩ := by
      rw [cutName, ← List.cons_append, Name.read_word word ends]
      rfl
    have known : cutKnown? c (cs ++ rest) = some ⟨ofName (c :: cs), c :: cs, rest, false⟩ := by
      simp [cutKnown?, other '"' (by decide), other '\'' (by decide), other '\x60' (by decide),
        other '#' (by decide), digit, word.1, named]
    rw [List.cons_append, cut, known]
    rfl

theorem cut_numeral {w rest : List Char} (numeral : Literal.IsNumeral w) (ends : Literal.EndsNumber rest) :
    cut (w ++ rest) = ⟨.numeral (String.ofList w), w, rest, false⟩ := by
  cases w with
  | nil => cases numeral.starts
  | cons c cs =>
    have scanned := Literal.scanNumber_append numeral.scanned ends
    rw [List.cons_append] at scanned
    have number : cutNumber (c :: (cs ++ rest)) =
        some ⟨.numeral (String.ofList (c :: cs)), c :: cs, rest, false⟩ := by
      rw [cutNumber, scanned]
      rfl
    have known : cutKnown? c (cs ++ rest) = cutNumber (c :: (cs ++ rest)) := by
      rcases numeral.starts with digit | ⟨rfl, digit⟩
      · have other (d : Char) (stop : d.isDigit = false) : c ≠ d := by
          rintro rfl
          rw [digit] at stop
          cases stop
        simp [cutKnown?, other '"' (by decide), other '\'' (by decide), other '\x60' (by decide),
          other '#' (by decide), digit]
      · cases cs with
        | nil => cases digit
        | cons d cs =>
          have first : d.isDigit = true := digit
          simp [cutKnown?, Name.isStart, first]
    rw [List.cons_append, cut, known, number]
    rfl

end Lexeme

/-- A name that an entry can have without quotes or brackets. -/
inductive BareName
  | word (name : Name.Word)
  | numeral (number : Literal.Numeral)

namespace BareName

def text : BareName → String
  | .word name => name
  | .numeral number => number

def lexeme : BareName → Lexeme
  | .word name => Lexeme.ofName name.text.toList
  | .numeral number => .numeral number

def kind : BareName → Kind
  | .word name => .identifier name
  | .numeral number => .numeral number

def tree (b : BareName) (s : Span) : Tree := .node (.key false) s [.node b.kind s []]

def Closes (rest : List Char) : Prop := ∃ c ∈ [' ', '(', ':'], rest.head? = some c

variable {rest : List Char}

theorem Closes.stops (closes : Closes rest) {d : Char} (first : d ∈ rest.head?) :
    (Name.isPart d = false ∧ d ≠ '\\') ∧ d.isDigit = false ∧ Name.isStart d = false ∧ d ≠ '.' := by
  obtain ⟨c, mem, head⟩ := closes
  rw [head] at first
  cases first
  simp only [List.mem_cons, List.not_mem_nil, or_false] at mem
  rcases mem with rfl | rfl | rfl <;> decide

theorem cut_append (b : BareName) (closes : Closes rest) :
    Lexeme.cut (b.text.toList ++ rest) = ⟨b.lexeme, b.text.toList, rest, false⟩ := by
  cases b with
  | word name => exact Lexeme.cut_word name.isWord fun d first => (closes.stops first).1
  | numeral number =>
    have ends : Literal.EndsNumber rest := by
      intro d first
      obtain ⟨⟨-, plain⟩, digit, start, dot⟩ := closes.stops first
      exact ⟨digit, start, dot, plain⟩
    have cut := Lexeme.cut_numeral number.isNumeral ends
    rw [String.ofList_toList] at cut
    exact cut

theorem lexeme_ne_mark (b : BareName) (m : Mark) : (b.lexeme == .mark m) = false := by
  cases b with
  | word name =>
    rw [lexeme, Lexeme.ofName]
    split <;> rfl
  | numeral number => rfl

theorem startsToken_append (b : BareName) (rest : List Char) : StartsToken (b.text.toList ++ rest) := by
  have opens : ∃ c cs, b.text.toList = c :: cs ∧ (isLineBreak c || isSpace c) = false ∧ c ≠ '/' := by
    cases b with
    | word name =>
      have word := name.isWord
      cases shape : name.text.toList with
      | nil =>
        rw [shape] at word
        cases word
      | cons c cs =>
        rw [shape] at word
        refine ⟨c, cs, shape, Name.not_separates_of_isStart word.1, ?_⟩
        rintro rfl
        exact absurd word.1 (by decide)
    | numeral number =>
      have starts := number.isNumeral.starts
      cases shape : number.text.toList with
      | nil =>
        rw [shape] at starts
        cases starts
      | cons c cs =>
        rw [shape] at starts
        refine ⟨c, cs, shape, ?_⟩
        rcases starts with digit | ⟨rfl, -⟩
        · refine ⟨Literal.not_separates_of_isDigit digit, ?_⟩
          rintro rfl
          exact absurd digit (by decide)
        · decide
  obtain ⟨c, cs, shape, solid, slash⟩ := opens
  refine ⟨c, cs ++ rest, by rw [shape]; rfl, ?_⟩
  simp [Trivia.Mode.past?, solid, slash]

end BareName

theorem Trivia.skip_of_startsToken {cs : List Char} (starts : StartsToken cs) (n : Nat) (b : Bool) :
    Trivia.skip .between n b cs = ⟨n, b, cs, false⟩ := by
  obtain ⟨c, rest, rfl, past⟩ := starts
  rw [Trivia.skip, past]

theorem BareName.feed_not_mem (b : BareName) : '\n' ∉ b.text.toList := by
  have closes : Closes [' '] := ⟨' ', by decide, rfl⟩
  have spelled := (Lexeme.cutAfter_cutFrom .between 0 false (b.text.toList ++ [' '])).spelled
  rw [Trivia.skip_of_startsToken (b.startsToken_append [' '])] at spelled
  change (Lexeme.cut _).lexeme.Spells (Lexeme.cut _).consumed at spelled
  rw [b.cut_append closes] at spelled
  cases b with
  | word name =>
    simp only [lexeme, Lexeme.ofName] at spelled
    split at spelled <;> exact spelled
  | numeral number => exact spelled

namespace Cursor

variable {text cs rest : List Char} {c : Cursor text}

/-- The cursor is at the first token of a text that goes on to the end of the whole text. -/
structure Reaches (c : Cursor text) (cs : List Char) : Prop where
  after : c.place.after = (Trivia.skip .between 0 false cs).rest
  cut : c.cut = Lexeme.cutAfter (Trivia.skip .between 0 false cs)

theorem reaches_next (c : Cursor text) : c.next.Reaches c.cut.rest := ⟨rfl, rfl⟩

theorem skip_rest_eq (mode : Trivia.Mode) (n m : Nat) (a b : Bool) (cs : List Char) :
    (Trivia.skip mode n a cs).rest = (Trivia.skip mode m b cs).rest ∧
      (Trivia.skip mode n a cs).isOpen = (Trivia.skip mode m b cs).isOpen := by
  fun_induction Trivia.skip mode n a cs generalizing m b with
  | case1 mode n a => exact ⟨rfl, rfl⟩
  | case2 mode n a c cs none => simp [Trivia.skip, none]
  | case3 mode n a c cs next some ih =>
    simp only [Trivia.skip, some]
    exact ih _ _

theorem reaches_congr {cs' : List Char}
    (rest : (Trivia.skip .between 0 false cs).rest = (Trivia.skip .between 0 false cs').rest)
    (isOpen : (Trivia.skip .between 0 false cs).isOpen = (Trivia.skip .between 0 false cs').isOpen) :
    c.Reaches cs ↔ c.Reaches cs' := by
  have cut : Lexeme.cutAfter (Trivia.skip .between 0 false cs) =
      Lexeme.cutAfter (Trivia.skip .between 0 false cs') := by
    rw [Lexeme.cutAfter, Lexeme.cutAfter, rest, isOpen]
  constructor
  · intro h
    exact ⟨rest ▸ h.after, cut ▸ h.cut⟩
  · intro h
    exact ⟨rest ▸ h.after, cut ▸ h.cut⟩

theorem reaches_indented (k : Nat) : c.Reaches (List.replicate k ' ' ++ cs) ↔ c.Reaches cs := by
  induction k with
  | zero => rfl
  | succ k ih =>
    rw [← ih, List.replicate_succ, List.cons_append]
    obtain ⟨rest, isOpen⟩ := skip_rest_eq .between 1 0 false false (List.replicate k ' ' ++ cs)
    exact reaches_congr rest isOpen

theorem Reaches.cut_of_startsToken (reaches : c.Reaches cs) (starts : StartsToken cs) : c.cut = Lexeme.cut cs := by
  rw [reaches.cut, Trivia.skip_of_startsToken starts]
  rfl

theorem afterBreak_next_of_blank (cut : c.cut.rest = ' ' :: cs) (starts : StartsToken cs) :
    c.next.afterBreak = false := by
  change (Trivia.skip .between 0 false c.cut.rest).hasBreak = false
  rw [cut]
  change (Trivia.skip .between 1 false _).hasBreak = false
  rw [Trivia.skip_of_startsToken starts]

theorem Reaches.cut_bareName {b : BareName} (reaches : c.Reaches (b.text.toList ++ rest))
    (closes : BareName.Closes rest) :
    c.cut = ⟨b.lexeme, b.text.toList, rest, false⟩ := by
  rw [reaches.cut_of_startsToken (b.startsToken_append rest), b.cut_append closes]

theorem Reaches.behind_bareName {b : BareName} (reaches : c.Reaches (b.text.toList ++ rest))
    (closes : BareName.Closes rest) : c.cut.lexeme = b.lexeme ∧ c.next.Reaches rest := by
  have cut := reaches.cut_bareName closes
  have next := c.reaches_next
  rw [cut] at next
  exact ⟨by rw [cut], next⟩

end Cursor

namespace Parse

variable {α β : Type} {text : List Char} {s : Setting} {c c' : Cursor text} {p : Parse α}

theorem bind_apply (p : Parse α) (f : α → Parse β) (c : Cursor text) :
    (p >>= f) text s c = (p text s c).bind fun r => f r.1 text s r.2 := by
  simp only [Bind.bind]
  cases p text s c <;> rfl

theorem bind_of_eq {a : α} {f : α → Parse β} (h : p text s c = some (a, c')) :
    (p >>= f) text s c = f a text s c' := by
  rw [bind_apply, h]
  rfl

theorem bind_node (start : Nat) (kind : Kind) (children : α → List Tree) :
    (p >>= fun a => node start kind (children a)) text s c =
      (p text s c).map fun r => (.node kind ⟨start, r.2.lastStop⟩ (children r.1), r.2) := by
  rw [bind_apply]
  cases p text s c <;> rfl

end Parse

namespace Grammar

open Parse

variable {text rest : List Char} {s : Setting} {c : Cursor text}

/-- What comes behind the name of an entry: its value opens, or something closes the entry. -/
def FollowsName (c : Cursor text) : Prop :=
  c.cut.lexeme ∈ [.mark .lparen, .mark .colon, .mark .comma, .mark .rparen, .mark .rbrack, .mark .rbrace,
    .mark .semicolon, .endOfText]

theorem FollowsName.behind (follows : FollowsName c) :
    c.token.namesMember = false ∧ mayFollowModifier text s c = some (false, c) ∧
      seesAny [.atSign, .lbrace, .star] text s c = some (false, c) ∧ (c.cut.lexeme == .keyword .enum) = false := by
  have lexed : lexeme text s c = some (c.cut.lexeme, c) := rfl
  simp only [FollowsName, List.mem_cons, List.not_mem_nil, or_false] at follows
  refine ⟨?_, ?_, ?_, ?_⟩
  · simp only [Token.namesMember, Cursor.token]
    rcases follows with sees | sees | sees | sees | sees | sees | sees | sees <;> rw [sees]
  · change some ((c.token.namesMember || c.cut.lexeme == .mark .lbrack || c.cut.lexeme == .mark .lbrace
      || c.cut.lexeme == .mark .star || c.cut.lexeme == .mark .ellipsis), c) = _
    simp only [Token.namesMember, Cursor.token]
    rcases follows with sees | sees | sees | sees | sees | sees | sees | sees <;> rw [sees] <;> rfl
  · rw [seesAny, bind_of_eq lexed]
    rcases follows with sees | sees | sees | sees | sees | sees | sees | sees <;> rw [sees] <;> rfl
  · rcases follows with sees | sees | sees | sees | sees | sees | sees | sees <;> rw [sees] <;> rfl

theorem afterNext_of_read {p : Parse Bool} {b : Bool} {c' : Cursor text} (h : p text s c.next = some (b, c')) :
    afterNext p text s c = some (b, c) := by
  have seen : (advance *> p) text s c = some (b, c') := h
  unfold afterNext foretells
  rw [seen]

theorem afterNext_of_eq {p : Parse Bool} {b : Bool} (h : p text s c.next = some (b, c.next)) :
    afterNext p text s c = some (b, c) :=
  afterNext_of_read h

theorem lexeme_eq : lexeme text s c = some (c.cut.lexeme, c) := rfl

theorem seesAny_of_mark {m : Mark} (ms : List Mark) (sees : c.cut.lexeme = .mark m) :
    seesAny ms text s c = some (ms.contains m, c) := by
  unfold seesAny
  rw [bind_of_eq (lexeme_eq (c := c)), sees]
  rfl

theorem isModifierHere_of_followsName (k : Keyword) (follows : FollowsName c.next) :
    isModifierHere k text s c = some (false, c) := by
  obtain ⟨named, may, marks, enum⟩ := follows.behind (s := s)
  unfold isModifierHere
  apply afterNext_of_eq
  split
  · change some (c.next.cut.lexeme == .keyword .enum, c.next) = _
    rw [enum]
  · exact may
  · exact may
  · exact may
  · rw [bind_of_eq marks]
    change some (false || c.next.token.namesMember, c.next) = _
    rw [named]
    rfl
  · rw [bind_of_eq marks]
    change some (false || c.next.token.namesMember, c.next) = _
    rw [named]
    rfl
  · change (mayFollowModifier >>= fun b => pure (!c.next.afterBreak && b)) text s c.next = _
    rw [bind_of_eq may, Bool.and_false]
    rfl

theorem modifierRound_of_followsName (follows : FollowsName c.next) (found : List Keyword) :
    modifierRound false found text s c = some (.stop found, c) := by
  unfold modifierRound
  rw [bind_of_eq (show lexeme text s c = some (c.cut.lexeme, c) from rfl)]
  simp only [Bool.and_false, Bool.false_eq_true, if_false]
  generalize c.cut.lexeme = l
  cases l with
  | keyword k =>
    cases modifier : k.isModifier with
    | false => simp only [modifier]; rfl
    | true =>
      simp only [modifier, Bool.not_true, Bool.false_eq_true, if_false]
      rw [bind_of_eq (isModifierHere_of_followsName k follows)]
      rfl
  | _ => rfl

theorem modifiers_of_followsName (follows : FollowsName c.next) (bound : 1 ≤ s.bound) :
    modifiers false text s c = some ([], c) := by
  have stops : repeatFrom [] (modifierRound false) text s c = some ([], c) := by
    obtain ⟨n, enough⟩ := Nat.exists_eq_add_of_le' bound
    change rounds (modifierRound false) s.bound [] text s c = _
    rw [enough, rounds, bind_of_eq (modifierRound_of_followsName follows [])]
    rfl
  rw [modifiers, bind_of_eq stops]
  rfl

theorem accessorWord_of_followsName (follows : FollowsName c.next) (k : Keyword) :
    accessorWord k text s c = some (false, c) := by
  change (if c.cut.lexeme == .keyword k then _ else _ : Parse Bool) text s c = _
  cases c.cut.lexeme == .keyword k with
  | false => rfl
  | true =>
    change (afterNext mayFollowModifier >>= _) text s c = _
    rw [bind_of_eq (afterNext_of_eq (follows.behind.2.1))]
    rfl

theorem numeral?_of_lexeme {number : Literal.Numeral} (sees : c.cut.lexeme = .numeral number) :
    c.numeral? = some number := by
  unfold Cursor.numeral?
  split
  · next other same =>
    rw [sees] at same
    cases number
    cases same
    rfl
  · next other => exact absurd sees (other _)

theorem word?_of_token {name : Name.Word} (sees : c.token.word? = some name.text) : c.word? = some name := by
  unfold Cursor.word?
  split
  · next other same =>
    rw [sees] at same
    cases name
    cases same
    rfl
  · next none =>
    rw [sees] at none
    cases none

theorem word?_ofName {t : Token} {name : Name.Word} (named : t.lexeme = Lexeme.ofName name.text.toList) :
    t.word? = some name.text := by
  unfold Lexeme.ofName at named
  unfold Token.word?
  rw [named]
  cases keyword : Keyword.ofSpelling? name.text.toList with
  | none => simp
  | some k => simp [Keyword.spelling_of_ofSpelling? keyword]

theorem numeral_of_lexeme {number : Literal.Numeral} (sees : c.cut.lexeme = .numeral number) :
    numeral text s c = some (.node (.numeral number) ⟨c.place.offset, c.next.lastStop⟩ [], c.next) := by
  unfold numeral
  rw [bind_of_eq (show look _ text s c = some (c.numeral?, c) from rfl), numeral?_of_lexeme sees]
  rfl

theorem identifierName_word {name : Name.Word} (named : c.cut.lexeme = Lexeme.ofName name.text.toList) :
    identifierName text s c = some (.node (.identifier name) ⟨c.place.offset, c.next.lastStop⟩ [], c.next) := by
  unfold identifierName
  rw [bind_of_eq (show look _ text s c = some (c.word?, c) from rfl), word?_of_token (word?_ofName named)]
  rfl

theorem key_bareName {b : BareName} (sees : c.cut.lexeme = b.lexeme) (g : Grammar) :
    key g text s c = some (b.tree ⟨c.place.offset, c.next.lastStop⟩, c.next) := by
  unfold key
  rw [bind_of_eq (show here text s c = some (c.place.offset, c) from rfl), bind_of_eq (lexeme_eq (c := c)), sees]
  cases b with
  | word name =>
    have named : (identifierName >>= fun e => node c.place.offset (.key false) [e]) text s c =
        some ((BareName.word name).tree ⟨c.place.offset, c.next.lastStop⟩, c.next) := by
      rw [bind_of_eq (identifierName_word sees)]
      rfl
    rw [BareName.lexeme, Lexeme.ofName]
    cases Keyword.ofSpelling? name.text.toList with
    | none => exact named
    | some k => exact named
  | numeral number =>
    change (numeral >>= _) text s c = _
    rw [bind_of_eq (numeral_of_lexeme sees)]
    rfl

theorem sees_eq (m : Mark) : sees m text s c = some (c.cut.lexeme == .mark m, c) := rfl

theorem eat_bareName {b : BareName} (sees : c.cut.lexeme = b.lexeme) (m : Mark) :
    eat m text s c = some (false, c) := by
  rw [eat, bind_of_eq (sees_eq m), sees, b.lexeme_ne_mark]
  rfl

theorem namedEntry_value {g : Grammar} {name : Tree} {c' : Cursor text}
    (star : eat .star text s c = some (false, c)) (keyed : key g text s c = some (name, c'))
    (colon : c'.cut.lexeme = .mark .colon) (start : Nat) :
    namedEntry g start [] text s c = (g (.assignment true) text s c'.next).map fun r =>
      (.node (.entry .plain) ⟨start, r.2.lastStop⟩ [name, r.1], r.2) := by
  have marks : seesAny [.lparen, .langle] text s c' = some (false, c') := seesAny_of_mark _ colon
  have sees : sees .colon text s c' = some (true, c') := by rw [sees_eq, colon]; rfl
  have expected : expect .colon text s c' = some ((), c'.next) := by
    rw [expect, bind_of_eq sees]
    rfl
  have value : (do
      expect .colon
      let value ← g (.assignment true)
      node start (.entry .plain) [name, value] : Parse Tree) text s c' =
        (g (.assignment true) text s c'.next).map fun r =>
          (.node (.entry .plain) ⟨start, r.2.lastStop⟩ [name, r.1], r.2) := by
    rw [bind_of_eq expected, bind_node]
  unfold namedEntry
  rw [bind_of_eq star, bind_of_eq (show token text s c = some (c.token, c) from rfl),
    bind_of_eq keyed, bind_of_eq marks, if_neg (by decide),
    bind_of_eq (show allowModifiers [] [] text s c' = some ((), c') from rfl),
    bind_of_eq (show (read : Parse Setting) text s c' = some (s, c') from rfl), bind_of_eq sees,
    Bool.not_true, Bool.and_false, if_neg (by decide), value]

theorem namedEntry_function {g : Grammar} {name : Tree} {c' : Cursor text}
    (star : eat .star text s c = some (false, c)) (keyed : key g text s c = some (name, c'))
    (paren : c'.cut.lexeme = .mark .lparen) (isAsync : Bool) (start : Nat) :
    namedEntry g start (if isAsync then [.async] else []) text s c =
      (methodFunction g isAsync false text s c').map fun r =>
        (.node (.entry .method) ⟨start, r.2.lastStop⟩ [name, r.1], r.2) := by
  have marks : seesAny [.lparen, .langle] text s c' = some (true, c') := seesAny_of_mark _ paren
  have allowed : allowModifiers (if isAsync then [.async] else []) [.async] text s c' = some ((), c') := by
    cases isAsync <;> rfl
  have kind : (if isAsync then [Keyword.async] else []).contains .async = isAsync := by
    cases isAsync <;> rfl
  unfold namedEntry
  rw [bind_of_eq star, bind_of_eq (show token text s c = some (c.token, c) from rfl),
    bind_of_eq keyed, bind_of_eq marks, if_pos (by decide), bind_of_eq allowed, kind, bind_node]

theorem mayFollowModifier_bareName {b : BareName} (named : c.cut.lexeme = b.lexeme) :
    mayFollowModifier text s c = some (true, c) := by
  have member : c.token.namesMember = true := by
    simp only [Token.namesMember, Cursor.token, named]
    cases b with
    | word name =>
      rw [BareName.lexeme, Lexeme.ofName]
      cases Keyword.ofSpelling? name.text.toList <;> rfl
    | numeral number => rfl
  change some (c.token.namesMember || _ || _ || _ || _, c) = _
  rw [member]
  rfl

theorem modifierRound_word {k : Keyword} (mem : k ∈ [Keyword.async, .readonly])
    (cut : c.cut = ⟨.keyword k, k.spelling, rest, false⟩) (inLine : c.next.afterBreak = false)
    (may : mayFollowModifier text s c.next = some (true, c.next)) :
    modifierRound false [] text s c = some (.again [k], c.next) := by
  have lexed : lexeme text s c = some (.keyword k, c) := by
    change some (c.cut.lexeme, c) = _
    rw [cut]
  have ahead : (mayFollowModifier >>= fun b => pure (!c.next.afterBreak && b)) text s c.next = some (true, c.next) := by
    rw [bind_of_eq may, inLine]
    rfl
  have taken : takeWord text s c = some ((), c.next) := by
    change (flawIf c.cut.isEscaped >>= fun _ => advance) text s c = _
    rw [cut]
    rfl
  simp only [List.mem_cons, List.not_mem_nil, or_false] at mem
  have here : isModifierHere k text s c = some (true, c) := by
    rcases mem with rfl | rfl <;> exact afterNext_of_eq ahead
  unfold modifierRound
  rw [bind_of_eq lexed]
  rcases mem with rfl | rfl
  all_goals
    change (isModifierHere _ >>= _) text s c = _
    rw [bind_of_eq here]
    change (takeWord >>= _) text s c = _
    rw [bind_of_eq taken]
    rfl

theorem modifiers_word {k : Keyword} (mem : k ∈ [Keyword.async, .readonly])
    (cut : c.cut = ⟨.keyword k, k.spelling, rest, false⟩) (inLine : c.next.afterBreak = false)
    (may : mayFollowModifier text s c.next = some (true, c.next)) (follows : FollowsName c.next.next)
    (bound : 2 ≤ s.bound) : modifiers false text s c = some ([k], c.next) := by
  have found : repeatFrom [] (modifierRound false) text s c = some ([k], c.next) := by
    obtain ⟨n, enough⟩ := Nat.exists_eq_add_of_le' bound
    change rounds (modifierRound false) s.bound [] text s c = _
    rw [enough, rounds, bind_of_eq (modifierRound_word mem cut inLine may)]
    change rounds (modifierRound false) (n + 1) [k] text s c.next = _
    rw [rounds, bind_of_eq (modifierRound_of_followsName follows [k])]
    rfl
  rw [modifiers, bind_of_eq found]
  rfl

theorem objectEntry_of_modifiers {found : List Keyword} {c' : Cursor text}
    (noSpread : sees .ellipsis text s c = some (false, c)) (modified : modifiers false text s c = some (found, c'))
    (follows : FollowsName c'.next) (g : Grammar) :
    objectEntry g text s c = namedEntry g c.place.offset found text s c' := by
  unfold objectEntry
  rw [bind_of_eq (show here text s c = some (c.place.offset, c) from rfl), bind_of_eq noSpread,
    if_neg (by decide), bind_of_eq modified, bind_of_eq (accessorWord_of_followsName follows .get),
    if_neg (by decide), bind_of_eq (accessorWord_of_followsName follows .set_), if_neg (by decide)]

private theorem cut_colon (reaches : c.Reaches (':' :: ' ' :: rest)) :
    c.cut = ⟨.mark .colon, [':'], ' ' :: rest, false⟩ :=
  reaches.cut_of_startsToken ⟨':', ' ' :: rest, rfl, rfl⟩

private theorem cut_lparen (reaches : c.Reaches ('(' :: rest)) : c.cut = ⟨.mark .lparen, ['('], rest, false⟩ :=
  reaches.cut_of_startsToken ⟨'(', rest, rfl, rfl⟩

/-- What stands behind the name of an entry: a colon and a value, or the parameters and the body of a
function. -/
inductive EntryShape
  | value
  | function (isAsync : Bool)
  deriving DecidableEq, Repr

namespace EntryShape

def form : EntryShape → EntryForm
  | .value => .plain
  | .function _ => .method

/-- How what stands behind the name is read. -/
def rule (g : Grammar) : EntryShape → Parse Tree
  | .value => g (.assignment true)
  | .function isAsync => methodFunction g isAsync false

def kind? : EntryShape → Option Kind
  | .value => none
  | .function isAsync => some (.functionNode isAsync false)

def lead : EntryShape → String
  | .function true => "async "
  | _ => ""

/-- The texts that may stand behind a name. -/
def openings : EntryShape → List String
  | .value => [": "]
  | .function _ => [" (", "("]

def opened : EntryShape → List Char
  | .value => []
  | .function _ => ['(']

theorem kind_of_rule {shape : EntryShape} {g : Grammar} {r : Tree × Cursor text} {k : Kind}
    (kind : shape.kind? = some k) (read : shape.rule g text s c = some r) : r.1.kind = k := by
  cases shape with
  | value => cases kind
  | function isAsync =>
    cases kind
    have inner : methodFunction g isAsync false text s c = some r := read
    rw [methodFunction, bind_of_eq (show here text s c = some (c.place.offset, c) from rfl), bind_apply] at inner
    obtain ⟨⟨⟨parts, hasBody⟩, c₁⟩, -, behind⟩ := Option.bind_eq_some_iff.mp inner
    cases hasBody with
    | true =>
      cases behind
      rfl
    | false =>
      change (semicolon >>= fun _ => node c.place.offset (.functionNode isAsync false) parts) text s c₁ = some r
        at behind
      rw [bind_apply] at behind
      obtain ⟨_, -, made⟩ := Option.bind_eq_some_iff.mp behind
      cases made
      rfl

end EntryShape

/-- Wherever a text stands, an entry of an object is read off its front: it has a bare name without quotes
and brackets, and what stands behind the name is read from the rest of the text. -/
def ReadsAs (b : BareName) (shape : EntryShape) (cs tail : List Char) : Prop :=
  ∀ (text rest : List Char) (s : Setting) (c : Cursor text) (g : Grammar),
    2 ≤ s.bound → c.Reaches (cs ++ rest) →
    ∃ (c' : Cursor text) (span : Span), c'.Reaches (tail ++ rest) ∧ c'.isFlawed = c.isFlawed ∧
      (objectEntry g text s c = (shape.rule g text s c').map fun r =>
        (.node (.entry shape.form) ⟨c.place.offset, r.2.lastStop⟩ [b.tree span, r.1], r.2)) ∧
      ∀ r k, shape.kind? = some k → shape.rule g text s c' = some r → r.1.kind = k

theorem readsAs_value (b : BareName) (indent : Nat) (tail : List Char) :
    ReadsAs b .value (List.replicate indent ' ' ++ (b.text.toList ++ (": ".toList ++ tail))) tail := by
  intro text rest s c g bound reaches
  rw [List.append_assoc, Cursor.reaches_indented, List.append_assoc, List.append_assoc] at reaches
  obtain ⟨named, behind⟩ := reaches.behind_bareName ⟨':', by decide, rfl⟩
  have colon := cut_colon behind
  have value : c.next.next.Reaches (tail ++ rest) := by
    have next := c.next.reaches_next
    rw [colon] at next
    exact (Cursor.reaches_indented 1).mp next
  have follows : FollowsName c.next := by simp [FollowsName, colon]
  have noSpread : sees .ellipsis text s c = some (false, c) := by rw [sees_eq, named, b.lexeme_ne_mark]
  refine ⟨c.next.next, ⟨c.place.offset, c.next.lastStop⟩, value, rfl, ?_, fun _ _ => EntryShape.kind_of_rule⟩
  rw [objectEntry_of_modifiers noSpread (modifiers_of_followsName follows (by omega)) follows]
  exact namedEntry_value (eat_bareName named .star) (key_bareName named g) (by rw [colon]) c.place.offset

theorem readsAs_function (b : BareName) (isAsync : Bool) (indent gap : Nat) (tail : List Char) :
    ReadsAs b (.function isAsync) (List.replicate indent ' ' ++ ((EntryShape.function isAsync).lead.toList ++
      (b.text.toList ++ (List.replicate gap ' ' ++ '(' :: tail)))) ('(' :: tail) := by
  intro text rest s c g bound reaches
  rw [List.append_assoc, Cursor.reaches_indented, List.append_assoc, List.append_assoc, List.append_assoc] at reaches
  have closes : BareName.Closes (List.replicate gap ' ' ++ ('(' :: tail ++ rest)) := by
    cases gap with
    | zero => exact ⟨'(', by decide, rfl⟩
    | succ gap => exact ⟨' ', by decide, rfl⟩
  cases isAsync with
  | false =>
    obtain ⟨named, behind⟩ := reaches.behind_bareName closes
    have paren := (Cursor.reaches_indented gap).mp behind
    have sees := cut_lparen paren
    have follows : FollowsName c.next := by simp [FollowsName, sees]
    have noSpread : Parse.sees .ellipsis text s c = some (false, c) := by rw [sees_eq, named, b.lexeme_ne_mark]
    refine ⟨c.next, ⟨c.place.offset, c.next.lastStop⟩, paren, rfl, ?_, fun _ _ => EntryShape.kind_of_rule⟩
    rw [objectEntry_of_modifiers noSpread (modifiers_of_followsName follows (by omega)) follows]
    exact namedEntry_function (eat_bareName named .star) (key_bareName named g) (by rw [sees]) false
      c.place.offset
  | true =>
    have async : c.cut = ⟨.keyword .async, "async".toList,
        ' ' :: (b.text.toList ++ (List.replicate gap ' ' ++ ('(' :: tail ++ rest))), false⟩ :=
      Cursor.Reaches.cut_bareName (b := .word ⟨"async", by decide⟩) reaches ⟨' ', by decide, rfl⟩
    have next : c.next.Reaches (b.text.toList ++ (List.replicate gap ' ' ++ ('(' :: tail ++ rest))) := by
      have next := c.reaches_next
      rw [async] at next
      exact (Cursor.reaches_indented 1).mp next
    have inLine : c.next.afterBreak = false := Cursor.afterBreak_next_of_blank (by rw [async]) (b.startsToken_append _)
    obtain ⟨named, behind⟩ := next.behind_bareName closes
    have paren := (Cursor.reaches_indented gap).mp behind
    have sees := cut_lparen paren
    have follows : FollowsName c.next.next := by simp [FollowsName, sees]
    have noSpread : Parse.sees .ellipsis text s c = some (false, c) := by
      rw [sees_eq, async]
      rfl
    refine ⟨c.next.next, ⟨c.next.place.offset, c.next.next.lastStop⟩, paren, rfl, ?_, fun _ _ =>
      EntryShape.kind_of_rule⟩
    rw [objectEntry_of_modifiers noSpread (modifiers_word (by decide) async inLine
      (mayFollowModifier_bareName named) follows bound) follows]
    exact namedEntry_function (eat_bareName named .star) (key_bareName named g) (by rw [sees]) true
      c.place.offset

end Grammar

end VueOptions.Script
