import VueOptions.Proofs.Script.EntryHeads
import VueOptions.Text.Quoted

/-!
Operands in place. A text in quotes is cut off as the string it stands for, and a comma, a closing bracket or
the end of the text closes the expression before it. What is read as a callable expression up to there is also
read as an operand, as an operation and as an assignment, without another token.
-/

set_option autoImplicit false

namespace VueOptions.Script

open Text

namespace Literal

theorem not_half (c : Char) : isHigh c.toNat = false ∧ isLow c.toNat = false := by
  have valid := c.valid
  simp only [UInt32.isValidChar, Nat.isValidChar] at valid
  have range : c.toNat < 55296 ∨ 57343 < c.toNat ∧ c.toNat < 1114112 := valid
  simp only [isHigh, isLow, Bool.and_eq_false_iff, decide_eq_false_iff_not]
  omega

theorem joinPairs_map_toNat (cs : List Char) : joinPairs (cs.map Char.toNat) = cs.map Char.toNat := by
  induction cs with
  | nil => rfl
  | cons c cs ih =>
    cases cs with
    | nil => rfl
    | cons d cs =>
      rw [List.map_cons, List.map_cons, joinPairs, (not_half c).1, Bool.false_and, if_neg (by decide)]
      rw [List.map_cons] at ih
      rw [ih]

theorem textOfUnits_map_toNat (cs : List Char) : textOfUnits (cs.map Char.toNat) = cs := by
  have whole : (cs.map Char.toNat).any (fun u => isHigh u || isLow u) = false := by
    rw [List.any_eq_false]
    intro u mem
    obtain ⟨c, -, rfl⟩ := List.mem_map.mp mem
    simp [not_half c]
  unfold textOfUnits
  simp only [joinPairs_map_toNat, whole, Bool.false_and, Bool.or_false]
  induction cs with
  | nil => rfl
  | cons c cs ih =>
    simp only [List.map_cons, List.any_cons, Bool.or_eq_false_iff] at whole
    simp only [List.map_cons, List.flatMap_cons, whole.1, Bool.or_self, Bool.false_eq_true, if_false,
      Char.ofNat_toNat, ih whole.2]
    rfl

theorem cook_quoteBody (cs : List Char) : cook true .plain (quoteBody cs) = some (cs.map Char.toNat) := by
  induction cs with
  | nil => rfl
  | cons c cs ih =>
    rw [quoteBody]
    split
    · next mark =>
      have escaped : cook true .escape (c :: quoteBody cs) = some (c.toNat :: cs.map Char.toNat) := by
        simp only [Bool.or_eq_true, decide_eq_true_eq] at mark
        rcases mark with rfl | rfl <;> simp [cook, ih]
      simpa [cook] using escaped
    · next plain =>
      simp only [Bool.or_eq_true, decide_eq_true_eq, not_or] at plain
      simp [cook, plain.1, ih]

theorem value?_quoteBody (cs : List Char) : value? (quoteBody cs) = some cs := by
  rw [value?, cook_quoteBody, Option.map_some, textOfUnits_map_toNat]

theorem scanString_quoteBody {cs : List Char} (inLine : ∀ c ∈ cs, c ≠ '\n' ∧ c ≠ '\r') (rest : List Char) :
    scanString '\'' false (quoteBody cs ++ '\'' :: rest) = some (quoteBody cs, rest) := by
  induction cs with
  | nil => rfl
  | cons c cs ih =>
    obtain ⟨⟨feed, back⟩, more⟩ := List.forall_mem_cons.mp inLine
    have tail := ih more
    rw [quoteBody]
    split
    · rw [List.cons_append, List.cons_append, scanString, if_neg (by decide), if_pos rfl,
        scanString.eq_3 _ _ _ (fun _ same => absurd same back), tail]
      rfl
    · next plain =>
      simp only [Bool.or_eq_true, decide_eq_true_eq, not_or] at plain
      simp [scanString, plain.1, plain.2, feed, back, tail, cons]

end Literal

theorem startsToken_singleQuoted (value : String) (rest : List Char) :
    StartsToken ((singleQuoted value).toList ++ rest) :=
  ⟨'\'', quoteBody value.toList ++ ['\''] ++ rest, by simp [singleQuoted], rfl⟩

theorem Lexeme.cut_singleQuoted {value : String} (inLine : ∀ c ∈ value.toList, c ≠ '\n' ∧ c ≠ '\r')
    (rest : List Char) :
    cut ((singleQuoted value).toList ++ rest) = ⟨.string value, (singleQuoted value).toList, rest, false⟩ := by
  have scanned := Literal.scanString_quoteBody inLine rest
  have known : cutKnown? '\'' (quoteBody value.toList ++ '\'' :: rest) =
      some ⟨.string value, '\'' :: quoteBody value.toList ++ ['\''], rest, false⟩ := by
    simp [cutKnown?, cutString, scanned, Literal.value?_quoteBody]
  have whole : (singleQuoted value).toList ++ rest = '\'' :: (quoteBody value.toList ++ '\'' :: rest) := by
    simp [singleQuoted]
  rw [whole, cut, known]
  simp [singleQuoted]

/-- A text whose first token closes the expression before it, behind blanks. -/
inductive Closing : Lexeme → List Char → Prop
  | comma (more : List Char) : Closing (.mark .comma) (',' :: more)
  | rparen (more : List Char) : Closing (.mark .rparen) (')' :: more)
  | rbrack (more : List Char) : Closing (.mark .rbrack) (']' :: more)
  | rbrace (more : List Char) : Closing (.mark .rbrace) ('\x7d' :: more)
  | semicolon (more : List Char) : Closing (.mark .semicolon) (';' :: more)
  | endOfText : Closing .endOfText []
  | blank {l : Lexeme} {b : Char} {rest : List Char} (blank : isBlank b = true) (closing : Closing l rest) :
    Closing l (b :: rest)

namespace Cursor

variable {text cs rest : List Char} {c : Cursor text}

theorem skip_blank {b : Char} (blank : isBlank b = true) (cs : List Char) :
    (Trivia.skip .between 0 false (b :: cs)).rest = (Trivia.skip .between 0 false cs).rest ∧
      (Trivia.skip .between 0 false (b :: cs)).isOpen = (Trivia.skip .between 0 false cs).isOpen := by
  have past : Trivia.Mode.past? b cs.head? .between = some .between := by
    rw [Trivia.Mode.past?, isLineBreak_or_isSpace blank, if_pos rfl]
  rw [Trivia.skip, past]
  exact skip_rest_eq .between (0 + b.utf8Size) 0 (false || isLineBreak b) false cs

theorem reaches_blank {b : Char} (blank : isBlank b = true) : c.Reaches (b :: cs) ↔ c.Reaches cs :=
  reaches_congr (skip_blank blank cs).1 (skip_blank blank cs).2

theorem reaches_blanks {gap : List Char} (blank : ∀ b ∈ gap, isBlank b = true) :
    c.Reaches (gap ++ cs) ↔ c.Reaches cs := by
  induction gap with
  | nil => rfl
  | cons b gap ih =>
    obtain ⟨first, others⟩ := List.forall_mem_cons.mp blank
    rw [List.cons_append, reaches_blank first, ih others]

end Cursor

namespace Closing

variable {text rest : List Char} {c : Cursor text} {l : Lexeme}

def lexemes : List Lexeme :=
  [.mark .comma, .mark .rparen, .mark .rbrack, .mark .rbrace, .mark .semicolon, .endOfText]

theorem mem_lexemes (closing : Closing l rest) : l ∈ lexemes := by
  induction closing with
  | blank _ _ ih => exact ih
  | _ => decide

theorem blanks {gap : List Char} (blank : ∀ b ∈ gap, isBlank b = true) (closing : Closing l rest) :
    Closing l (gap ++ rest) := by
  induction gap with
  | nil => exact closing
  | cons b gap ih =>
    obtain ⟨first, others⟩ := List.forall_mem_cons.mp blank
    exact .blank first (ih others)

theorem lexeme_eq (closing : Closing l rest) (reaches : c.Reaches rest) : c.cut.lexeme = l := by
  induction closing with
  | comma more => rw [reaches.cut_of_startsToken ⟨',', more, rfl, rfl⟩]; rfl
  | rparen more => rw [reaches.cut_of_startsToken ⟨')', more, rfl, rfl⟩]; rfl
  | rbrack more => rw [reaches.cut_of_startsToken ⟨']', more, rfl, rfl⟩]; rfl
  | rbrace more => rw [reaches.cut_of_startsToken ⟨'\x7d', more, rfl, rfl⟩]; rfl
  | semicolon more => rw [reaches.cut_of_startsToken ⟨';', more, rfl, rfl⟩]; rfl
  | endOfText => rw [reaches.cut]; rfl
  | blank blank _ ih => exact ih ((Cursor.reaches_blank blank).mp reaches)

theorem apart (closing : Closing l rest) : Name.EndsName rest ∧ Literal.EndsNumber rest := by
  have stops (d : Char) (h : (!Name.isPart d && !(d == '\\') && !d.isDigit && !Name.isStart d && !(d == '.')) = true) :
      (Name.isPart d = false ∧ d ≠ '\\') ∧ d.isDigit = false ∧ Name.isStart d = false ∧ d ≠ '.' ∧ d ≠ '\\' := by
    simp only [Bool.and_eq_true, Bool.not_eq_true', beq_eq_false_iff_ne] at h
    exact ⟨⟨h.1.1.1.1, h.1.1.1.2⟩, h.1.1.2, h.1.2, h.2, h.1.1.1.2⟩
  suffices ∀ d ∈ rest.head?, (!Name.isPart d && !(d == '\\') && !d.isDigit && !Name.isStart d && !(d == '.')) =
    true from ⟨fun d head => (stops d (this d head)).1, fun d head => (stops d (this d head)).2⟩
  intro d head
  cases closing with
  | endOfText => cases head
  | blank blank _ =>
    obtain rfl := Option.some.inj head
    have solid : Solid fun d => Name.isPart d || d == '\\' || d.isDigit || Name.isStart d || d == '.' :=
      solid_of_blanks (by decide +kernel)
    have none := solid _ blank
    simpa using none
  | _ =>
    obtain rfl := Option.some.inj head
    decide

end Closing

namespace Parse

variable {α β : Type} {text : List Char} {s : Setting} {c : Cursor text}

theorem pure_apply (a : α) : (pure a : Parse α) text s c = some (a, c) := rfl

theorem read_apply : (read : Parse Setting) text s c = some (s, c) := rfl

theorem here_apply : here text s c = some (c.place.offset, c) := rfl

theorem token_apply : token text s c = some (c.token, c) := rfl

theorem lastStop_apply : lastStop text s c = some (c.lastStop, c) := rfl

theorem afterBreak_apply : afterBreak text s c = some (c.afterBreak, c) := rfl

theorem advance_apply : advance text s c = some ((), c.next) := rfl

theorem seesWord_apply (k : Keyword) : seesWord k text s c = some (c.cut.lexeme == .keyword k, c) := rfl

theorem eat_apply (m : Mark) :
    eat m text s c = if c.cut.lexeme == .mark m then some (true, c.next) else some (false, c) := by
  rw [eat, bind_of_eq (Grammar.sees_eq m)]
  cases c.cut.lexeme == .mark m <;> rfl

theorem expect_apply {m : Mark} (sees : c.cut.lexeme = .mark m) : expect m text s c = some ((), c.next) := by
  rw [expect, bind_of_eq (Grammar.sees_eq m), sees, beq_self_eq_true]
  rfl

theorem takeWord_apply (plain : c.cut.isEscaped = false) : takeWord text s c = some ((), c.next) := by
  change (flawIf c.cut.isEscaped >>= fun _ => advance) text s c = _
  rw [plain]
  rfl

theorem expectWord_apply {k : Keyword} (sees : c.cut.lexeme = .keyword k) (plain : c.cut.isEscaped = false) :
    expectWord k text s c = some ((), c.next) := by
  rw [expectWord, bind_of_eq (seesWord_apply k), sees, beq_self_eq_true, if_pos rfl, takeWord_apply plain]

theorem exists_afterNext (p : Parse Bool) : ∃ b, afterNext p text s c = some (b, c) := by
  unfold afterNext foretells
  split
  · exact ⟨_, rfl⟩
  · exact ⟨_, rfl⟩

theorem seesAny_apply (ms : List Mark) :
    seesAny ms text s c = some ((match c.cut.lexeme with | .mark m => ms.contains m | _ => false), c) := by
  rw [seesAny, bind_of_eq (Grammar.lexeme_eq (c := c))]
  cases c.cut.lexeme <;> rfl

end Parse

namespace Grammar

open Parse

variable {text : List Char} {s : Setting} {c : Cursor text}

theorem accessRound_stops (g : Grammar) (start : Nat) (t : Tree)
    (ends : c.cut.lexeme ∈ .mark .lparen :: Closing.lexemes) :
    accessRound g start t text s c = some (.stop t, c) := by
  simp only [Closing.lexemes, List.mem_cons, List.not_mem_nil, or_false] at ends
  unfold accessRound
  rcases ends with ends | ends | ends | ends | ends | ends | ends <;>
    simp [bind_apply, seesOptionalAccess, sees_eq, ends, pure_apply, eat_apply, read_apply, seesTemplate, lexeme_eq,
      afterBreak_apply, expressionTypeArguments?, seesAny_apply]

end Grammar


/-- Lexemes that are no operator before an operand, and that open no parameters. -/
def Lexeme.isPlain : Lexeme → Bool
  | .mark m => !([Mark.plus, .minus, .tilde, .bang, .plusPlus, .minusMinus, .langle, .lparen].contains m)
  | .keyword k => !([Keyword.delete, .typeof, .void, .await, .yield].contains k)
  | .privateName _ => false
  | _ => true

namespace Grammar

open Parse

variable {text : List Char} {s : Setting} {c : Cursor text} {g : Grammar}

structure OpensOperand (c : Cursor text) : Prop where
  plain : c.cut.lexeme.isPlain = true
  async : c.cut.lexeme = .keyword .async → c.next.cut.lexeme ∈ Closing.lexemes

theorem opensOperand_of_ne (plain : c.cut.lexeme.isPlain = true) (other : c.cut.lexeme ≠ .keyword .async) :
    OpensOperand c :=
  ⟨plain, fun async => absurd async other⟩

theorem not_seesWord {k : Keyword} (plain : c.cut.lexeme.isPlain = true) (other : (Lexeme.keyword k).isPlain = false) :
    seesWord k text s c = some (false, c) := by
  rw [seesWord_apply, beq_eq_false_iff_ne.mpr]
  intro same
  rw [same, other] at plain
  cases plain

def ReadsUpToClosing (rule : Parse Tree) (text : List Char) (s : Setting) (c : Cursor text) : Prop :=
  ∀ t c', rule text s c = some (t, c') → c'.cut.lexeme ∈ Closing.lexemes

theorem update_eq_leftHand (plain : c.cut.lexeme.isPlain = true) (closed : ReadsUpToClosing (g .leftHand) text s c) :
    update g text s c = g .leftHand text s c := by
  rw [update, bind_of_eq here_apply, bind_of_eq (lexeme_eq (c := c))]
  change (fun p : Parse Tree => p text s c) _ = _
  split
  · next same => rw [same] at plain; cases plain
  · next same => rw [same] at plain; cases plain
  · dsimp only
    cases read : g .leftHand text s c with
    | none => rw [bind_apply, read]; rfl
    | some r =>
      have closes := closed r.1 r.2 read
      have marks : seesAny [.plusPlus, .minusMinus] text s r.2 = some (false, r.2) := by
        rw [seesAny_apply]
        simp only [Closing.lexemes, List.mem_cons, List.not_mem_nil, or_false] at closes
        rcases closes with same | same | same | same | same | same <;> rw [same] <;> rfl
      rw [bind_of_eq read, bind_of_eq marks, bind_of_eq afterBreak_apply]
      rfl

theorem unary_eq_leftHand (plain : c.cut.lexeme.isPlain = true) (closed : ReadsUpToClosing (g .leftHand) text s c) :
    unary g text s c = g .leftHand text s c := by
  have await : seesAwait text s c = some (false, c) := by
    rw [seesAwait, bind_of_eq (not_seesWord plain rfl)]
    rfl
  rw [unary, bind_of_eq here_apply, bind_of_eq (lexeme_eq (c := c))]
  change (fun p : Parse Tree => p text s c) _ = _
  split
  case h_9 =>
    dsimp only
    rw [bind_of_eq await]
    exact update_eq_leftHand plain closed
  all_goals
    next same => rw [same] at plain; cases plain

theorem bindingHere?_of_closes (closes : c.cut.lexeme ∈ Closing.lexemes) : bindingHere? text s c = some (none, c) := by
  simp only [Closing.lexemes, List.mem_cons, List.not_mem_nil, or_false] at closes
  have angle : joinAngle text s c = some ((), c) := by
    rw [joinAngle, bind_of_eq (sees_eq .rangle)]
    rcases closes with same | same | same | same | same | same <;> rw [same] <;> rfl
  rw [bindingHere?, bind_of_eq angle, bind_of_eq (lexeme_eq (c := c))]
  rcases closes with same | same | same | same | same | same <;> rw [same] <;> rfl

theorem operation_eq_unary (floor : Nat) (bound : 1 ≤ s.bound) (plain : c.cut.lexeme.isPlain = true)
    (closed : ReadsUpToClosing (g .unary) text s c) : operation g floor text s c = g .unary text s c := by
  obtain ⟨k, enough⟩ := Nat.exists_eq_add_of_le' bound
  rw [operation, bind_of_eq here_apply, bind_of_eq (lexeme_eq (c := c))]
  change (fun p : Parse Tree => p text s c) _ = _
  split
  · next same => rw [same] at plain; cases plain
  · dsimp only
    cases read : g .unary text s c with
    | none => rw [bind_apply, read]; rfl
    | some r =>
      rw [bind_of_eq read, repeatFrom, bind_of_eq read_apply, enough, rounds, bind_apply,
        bind_of_eq (bindingHere?_of_closes (closed r.1 r.2 read))]
      rfl

theorem OpensOperand.arrowChance_eq (opens : OpensOperand c) : arrowChance text s c = some (.never, c) := by
  have plain := opens.plain
  rw [arrowChance, bind_of_eq (lexeme_eq (c := c))]
  change (fun p : Parse Chance => p text s c) _ = _
  split
  · next same => rw [same] at plain; cases plain
  · next same => rw [same] at plain; cases plain
  · next same =>
    have none : seesAny [.lparen, .langle] text s c.next = some (false, c.next) := by
      have closes := opens.async same
      simp only [Closing.lexemes, List.mem_cons, List.not_mem_nil, or_false] at closes
      rw [seesAny_apply]
      rcases closes with same | same | same | same | same | same <;> rw [same] <;> rfl
    change Option.map _ ((advance >>= _) text s c) = _
    rw [bind_of_eq advance_apply, bind_of_eq afterBreak_apply]
    cases c.next.afterBreak with
    | true => rfl
    | false =>
      change Option.map _ ((seesAny [.lparen, .langle] >>= _) text s c.next) = _
      rw [bind_of_eq none]
      rfl
  · rfl

theorem OpensOperand.seesAsyncArrow_eq (opens : OpensOperand c) : seesAsyncArrow text s c = some (false, c) := by
  rw [seesAsyncArrow, bind_of_eq (seesWord_apply .async)]
  by_cases async : c.cut.lexeme = .keyword .async
  · have closes := opens.async async
    have names : c.next.token.namesBinding = false := by
      simp only [Closing.lexemes, List.mem_cons, List.not_mem_nil, or_false] at closes
      unfold Token.namesBinding Cursor.token
      rcases closes with same | same | same | same | same | same <;> rw [same]
    rw [async, beq_self_eq_true, if_pos rfl]
    apply afterNext_of_eq
    rw [bind_of_eq afterBreak_apply, bind_of_eq token_apply, names, Bool.not_false, Bool.or_true]
    rfl
  · rw [beq_eq_false_iff_ne.mpr async]
    rfl

theorem assignment_eq_operation (b : Bool) (opens : OpensOperand c)
    (closed : ReadsUpToClosing (g (.operation 0)) text s c) :
    assignment g b text s c = g (.operation 0) text s c := by
  have yield : seesYield text s c = some (false, c) := by
    rw [seesYield, bind_of_eq (not_seesWord opens.plain rfl)]
    rfl
  rw [assignment, bind_of_eq yield, if_neg (by decide), bind_of_eq opens.arrowChance_eq]
  change (here >>= _) text s c = _
  rw [bind_of_eq here_apply, bind_of_eq opens.seesAsyncArrow_eq, if_neg (by decide)]
  cases read : g (.operation 0) text s c with
  | none => rw [bind_apply, read]; rfl
  | some r =>
    have closes := closed r.1 r.2 read
    simp only [Closing.lexemes, List.mem_cons, List.not_mem_nil, or_false] at closes
    rw [bind_of_eq read, bind_of_eq (lexeme_eq (c := r.2))]
    change (fun p : Parse Tree => p text s r.2) _ = _
    split
    · next arrow =>
      rw [arrow] at closes
      simp at closes
    · next m same _ =>
      rw [same] at closes
      have marks : m.isAssignment = false ∧ (m == .question) = false := by
        simp only [Lexeme.mark.injEq, reduceCtorEq, or_false] at closes
        rcases closes with rfl | rfl | rfl | rfl | rfl <;> decide
      dsimp only
      rw [if_neg (by simp [marks.1]), if_neg (by simp [marks.2])]
      rfl
    · rfl

theorem upTo_assignment_eq (n : Nat) (b : Bool) (bound : 1 ≤ s.bound) (opens : OpensOperand c)
    (closed : ReadsUpToClosing (upTo n .leftHand) text s c) :
    upTo (n + 3) (.assignment b) text s c = upTo n .leftHand text s c := by
  have unary : upTo (n + 1) .unary text s c = upTo n .leftHand text s c := unary_eq_leftHand opens.plain closed
  have operation : upTo (n + 2) (.operation 0) text s c = upTo n .leftHand text s c :=
    (operation_eq_unary 0 bound opens.plain fun t c' read => closed t c' (unary ▸ read)).trans unary
  exact (assignment_eq_operation b opens fun t c' read => closed t c' (operation ▸ read)).trans operation

theorem leftHand_rejects (none : c.cut.lexeme ∈ .mark .ellipsis :: Closing.lexemes) (g : Grammar) :
    leftHand g text s c = Option.none := by
  simp only [Closing.lexemes, List.mem_cons, List.not_mem_nil, or_false] at none
  have names : c.token.namesReference s = false := by
    unfold Token.namesReference Cursor.token
    rcases none with same | same | same | same | same | same | same <;> rw [same]
  have reference : identifierReference text s c = Option.none := by
    rw [identifierReference, bind_of_eq token_apply, bind_of_eq read_apply, names]
    rfl
  have first : primary g text s c = Option.none := by
    rw [primary, bind_of_eq (lexeme_eq (c := c))]
    rcases none with same | same | same | same | same | same | same <;> rw [same] <;> exact reference
  have access : memberAccess g text s c = Option.none := by
    rw [memberAccess, bind_of_eq here_apply, bind_apply, first]
    rfl
  rw [leftHand, bind_of_eq here_apply, bind_apply, access]
  rfl

theorem upTo_assignment_rejects (none : c.cut.lexeme ∈ .mark .ellipsis :: Closing.lexemes) (bound : 1 ≤ s.bound)
    (n : Nat) (b : Bool) : upTo n (.assignment b) text s c = Option.none := by
  have opens : OpensOperand c := by
    have all : ∀ l ∈ .mark .ellipsis :: Closing.lexemes, l.isPlain = true ∧ l ≠ .keyword .async := by decide
    exact opensOperand_of_ne (all _ none).1 (all _ none).2
  have left (n : Nat) : upTo n .leftHand text s c = Option.none := by
    cases n with
    | zero => rfl
    | succ n => exact leftHand_rejects none (upTo n)
  have closed {rule : Parse Tree} (rejects : rule text s c = Option.none) : ReadsUpToClosing rule text s c := by
    intro t c' read
    rw [rejects] at read
    cases read
  match n with
  | 0 => rfl
  | 1 => exact (assignment_eq_operation b opens (closed rfl)).trans rfl
  | 2 =>
    have operation : upTo 1 (.operation 0) text s c = Option.none :=
      (operation_eq_unary 0 bound opens.plain (closed rfl)).trans rfl
    exact (assignment_eq_operation b opens (closed operation)).trans operation
  | n + 3 => rw [upTo_assignment_eq n b bound opens (closed (left n)), left n]

end Grammar

end VueOptions.Script
