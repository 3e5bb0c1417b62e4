import VueOptions.Proofs.Script.TypeTexts

/-!
Functions in place. A function without parameters is read behind the key of an entry if its body is empty or one
statement that is read there; its answer may have a type of one word. An expression that stands alone is also the
value that a body returns.
-/

set_option autoImplicit false

namespace VueOptions.Script

open Text

/-- A text that a cursor goes past to the next token. -/
def IsTrivia (gap : List Char) : Prop :=
  ∀ (text : List Char) (c : Cursor text) (cs : List Char), c.Reaches (gap ++ cs) → c.Reaches cs

theorem isTrivia_of_blank {gap : List Char} (blank : ∀ b ∈ gap, isBlank b = true) : IsTrivia gap :=
  fun _ _ _ reaches => (Cursor.reaches_blanks blank).mp reaches

theorem IsTrivia.append {gap more : List Char} (first : IsTrivia gap) (second : IsTrivia more) :
    IsTrivia (gap ++ more) :=
  fun text c cs reaches => second text c cs (first text c (more ++ cs) (by rwa [List.append_assoc] at reaches))

private theorem skip_line (line : List Char) (inLine : ∀ c ∈ line, isLineBreak c = false) (n : Nat) (b : Bool)
    (cs : List Char) :
    ∃ m a, Trivia.skip .line n b (line ++ '\n' :: cs) = Trivia.skip .between m a cs := by
  induction line generalizing n b with
  | nil => exact ⟨_, _, rfl⟩
  | cons c line ih =>
    obtain ⟨first, others⟩ := List.forall_mem_cons.mp inLine
    obtain ⟨m, a, rest⟩ := ih others (n + c.utf8Size) (b || isLineBreak c)
    refine ⟨m, a, ?_⟩
    rw [List.cons_append, Trivia.skip]
    rw [first] at rest
    simpa only [Trivia.Mode.past?, first, Bool.false_eq_true, if_false] using rest

theorem isTrivia_comment (line : List Char) (inLine : ∀ c ∈ line, isLineBreak c = false) :
    IsTrivia ('/' :: '/' :: (line ++ ['\n'])) := by
  intro text c cs reaches
  have inside : ∀ c ∈ '/' :: line, isLineBreak c = false := List.forall_mem_cons.mpr ⟨by decide, inLine⟩
  obtain ⟨m, a, rest⟩ := skip_line ('/' :: line) inside 1 false cs
  have skipped : Trivia.skip .between 0 false ('/' :: '/' :: (line ++ ['\n']) ++ cs) = Trivia.skip .between m a cs := by
    rw [← rest, List.cons_append, List.cons_append, List.append_assoc, List.cons_append]
    rfl
  obtain ⟨same, isOpen⟩ := Cursor.skip_rest_eq .between m 0 a false cs
  exact (Cursor.reaches_congr (by rw [skipped, same]) (by rw [skipped, isOpen])).mp reaches

namespace Grammar

open Parse

variable {text rest : List Char} {s : Setting} {c c' : Cursor text} {g : Grammar}

def bodySetting (s : Setting) : Setting :=
  { s with inFunction := true, allowsIn := true, inDecorator := false, refusesConditional := false }

/-- Wherever the phrase stands at the end of the body of a function, it is one statement. -/
def EndsBody (p : Phrase) : Prop :=
  ∀ (text : List Char) (s : Setting) (n : Nat), p.text.length < s.bound →
    goalsPerCharacter * (p.text.length + 1) ≤ n → ReadsIn bodyClosers (upTo n (.statement false)) text (bodySetting s) p

theorem IsStatement.endsBody {p : Phrase} (statement : IsStatement p) : EndsBody p :=
  fun text s n room goals => statement text (bodySetting s) n room goals

theorem statement_rejects (ends : c.cut.lexeme ∈ bodyClosers) (bound : 1 ≤ s.bound) (n : Nat) :
    upTo n (.statement false) text s c = none := by
  cases n with
  | zero => rfl
  | succ n =>
    have whole : upTo n .expression text s c = none := by
      cases n with
      | zero => rfl
      | succ n =>
        have first : upTo n (.assignment true) text s c = none := by
          refine upTo_assignment_rejects (List.mem_cons_of_mem _ ?_) bound n true
          simp only [bodyClosers, List.mem_cons, List.not_mem_nil, or_false] at ends
          rcases ends with same | same <;> rw [same] <;> decide
        change expression (upTo n) text s c = none
        rw [expression, bind_of_eq here_apply, bind_apply, first]
        rfl
    have rejected : expressionStatement (upTo n) text s c = none := by
      rw [expressionStatement, bind_of_eq here_apply, bind_apply, whole]
      rfl
    change statement (upTo n) false text s c = none
    rw [statement, bind_of_eq here_apply, bind_of_eq (lexeme_eq (c := c))]
    simp only [bodyClosers, List.mem_cons, List.not_mem_nil, or_false] at ends
    rcases ends with same | same <;> rw [same] <;> exact rejected

theorem endsBody_return {e : Phrase} (alone : Alone oneExpression e)
    (starts : ∀ rest, StartsToken (e.text ++ rest)) :
    EndsBody ⟨"return ".toList ++ e.text, .node .returnStatement [e.shape]⟩ := by
  intro text s n room goals c rest l mem closing reaches
  have length : ("return ".toList ++ e.text).length = e.text.length + 7 := by simp
  simp only [length] at room goals
  obtain ⟨m, rfl⟩ : ∃ m, n = m + 2 := ⟨n - 2, by unfold goalsPerCharacter at goals; omega⟩
  have split : "return ".toList ++ e.text ++ rest = "return".toList ++ (' ' :: (e.text ++ rest)) := by simp
  rw [split] at reaches
  obtain ⟨cut, word⟩ := reaches.passes_word (by decide) (by rintro d ⟨⟩; decide)
  have behind := word.blank (by decide)
  obtain ⟨t, c', read, shape, passes⟩ := alone text (bodySetting s) m (show _ < s.bound by omega)
    (by unfold goalsPerCharacter at goals ⊢; omega) c.next rest l closing.mem_lexemes closing behind.reaches
  have sees : c'.cut.lexeme = l := closing.lexeme_eq passes.reaches
  have apart : ∀ l ∈ bodyClosers, l ≠ .mark .comma ∧ l ≠ .mark .semicolon := by decide
  have whole := expression_single read (by rw [sees]; exact (apart l mem).1)
  have ended : semicolon text (bodySetting s) c' = some ((), c') :=
    semicolon_free (.inr (by rw [sees]; exact mem)) (by rw [sees]; exact (apart l mem).2)
  have inLine : c.next.afterBreak = false := Cursor.afterBreak_next_of_blank (by rw [cut]) (starts rest)
  have goesOn : mayEndHere text (bodySetting s) c.next = some (false, c.next) := by
    have open' : c.next.cut.lexeme ∉ Closing.lexemes := by
      intro closes
      have rejected := upTo_assignment_rejects (s := bodySetting s) (List.mem_cons_of_mem _ closes)
        (show 1 ≤ s.bound by omega) m true
      rw [show upTo m (.assignment true) text (bodySetting s) c.next = some (t, c') from read] at rejected
      cases rejected
    have other (l : Lexeme) (closes : l ∈ Closing.lexemes) : (c.next.cut.lexeme == l) = false :=
      beq_eq_false_iff_ne.mpr fun same => open' (same ▸ closes)
    change some (c.next.afterBreak || c.next.cut.lexeme == .mark .rbrace || c.next.cut.lexeme == .endOfText
      || c.next.cut.lexeme == .mark .semicolon, c.next) = _
    rw [inLine, other _ (by decide), other _ (by decide), other _ (by decide)]
    rfl
  have value : within (fun s => { s with allowsIn := true }) (upTo (m + 1) .expression) text (bodySetting s) c.next =
      some (t, c') := whole
  refine ⟨.node .returnStatement ⟨c.place.offset, c'.lastStop⟩ [t], c', ?_, ?_, behind.trans passes⟩
  · change statement (upTo (m + 1)) false text (bodySetting s) c = _
    rw [statement, bind_of_eq here_apply, bind_of_eq (lexeme_eq (c := c)), cut]
    change returnStatement (upTo (m + 1)) text (bodySetting s) c = _
    rw [returnStatement, bind_of_eq here_apply, bind_of_eq read_apply]
    change (takeWord >>= _) text (bodySetting s) c = _
    rw [bind_of_eq (takeWord_apply (by rw [cut])), bind_of_eq goesOn, if_neg (by decide), bind_of_eq value]
    change (semicolon >>= _) text (bodySetting s) c' = _
    rw [bind_of_eq ended]
    rfl
  · rw [Tree.shape, Tree.shapeList, shape]
    rfl

structure Body where
  lead : List Char
  statement : Option Phrase
  gap : List Char

namespace Body

def inside (b : Body) : List Char := b.lead ++ ((b.statement.map Phrase.text).getD [] ++ b.gap)

def shape (b : Body) : Shape := .node .body (b.statement.toList.map Phrase.shape)

structure IsRead (b : Body) : Prop where
  lead : IsTrivia b.lead
  statement : ∀ p ∈ b.statement, EndsBody p ∧ isDirective p.shape = false
  gap : ∀ c ∈ b.gap, isBlank c = true

end Body

theorem itemsUntil_body {b : Body} {n : Nat} (isRead : b.IsRead) (room : b.inside.length + 1 < s.bound)
    (goals : goalsPerCharacter * (b.inside.length + 1) ≤ n) (reaches : c.Reaches (b.inside ++ '\x7d' :: rest)) :
    ∃ ts c', itemsUntil .rbrace (upTo n (.statement false)) text (bodySetting s) c = some (ts, c') ∧
      markDirectives ts = ts ∧ ts.map Tree.shape = b.statement.toList.map Phrase.shape ∧
      c.Passes c' ('\x7d' :: rest) := by
  obtain ⟨lead, statement, gap⟩ := b
  have enough : 1 ≤ (bodySetting s).bound := show 1 ≤ s.bound by omega
  have closing : Closing (.mark .rbrace) (gap ++ '\x7d' :: rest) := .blanks isRead.gap (.rbrace rest)
  simp only [Body.inside, List.append_assoc] at reaches
  have start := isRead.lead text c _ reaches
  have stops {c : Cursor text} (here : c.Reaches (gap ++ '\x7d' :: rest)) := closing.lexeme_eq here
  cases statement with
  | none =>
    obtain ⟨k, bound⟩ := Nat.exists_eq_add_of_le' enough
    refine ⟨[], c, itemsUntil_of_rounds ?_, rfl, rfl, .refl ((Cursor.reaches_blanks isRead.gap).mp start)⟩
    rw [bound, rounds, bind_of_eq (itemRound_end (stops start) _ _)]
    rfl
  | some p =>
    obtain ⟨reads, plain⟩ := isRead.statement p rfl
    have part : p.text.length ≤ (Body.inside ⟨lead, some p, gap⟩).length := by
      simp only [Body.inside, Option.map_some, Option.getD_some, List.length_append]
      omega
    obtain ⟨k, bound⟩ : ∃ k, (bodySetting s).bound = k + 1 + 1 := ⟨s.bound - 2, show s.bound = _ by omega⟩
    obtain ⟨t, c', read, shape, passes⟩ := reads text s n (by omega) (by unfold goalsPerCharacter at goals ⊢; omega)
      c _ _ (by decide) closing start
    have open' : c.cut.lexeme ∉ bodyClosers := by
      intro closes
      rw [statement_rejects closes enough n] at read
      cases read
    have round : itemRound .rbrace (upTo n (.statement false)) [] text (bodySetting s) c = some (.again [t], c') :=
      itemRound_item (fun same => open' (by rw [same]; decide)) (fun same => open' (by rw [same]; decide)) read []
    refine ⟨[t], c', itemsUntil_of_rounds ?_, markDirectives_cons (by rw [shape]; exact plain) [],
      by simp [shape], passes.blanks isRead.gap⟩
    rw [bound, rounds, bind_of_eq round]
    change rounds _ (k + 1) [t] text (bodySetting s) c' = _
    rw [rounds, bind_of_eq (itemRound_end (stops passes.reaches) _ _)]
    rfl

structure PlainFunction where
  isAsync : Bool
  answer : Option WordType
  body : Body

namespace PlainFunction

def phrase (f : PlainFunction) : Phrase :=
  ⟨'(' :: ')' :: ((f.answer.map fun t => ':' :: ' ' :: t.word).getD [] ++
      (' ' :: '\x7b' :: (f.body.inside ++ ['\x7d']))),
    .node (.functionNode f.isAsync false)
      (.node .parameters [] :: (f.answer.toList.map fun t => .node .returnType [t.shape]) ++ [f.body.shape])⟩

end PlainFunction

theorem functionBody_body {b : Body} {n : Nat} (isRead : b.IsRead) (room : b.inside.length + 1 < s.bound)
    (goals : goalsPerCharacter * (b.inside.length + 1) ≤ n)
    (reaches : c.Reaches ('\x7b' :: (b.inside ++ '\x7d' :: rest))) :
    ∃ t c', functionBody (upTo n) text s c = some (t, c') ∧ t.shape = b.shape ∧ c.Passes c' rest := by
  obtain ⟨lbrace, opened⟩ := reaches.passes_mark (m := .lbrace) rfl rfl
  obtain ⟨ts, c₁, read, plain, shapes, passes⟩ := itemsUntil_body (s := s) isRead room goals opened.reaches
  obtain ⟨rbrace, closed⟩ := passes.reaches.passes_mark (m := .rbrace) rfl rfl
  have inner : within bodySetting (statements (upTo n)) text s c = some (ts, c₁.next) := by
    change statements (upTo n) text (bodySetting s) c = _
    rw [statements, bind_of_eq (expect_apply lbrace), bind_of_eq read, bind_of_eq (expect_apply rbrace)]
    rfl
  refine ⟨.node .body ⟨c.place.offset, c₁.next.lastStop⟩ ts, c₁.next, ?_, ?_, (opened.trans passes).trans closed⟩
  · rw [functionBody, bind_of_eq here_apply]
    change (within bodySetting (statements (upTo n)) >>= _) text s c = _
    rw [bind_of_eq inner, plain]
    rfl
  · rw [Tree.shape, Tree.shapeList_eq_map, shapes]
    rfl

theorem endsType_lbrace (sees : c.cut.lexeme = .mark .lbrace) : EndsType c := by
  refine ⟨fun m mem same => ?_, .inr (by rw [sees]; exact nofun)⟩
  rw [sees] at same
  cases same
  exact absurd mem (by decide)

theorem returnType?_words {answer : Option WordType} (n : Nat) (bound : 1 ≤ s.bound)
    (reaches : c.Reaches ((answer.map fun t => ':' :: ' ' :: t.word).getD [] ++ (' ' :: '\x7b' :: rest))) :
    ∃ ts c', returnType? (upTo (n + 2)) text s c = some (ts, c') ∧
      ts.map Tree.shape = (answer.toList.map fun t => .node .returnType [t.shape]) ∧
      c.Passes c' ('\x7b' :: rest) := by
  cases answer with
  | none =>
    have here : c.Reaches ('\x7b' :: rest) := (Cursor.reaches_blank (by decide)).mp reaches
    refine ⟨[], c, ?_, rfl, .refl here⟩
    rw [returnType?, bind_of_eq (sees_eq .colon), (here.passes_mark (m := .lbrace) rfl rfl).1]
    rfl
  | some t =>
    simp only [Option.map_some, Option.getD_some, List.cons_append] at reaches
    obtain ⟨colon, opened⟩ := reaches.passes_mark (m := .colon) rfl rfl
    obtain ⟨named, typed⟩ := (opened.blank (by decide)).reaches.passes_word t.isWord (by rintro d ⟨⟩; decide)
    have behind := typed.blank (by decide)
    have lbrace := (behind.reaches.passes_mark (m := .lbrace) rfl rfl).1
    obtain ⟨found, read, shape⟩ :=
      type_word (s := s) t n bound (by rw [named]) (endsType_lbrace lbrace)
    have plain : afterNext (return (← seesWord .is_) && !(← Parse.afterBreak)) text s c.next =
        some (false, c.next) := by
      refine afterNext_of_eq ?_
      rw [bind_of_eq (seesWord_apply .is_), lbrace]
      rfl
    have whole : typeOrPredicate (upTo (n + 2)) text s c.next = some (found, c.next.next) := by
      rw [typeOrPredicate, bind_of_eq here_apply, bind_of_eq token_apply]
      split
      · rw [bind_of_eq plain]
        exact read
      · exact read
    refine ⟨[.node .returnType ⟨c.place.offset, c.next.next.lastStop⟩ [found]], c.next.next, ?_, ?_,
      opened.trans behind⟩
    · rw [returnType?, bind_of_eq (sees_eq .colon), colon]
      change (Parse.here >>= _) text s c = _
      rw [bind_of_eq here_apply, bind_of_eq advance_apply, bind_of_eq whole]
      rfl
    · rw [List.map_cons, Tree.shape, Tree.shapeList, shape]
      rfl

theorem parameters_none (reaches : c.Reaches ('(' :: ')' :: rest)) (g : Grammar) :
    ∃ t c', parameters g text s c = some (t, c') ∧ t.shape = .node .parameters [] ∧ c.Passes c' rest := by
  obtain ⟨lparen, opened⟩ := reaches.passes_mark (m := .lparen) rfl rfl
  obtain ⟨rparen, closed⟩ := opened.reaches.passes_mark (m := .rparen) rfl rfl
  have noReceiver : seesWord .this_ text s c.next = some (false, c.next) := by
    rw [seesWord_apply, rparen]
    rfl
  have none : within (fun s => { s with inDecorator := false }) (commaSeparated .rparen (parameter g)) text s c.next =
      some ([], c.next) := by
    change commaSeparated .rparen (parameter g) text { s with inDecorator := false } c.next = _
    rw [commaSeparated, separated, bind_apply, bind_of_eq (sees_eq .rparen), rparen]
    rfl
  refine ⟨.node .parameters ⟨c.place.offset, c.next.next.lastStop⟩ [], c.next.next, ?_, rfl, opened.trans closed⟩
  rw [parameters, bind_of_eq here_apply, bind_of_eq (expect_apply lparen), bind_of_eq noReceiver, if_neg (by decide)]
  change (within (fun s => { s with inDecorator := false }) (commaSeparated .rparen (parameter g)) >>= _) text s
    c.next = _
  rw [bind_of_eq none, bind_of_eq (expect_apply rparen)]
  rfl

theorem alone_function {f : PlainFunction} (isRead : f.body.IsRead) :
    Alone (fun g => methodFunction g f.isAsync false) f.phrase := by
  obtain ⟨isAsync, answer, body⟩ := f
  intro text s n room goals c rest l mem closing reaches
  simp only [PlainFunction.phrase, List.length_cons, List.length_append, List.length_nil] at room goals
  simp only [PlainFunction.phrase, List.cons_append, List.append_assoc, List.nil_append] at reaches
  obtain ⟨n, rfl⟩ : ∃ m, n = m + 2 := ⟨n - 2, by unfold goalsPerCharacter at goals; omega⟩
  generalize setting : Setting.inside isAsync false s = s'
  have bound : s'.bound = s.bound := by rw [← setting]; rfl
  obtain ⟨ps, c₁, parameters, none, passes₁⟩ := parameters_none (s := s') reaches (upTo (n + 2))
  obtain ⟨ts, c₂, returned, shapes, passes₂⟩ :=
    returnType?_words (s := s') n (by omega) passes₁.reaches
  obtain ⟨t, c₃, inside, shape, passes₃⟩ := functionBody_body (s := s') (b := body) (n := n + 2) isRead (by omega)
    (by unfold goalsPerCharacter at goals ⊢; omega) passes₂.reaches
  have noAngle : typeParameters? (upTo (n + 2)) text s' c = some ([], c) := by
    rw [typeParameters?, bind_of_eq (sees_eq .langle), (reaches.passes_mark (m := .lparen) rfl rfl).1]
    rfl
  have call : callParts (upTo (n + 2)) text s' c = some (ps :: ts, c₂) := by
    rw [callParts, bind_of_eq noAngle, bind_of_eq parameters, bind_of_eq returned]
    rfl
  have parts : functionParts (upTo (n + 2)) isAsync false text s c = some ((ps :: ts ++ [t], true), c₃) := by
    rw [functionParts]
    change (callParts (upTo (n + 2)) >>= _) text (Setting.inside isAsync false s) c = _
    rw [setting, bind_of_eq call, bind_of_eq (sees_eq .lbrace),
      (passes₂.reaches.passes_mark (m := .lbrace) rfl rfl).1, beq_self_eq_true, if_pos rfl, bind_of_eq inside]
    rfl
  refine ⟨.node (.functionNode isAsync false) ⟨c.place.offset, c₃.lastStop⟩ (ps :: ts ++ [t]), c₃, ?_, ?_,
    (passes₁.trans passes₂).trans passes₃⟩
  · change methodFunction (upTo (n + 2)) isAsync false text s c = _
    rw [methodFunction, bind_of_eq here_apply, bind_of_eq parts]
    rfl
  · rw [Tree.shape, Tree.shapeList_eq_map, List.map_append, List.map_cons, shapes, none]
    simp [PlainFunction.phrase, shape]

end Grammar

end VueOptions.Script
