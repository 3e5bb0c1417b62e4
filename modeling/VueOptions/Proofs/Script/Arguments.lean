import VueOptions.Proofs.Script.Operands

/-!
Arguments in place. A phrase is a text with the shape it is read as; it stands alone if it is read so wherever it
stands before something that closes it. Words, strings and other literals stand alone, and so do accesses and calls
whose arguments stand alone: a call has one argument for each phrase between its parentheses, in order.
-/

set_option autoImplicit false

namespace VueOptions.Script

open Text

def firstLexeme (cs : List Char) : Lexeme := (Lexeme.cutAfter (Trivia.skip .between 0 false cs)).lexeme

theorem firstLexeme_blanks {gap : List Char} (blank : ∀ b ∈ gap, isBlank b = true) (cs : List Char) :
    firstLexeme (gap ++ cs) = firstLexeme cs := by
  induction gap with
  | nil => rfl
  | cons b gap ih =>
    obtain ⟨first, others⟩ := List.forall_mem_cons.mp blank
    obtain ⟨rest, isOpen⟩ := Cursor.skip_blank first (gap ++ cs)
    rw [← ih others, List.cons_append, firstLexeme, Lexeme.cutAfter, rest, isOpen]
    rfl

theorem firstLexeme_of_startsToken {cs : List Char} (starts : StartsToken cs) :
    firstLexeme cs = (Lexeme.cut cs).lexeme := by
  rw [firstLexeme, Trivia.skip_of_startsToken starts]
  rfl

theorem startsToken_word {w : List Char} (word : Name.IsWord w) (rest : List Char) : StartsToken (w ++ rest) := by
  have starts := (BareName.word ⟨String.ofList w, by rwa [String.toList_ofList]⟩).startsToken_append rest
  simpa only [BareName.text, String.toList_ofList] using starts

theorem firstLexeme_word {w rest : List Char} (word : Name.IsWord w) (ends : Name.EndsName rest) :
    firstLexeme (w ++ rest) = Lexeme.ofName w := by
  rw [firstLexeme_of_startsToken (startsToken_word word rest), Lexeme.cut_word word ends]

theorem Lexeme.ofName_ne_mark (w : List Char) (m : Mark) : Lexeme.ofName w ≠ .mark m := by
  unfold Lexeme.ofName
  cases Keyword.ofSpelling? w <;> simp

theorem Lexeme.ofName_ne_endOfText (w : List Char) : Lexeme.ofName w ≠ .endOfText := by
  unfold Lexeme.ofName
  cases Keyword.ofSpelling? w <;> simp

namespace Cursor

variable {text cs rest rest' : List Char} {c c' c'' : Cursor text}

/-- A reading goes on from one cursor to another without a mistake, up to the text that is left. -/
structure Passes (c c' : Cursor text) (rest : List Char) : Prop where
  reaches : c'.Reaches rest
  isFlawed : c'.isFlawed = c.isFlawed
  unclaimed : c'.unclaimed = c.unclaimed
  onward : c.place.offset ≤ c'.place.offset
  taken : c' = c ∨ c.place.offset < c'.lastStop

theorem Passes.refl (reaches : c.Reaches rest) : c.Passes c rest :=
  ⟨reaches, rfl, rfl, Nat.le_refl _, .inl rfl⟩

theorem Passes.trans (first : c.Passes c' rest) (second : c'.Passes c'' rest') : c.Passes c'' rest' := by
  refine ⟨second.reaches, second.isFlawed.trans first.isFlawed, second.unclaimed.trans first.unclaimed,
    Nat.le_trans first.onward second.onward, ?_⟩
  rcases second.taken with rfl | behind
  · exact first.taken
  · exact .inr (Nat.lt_of_le_of_lt first.onward behind)

theorem Passes.lt_lastStop (passes : c.next.Passes c' rest) (next : c.Passes c.next rest')
    (taken : c.place.offset < c.next.lastStop) : c.place.offset < c'.lastStop := by
  rcases passes.taken with rfl | behind
  · exact taken
  · exact Nat.lt_of_le_of_lt next.onward behind

theorem Passes.blank {b : Char} (passes : c.Passes c' (b :: rest)) (blank : isBlank b = true) : c.Passes c' rest :=
  { passes with reaches := (reaches_blank blank).mp passes.reaches }

theorem Passes.blanks {gap : List Char} (passes : c.Passes c' (gap ++ rest)) (blank : ∀ b ∈ gap, isBlank b = true) :
    c.Passes c' rest :=
  { passes with reaches := (reaches_blanks blank).mp passes.reaches }

theorem Reaches.lt_lastStop_next (reaches : c.Reaches cs) (starts : StartsToken cs) :
    c.place.offset < c.next.lastStop := by
  have filled : c.cut.consumed ≠ [] := by
    intro none
    have after := reaches.after
    rw [c.cut_from.advances none, Trivia.skip_of_startsToken starts] at after
    obtain ⟨first, more, rfl, -⟩ := starts
    cases after
  have pos := byteLength_pos filled
  have stop : c.next.lastStop = c.place.offset + byteLength c.cut.consumed := by
    change (if c.cut.consumed.isEmpty then c.lastStop else c.stop) = _
    rw [if_neg (by simpa using filled)]
    rfl
  omega

theorem Reaches.passes_cut {k : Cut} (reaches : c.Reaches cs) (starts : StartsToken cs) (cut : Lexeme.cut cs = k) :
    c.cut = k ∧ c.Passes c.next k.rest := by
  have same : c.cut = k := (reaches.cut_of_startsToken starts).trans cut
  have next := c.reaches_next
  rw [same] at next
  have onward : c.place.offset ≤ c.next.place.offset := by
    change _ ≤ c.place.offset + byteLength c.cut.consumed + (Trivia.skip .between 0 false c.cut.rest).bytes
    omega
  exact ⟨same, next, rfl, rfl, onward, .inr (reaches.lt_lastStop_next starts)⟩

theorem Reaches.passes_mark {mark : Char} {m : Mark} (reaches : c.Reaches (mark :: rest))
    (starts : Trivia.Mode.past? mark rest.head? .between = none)
    (cut : Lexeme.cut (mark :: rest) = ⟨.mark m, [mark], rest, false⟩) :
    c.cut.lexeme = .mark m ∧ c.Passes c.next rest := by
  obtain ⟨same, passes⟩ := reaches.passes_cut ⟨mark, rest, rfl, starts⟩ cut
  exact ⟨by rw [same], passes⟩

theorem Reaches.passes_word {w : List Char} (word : Name.IsWord w) (reaches : c.Reaches (w ++ rest))
    (ends : Name.EndsName rest) : c.cut = ⟨Lexeme.ofName w, w, rest, false⟩ ∧ c.Passes c.next rest :=
  reaches.passes_cut (startsToken_word word rest) (Lexeme.cut_word word ends)

theorem Reaches.lexeme_eq_first (reaches : c.Reaches cs) : c.cut.lexeme = firstLexeme cs := by
  rw [reaches.cut]
  rfl

theorem afterBreak_next {k : Cut} (cut : c.cut = k) (feed : k.rest = '\n' :: rest) : c.next.afterBreak = true := by
  have stays (mode : Trivia.Mode) (n : Nat) (cs : List Char) : (Trivia.skip mode n true cs).hasBreak = true := by
    induction cs generalizing mode n with
    | nil => rfl
    | cons d cs ih =>
      rw [Trivia.skip]
      split
      · rfl
      · exact ih _ _
  change (Trivia.skip .between 0 false c.cut.rest).hasBreak = true
  rw [cut, feed]
  exact stays .between 1 rest

end Cursor

mutual
def Shape.decEq : (σ τ : Shape) → Decidable (σ = τ)
  | .node k σs, .node l τs =>
    match (inferInstance : Decidable (k = l)), Shape.decEqList σs τs with
    | isTrue kind, isTrue children => isTrue (by rw [kind, children])
    | isFalse kind, _ => isFalse fun same => kind (Shape.node.inj same).1
    | _, isFalse children => isFalse fun same => children (Shape.node.inj same).2
def Shape.decEqList : (σs τs : List Shape) → Decidable (σs = τs)
  | [], [] => isTrue rfl
  | [], _ :: _ => isFalse (by simp)
  | _ :: _, [] => isFalse (by simp)
  | σ :: σs, τ :: τs =>
    match Shape.decEq σ τ, Shape.decEqList σs τs with
    | isTrue first, isTrue others => isTrue (by rw [first, others])
    | isFalse first, _ => isFalse fun same => first (List.cons.inj same).1
    | _, isFalse others => isFalse fun same => others (List.cons.inj same).2
end

instance : DecidableEq Shape := Shape.decEq

structure Phrase where
  text : List Char
  shape : Shape
  deriving DecidableEq

namespace Grammar

open Parse

variable {text rest : List Char} {s : Setting} {c c' : Cursor text} {g : Grammar}

def ReadsIn (closers : List Lexeme) (rule : Parse Tree) (text : List Char) (s : Setting) (p : Phrase) : Prop :=
  ∀ (c : Cursor text) (rest : List Char) (l : Lexeme), l ∈ closers → Closing l rest →
    c.Reaches (p.text ++ rest) →
    ∃ t c', rule text s c = some (t, c') ∧ t.shape = p.shape ∧ c.Passes c' rest

/-- The phrase is read wherever it stands, if there is room for as many rounds and goals as it has characters. -/
def Alone (rule : Grammar → Parse Tree) (p : Phrase) : Prop :=
  ∀ (text : List Char) (s : Setting) (n : Nat), p.text.length < s.bound → goalsPerCharacter * p.text.length ≤ n →
    ReadsIn Closing.lexemes (rule (upTo n)) text s p

def oneExpression (g : Grammar) : Parse Tree := g (.assignment true)

def commaTexts (ps : List Phrase) : List Char := ps.flatMap fun p => ',' :: ' ' :: p.text

def joinTexts (ps : List Phrase) : List Char := [',', ' '].intercalate (ps.map Phrase.text)

theorem joinTexts_cons (p : Phrase) (ps : List Phrase) : joinTexts (p :: ps) = p.text ++ commaTexts ps := by
  induction ps generalizing p with
  | nil => simp [joinTexts, commaTexts, List.intercalate]
  | cons q ps ih =>
    have tail := ih q
    simp only [joinTexts, List.map_cons] at tail ⊢
    rw [List.intercalate_cons_cons, tail]
    simp [commaTexts]

section

variable {item : Parse Tree} {m : Mark} {ps : List Phrase} {tail : List Char}

theorem sees_of_read (rejects : ∀ c : Cursor text, c.cut.lexeme = .mark m → item text s c = none)
    {r : Tree × Cursor text} (read : item text s c = some r) : sees m text s c = some (false, c) := by
  rw [sees_eq, beq_eq_false_iff_ne.mpr]
  intro same
  rw [rejects c same] at read
  cases read

/-- What stands behind the first item of a list: more items, each behind a comma and blanks, and then the closing mark,
perhaps behind one more comma. -/
inductive ListTail (m : Mark) (tail : List Char) : List Phrase → List Char → Prop
  | ends (closing : Closing (.mark m) tail) : ListTail m tail [] tail
  | comma (closing : Closing (.mark m) tail) : ListTail m tail [] (',' :: tail)
  | item {p : Phrase} {ps : List Phrase} {gap rest : List Char} (blank : ∀ b ∈ gap, isBlank b = true)
    (more : ListTail m tail ps rest) : ListTail m tail (p :: ps) (',' :: (gap ++ (p.text ++ rest)))

theorem ListTail.closing (spelled : ListTail m tail ps rest) : ∃ l, Closing l rest := by
  cases spelled with
  | ends closing => exact ⟨_, closing⟩
  | comma _ => exact ⟨_, .comma _⟩
  | item _ _ => exact ⟨_, .comma _⟩

theorem listTail_commaTexts (closing : Closing (.mark m) tail) (ps : List Phrase) :
    ListTail m tail ps (commaTexts ps ++ tail) := by
  induction ps with
  | nil => exact .ends closing
  | cons p ps ih =>
    have spelled : ListTail m tail (p :: ps) (',' :: ([' '] ++ (p.text ++ (commaTexts ps ++ tail)))) :=
      .item (List.all_eq_true.mp (by decide)) ih
    simpa [commaTexts] using spelled

theorem separatedRound_end (item : Parse Tree) (closing : Closing (.mark m) tail) (reaches : c.Reaches tail)
    (found : List Tree) (trailing : Option Nat) :
    separatedRound .comma m item (found, trailing) text s c = some (.stop (found, none), c) := by
  change (sees m >>= _) text s c = _
  rw [bind_of_eq (sees_eq m), closing.lexeme_eq reaches, beq_self_eq_true]
  rfl

theorem commaSeparated_nil (item : Parse Tree) (closing : Closing (.mark m) tail) (reaches : c.Reaches tail) :
    commaSeparated m item text s c = some ([], c) := by
  rw [commaSeparated, separated, bind_apply, bind_of_eq (sees_eq m), closing.lexeme_eq reaches, beq_self_eq_true]
  rfl

theorem separatedRound_comma (item : Parse Tree) (other : m ≠ .comma) (comma : c.cut.lexeme = .mark .comma)
    (found : List Tree) (trailing : Option Nat) :
    separatedRound .comma m item (found, trailing) text s c =
      (do if ← sees m then return .stop (found, some c.place.offset)
          return .again ((← item) :: found, none) : Parse (Round (List Tree × Option Nat))) text s c.next := by
  have still : (c.cut.lexeme == .mark m) = false := by
    rw [comma, beq_eq_false_iff_ne]
    exact fun same => other (Lexeme.mark.inj same).symm
  change (sees m >>= _) text s c = _
  rw [bind_of_eq (sees_eq m), still, if_neg (by decide), bind_of_eq here_apply, bind_of_eq (expect_apply comma)]

variable (rejects : ∀ c : Cursor text, c.cut.lexeme = .mark m → item text s c = none) (other : m ≠ .comma)

include rejects other

theorem rounds_separated (spelled : ListTail m tail ps rest) (reads : ∀ p ∈ ps, ReadsIn Closing.lexemes item text s p)
    {fuel : Nat} (enough : ps.length < fuel) (reaches : c.Reaches rest) (found : List Tree) (trailing : Option Nat) :
    ∃ (ts : List Tree) (place : Option Nat) (c' : Cursor text),
      rounds (separatedRound .comma m item) fuel (found, trailing) text s c =
        some ((ts.reverse ++ found, place), c') ∧
      ts.map Tree.shape = ps.map Phrase.shape ∧ c.Passes c' tail := by
  induction spelled generalizing fuel c found trailing with
  | ends closing =>
    obtain ⟨fuel, rfl⟩ : ∃ k, fuel = k + 1 := ⟨fuel - 1, by simp at enough; omega⟩
    refine ⟨[], none, c, ?_, rfl, .refl reaches⟩
    rw [rounds, bind_of_eq (separatedRound_end item closing reaches found trailing)]
    rfl
  | comma closing =>
    obtain ⟨fuel, rfl⟩ : ∃ k, fuel = k + 1 := ⟨fuel - 1, by simp at enough; omega⟩
    obtain ⟨comma, next⟩ := reaches.passes_mark (m := .comma) rfl rfl
    have round := separatedRound_comma (s := s) item other comma found trailing
    rw [bind_of_eq (sees_eq m), closing.lexeme_eq next.reaches, beq_self_eq_true] at round
    refine ⟨[], some c.place.offset, c.next, ?_, rfl, next⟩
    rw [rounds, bind_of_eq round]
    rfl
  | @item p ps gap rest blank more ih =>
    obtain ⟨fuel, rfl⟩ : ∃ k, fuel = k + 1 := ⟨fuel - 1, by omega⟩
    obtain ⟨first, others⟩ := List.forall_mem_cons.mp reads
    obtain ⟨l, closes⟩ := more.closing
    obtain ⟨comma, next⟩ := reaches.passes_mark (m := .comma) rfl rfl
    have behind := (Cursor.reaches_blanks blank).mp next.reaches
    obtain ⟨t, c₁, read, shape, passes⟩ := first c.next rest l closes.mem_lexemes closes behind
    obtain ⟨ts, place, c₂, again, shapes, passes'⟩ :=
      ih others (by simpa using enough) passes.reaches (t :: found) none
    have round := separatedRound_comma (s := s) item other comma found trailing
    rw [bind_of_eq (sees_of_read rejects read), if_neg (by decide), bind_of_eq read] at round
    refine ⟨t :: ts, place, c₂, ?_, by rw [List.map_cons, List.map_cons, shape, shapes],
      next.trans (passes.trans passes')⟩
    rw [rounds, bind_of_eq round]
    simpa using again

theorem commaSeparated_cons {p : Phrase} (spelled : ListTail m tail ps rest)
    (reads : ∀ q ∈ p :: ps, ReadsIn Closing.lexemes item text s q) (enough : ps.length < s.bound)
    (reaches : c.Reaches (p.text ++ rest)) :
    ∃ ts c', commaSeparated m item text s c = some (ts, c') ∧ ts.map Tree.shape = (p :: ps).map Phrase.shape ∧
      c.Passes c' tail := by
  obtain ⟨first, others⟩ := List.forall_mem_cons.mp reads
  obtain ⟨l, closes⟩ := spelled.closing
  obtain ⟨t, c₁, read, shape, passes⟩ := first c _ l closes.mem_lexemes closes reaches
  obtain ⟨ts, place, c₂, more, shapes, passes'⟩ :=
    rounds_separated rejects other spelled others enough passes.reaches [t] none
  have repeated : repeatFrom ([t], none) (separatedRound .comma m item) text s c₁ =
      some ((ts.reverse ++ [t], place), c₂) := more
  refine ⟨t :: ts, c₂, ?_, by rw [List.map_cons, List.map_cons, shape, shapes], passes.trans passes'⟩
  rw [commaSeparated, separated, bind_apply, bind_of_eq (sees_of_read rejects read), if_neg (by decide),
    bind_of_eq read, bind_of_eq repeated]
  change some ((ts.reverse ++ [t]).reverse, c₂) = _
  simp

theorem commaSeparated_phrases (reads : ∀ p ∈ ps, ReadsIn Closing.lexemes item text s p)
    (closing : Closing (.mark m) tail) (enough : ps.length < s.bound) (reaches : c.Reaches (joinTexts ps ++ tail)) :
    ∃ ts c', commaSeparated m item text s c = some (ts, c') ∧ ts.map Tree.shape = ps.map Phrase.shape ∧
      c.Passes c' tail := by
  cases ps with
  | nil => exact ⟨[], c, commaSeparated_nil item closing reaches, rfl, .refl reaches⟩
  | cons p ps =>
    rw [joinTexts_cons, List.append_assoc] at reaches
    exact commaSeparated_cons rejects other (listTail_commaTexts closing ps) reads (Nat.lt_of_succ_lt enough) reaches

end

theorem argument_rejects (closes : c.cut.lexeme ∈ Closing.lexemes) (bound : 1 ≤ s.bound) (n : Nat) :
    argument (upTo n) text s c = none := by
  have dots : eat .ellipsis text s c = some (false, c) := by
    rw [eat_apply, if_neg]
    intro same
    rw [beq_iff_eq.mp same] at closes
    exact absurd closes (by decide)
  rw [argument, bind_of_eq here_apply, bind_of_eq dots]
  exact upTo_assignment_rejects (List.mem_cons_of_mem _ closes) bound n true

theorem arguments_phrases {n : Nat} {ps : List Phrase}
    (reads : ∀ p ∈ ps, ReadsIn Closing.lexemes (argument (upTo n)) text (Setting.bracketed s) p)
    (enough : ps.length < s.bound) (reaches : c.Reaches ('(' :: (joinTexts ps ++ ')' :: rest))) :
    ∃ ts c', arguments (upTo n) text s c = some (ts, c') ∧ ts.map Tree.shape = ps.map Phrase.shape ∧
      c.Passes c' rest := by
  obtain ⟨lparen, opened⟩ := reaches.passes_mark (m := .lparen) rfl rfl
  have bound : 1 ≤ (Setting.bracketed s).bound := Nat.lt_of_le_of_lt (Nat.zero_le _) enough
  obtain ⟨ts, c₁, read, shapes, passes⟩ := commaSeparated_phrases
    (fun c closes => argument_rejects (closes ▸ (Closing.rparen []).mem_lexemes) bound n) (by decide) reads
    (.rparen rest) enough opened.reaches
  obtain ⟨rparen, closed⟩ := passes.reaches.passes_mark (m := .rparen) rfl rfl
  refine ⟨ts, c₁.next, ?_, shapes, (opened.trans passes).trans closed⟩
  have inside : within Setting.bracketed (commaSeparated .rparen (argument (upTo n))) text s c.next =
      some (ts, c₁) := read
  rw [arguments, bind_of_eq (expect_apply lparen), bind_of_eq inside, bind_of_eq (expect_apply rparen)]
  rfl

def StopsAccesses (rest : List Char) : Prop := (∃ l, Closing l rest) ∨ ∃ more, rest = '(' :: more

/-- What may stand behind an operand: an access, a call, or something that closes it. -/
def Continues (rest : List Char) : Prop := StopsAccesses rest ∨ ∃ more, rest = '.' :: more

theorem Continues.endsName (continues : Continues rest) : Name.EndsName rest := by
  rcases continues with (⟨l, closing⟩ | ⟨more, rfl⟩) | ⟨more, rfl⟩
  · exact closing.apart.1
  · rintro d ⟨⟩
    decide
  · rintro d ⟨⟩
    decide

theorem StopsAccesses.lexeme (stops : StopsAccesses rest) (reaches : c.Reaches rest) :
    c.cut.lexeme ∈ .mark .lparen :: Closing.lexemes := by
  rcases stops with ⟨l, closing⟩ | ⟨more, rfl⟩
  · rw [closing.lexeme_eq reaches]
    exact List.mem_cons_of_mem _ closing.mem_lexemes
  · rw [(reaches.passes_mark (m := .lparen) rfl rfl).1]
    exact List.mem_cons_self

structure Direct (t : Tree) : Prop where
  required : reachesOptional t = false
  whole : uninstantiated t = [t]

/-- A phrase that is a primary expression before texts of a class. Four goals are open around it. -/
structure Leads (follows : List Char → Prop) (p : Phrase) : Prop where
  filled : p.text ≠ []
  reads : ∀ (text rest : List Char) (s : Setting) (n : Nat) (c : Cursor text), p.text.length < s.bound →
    goalsPerCharacter * p.text.length ≤ n + 4 → follows rest → c.Reaches (p.text ++ rest) →
    OpensOperand c ∧
    ∃ t c', primary (upTo n) text s c = some (t, c') ∧ t.shape = p.shape ∧ Direct t ∧ c.Passes c' rest

def memberTexts (names : List Name.Word) : List Char := names.flatMap fun w => '.' :: w.text.toList

def memberShape (σ : Shape) (name : Name.Word) : Shape := .node (.member false) [σ, .node (.identifier name) []]

theorem cut_dot {name : Name.Word} (rest : List Char) :
    Lexeme.cut ('.' :: (name.text.toList ++ rest)) = ⟨.mark .dot, ['.'], name.text.toList ++ rest, false⟩ := by
  have word := name.isWord
  cases shape : name.text.toList with
  | nil =>
    rw [shape] at word
    cases word
  | cons d more =>
    rw [shape] at word
    have digit := Name.not_isDigit_of_isStart word.1
    have dot : '.' ≠ d := by
      rintro rfl
      exact absurd word.1 (by decide)
    have dots : Mark.ellipsis.spelling.isPrefixOf ('.' :: d :: (more ++ rest)) = false := by
      simp [Mark.spelling, List.isPrefixOf, dot]
    have mark : Mark.ofText? ('.' :: d :: (more ++ rest)) = some .dot := by
      rw [Mark.ofText?, Mark.scanOrder, List.find?_cons, dots]
      rfl
    have known : Lexeme.cutKnown? '.' (d :: (more ++ rest)) = some ⟨.mark .dot, ['.'], d :: (more ++ rest), false⟩ := by
      have cut : Lexeme.cutMark ('.' :: d :: (more ++ rest)) =
          some ⟨.mark .dot, ['.'], d :: (more ++ rest), false⟩ := by
        rw [Lexeme.cutMark, mark]
        rfl
      simp [Lexeme.cutKnown?, Name.isStart, digit, cut]
    rw [List.cons_append, Lexeme.cut, known]
    rfl

theorem accessRound_member {name : Name.Word} (start : Nat) (t : Tree)
    (reaches : c.Reaches ('.' :: (name.text.toList ++ rest))) (ends : Name.EndsName rest) :
    ∃ span c' stop, accessRound g start t text s c =
        some (.again (.node (.member false) ⟨start, stop⟩ [t, .node (.identifier name) span []]), c') ∧
      c.Passes c' rest := by
  obtain ⟨dot, next⟩ := reaches.passes_mark rfl (cut_dot rest)
  obtain ⟨cut, passes⟩ := next.reaches.passes_word name.isWord ends
  have named : c.next.cut.lexeme = Lexeme.ofName name.text.toList := by rw [cut]
  have member : memberName text s c.next =
      some (.node (.identifier name) ⟨c.next.place.offset, c.next.next.lastStop⟩ [], c.next.next) := by
    rw [memberName, bind_of_eq (lexeme_eq (c := c.next)), named, Lexeme.ofName]
    cases Keyword.ofSpelling? name.text.toList with
    | none => exact identifierName_word named
    | some k => exact identifierName_word named
  have optional : seesOptionalAccess text s c = some (false, c) := by
    rw [seesOptionalAccess, bind_of_eq (sees_eq .questionDot), dot]
    rfl
  have eaten : eat .dot text s c = some (true, c.next) := by
    rw [eat_apply, dot]
    rfl
  refine ⟨⟨c.next.place.offset, c.next.next.lastStop⟩, c.next.next, c.next.next.lastStop, ?_, next.trans passes⟩
  unfold accessRound
  rw [bind_of_eq optional]
  change (eat .dot >>= _) text s c = _
  rw [bind_of_eq eaten]
  change (memberName >>= _) text s c.next = _
  rw [bind_of_eq member]
  rfl

theorem continues_memberTexts (stops : StopsAccesses rest) (names : List Name.Word) :
    Continues (memberTexts names ++ rest) := by
  cases names with
  | nil => exact .inl stops
  | cons name names => exact .inr ⟨_, rfl⟩

theorem Direct.member {t : Tree} (direct : Direct t) (s : Span) (name : Tree) :
    Direct (.node (.member false) s [t, name]) :=
  ⟨by rw [reachesOptional, direct.required]; rfl, rfl⟩

theorem Direct.call {t : Tree} (direct : Direct t) (s : Span) (ts : List Tree) :
    Direct (.node (.call false) s (t :: ts)) :=
  ⟨by rw [reachesOptional, direct.required]; rfl, rfl⟩

theorem rounds_members (g : Grammar) (start : Nat) {names : List Name.Word} {fuel : Nat} {t : Tree} (direct : Direct t)
    (enough : names.length < fuel) (stops : StopsAccesses rest) (reaches : c.Reaches (memberTexts names ++ rest)) :
    ∃ t' c', rounds (accessRound g start) fuel t text s c = some (t', c') ∧
      t'.shape = names.foldl memberShape t.shape ∧ Direct t' ∧ c.Passes c' rest := by
  induction names generalizing fuel t c with
  | nil =>
    obtain ⟨fuel, rfl⟩ : ∃ k, fuel = k + 1 := ⟨fuel - 1, by simp at enough; omega⟩
    refine ⟨t, c, ?_, rfl, direct, .refl reaches⟩
    rw [rounds, bind_of_eq (accessRound_stops g start t (stops.lexeme reaches))]
    rfl
  | cons name names ih =>
    obtain ⟨fuel, rfl⟩ : ∃ k, fuel = k + 1 := ⟨fuel - 1, by omega⟩
    have split : memberTexts (name :: names) ++ rest = '.' :: (name.text.toList ++ (memberTexts names ++ rest)) := by
      simp [memberTexts]
    rw [split] at reaches
    obtain ⟨span, c₁, stop, round, passes⟩ :=
      accessRound_member (g := g) (s := s) start t reaches (continues_memberTexts stops names).endsName
    obtain ⟨t', c₂, more, shape, direct', passes'⟩ :=
      ih (direct.member ⟨start, stop⟩ (.node (.identifier name) span [])) (by simpa using enough) passes.reaches
    refine ⟨t', c₂, ?_, shape, direct', passes.trans passes'⟩
    rw [rounds, bind_of_eq round]
    exact more

/-- Arguments in parentheses, and the accesses to what the call with them gives. -/
structure Link where
  arguments : List Phrase
  members : List Name.Word

def Link.spelling (k : Link) : List Char := '(' :: (joinTexts k.arguments ++ ')' :: memberTexts k.members)

def Link.onto (σ : Shape) (k : Link) : Shape :=
  k.members.foldl memberShape (.node (.call false) (σ :: k.arguments.map Phrase.shape))

structure Link.Fits (n : Nat) (text : List Char) (s : Setting) (k : Link) : Prop where
  arguments : k.arguments.length < s.bound
  members : k.members.length < s.bound
  reads : ∀ p ∈ k.arguments, ReadsIn Closing.lexemes (argument (upTo n)) text (Setting.bracketed s) p

section

variable {n start : Nat} {t t' : Tree}

theorem callRound_of_accesses (accessed : accesses g start t text s c = some (t', c'))
    (ends : c'.cut.lexeme ∈ .mark .lparen :: Closing.lexemes) : callRound g start t text s c =
      if c'.cut.lexeme = .mark .lparen then (arguments g text s c').map fun r =>
        (.again (.node (.call false) ⟨start, r.2.lastStop⟩ (uninstantiated t' ++ r.1)), r.2)
      else some (.stop t', c') := by
  have optional : eat .questionDot text s c' = some (false, c') := by
    rw [eat_apply, if_neg]
    intro same
    rw [beq_iff_eq.mp same] at ends
    exact absurd ends (by decide)
  have template : seesTemplate text s c' = some (false, c') := by
    simp only [Closing.lexemes, List.mem_cons, List.not_mem_nil, or_false] at ends
    rw [seesTemplate, bind_of_eq (lexeme_eq (c := c'))]
    rcases ends with same | same | same | same | same | same | same <;> rw [same] <;> rfl
  rw [callRound, bind_of_eq accessed, bind_of_eq optional, if_neg (by decide), bind_of_eq (pure_apply _)]
  dsimp only
  rw [bind_of_eq template, if_neg (by decide), bind_of_eq (sees_eq .lparen)]
  by_cases paren : c'.cut.lexeme = .mark .lparen
  · rw [if_pos paren, if_pos (beq_iff_eq.mpr paren), bind_apply]
    cases arguments g text s c' with
    | none => rfl
    | some r =>
      change some (_, _) = some (_, _)
      simp
  · rw [if_neg paren, if_neg (by simpa using paren)]
    rfl

theorem callRound_call {ps : List Phrase} (accessed : accesses (upTo n) start t text s c = some (t', c'))
    (direct : Direct t') (reads : ∀ p ∈ ps, ReadsIn Closing.lexemes (argument (upTo n)) text (Setting.bracketed s) p)
    (enough : ps.length < s.bound) (reaches : c'.Reaches ('(' :: (joinTexts ps ++ ')' :: rest))) :
    ∃ ts c'' stop, callRound (upTo n) start t text s c =
        some (.again (.node (.call false) ⟨start, stop⟩ (t' :: ts)), c'') ∧
      ts.map Tree.shape = ps.map Phrase.shape ∧ c'.Passes c'' rest := by
  have lparen := (reaches.passes_mark (m := .lparen) rfl rfl).1
  obtain ⟨ts, c'', read, shapes, passes⟩ := arguments_phrases reads enough reaches
  refine ⟨ts, c'', c''.lastStop, ?_, shapes, passes⟩
  rw [callRound_of_accesses accessed (lparen ▸ List.mem_cons_self), if_pos lparen, read, direct.whole]
  rfl

theorem rounds_links (start : Nat) {links : List Link} (names : List Name.Word) {fuel : Nat} {l : Lexeme}
    (direct : Direct t)
    (enough : links.length < fuel) (room : names.length < s.bound) (fits : ∀ k ∈ links, k.Fits n text s)
    (closing : Closing l rest) (reaches : c.Reaches (memberTexts names ++ (links.flatMap Link.spelling ++ rest))) :
    ∃ t' c', rounds (callRound (upTo n) start) fuel t text s c = some (t', c') ∧
      t'.shape = links.foldl Link.onto (names.foldl memberShape t.shape) ∧ Direct t' ∧ c.Passes c' rest := by
  induction links generalizing fuel names t c with
  | nil =>
    obtain ⟨fuel, rfl⟩ : ∃ k, fuel = k + 1 := ⟨fuel - 1, by simp at enough; omega⟩
    obtain ⟨t', c', accessed, shape, direct', passes⟩ :=
      rounds_members (s := s) (upTo n) start direct room (.inl ⟨l, closing⟩) reaches
    refine ⟨t', c', ?_, shape, direct', passes⟩
    have closes : c'.cut.lexeme ∈ Closing.lexemes := closing.lexeme_eq passes.reaches ▸ closing.mem_lexemes
    have noCall : c'.cut.lexeme ≠ .mark .lparen := fun same => absurd (same ▸ closes) (by decide)
    have stopped : callRound (upTo n) start t text s c = some (.stop t', c') := by
      rw [callRound_of_accesses accessed (List.mem_cons_of_mem _ closes), if_neg noCall]
    rw [rounds, bind_of_eq stopped]
    rfl
  | cons k links ih =>
    obtain ⟨fuel, rfl⟩ : ∃ k, fuel = k + 1 := ⟨fuel - 1, by omega⟩
    obtain ⟨first, others⟩ := List.forall_mem_cons.mp fits
    have split : (k :: links).flatMap Link.spelling ++ rest = '(' :: (joinTexts k.arguments ++
        ')' :: (memberTexts k.members ++ (links.flatMap Link.spelling ++ rest))) := by
      simp [Link.spelling]
    rw [split] at reaches
    obtain ⟨t₁, c₁, accessed, shape, direct₁, passes⟩ :=
      rounds_members (s := s) (upTo n) start direct room (.inr ⟨_, rfl⟩) reaches
    obtain ⟨ts, c₂, stop, round, shapes, passes₂⟩ :=
      callRound_call accessed direct₁ first.reads first.arguments passes.reaches
    obtain ⟨t', c', more, shape', direct', passes'⟩ :=
      ih k.members (direct₁.call ⟨start, stop⟩ ts) (by simpa using enough) first.members others passes₂.reaches
    refine ⟨t', c', ?_, ?_, direct', (passes.trans passes₂).trans passes'⟩
    · rw [rounds, bind_of_eq round]
      exact more
    · rw [shape', Tree.shape, Tree.shapeList, shape, Tree.shapeList_eq_map, shapes]
      rfl

end

structure Chain where
  head : Phrase
  members : List Name.Word
  links : List Link

def Chain.tail (k : Chain) : List Char := memberTexts k.members ++ k.links.flatMap Link.spelling

def Chain.phrase (k : Chain) : Phrase :=
  ⟨k.head.text ++ k.tail, k.links.foldl Link.onto (k.members.foldl memberShape k.head.shape)⟩

theorem Chain.continues_tail (k : Chain) {l : Lexeme} (closing : Closing l rest) : Continues (k.tail ++ rest) := by
  have stops : StopsAccesses (k.links.flatMap Link.spelling ++ rest) := by
    cases k.links with
    | nil => exact .inl ⟨l, closing⟩
    | cons link links => exact .inr ⟨_, rfl⟩
  rw [Chain.tail, List.append_assoc]
  exact continues_memberTexts stops k.members

theorem length_le_length_flatMap {α : Type} {f : α → List Char} (filled : ∀ a, f a ≠ []) (as : List α) :
    as.length ≤ (as.flatMap f).length := by
  induction as with
  | nil => exact Nat.le_refl 0
  | cons a as ih =>
    have pos := List.length_pos_iff.mpr (filled a)
    rw [List.flatMap_cons, List.length_append, List.length_cons]
    omega

theorem length_le_of_mem {α : Type} {f : α → List Char} {a : α} {as : List α} (mem : a ∈ as) :
    (f a).length ≤ (as.flatMap f).length := by
  obtain ⟨before, after, rfl⟩ := List.append_of_mem mem
  simp only [List.flatMap_append, List.flatMap_cons, List.length_append]
  omega

theorem length_members_le (names : List Name.Word) : names.length ≤ (memberTexts names).length :=
  length_le_length_flatMap (fun _ => List.cons_ne_nil _ _) names

theorem length_joinTexts (ps : List Phrase) :
    ps.length ≤ (joinTexts ps).length + 1 ∧ ∀ p ∈ ps, p.text.length ≤ (joinTexts ps).length := by
  cases ps with
  | nil => simp
  | cons p ps =>
    have commas : ps.length ≤ (commaTexts ps).length := length_le_length_flatMap (fun _ => List.cons_ne_nil _ _) ps
    rw [joinTexts_cons, List.length_append, List.length_cons]
    refine ⟨by omega, fun q mem => ?_⟩
    rcases List.mem_cons.mp mem with rfl | mem
    · omega
    · have part : q.text.length + 2 ≤ (commaTexts ps).length :=
        length_le_of_mem (f := fun p : Phrase => ',' :: ' ' :: p.text) mem
      omega

theorem Link.length_lt (k : Link) : k.arguments.length < k.spelling.length ∧
    k.members.length < k.spelling.length ∧ ∀ p ∈ k.arguments, p.text.length + 2 ≤ k.spelling.length := by
  have members := length_members_le k.members
  have whole : k.spelling.length = (joinTexts k.arguments).length + (memberTexts k.members).length + 2 := by
    simp only [Link.spelling, List.length_cons, List.length_append]
    omega
  obtain ⟨count, each⟩ := length_joinTexts k.arguments
  refine ⟨by omega, by omega, fun p mem => ?_⟩
  have part := each p mem
  omega

section

variable {k : Chain} {follows : List Char → Prop}

theorem leftHand_chain {n : Nat} {l : Lexeme} (leads : Leads follows k.head) (fit : follows (k.tail ++ rest))
    (alone : ∀ link ∈ k.links, ∀ p ∈ link.arguments, Alone argument p)
    (room : k.phrase.text.length < s.bound) (goals : goalsPerCharacter * k.phrase.text.length ≤ n + 4)
    (closing : Closing l rest) (reaches : c.Reaches (k.phrase.text ++ rest)) :
    OpensOperand c ∧ ∃ t c', leftHand (upTo n) text s c = some (t, c') ∧
      t.shape = k.phrase.shape ∧ c.Passes c' rest := by
  have whole : k.phrase.text.length =
      k.head.text.length + ((memberTexts k.members).length + (k.links.flatMap Link.spelling).length) := by
    simp only [Chain.phrase, Chain.tail, List.length_append]
  have members := length_members_le k.members
  have links : k.links.length ≤ (k.links.flatMap Link.spelling).length :=
    length_le_length_flatMap (fun _ => List.cons_ne_nil _ _) k.links
  have heads := List.length_pos_iff.mpr leads.filled
  have fits : ∀ link ∈ k.links, link.Fits n text s := by
    intro link mem
    obtain ⟨arguments, names, each⟩ := link.length_lt
    have part := length_le_of_mem (f := Link.spelling) mem
    refine ⟨by omega, by omega, fun p given => ?_⟩
    have short := each p given
    refine alone link mem p given text (Setting.bracketed s) n (Nat.lt_of_lt_of_le ?_ (Nat.le_refl s.bound)) ?_
    · omega
    · unfold goalsPerCharacter at goals ⊢
      omega
  have stops : StopsAccesses (k.links.flatMap Link.spelling ++ rest) := by
    cases k.links with
    | nil => exact .inl ⟨l, closing⟩
    | cons link links => exact .inr ⟨_, rfl⟩
  rw [Chain.phrase, List.append_assoc] at reaches
  obtain ⟨opens, t₀, c₀, first, shape₀, direct₀, passes₀⟩ := leads.reads text _ s n c (by omega)
    (by unfold goalsPerCharacter at goals ⊢; omega) fit reaches
  have behind := passes₀.reaches
  rw [Chain.tail, List.append_assoc] at behind
  obtain ⟨t₁, c₁, accessed, shape₁, direct₁, passes₁⟩ := rounds_members (s := s) (upTo n)
    c.place.offset direct₀ (show _ < s.bound by omega) stops behind
  obtain ⟨t₂, c₂, called, shape₂, direct₂, passes₂⟩ := rounds_links (s := s) c.place.offset []
    direct₁ (show _ < s.bound by omega) (by rw [List.length_nil]; omega) fits closing passes₁.reaches
  refine ⟨opens, t₂, c₂, ?_, ?_, (passes₀.trans passes₁).trans passes₂⟩
  · have accesses : memberAccess (upTo n) text s c = some (t₁, c₁) := by
      rw [memberAccess, bind_of_eq here_apply, bind_of_eq first]
      exact accessed
    have found : calls (upTo n) c.place.offset t₁ text s c₁ = some (t₂, c₂) := called
    rw [leftHand, bind_of_eq here_apply, bind_of_eq accesses, bind_of_eq found, direct₂.required]
    rfl
  · rw [shape₂, List.foldl_nil, shape₁, shape₀]
    rfl

theorem alone_chain (leads : Leads follows k.head)
    (fit : ∀ l rest, Closing l rest → follows (k.tail ++ rest))
    (alone : ∀ link ∈ k.links, ∀ p ∈ link.arguments, Alone argument p) :
    Alone oneExpression k.phrase := by
  intro text s n room goals c rest l _ closing reaches
  have heads : 1 ≤ k.phrase.text.length := by
    have pos := List.length_pos_iff.mpr leads.filled
    simp only [Chain.phrase, List.length_append]
    omega
  obtain ⟨m, rfl⟩ : ∃ m, n = m + 4 := ⟨n - 4, by unfold goalsPerCharacter at goals; omega⟩
  obtain ⟨opens, t, c', left, shape, passes⟩ :=
    leftHand_chain leads (fit l rest closing) alone room goals closing reaches
  have closed : ReadsUpToClosing (upTo (m + 1) .leftHand) text s c := by
    intro t₁ c₁ read
    obtain ⟨-, rfl⟩ := Prod.mk.inj (Option.some.inj (left.symm.trans read))
    exact closing.lexeme_eq passes.reaches ▸ closing.mem_lexemes
  exact ⟨t, c', (upTo_assignment_eq (m + 1) true (by omega) opens closed).trans left, shape, passes⟩

end

theorem alone_argument {p : Phrase} (alone : Alone oneExpression p) : Alone argument p := by
  intro text s n room goals c rest l mem closing reaches
  obtain ⟨t, c', read, shape, passes⟩ := alone text s n room goals c rest l mem closing reaches
  refine ⟨t, c', ?_, shape, passes⟩
  have dots : eat .ellipsis text s c = some (false, c) := by
    rw [eat_apply, if_neg]
    intro same
    have rejected : oneExpression (upTo n) text s c = none :=
      upTo_assignment_rejects (by rw [beq_iff_eq.mp same]; exact List.mem_cons_self) (by omega) n true
    rw [rejected] at read
    cases read
  rw [argument, bind_of_eq here_apply, bind_of_eq dots]
  exact read

theorem alone_spread {p : Phrase} (alone : Alone oneExpression p) :
    Alone argument ⟨'.' :: '.' :: '.' :: p.text, .node .spread [p.shape]⟩ := by
  intro text s n room goals c rest l mem closing reaches
  obtain ⟨cut, next⟩ := reaches.passes_cut (k := ⟨.mark .ellipsis, ['.', '.', '.'], p.text ++ rest, false⟩)
    ⟨'.', '.' :: '.' :: (p.text ++ rest), rfl, rfl⟩ rfl
  have fits : p.text.length < s.bound ∧ goalsPerCharacter * p.text.length ≤ n := by
    simp only [List.length_cons] at room goals
    unfold goalsPerCharacter at goals ⊢
    omega
  obtain ⟨t, c', read, shape, passes⟩ := alone text s n fits.1 fits.2 c.next rest l mem closing next.reaches
  have dots : eat .ellipsis text s c = some (true, c.next) := by
    rw [eat_apply, cut]
    rfl
  refine ⟨.node .spread ⟨c.place.offset, c'.lastStop⟩ [t], c', ?_, ?_, next.trans passes⟩
  · rw [argument, bind_of_eq here_apply, bind_of_eq dots, if_pos rfl]
    change (oneExpression (upTo n) >>= _) text s c.next = _
    rw [bind_of_eq read]
    rfl
  · rw [Tree.shape, Tree.shapeList, shape]
    rfl

end Grammar

end VueOptions.Script
