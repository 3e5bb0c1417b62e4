import VueOptions.Proofs.Script.Arguments

/-!
Phrases as statements and as keys. A call of a member of `this` is one statement wherever it stands at the end of a
body, and the only one of the module it is the text of. Any phrase that stands alone is a key between brackets.
-/

set_option autoImplicit false

namespace VueOptions.Script

open Text

namespace Grammar

open Parse

variable {text rest : List Char} {s : Setting} {c c' : Cursor text}

/-- What stands behind the last statement of a body or of a module. -/
def bodyClosers : List Lexeme := [.mark .rbrace, .endOfText]

/-- Wherever the phrase stands at the end of a body or a module, it is one statement. -/
def IsStatement (p : Phrase) : Prop :=
  ∀ (text : List Char) (s : Setting) (n : Nat), p.text.length < s.bound →
    goalsPerCharacter * (p.text.length + 1) ≤ n → ReadsIn bodyClosers (upTo n (.statement false)) text s p

theorem expression_single {m : Nat} {t : Tree} (read : oneExpression (upTo m) text s c = some (t, c'))
    (other : c'.cut.lexeme ≠ .mark .comma) : upTo (m + 1) .expression text s c = some (t, c') := by
  have comma : sees .comma text s c' = some (false, c') := by
    rw [sees_eq, beq_eq_false_iff_ne.mpr other]
  change expression (upTo m) text s c = _
  rw [expression, bind_of_eq here_apply]
  change (oneExpression (upTo m) >>= _) text s c = _
  rw [bind_of_eq read, bind_of_eq comma]
  rfl

theorem semicolon_free (may : c.afterBreak = true ∨ c.cut.lexeme ∈ bodyClosers)
    (other : c.cut.lexeme ≠ .mark .semicolon) : semicolon text s c = some ((), c) := by
  have none : eat .semicolon text s c = some (false, c) := by
    rw [eat_apply, beq_eq_false_iff_ne.mpr other, if_neg (by decide)]
  have ends : mayEndHere text s c = some (true, c) := by
    change some (c.afterBreak || c.cut.lexeme == .mark .rbrace || c.cut.lexeme == .endOfText
      || c.cut.lexeme == .mark .semicolon, c) = _
    simp only [bodyClosers, List.mem_cons, List.not_mem_nil, or_false] at may
    rcases may with breaks | same | same
    · simp [breaks]
    · simp [same]
    · simp [same]
  rw [semicolon, bind_of_eq none, if_neg (by decide), bind_of_eq ends]
  rfl

def StartsWithThis (cs : List Char) : Prop := ∃ more, cs = "this".toList ++ '.' :: more

theorem StartsWithThis.lexeme {cs : List Char} (starts : StartsWithThis cs) (reaches : c.Reaches (cs ++ rest)) :
    c.cut.lexeme = .keyword .this_ := by
  obtain ⟨more, rfl⟩ := starts
  have word : Name.EndsName ('.' :: more ++ rest) := by
    rintro d ⟨⟩
    decide
  rw [List.append_assoc] at reaches
  rw [(reaches.passes_word (by decide) word).1]
  rfl

theorem exists_expressionStatement {m : Nat} {t : Tree} {children : List Shape} {c'' : Cursor text}
    (read : oneExpression (upTo m) text s c = some (t, c')) (other : c'.cut.lexeme ≠ .mark .comma)
    (call : t.shape = .node (.call false) children) (ended : semicolon text s c' = some ((), c'')) :
    ∃ u, expressionStatement (upTo (m + 1)) text s c = some (u, c'') ∧
      u.shape = .node .expressionStatement [t.shape] := by
  have kind : t.kind = .call false := by
    cases t with
    | node k span children => exact (Shape.node.inj call).1
  refine ⟨.node .expressionStatement ⟨c.place.offset, c''.lastStop⟩ [t], ?_, rfl⟩
  rw [expressionStatement, bind_of_eq here_apply, bind_of_eq (expression_single read other), kind]
  change (semicolon >>= _) text s c' = _
  rw [bind_of_eq ended]
  rfl

theorem isStatement_of_this {p : Phrase} {children : List Shape} (alone : Alone oneExpression p)
    (starts : StartsWithThis p.text) (call : p.shape = .node (.call false) children) :
    IsStatement ⟨p.text, .node .expressionStatement [p.shape]⟩ := by
  intro text s n room goals c rest l mem closing reaches
  obtain ⟨m, rfl⟩ : ∃ m, n = m + 2 := ⟨n - 2, by unfold goalsPerCharacter at goals; omega⟩
  have last : l ∈ Closing.lexemes := closing.mem_lexemes
  obtain ⟨t, c', read, shape, passes⟩ :=
    alone text s m room (by unfold goalsPerCharacter at goals ⊢; dsimp only at goals; omega) c rest l last
      closing reaches
  have this := starts.lexeme reaches
  have sees : c'.cut.lexeme = l := closing.lexeme_eq passes.reaches
  have apart : ∀ l ∈ bodyClosers, l ≠ .mark .comma ∧ l ≠ .mark .semicolon := by decide
  have ended : semicolon text s c' = some ((), c') :=
    semicolon_free (.inr (by rw [sees]; exact mem)) (by rw [sees]; exact (apart l mem).2)
  obtain ⟨u, whole, same⟩ :=
    exists_expressionStatement read (by rw [sees]; exact (apart l mem).1) (shape.trans call) ended
  refine ⟨u, c', ?_, by rw [same, shape], passes⟩
  change statement (upTo (m + 1)) false text s c = _
  rw [statement, bind_of_eq here_apply, bind_of_eq (lexeme_eq (c := c)), this]
  exact whole

def isDirective : Shape → Bool
  | .node .expressionStatement [.node (.string _) _] => true
  | _ => false

theorem markDirectives_cons {t : Tree} (plain : isDirective t.shape = false) (ts : List Tree) :
    markDirectives (t :: ts) = t :: ts := by
  unfold markDirectives
  split
  · next same =>
    cases same
    cases plain
  · rfl

def moduleSetting (bound : Nat) : Setting := { bound := bound, inAsync := true }

def moduleRound (g : Grammar) (found : List Tree) : Parse (Round (List Tree)) := do
  if (← lexeme) == .endOfText then return .stop found
  return .again ((← spanning (g (.statement false))) :: found)

theorem moduleRound_end (ended : c.cut.lexeme = .endOfText) (g : Grammar) (found : List Tree) :
    moduleRound g found text s c = some (.stop found, c) := by
  rw [moduleRound, bind_of_eq (lexeme_eq (c := c)), ended]
  rfl

theorem exists_moduleRound {n : Nat} {t : Tree} (more : (c.cut.lexeme == .endOfText) = false)
    (read : upTo n (.statement false) text s c = some (t, c')) (taken : c.place.offset < c'.lastStop)
    (found : List Tree) :
    ∃ u, moduleRound (upTo n) found text s c = some (.again (u :: found), c') ∧ u.shape = t.shape := by
  refine ⟨.node t.kind ⟨c.place.offset, c'.lastStop⟩ t.children, ?_, by cases t; rfl⟩
  have spanned : spanning (upTo n (.statement false)) text s c =
      some (.node t.kind ⟨c.place.offset, c'.lastStop⟩ t.children, c') := by
    rw [spanning, bind_of_eq here_apply, bind_of_eq read, bind_of_eq lastStop_apply, if_pos taken]
    rfl
  rw [moduleRound, bind_of_eq (lexeme_eq (c := c)), more, if_neg (by decide), bind_of_eq spanned]
  rfl

theorem reaches_start (opening : (Passage.opening text).after = text) : (Cursor.start text).Reaches text := by
  have reaches : (Cursor.start text).Reaches (Passage.opening text).after := ⟨rfl, rfl⟩
  rwa [opening] at reaches

/-- A text is a module if rounds from its start read all of it, and the first statement is no directive. -/
theorem ofModule?_of_rounds {ts : List Tree}
    (read : rounds (moduleRound (upTo (goalsPerCharacter * (text.length + 2)))) (text.length + 2) [] text
      (moduleSetting (text.length + 2)) (Cursor.start text) = some (ts.reverse, c))
    (passes : (Cursor.start text).Passes c []) (plain : ∀ t ∈ ts.head?, isDirective t.shape = false) :
    Tree.ofModule? text = some (.node .moduleBody ⟨0, byteLength text⟩ ts) := by
  have marked : markDirectives ts = ts := by
    cases ts with
    | nil => rfl
    | cons t ts => exact markDirectives_cons (plain t rfl) ts
  have repeated : repeatFrom [] (moduleRound (upTo (goalsPerCharacter * (text.length + 2)))) text
      (moduleSetting (text.length + 2)) (Cursor.start text) = some (ts.reverse, c) := read
  have statements : moduleStatements (upTo (goalsPerCharacter * (text.length + 2))) text
      (moduleSetting (text.length + 2)) (Cursor.start text) = some (ts, c) := by
    rw [moduleStatements]
    change (repeatFrom [] (moduleRound (upTo (goalsPerCharacter * (text.length + 2)))) >>= _) text _ _ = _
    rw [bind_of_eq repeated, List.reverse_reverse, marked]
    rfl
  have flawed : c.isFlawed = false := passes.isFlawed
  have unclaimed : c.unclaimed = [] := passes.unclaimed
  have setting : ({ bound := text.length + 2, inAsync := true } : Setting) = moduleSetting (text.length + 2) := rfl
  simp only [Tree.ofModule?, Reading.ofModule?, setting, statements, flawed, unclaimed]
  rfl

theorem exists_module_of_call {p : Phrase} (statement : IsStatement p) (starts : StartsWithThis p.text)
    (plain : isDirective p.shape = false) :
    ∃ t, Tree.ofModule? p.text = some t ∧ t.shape = .node .moduleBody [p.shape] := by
  have opening : (Passage.opening p.text).after = p.text := by
    obtain ⟨more, same⟩ := starts
    rw [same]
    rfl
  have start : (Cursor.start p.text).Reaches (p.text ++ []) := by
    rw [List.append_nil]
    exact reaches_start opening
  obtain ⟨t, c', read, shape, passes⟩ := statement p.text (moduleSetting (p.text.length + 2))
    (goalsPerCharacter * (p.text.length + 2)) (show p.text.length < p.text.length + 2 by omega)
    (by unfold goalsPerCharacter; omega) (Cursor.start p.text) [] .endOfText (by decide) .endOfText start
  have ended : c'.cut.lexeme = .endOfText := Closing.endOfText.lexeme_eq passes.reaches
  have this := starts.lexeme start
  have taken : (Cursor.start p.text).place.offset < c'.lastStop := by
    rcases passes.taken with same | taken
    · rw [same, this] at ended
      cases ended
    · exact taken
  obtain ⟨u, round, same⟩ := exists_moduleRound (by rw [this]; rfl) read taken []
  have read : rounds (moduleRound (upTo (goalsPerCharacter * (p.text.length + 2)))) (p.text.length + 2) [] p.text
      (moduleSetting (p.text.length + 2)) (Cursor.start p.text) = some ([u].reverse, c') := by
    rw [rounds, bind_of_eq round]
    change rounds _ (p.text.length + 1) [u] _ _ c' = _
    rw [rounds, bind_of_eq (moduleRound_end ended _ _)]
    rfl
  refine ⟨_, ofModule?_of_rounds read passes ?_, by rw [Tree.shape, Tree.shapeList, same, shape]; rfl⟩
  rintro _ ⟨⟩
  rwa [same, shape]

theorem key_computed {p : Phrase} {n : Nat} (alone : Alone oneExpression p) (room : p.text.length < s.bound)
    (goals : goalsPerCharacter * p.text.length ≤ n) (reaches : c.Reaches ('[' :: (p.text ++ ']' :: rest))) :
    ∃ t c', key (upTo n) text s c = some (t, c') ∧ t.shape = .node (.key true) [p.shape] ∧ c.Passes c' rest := by
  obtain ⟨lbrack, opened⟩ := reaches.passes_mark (m := .lbrack) rfl rfl
  obtain ⟨t, c₁, read, shape, passes⟩ := alone text (Setting.bracketed s) n room goals c.next _ _
    (Closing.rbrack rest).mem_lexemes (.rbrack rest) opened.reaches
  obtain ⟨rbrack, closed⟩ := passes.reaches.passes_mark (m := .rbrack) rfl rfl
  have computed : computedKey (upTo n) text s c = some (t, c₁.next) := by
    rw [computedKey, bind_of_eq (expect_apply lbrack)]
    change (within Setting.bracketed (oneExpression (upTo n)) >>= _) text s c.next = _
    rw [bind_of_eq (show within Setting.bracketed (oneExpression (upTo n)) text s c.next = some (t, c₁) from read),
      bind_of_eq (expect_apply rbrack)]
    rfl
  refine ⟨.node (.key true) ⟨c.place.offset, c₁.next.lastStop⟩ [t], c₁.next, ?_, ?_,
    (opened.trans passes).trans closed⟩
  · rw [key, bind_of_eq here_apply, bind_of_eq (lexeme_eq (c := c)), lbrack]
    change (computedKey (upTo n) >>= _) text s c = _
    rw [bind_of_eq computed]
    rfl
  · rw [Tree.shape, Tree.shapeList, shape]
    rfl

end Grammar

end VueOptions.Script
