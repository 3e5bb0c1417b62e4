import VueOptions.Proofs.Script.FunctionTexts

/-!
Statements of a module in place. A statement on lines of its own is read before any text if only the first lexeme
behind it counts. Statements that are read so one behind another make a module, which has one statement for each.
-/

set_option autoImplicit false

namespace VueOptions.Script

open Text

namespace Grammar

open Parse

variable {text rest : List Char} {s : Setting} {c c' : Cursor text} {l : Lexeme}

/-- On lines of its own, and before a text, the phrase is one statement of a module. -/
def ReadsBefore (rest : List Char) (p : Phrase) : Prop :=
  ∀ (text : List Char) (bound n : Nat) (c : Cursor text), p.text.length + 1 < bound →
    goalsPerCharacter * (p.text.length + 1) ≤ n → c.Reaches (p.text ++ '\n' :: rest) →
    ∃ t c', upTo n (.statement false) text (moduleSetting bound) c = some (t, c') ∧ t.shape = p.shape ∧
      c.Passes c' rest ∧ c.place.offset < c'.lastStop

/-- On lines of its own, and before any text with that first lexeme, the phrase is one statement of a module. -/
def StandsBefore (l : Lexeme) (p : Phrase) : Prop := ∀ rest, firstLexeme rest = l → ReadsBefore rest p

theorem goals_left {k n : Nat} (goals : goalsPerCharacter * (k + 1) ≤ n) :
    ∃ m, n = m + 8 ∧ goalsPerCharacter * k ≤ m :=
  ⟨n - 8, by unfold goalsPerCharacter at goals; omega, by unfold goalsPerCharacter at goals ⊢; omega⟩

def EachStands : List Indented → Prop
  | [] => True
  | i :: items => ReadsBefore (lineEnded items) i.phrase ∧ EachStands items

theorem ReadsBefore.lexeme_ne {p : Phrase} (reads : ReadsBefore rest p) (reaches : c.Reaches (p.text ++ '\n' :: rest)) :
    (c.cut.lexeme == .endOfText) = false := by
  rw [beq_eq_false_iff_ne]
  intro same
  obtain ⟨t, c', read, -⟩ := reads text (p.text.length + 2) (goalsPerCharacter * (p.text.length + 1)) c
    (by omega) (Nat.le_refl _) reaches
  rw [statement_rejects (by rw [same]; decide) (show 1 ≤ p.text.length + 2 by omega)] at read
  cases read

theorem rounds_statements {items : List Indented} (stands : EachStands items) (fuel bound n : Nat)
    (enough : items.length < fuel) (room : (lineEnded items).length < bound)
    (goals : goalsPerCharacter * (lineEnded items).length ≤ n) (reaches : c.Reaches (lineEnded items))
    (found : List Tree) :
    ∃ (ts : List Tree) (c' : Cursor text),
      rounds (moduleRound (upTo n)) fuel found text (moduleSetting bound) c = some (ts.reverse ++ found, c') ∧
      ts.map Tree.shape = items.map (fun i => i.phrase.shape) ∧ c.Passes c' [] := by
  induction items generalizing fuel c found with
  | nil =>
    obtain ⟨fuel, rfl⟩ : ∃ k, fuel = k + 1 := ⟨fuel - 1, by simp at enough; omega⟩
    have ends : c.cut.lexeme = .endOfText := by rw [reaches.cut]; rfl
    refine ⟨[], c, ?_, rfl, .refl reaches⟩
    rw [rounds, bind_of_eq (moduleRound_end ends _ found)]
    rfl
  | cons i items ih =>
    obtain ⟨fuel, rfl⟩ : ∃ k, fuel = k + 1 := ⟨fuel - 1, by omega⟩
    obtain ⟨first, others⟩ := stands
    rw [lineEnded_cons] at room goals
    rw [lineEnded_cons, Cursor.reaches_blanks i.blank] at reaches
    simp only [List.length_append, List.length_cons] at room goals enough
    obtain ⟨t, c₁, read, shape, passes, taken⟩ := first text bound n c (by omega)
      (by unfold goalsPerCharacter at goals ⊢; omega) reaches
    obtain ⟨u, round, same⟩ := exists_moduleRound (first.lexeme_ne reaches) read taken found
    obtain ⟨ts, c₂, more, shapes, passes'⟩ := ih others fuel (by omega) (by omega)
      (by unfold goalsPerCharacter at goals ⊢; omega) passes.reaches (u :: found)
    refine ⟨u :: ts, c₂, ?_, by rw [List.map_cons, List.map_cons, same, shape, shapes], passes.trans passes'⟩
    rw [rounds, bind_of_eq round]
    simpa using more

theorem exists_module {i : Indented} {items : List Indented} (stands : EachStands (i :: items))
    (plain : isDirective i.phrase.shape = false)
    (opening : (Passage.opening (lineEnded (i :: items))).after = lineEnded (i :: items)) :
    ∃ t, Tree.ofModule? (lineEnded (i :: items)) = some t ∧
      t.shape = .node .moduleBody ((i :: items).map fun i => i.phrase.shape) := by
  have count : (i :: items).length ≤ (lineEnded (i :: items)).length :=
    length_le_length_flatMap (by simp) (i :: items)
  obtain ⟨ts, c, read, shapes, passes⟩ := rounds_statements stands ((lineEnded (i :: items)).length + 2)
    ((lineEnded (i :: items)).length + 2) (goalsPerCharacter * ((lineEnded (i :: items)).length + 2)) (by omega)
    (by omega) (by unfold goalsPerCharacter; omega) (reaches_start opening) []
  rw [List.append_nil] at read
  refine ⟨_, ofModule?_of_rounds read passes fun t first => ?_, by rw [Tree.shape, Tree.shapeList_eq_map, shapes]⟩
  cases ts with
  | nil => cases first
  | cons u ts =>
    obtain rfl := Option.some.inj first
    rwa [(List.cons.inj shapes).1]

theorem moduleName_of_identifierName (other : ∀ value, c.cut.lexeme ≠ .string value) :
    moduleName text s c = identifierName text s c := by
  rw [moduleName, bind_of_eq (lexeme_eq (c := c))]
  change (fun p : Parse Tree => p text s c) _ = _
  split
  · next same => exact absurd same (other _)
  · rfl

theorem readsIn_specifier (w : Name.Word) :
    ReadsIn Closing.lexemes (specifier .importSpecifier) text s
      ⟨w.text.toList, .node (.importSpecifier false) [.node (.identifier w) []]⟩ := by
  intro c rest l mem closing reaches
  obtain ⟨cut, passes⟩ := reaches.passes_word w.isWord closing.apart.1
  have named : c.cut.lexeme = Lexeme.ofName w.text.toList := by rw [cut]
  have sees : c.next.cut.lexeme = l := closing.lexeme_eq passes.reaches
  have other (k : Keyword) : (c.next.cut.lexeme == .keyword k) = false := by
    rw [sees, beq_eq_false_iff_ne]
    rintro rfl
    exact absurd mem (by simp [Closing.lexemes])
  have unmarked : marksType text s c = some (false, c) := by
    rw [marksType, bind_of_eq (seesWord_apply .type)]
    split
    · refine afterNext_of_eq ?_
      rw [bind_of_eq (seesWord_apply .as_), other, if_neg (by decide), bind_of_eq token_apply, bind_of_eq token_apply]
      have kinds : ∀ l ∈ Closing.lexemes, ∀ span b e,
          ((⟨l, span, b, e⟩ : Token).word?.isSome || (⟨l, span, b, e⟩ : Token).isString) = false := by
        simp [Closing.lexemes, Token.word?, Token.isString]
      exact congrArg (fun b => some (b, c.next)) (kinds _ (sees ▸ mem) _ _ _)
    · rfl
  have name : moduleName text s c = some (.node (.identifier w) ⟨c.place.offset, c.next.lastStop⟩ [], c.next) := by
    rw [moduleName_of_identifierName, identifierName_word named]
    intro value same
    rw [named, Lexeme.ofName] at same
    split at same <;> cases same
  have last : eatWord .as_ text s c.next = some (false, c.next) := by
    rw [eatWord, bind_of_eq (seesWord_apply .as_), other]
    rfl
  refine ⟨.node (.importSpecifier false) ⟨c.place.offset, c.next.lastStop⟩
    [.node (.identifier w) ⟨c.place.offset, c.next.lastStop⟩ []], c.next, ?_, rfl, passes⟩
  rw [specifier, bind_of_eq here_apply, bind_of_eq unmarked, if_neg (by decide)]
  change (moduleName >>= _) text s c = _
  rw [bind_of_eq name, bind_of_eq last]
  rfl

theorem specifier_rejects (makeKind : Bool → Kind) (sees : c.cut.lexeme = .mark .rbrace) :
    specifier makeKind text s c = none := by
  have unmarked : marksType text s c = some (false, c) := by
    rw [marksType, bind_of_eq (seesWord_apply .type), sees]
    rfl
  have none : moduleName text s c = none := by
    rw [moduleName_of_identifierName (by simp [sees]), identifierName_rejects sees]
  rw [specifier, bind_of_eq here_apply, bind_of_eq unmarked, if_neg (by decide)]
  change (moduleName >>= _) text s c = _
  rw [bind_apply, none]
  rfl

theorem checkImported_of_shape {t : Tree} {w : Name.Word} {isType : Bool}
    (shape : t.shape = .node (.importSpecifier isType) [.node (.identifier w) []]) :
    checkImported t = (Keyword.ofSpelling? w.text.toList).any Keyword.isReserved := by
  match t, shape with
  | .node _ _ [.node _ _ []], rfl =>
    simp only [checkImported, Tree.children, List.getLast?_singleton]
    cases Keyword.ofSpelling? w.text.toList <;> rfl

def fromText (source : String) : List Char := ' ' :: ("from".toList ++ (' ' :: (singleQuoted source).toList))

def importOf (isType : Bool) (w : Name.Word) (source : String) : Phrase :=
  ⟨"import".toList ++ (' ' :: ((if isType then "type".toList ++ [' '] else []) ++
      ('\x7b' :: ' ' :: (w.text.toList ++ (' ' :: '\x7d' :: fromText source))))),
    .node (.importDeclaration isType)
      [.node (.importSpecifier false) [.node (.identifier w) []], .node (.string source) []]⟩

theorem importClause_name {w : Name.Word} (binds : (Keyword.ofSpelling? w.text.toList).any Keyword.isReserved = false)
    (bound : 2 ≤ s.bound) (reaches : c.Reaches ('\x7b' :: ' ' :: (w.text.toList ++ (' ' :: '\x7d' :: rest)))) :
    ∃ ts c', importClause text s c = some (ts, c') ∧
      ts.map Tree.shape = [.node (.importSpecifier false) [.node (.identifier w) []]] ∧ c.Passes c' rest := by
  obtain ⟨lbrace, opened⟩ := reaches.passes_mark (m := .lbrace) rfl rfl
  have inside : c.next.Reaches (joinTexts [⟨w.text.toList,
      .node (.importSpecifier false) [.node (.identifier w) []]⟩] ++ (' ' :: '\x7d' :: rest)) := by
    simpa [joinTexts, List.intercalate] using (opened.blank (by decide)).reaches
  obtain ⟨ts, c₁, read, shapes, passes⟩ := commaSeparated_phrases (s := s)
    (fun c => specifier_rejects .importSpecifier) (by decide)
    (List.forall_mem_singleton.mpr (readsIn_specifier w)) (.blank (by decide) (.rbrace rest)) bound inside
  have behind := passes.blank (by decide)
  obtain ⟨rbrace, closed⟩ := behind.reaches.passes_mark (m := .rbrace) rfl rfl
  have checked : ts.any checkImported = false := by
    obtain ⟨t, rfl, shape⟩ := List.map_eq_singleton_iff.mp shapes
    rw [List.any_cons, List.any_nil, Bool.or_false, ← binds]
    exact checkImported_of_shape shape
  have names : importNames text s c = some (ts, c₁.next) := by
    rw [importNames, bind_of_eq (expect_apply lbrace), bind_of_eq read, bind_of_eq (expect_apply rbrace), checked]
    rfl
  have noComma : eat .comma text s c = some (false, c) := by
    rw [eat_apply, lbrace]
    rfl
  have unbound : c.token.namesBinding = false := by
    rw [Token.namesBinding, Cursor.token, lbrace]
  refine ⟨ts, c₁.next, ?_, shapes, (opened.trans behind).trans closed⟩
  rw [importClause, bind_of_eq token_apply, unbound, if_neg (by decide)]
  change (eat .comma >>= _) text s c = _
  rw [bind_of_eq noComma, if_neg (by decide), bind_of_eq (sees_eq .star), lbrace, if_neg (by decide), bind_of_eq names]
  rfl

theorem fromClause_source {source : String} (inLine : ∀ c ∈ source.toList, c ≠ '\n' ∧ c ≠ '\r')
    (noWith : firstLexeme rest ≠ .keyword .with_)
    (reaches : c.Reaches (fromText source ++ '\n' :: rest)) :
    ∃ t c', fromClause text s c = some ([t], c') ∧ t.shape = .node (.string source) [] ∧ c'.afterBreak = true ∧
      c.Passes c' rest := by
  have start : c.Reaches ("from".toList ++ (' ' :: ((singleQuoted source).toList ++ '\n' :: rest))) := by
    rw [fromText, List.cons_append, Cursor.reaches_blank (by decide), List.append_assoc] at reaches
    exact reaches
  obtain ⟨word, passes⟩ := start.passes_word (by decide) (by rintro d ⟨⟩; decide)
  have behind := passes.blank (by decide)
  obtain ⟨cut, closed⟩ := behind.reaches.passes_cut (startsToken_singleQuoted source _)
    (Lexeme.cut_singleQuoted inLine ('\n' :: rest))
  have breaks : c.next.next.afterBreak = true := Cursor.afterBreak_next cut rfl
  have ended := closed.blank (by decide)
  have literal : stringLiteral text s c.next =
      some (.node (.string source) ⟨c.next.place.offset, c.next.next.lastStop⟩ [], c.next.next) := by
    rw [stringLiteral, bind_of_eq (lexeme_eq (c := c.next)), cut]
    rfl
  have plain : attributes? text s c.next.next = some ([], c.next.next) := by
    have other : (c.next.next.cut.lexeme == .keyword .with_) = false := by
      rw [ended.reaches.lexeme_eq_first, beq_eq_false_iff_ne]
      exact noWith
    rw [attributes?, bind_of_eq (seesWord_apply .with_), other, bind_of_eq (seesWord_apply .assert),
      bind_of_eq afterBreak_apply, breaks, Bool.not_true, Bool.and_false, Bool.or_false, if_neg (by decide)]
    rfl
  refine ⟨.node (.string source) ⟨c.next.place.offset, c.next.next.lastStop⟩ [], c.next.next, ?_, rfl, breaks,
    behind.trans ended⟩
  rw [fromClause, bind_of_eq (expectWord_apply (by rw [word]; rfl) (by rw [word])), bind_of_eq literal,
    bind_of_eq plain]
  rfl

def importRest (start : Nat) (isType : Bool) : Parse Tree := do
  let isPhase ← if (← seesWord .defer) || (← seesWord .source) then marksImport else pure false
  if isPhase then takeWord
  if (← token).namesBinding && (← afterNext (sees .eq)) then
    let name ← bindingName
    expect .eq
    let source ← moduleReference
    semicolon
    return ← node start (.importEquals isType) [name, source]
  let names ← importClause
  let source ← fromClause
  semicolon
  node start (.importDeclaration isType) (names ++ source)

theorem importRest_name {w : Name.Word} {source : String}
    (binds : (Keyword.ofSpelling? w.text.toList).any Keyword.isReserved = false)
    (inLine : ∀ c ∈ source.toList, c ≠ '\n' ∧ c ≠ '\r') (noWith : firstLexeme rest ≠ .keyword .with_)
    (free : firstLexeme rest ≠ .mark .semicolon) (bound : 2 ≤ s.bound) (start : Nat) (isType : Bool)
    (reaches : c.Reaches ('\x7b' :: ' ' :: (w.text.toList ++ (' ' :: '\x7d' :: (fromText source ++ '\n' :: rest))))) :
    ∃ t c', importRest start isType text s c = some (t, c') ∧ t.shape = (importOf isType w source).shape ∧
      c.Passes c' rest := by
  obtain ⟨names, c₁, clause, shapes, passes⟩ := importClause_name (s := s) binds bound reaches
  obtain ⟨t, c₂, named, shape, breaks, passes'⟩ := fromClause_source (s := s) inLine noWith passes.reaches
  have lbrace := (reaches.passes_mark (m := .lbrace) rfl rfl).1
  have unbound : c.token.namesBinding = false := by
    rw [Token.namesBinding, Cursor.token, lbrace]
  have ended : semicolon text s c₂ = some ((), c₂) :=
    semicolon_free (.inl breaks) (by rw [passes'.reaches.lexeme_eq_first]; exact free)
  refine ⟨.node (.importDeclaration isType) ⟨start, c₂.lastStop⟩ (names ++ [t]), c₂, ?_, ?_, passes.trans passes'⟩
  · rw [importRest, bind_of_eq (seesWord_apply .defer), bind_of_eq (seesWord_apply .source), lbrace, if_neg (by decide),
      bind_of_eq (pure_apply false)]
    change (token >>= _) text s c = _
    rw [bind_of_eq token_apply, unbound, bind_of_eq (afterNext_of_eq (sees_eq .eq)), Bool.false_and, if_neg (by decide)]
    rw [bind_of_eq clause, bind_of_eq named, bind_of_eq ended]
    rfl
  · rw [Tree.shape, Tree.shapeList_eq_map, List.map_append, shapes, List.map_cons, shape]
    rfl

theorem importDeclaration_eq (isType : Bool) {more : List Char}
    (expected : expectWord .import_ text s c = some ((), c.next))
    (reaches : c.next.Reaches ((if isType then "type ".toList else []) ++ '\x7b' :: more)) :
    importDeclaration text s c =
        importRest c.place.offset isType text s (if isType then c.next.next else c.next) ∧
      afterNext (seesAny [.lparen, .dot]) text s c = some (false, c) ∧
      c.next.Passes (if isType then c.next.next else c.next) ('\x7b' :: more) := by
  cases isType with
  | false =>
    have lbrace := (reaches.passes_mark (m := .lbrace) rfl rfl).1
    refine ⟨?_, afterNext_of_eq (by rw [seesAny_apply, lbrace]; rfl), .refl reaches⟩
    rw [importDeclaration, bind_of_eq here_apply, bind_of_eq expected, bind_of_eq (lexeme_eq (c := c.next)), lbrace]
    change (seesWord .type >>= _) text s c.next = _
    rw [bind_of_eq (seesWord_apply .type), lbrace]
    rfl
  | true =>
    obtain ⟨type, typed⟩ := reaches.passes_word (w := "type".toList) (by decide) (by rintro d ⟨⟩; decide)
    have behind := typed.blank (by decide)
    have lbrace := (behind.reaches.passes_mark (m := .lbrace) rfl rfl).1
    have marks : marksImport text s c.next = some (true, c.next) := by
      refine afterNext_of_eq ?_
      rw [bind_of_eq (seesAny_apply _), lbrace]
      rfl
    refine ⟨?_, afterNext_of_eq (by rw [seesAny_apply, type]; rfl), behind⟩
    rw [importDeclaration, bind_of_eq here_apply, bind_of_eq expected, bind_of_eq (lexeme_eq (c := c.next)), type]
    change (seesWord .type >>= _) text s c.next = _
    rw [bind_of_eq (seesWord_apply .type), type]
    change (marksImport >>= _) text s c.next = _
    rw [bind_of_eq marks]
    change (takeWord >>= _) text s c.next = _
    rw [bind_of_eq (takeWord_apply (by rw [type]))]
    rfl

theorem standsBefore_import {isType : Bool} {w : Name.Word} {source : String}
    (binds : (Keyword.ofSpelling? w.text.toList).any Keyword.isReserved = false)
    (inLine : ∀ c ∈ source.toList, c ≠ '\n' ∧ c ≠ '\r') (noWith : l ≠ .keyword .with_) (free : l ≠ .mark .semicolon) :
    StandsBefore l (importOf isType w source) := by
  rintro rest rfl text bound n c room goals reaches
  obtain ⟨n, rfl, -⟩ := goals_left goals
  have enough : 2 ≤ (moduleSetting bound).bound := show 2 ≤ bound by omega
  simp only [importOf, List.append_assoc, List.cons_append] at reaches
  obtain ⟨word, passes⟩ := reaches.passes_word (by decide) (by rintro d ⟨⟩; decide)
  have taken := reaches.lt_lastStop_next (startsToken_word (by decide) _)
  have expected := expectWord_apply (s := moduleSetting bound) (k := .import_) (by rw [word]; rfl) (by rw [word])
  obtain ⟨same, noCall, before⟩ := importDeclaration_eq isType expected (passes.blank (by decide)).reaches
  obtain ⟨t, c', read, shape, passes'⟩ := importRest_name (s := moduleSetting bound) binds inLine noWith free enough
    c.place.offset isType before.reaches
  have behind := before.trans passes'
  refine ⟨t, c', ?_, shape, passes.trans behind, behind.lt_lastStop passes taken⟩
  change Grammar.statement (upTo (n + 7)) false text (moduleSetting bound) c = _
  rw [Grammar.statement, bind_of_eq here_apply, bind_of_eq (lexeme_eq (c := c)), word]
  change (afterNext (seesAny [.lparen, .dot]) >>= _) text (moduleSetting bound) c = _
  rw [bind_of_eq noCall]
  exact same.trans read

def aliasOf (w : Name.Word) (ms : List TypeMember) : Phrase :=
  ⟨"type".toList ++ (' ' :: (w.text.toList ++ (' ' :: '=' :: ' ' :: (objectType ms).text))),
    .node (.typeAlias false) [.node (.identifier w) [], (objectType ms).shape]⟩

theorem bindingName_word {w : Name.Word} (plain : Keyword.ofSpelling? w.text.toList = none)
    (named : c.cut.lexeme = Lexeme.ofName w.text.toList) :
    bindingName text s c = some (.node (.identifier w) ⟨c.place.offset, c.next.lastStop⟩ [], c.next) ∧
      c.token.namesBinding = true := by
  have lexeme : c.cut.lexeme = .name (String.ofList w.text.toList) := by
    rw [named, Lexeme.ofName, plain]
  have binds : c.token.namesBinding = true := by
    rw [Token.namesBinding, Cursor.token, lexeme]
  have checked : checkName c.token text s c = some ((), c) := by
    rw [checkName, bind_of_eq read_apply, Cursor.token, lexeme]
    rfl
  refine ⟨?_, binds⟩
  rw [bindingName, bind_of_eq token_apply, binds, if_pos rfl, bind_of_eq checked]
  exact identifierName_word named

theorem foretells_of_read {p : Parse Bool} {b : Bool} (read : p text s c = some (b, c')) :
    foretells p text s c = some (b, c) := by
  unfold foretells
  rw [read]

theorem startsDeclaration_type (type : c.cut.lexeme = .keyword .type) (binds : c.next.token.namesBinding = true)
    (inLine : c.next.afterBreak = false) (bound : 1 ≤ s.bound) : startsDeclaration text s c = some (true, c) := by
  obtain ⟨k, positive⟩ := Nat.exists_eq_add_of_le' bound
  refine foretells_of_read (show _ = some (_, c.next) from ?_)
  rw [repeatFrom, bind_of_eq read_apply, positive, rounds, bind_apply, bind_of_eq (lexeme_eq (c := c)), type]
  change (((advance >>= _) text s c).bind _) = _
  rw [bind_of_eq advance_apply, bind_of_eq token_apply, binds, bind_of_eq afterBreak_apply, inLine]
  rfl

theorem declarationModifiers_type (type : c.cut.lexeme = .keyword .type) (bound : 1 ≤ s.bound) :
    declarationModifiers text s c = some ([], c) := by
  obtain ⟨k, positive⟩ := Nat.exists_eq_add_of_le' bound
  obtain ⟨b, ahead⟩ : ∃ b, isModifierHere .type text s c = some (b, c) := exists_afterNext _
  rw [declarationModifiers, bind_apply, repeatFrom, bind_of_eq read_apply, positive, rounds, bind_apply,
    bind_of_eq (lexeme_eq (c := c)), type]
  change ((((isModifierHere .type >>= _) text s c).bind _).bind _) = _
  rw [bind_of_eq ahead]
  rfl

theorem statement_typeAlias {g : Grammar} {t : Tree} {bound : Nat} (type : c.cut.lexeme = .keyword .type)
    (binds : c.next.token.namesBinding = true) (inLine : c.next.afterBreak = false) (enough : 1 ≤ bound)
    (read : typeAlias g c.place.offset false text { moduleSetting bound with inAsync := false } c = some (t, c')) :
    statement g false text (moduleSetting bound) c = some (t, c') := by
  rw [statement, bind_of_eq here_apply, bind_of_eq (lexeme_eq (c := c)), type]
  change (startsDeclaration >>= _) text (moduleSetting bound) c = _
  rw [bind_of_eq (startsDeclaration_type type binds inLine enough)]
  change declaration g c.place.offset text (moduleSetting bound) c = _
  rw [declaration, bind_of_eq (declarationModifiers_type type enough)]
  change declarationRest g c.place.offset [] text { moduleSetting bound with inAsync := false } c = _
  rw [declarationRest, bind_of_eq (lexeme_eq (c := c)), type]
  exact read

theorem standsBefore_alias {w : Name.Word} {ms : List TypeMember} (plain : Keyword.ofSpelling? w.text.toList = none)
    (reads : ∀ m ∈ ms, EndsLine oneType m.type) (unmarked : ∀ m, l ≠ .mark m) : StandsBefore l (aliasOf w ms) := by
  rintro rest rfl text bound n c room goals reaches
  have length : (objectType ms).text.length ≤ (aliasOf w ms).text.length := by
    simp only [aliasOf, List.length_append, List.length_cons]
    omega
  obtain ⟨n, rfl, less⟩ := goals_left goals
  simp only [aliasOf, List.append_assoc, List.cons_append] at reaches
  obtain ⟨word, passes₁⟩ := reaches.passes_word (by decide) (by rintro d ⟨⟩; decide)
  have taken := reaches.lt_lastStop_next (startsToken_word (by decide) _)
  have before := passes₁.blank (by decide)
  obtain ⟨cut, passes₂⟩ := before.reaches.passes_word w.isWord (by rintro d ⟨⟩; decide)
  have named : c.next.cut.lexeme = Lexeme.ofName w.text.toList := by rw [cut]
  obtain ⟨sees, passes₃⟩ := (passes₂.blank (by decide)).reaches.passes_mark (m := .eq) rfl rfl
  have behind := passes₃.blank (by decide)
  generalize setting : ({ moduleSetting bound with inAsync := false } : Setting) = s
  obtain ⟨t, c', read, shape, breaks, passes₄⟩ := type_object (s := { s with refusesConditional := false }) (n := n + 5)
    reads (by rw [← setting]; exact Nat.lt_of_le_of_lt length (Nat.lt_of_succ_lt room))
    (by unfold goalsPerCharacter at less ⊢; omega) unmarked behind.reaches
  have type : c.cut.lexeme = .keyword .type := by rw [word]; rfl
  have inLine : c.next.afterBreak = false := Cursor.afterBreak_next_of_blank (by rw [word])
      (startsToken_word w.isWord _)
  have simple : typeParameters? (upTo (n + 7)) text s c.next.next = some ([], c.next.next) := by
    rw [typeParameters?, bind_of_eq (sees_eq .langle), sees]
    rfl
  have full : fullType (upTo (n + 7)) text s c.next.next.next = some (t, c') := read
  have ended := semicolon_free (s := s) (.inl breaks)
    (by rw [passes₄.reaches.lexeme_eq_first]; exact unmarked .semicolon)
  have last := ((passes₂.blank (by decide)).trans behind).trans passes₄
  refine ⟨.node (.typeAlias false) ⟨c.place.offset, c'.lastStop⟩
    [.node (.identifier w) ⟨c.next.place.offset, c.next.next.lastStop⟩ [], t], c', ?_, ?_, before.trans last,
    last.lt_lastStop before taken⟩
  · refine statement_typeAlias type (bindingName_word (s := s) plain named).2 inLine (show 1 ≤ bound by omega) ?_
    rw [setting, typeAlias, bind_of_eq (expectWord_apply type (by rw [word])),
      bind_of_eq (bindingName_word plain named).1, bind_of_eq simple, bind_of_eq (expect_apply sees), bind_of_eq full,
      bind_of_eq ended]
    rfl
  · rw [Tree.shape, Tree.shapeList, Tree.shapeList, Tree.shapeList, shape]
    rfl

def StartsWithCall (cs : List Char) : Prop :=
  ∃ w more, Name.IsWord w ∧ Keyword.ofSpelling? w = none ∧ cs = w ++ '(' :: more

theorem StartsWithCall.lexeme {cs : List Char} (starts : StartsWithCall cs) (reaches : c.Reaches (cs ++ rest)) :
    ∃ name, c.cut.lexeme = .name name := by
  obtain ⟨w, more, word, plain, rfl⟩ := starts
  rw [List.append_assoc] at reaches
  refine ⟨String.ofList w, ?_⟩
  rw [(reaches.passes_word word (by rintro d ⟨⟩; decide)).1, Lexeme.ofName, plain]

theorem readsBefore_call {e : Phrase} {children : List Shape} (alone : Alone oneExpression e)
    (starts : StartsWithCall e.text) (call : e.shape = .node (.call false) children) (rest : List Char) :
    ReadsBefore rest ⟨e.text ++ [';'], .node .expressionStatement [e.shape]⟩ := by
  intro text bound n c room goals reaches
  simp only [List.length_append, List.length_cons, List.length_nil] at room goals
  obtain ⟨m, rfl, less⟩ := goals_left goals
  rw [List.append_assoc] at reaches
  obtain ⟨t, c', read, shape, passes⟩ := alone text (moduleSetting bound) (m + 6) (show _ < bound by omega)
    (by unfold goalsPerCharacter at less ⊢; omega) c _ _ (Closing.semicolon []).mem_lexemes (.semicolon _) reaches
  obtain ⟨sees, closed⟩ := passes.reaches.passes_mark (m := .semicolon) rfl rfl
  obtain ⟨name, named⟩ := starts.lexeme reaches
  have ended : semicolon text (moduleSetting bound) c' = some ((), c'.next) := by
    have eaten : eat .semicolon text (moduleSetting bound) c' = some (true, c'.next) := by
      rw [eat_apply, sees]
      rfl
    rw [semicolon, bind_of_eq eaten]
    rfl
  obtain ⟨u, whole, same⟩ := exists_expressionStatement read (by rw [sees]; decide) (shape.trans call) ended
  refine ⟨u, c'.next, ?_, by rw [same, shape], passes.trans (closed.blank (by decide)),
    Nat.lt_of_le_of_lt passes.onward (passes.reaches.lt_lastStop_next ⟨';', _, rfl, rfl⟩)⟩
  change statement (upTo (m + 7)) false text (moduleSetting bound) c = _
  rw [statement, bind_of_eq here_apply, bind_of_eq (lexeme_eq (c := c)), named]
  exact whole

theorem exportDefault_name {g : Grammar} {t : Tree} {name : String} (start : Nat) (word : c.cut.isEscaped = false)
    (named : c.next.cut.lexeme = .name name) (bound : 1 ≤ s.bound)
    (read : oneExpression g text s c.next = some (t, c')) (ended : semicolon text s c' = some ((), c')) :
    exportDefault g start [] text s c = some (.node .exportDefault ⟨start, c'.lastStop⟩ [t], c') := by
  have bare : decorators g text s c.next = some ([], c.next) := by
    obtain ⟨k, enough⟩ := Nat.exists_eq_add_of_le' bound
    rw [decorators, bind_apply, repeatFrom, bind_of_eq read_apply, enough, rounds, bind_apply,
      bind_of_eq (sees_eq .atSign), named]
    rfl
  have noWord (k : Keyword) : seesWord k text s c.next = some (false, c.next) := by
    rw [seesWord_apply, named]
    rfl
  have noAsync : seesAsyncFunction text s c.next = some (false, c.next) := by
    rw [seesAsyncFunction, bind_of_eq (noWord .async)]
    rfl
  have sound : flawIf false text s c.next = some ((), c.next) := rfl
  rw [exportDefault, bind_of_eq (takeWord_apply word), bind_of_eq here_apply, bind_of_eq bare]
  change (flawIf false >>= _) text s c.next = _
  rw [bind_of_eq sound, bind_of_eq (noWord .class_), if_neg (by decide), bind_of_eq (noWord .abstract)]
  obtain ⟨b, ahead⟩ := exists_afterNext (s := s) (c := c.next)
    (do return (← seesWord .class_) && !(← Parse.afterBreak))
  rw [bind_of_eq ahead, Bool.false_and, if_neg (by decide)]
  change (flawIf false >>= _) text s c.next = _
  rw [bind_of_eq sound, bind_of_eq (noWord .interface)]
  obtain ⟨b, ahead⟩ := exists_afterNext (s := s) (c := c.next)
    (do return (← token).namesBinding && !(← Parse.afterBreak))
  rw [bind_of_eq ahead, Bool.false_and, if_neg (by decide), bind_of_eq (noWord .function), bind_of_eq noAsync,
    Bool.or_false, if_neg (by decide)]
  change (oneExpression g >>= _) text s c.next = _
  rw [bind_of_eq read, bind_of_eq ended]
  rfl

theorem readsBefore_exportDefault {e : Phrase} (alone : Alone oneExpression e) (starts : StartsWithCall e.text) :
    ReadsBefore [] ⟨"export default ".toList ++ e.text, .node .exportDefault [e.shape]⟩ := by
  intro text bound n c room goals reaches
  have length : ("export default ".toList ++ e.text).length = e.text.length + 15 := by simp
  simp only [length] at room goals
  obtain ⟨m, rfl, less⟩ := goals_left goals
  have split : "export default ".toList ++ e.text ++ ['\n'] =
      "export".toList ++ (' ' :: ("default".toList ++ (' ' :: (e.text ++ ['\n'])))) := by simp
  rw [split] at reaches
  obtain ⟨word, exported⟩ := reaches.passes_word (by decide) (by rintro d ⟨⟩; decide)
  have taken := reaches.lt_lastStop_next (startsToken_word (by decide) _)
  have second := exported.blank (by decide)
  obtain ⟨word', passes⟩ := second.reaches.passes_word (by decide) (by rintro d ⟨⟩; decide)
  have behind := passes.blank (by decide)
  obtain ⟨name, named⟩ := starts.lexeme behind.reaches
  have closing : Closing .endOfText ['\n'] := .blank (by decide) .endOfText
  obtain ⟨t, c', read, shape, passes'⟩ := alone text (moduleSetting bound) (m + 7) (show _ < bound by omega)
    (by unfold goalsPerCharacter at less ⊢; omega) c.next.next _ _ closing.mem_lexemes closing behind.reaches
  have ends : c'.cut.lexeme = .endOfText := closing.lexeme_eq passes'.reaches
  have ended : semicolon text (moduleSetting bound) c' = some ((), c') :=
    semicolon_free (.inr (by rw [ends]; decide)) (by rw [ends]; decide)
  have last := behind.trans (passes'.blank (by decide))
  refine ⟨.node .exportDefault ⟨c.place.offset, c'.lastStop⟩ [t], c', ?_, ?_, exported.trans last,
    last.lt_lastStop exported taken⟩
  · change statement (upTo (m + 7)) false text (moduleSetting bound) c = _
    rw [statement, bind_of_eq here_apply, bind_of_eq (lexeme_eq (c := c)), word]
    change exportDeclaration (upTo (m + 7)) c.place.offset [] text (moduleSetting bound) c = _
    rw [exportDeclaration, bind_of_eq (expectWord_apply (by rw [word]; rfl) (by rw [word])),
      bind_of_eq (lexeme_eq (c := c.next)), word']
    exact exportDefault_name _ (by rw [word']) named (show 1 ≤ bound by omega) read ended
  · rw [Tree.shape, Tree.shapeList, shape]
    rfl

end Grammar

end VueOptions.Script
