import VueOptions.Proofs.Script.CallStatements
import VueOptions.Proofs.Script.Literals

/-!
Types in place. A word is a type before anything that does not go on from it, and so is an object type whose members
stand on lines of their own, each with a type that is read up to the end of its line.
-/

set_option autoImplicit false

namespace VueOptions.Script.Grammar

open Parse Text

variable {text rest : List Char} {s : Setting} {c c' : Cursor text} {g : Grammar}

def typeWords : List Keyword :=
  [.any, .unknown, .string, .number, .bigint, .symbol, .boolean, .undefined, .never, .object, .null_, .void]

inductive WordType
  | keyword (k : Keyword) (simple : k ∈ typeWords)
  | reference (name : Name.Word) (plain : Keyword.ofSpelling? name.text.toList = none)

namespace WordType

def word : WordType → List Char
  | .keyword k _ => k.spelling
  | .reference name _ => name.text.toList

def shape : WordType → Shape
  | .keyword k _ => .node (.typeNode (.keyword k)) []
  | .reference name _ => .node (.typeNode .reference) [.node (.identifier name) []]

theorem isWord (t : WordType) : Name.IsWord t.word := by
  cases t with
  | keyword k _ => exact k.isWord_spelling
  | reference name _ => exact name.isWord

def phrase (t : WordType) : Phrase := ⟨t.word, t.shape⟩

end WordType

structure EndsType (c : Cursor text) : Prop where
  mark : ∀ m ∈ [Mark.dot, .langle, .shiftLeft, .pipe, .amp, .bang, .question, .lbrack], c.cut.lexeme ≠ .mark m
  bound : c.afterBreak = true ∨ c.cut.lexeme ≠ .keyword .extends_

theorem EndsType.sees_eq {m : Mark} (ends : EndsType c)
    (mem : m ∈ [Mark.dot, .langle, .shiftLeft, .pipe, .amp, .bang, .question, .lbrack]) :
    sees m text s c = some (false, c) := by
  rw [Grammar.sees_eq, beq_eq_false_iff_ne.mpr (ends.mark m mem)]

theorem EndsType.eat_eq {m : Mark} (ends : EndsType c)
    (mem : m ∈ [Mark.dot, .langle, .shiftLeft, .pipe, .amp, .bang, .question, .lbrack]) :
    eat m text s c = some (false, c) := by
  rw [eat_apply, beq_eq_false_iff_ne.mpr (ends.mark m mem), if_neg (by decide)]

theorem typeArguments?_eq (ends : EndsType c) (g : Grammar) : adjacentTypeArguments? g text s c = some ([], c) := by
  rw [adjacentTypeArguments?, bind_of_eq afterBreak_apply]
  cases c.afterBreak with
  | true => rfl
  | false =>
    have split : splitAngle text s c = some ((), c) := by
      rw [splitAngle, bind_of_eq (ends.sees_eq (by decide))]
      rfl
    change typeArguments? g text s c = _
    rw [typeArguments?, bind_of_eq split, bind_of_eq (ends.sees_eq (by decide))]
    rfl

theorem typeReference_word {name : Name.Word} (bound : 1 ≤ s.bound)
    (named : c.cut.lexeme = Lexeme.ofName name.text.toList) (ends : EndsType c.next) (g : Grammar) :
    ∃ t, typeReference g text s c = some (t, c.next) ∧
      t.shape = .node (.typeNode .reference) [.node (.identifier name) []] := by
  obtain ⟨k, enough⟩ := Nat.exists_eq_add_of_le' bound
  have entity : entityName text s c = some (.node (.identifier name) ⟨c.place.offset, c.next.lastStop⟩ [], c.next) := by
    rw [entityName, bind_of_eq here_apply, bind_of_eq (identifierName_word named), repeatFrom, bind_of_eq read_apply,
      enough, rounds, bind_apply, bind_of_eq (ends.eat_eq (by decide))]
    rfl
  refine ⟨.node (.typeNode .reference) ⟨c.place.offset, c.next.lastStop⟩
    [.node (.identifier name) ⟨c.place.offset, c.next.lastStop⟩ []], ?_, rfl⟩
  rw [typeReference, bind_of_eq here_apply, bind_of_eq entity, bind_of_eq (typeArguments?_eq ends g)]
  rfl

theorem typePrimary_word (t : WordType) (bound : 1 ≤ s.bound) (named : c.cut.lexeme = Lexeme.ofName t.word)
    (ends : EndsType c.next) (g : Grammar) :
    ∃ found, typePrimary g text s c = some (found, c.next) ∧ found.shape = t.shape := by
  cases t with
  | keyword k simple =>
    have word : c.cut.lexeme = .keyword k := by
      rw [named, WordType.word, Lexeme.ofName, Keyword.ofSpelling?_spelling]
    have noDot : afterNext (sees .dot) text s c = some (false, c) := afterNext_of_eq (ends.sees_eq (by decide))
    refine ⟨.node (.typeNode (.keyword k)) ⟨c.place.offset, c.next.lastStop⟩ [], ?_, rfl⟩
    rw [typePrimary, bind_of_eq here_apply, bind_of_eq (lexeme_eq (c := c)), word]
    simp only [typeWords, List.mem_cons, List.not_mem_nil, or_false] at simple
    rcases simple with rfl | rfl | rfl | rfl | rfl | rfl | rfl | rfl | rfl | rfl | rfl | rfl
    all_goals first
      | rfl
      | (change (afterNext (sees .dot) >>= _) text s c = _
         rw [bind_of_eq noDot]
         rfl)
  | reference name plain =>
    have word : c.cut.lexeme = .name (String.ofList name.text.toList) := by
      rw [named, WordType.word, Lexeme.ofName, plain]
    obtain ⟨found, read, shape⟩ := typeReference_word (s := s) bound named ends g
    refine ⟨found, ?_, shape⟩
    rw [typePrimary, bind_of_eq here_apply, bind_of_eq (lexeme_eq (c := c)), word]
    exact read

structure OpensType (c : Cursor text) : Prop where
  word : ∀ k ∈ [Keyword.keyof, .unique, .readonly, .infer, .new_, .abstract], c.cut.lexeme ≠ .keyword k
  mark : ∀ m ∈ [Mark.langle, .lparen, .pipe, .amp], c.cut.lexeme ≠ .mark m

theorem WordType.opensType (t : WordType) (named : c.cut.lexeme = Lexeme.ofName t.word) : OpensType c := by
  refine ⟨fun k mem same => ?_, fun m _ same => ?_⟩
  · cases t with
    | keyword l simple =>
      rw [named, WordType.word, Lexeme.ofName, Keyword.ofSpelling?_spelling] at same
      obtain rfl := Lexeme.keyword.inj same
      have apart : ∀ k ∈ typeWords, k ∉ [Keyword.keyof, .unique, .readonly, .infer, .new_, .abstract] := by decide
      exact apart _ simple mem
    | reference name plain =>
      rw [named, WordType.word, Lexeme.ofName, plain] at same
      cases same
  · rw [named, Lexeme.ofName] at same
    split at same <;> cases same

theorem OpensType.seesFunctionType_eq (opens : OpensType c) (g : Grammar) :
    seesFunctionType g text s c = some (false, c) := by
  rw [seesFunctionType, bind_of_eq (lexeme_eq (c := c))]
  change (fun p : Parse Bool => p text s c) _ = _
  split
  · next same => exact absurd same (opens.mark _ (by decide))
  · next same => exact absurd same (opens.mark _ (by decide))
  · next same => exact absurd same (opens.word _ (by decide))
  · next same => exact absurd same (opens.word _ (by decide))
  · rfl

theorem typeChain_single {item : Parse Tree} {m : Mark} {found : Tree} (read : item text s c = some (found, c'))
    (before : c.cut.lexeme ≠ .mark m) (behind : c'.cut.lexeme ≠ .mark m) (form : TypeForm) (g : Grammar) :
    typeChain g m form item text s c = some (found, c') := by
  have none : eat m text s c = some (false, c) := by
    rw [eat_apply, beq_eq_false_iff_ne.mpr before, if_neg (by decide)]
  have last : sees m text s c' = some (false, c') := by
    rw [sees_eq, beq_eq_false_iff_ne.mpr behind]
  rw [typeChain, bind_of_eq here_apply, bind_of_eq none]
  change (item >>= _) text s c = _
  rw [bind_of_eq read]
  change (sees m >>= _) text s c' = _
  rw [bind_of_eq last]
  rfl

section

variable {found : Tree} (opens : OpensType c) (ends : EndsType c')

include ends

theorem typePostfix_of_primary (bound : 1 ≤ s.bound) (read : typePrimary g text s c = some (found, c')) :
    typePostfix g text s c = some (found, c') := by
  obtain ⟨k, enough⟩ := Nat.exists_eq_add_of_le' bound
  rw [typePostfix, bind_of_eq here_apply, bind_of_eq read, repeatFrom, bind_of_eq read_apply, enough, rounds,
    bind_apply, bind_of_eq afterBreak_apply]
  cases c'.afterBreak with
  | true => rfl
  | false =>
    rw [if_neg (by decide), bind_of_eq (lexeme_eq (c := c'))]
    change (fun p : Parse (Round Tree) => (p text s c').bind _) _ = _
    split
    · next same => exact absurd same (ends.mark _ (by decide))
    · next same => exact absurd same (ends.mark _ (by decide))
    · next same => exact absurd same (ends.mark _ (by decide))
    · rfl

include opens

theorem typeOperand_of_primary (bound : 1 ≤ s.bound)
    (read : typePrimary g text { s with refusesConditional := false } c = some (found, c')) :
    typeOperand g text s c = some (found, c') := by
  have inner : within (fun s => { s with refusesConditional := false }) (typePostfix g) text s c = some (found, c') :=
    typePostfix_of_primary (s := { s with refusesConditional := false }) ends bound read
  rw [typeOperand, bind_of_eq here_apply, bind_of_eq (lexeme_eq (c := c))]
  change (fun p : Parse Tree => p text s c) _ = _
  split
  · next k same =>
    have other := fun l mem => opens.word l mem
    rw [same] at other
    dsimp only
    split
    · exact absurd rfl (other _ (by decide))
    · exact absurd rfl (other _ (by decide))
    · exact absurd rfl (other _ (by decide))
    · exact absurd rfl (other _ (by decide))
    · exact inner
  · exact inner

theorem type_of_primary {n : Nat} (bound : 1 ≤ s.bound)
    (read : typePrimary (upTo n) text { s with refusesConditional := false } c = some (found, c')) :
    upTo (n + 2) .type text s c = some (found, c') := by
  have operand : upTo (n + 1) .typeOperand text s c = some (found, c') := typeOperand_of_primary opens ends bound read
  have inner : typeChain (upTo (n + 1)) .amp .intersection (upTo (n + 1) .typeOperand) text s c = some (found, c') :=
    typeChain_single operand (opens.mark _ (by decide)) (ends.mark _ (by decide)) _ _
  have union : unionType (upTo (n + 1)) text s c = some (found, c') :=
    typeChain_single inner (opens.mark _ (by decide)) (ends.mark _ (by decide)) _ _
  change typeRule (upTo (n + 1)) text s c = _
  rw [typeRule, bind_of_eq (opens.seesFunctionType_eq _), if_neg (by decide), bind_of_eq here_apply, bind_of_eq union,
    bind_of_eq read_apply]
  cases s.refusesConditional with
  | true => rfl
  | false =>
    rw [bind_of_eq afterBreak_apply]
    rcases ends.bound with breaks | other
    · rw [breaks]
      rfl
    · cases c'.afterBreak with
      | true => rfl
      | false =>
        have none : seesWord .extends_ text s c' = some (false, c') := by
          rw [seesWord_apply, beq_eq_false_iff_ne.mpr other]
        change (seesWord .extends_ >>= _) text s c' = _
        rw [bind_of_eq none]
        rfl

end

theorem type_word (t : WordType) (n : Nat) (bound : 1 ≤ s.bound) (named : c.cut.lexeme = Lexeme.ofName t.word)
    (ends : EndsType c.next) :
    ∃ found, upTo (n + 2) .type text s c = some (found, c.next) ∧ found.shape = t.shape := by
  obtain ⟨found, read, shape⟩ :=
    typePrimary_word (s := { s with refusesConditional := false }) t bound named ends (upTo n)
  exact ⟨found, type_of_primary (t.opensType named) ends bound read, shape⟩

def StartsLine (rest : List Char) : Prop :=
  firstLexeme rest = .mark .rbrace ∨ ∃ w, firstLexeme rest = Lexeme.ofName w

/-- The phrase is read up to the end of its line, if the next one begins with a word or a closing brace. -/
def EndsLine (rule : Grammar → Parse Tree) (p : Phrase) : Prop :=
  ∀ (text : List Char) (s : Setting) (n : Nat) (c : Cursor text) (rest : List Char), p.text.length < s.bound →
    goalsPerCharacter * p.text.length ≤ n → StartsLine rest → c.Reaches (p.text ++ '\n' :: rest) →
    ∃ t c', rule (upTo n) text s c = some (t, c') ∧ t.shape = p.shape ∧ c'.afterBreak = true ∧ c.Passes c' rest

def oneType (g : Grammar) : Parse Tree := g .type

theorem StartsLine.lexeme_ne (starts : StartsLine rest) {m : Mark} (other : m ≠ .rbrace) :
    firstLexeme rest ≠ .mark m := by
  intro same
  rcases starts with closes | ⟨w, named⟩
  · rw [closes] at same
    exact other (Lexeme.mark.inj same).symm
  · rw [named, Lexeme.ofName] at same
    split at same <;> cases same

theorem endsLine_word (t : WordType) : EndsLine oneType t.phrase := by
  intro text s n c rest room goals starts reaches
  have filled := List.length_pos_iff.mpr t.isWord.ne_nil
  simp only [WordType.phrase] at room goals reaches
  obtain ⟨n, rfl⟩ : ∃ m, n = m + 2 := ⟨n - 2, by unfold goalsPerCharacter at goals; omega⟩
  obtain ⟨cut, passes⟩ := reaches.passes_word t.isWord (by rintro d ⟨⟩; decide)
  have behind := passes.blank (by decide)
  have breaks : c.next.afterBreak = true := Cursor.afterBreak_next cut rfl
  have ends : EndsType c.next := by
    refine ⟨fun m mem => ?_, .inl breaks⟩
    rw [behind.reaches.lexeme_eq_first]
    refine starts.lexeme_ne ?_
    rintro rfl
    exact absurd mem (by decide)
  obtain ⟨found, read, shape⟩ := type_word (s := s) t n (by omega) (by rw [cut]) ends
  exact ⟨found, c.next, read, shape, breaks, behind⟩

structure TypeMember where
  gap : List Char
  blank : ∀ b ∈ gap, isBlank b = true
  isReadonly : Bool
  name : Name.Word
  type : Phrase

namespace TypeMember

def lead (m : TypeMember) : List Char := if m.isReadonly then Keyword.readonly.spelling ++ [' '] else []

def phrase (m : TypeMember) : Phrase :=
  ⟨m.lead ++ (m.name.text.toList ++ (':' :: ' ' :: m.type.text)),
    .node (.signature (.property m.isReadonly false))
      [.node (.key false) [.node (.identifier m.name) []], .node .typing [m.type.shape]]⟩

def indented (m : TypeMember) : Indented := ⟨m.gap, m.blank, m.phrase⟩

theorem startsWithWord (m : TypeMember) (rest : List Char) :
    ∃ w, firstLexeme (m.gap ++ (m.phrase.text ++ rest)) = Lexeme.ofName w := by
  rw [firstLexeme_blanks m.blank, phrase, lead]
  cases m.isReadonly with
  | false =>
    rw [if_neg (by decide), List.nil_append, List.append_assoc]
    exact ⟨_, firstLexeme_word m.name.isWord (by rintro d ⟨⟩; decide)⟩
  | true =>
    rw [List.append_assoc, if_pos rfl, List.append_assoc]
    exact ⟨_, firstLexeme_word (Keyword.isWord_spelling .readonly) (by rintro d ⟨⟩; decide)⟩

end TypeMember

theorem seesAny_of_word {w : List Char} (named : c.cut.lexeme = Lexeme.ofName w) (ms : List Mark) :
    seesAny ms text s c = some (false, c) := by
  rw [seesAny_apply, named, Lexeme.ofName]
  cases Keyword.ofSpelling? w <;> rfl

theorem modifiers_member (m : TypeMember) (bound : 2 ≤ s.bound)
    (reaches : c.Reaches (m.lead ++ (m.name.text.toList ++ (':' :: ' ' :: rest)))) :
    ∃ c', modifiers false text s c = some (if m.isReadonly then [.readonly] else [], c') ∧
      (∃ w, c.cut.lexeme = Lexeme.ofName w) ∧ c.cut.isEscaped = false ∧
      (c.next.cut.lexeme = .mark .colon ∨ ∃ w, c.next.cut.lexeme = Lexeme.ofName w) ∧
      c.Passes c' (m.name.text.toList ++ (':' :: ' ' :: rest)) := by
  have colon (c : Cursor text) (here : c.Reaches (':' :: ' ' :: rest)) : c.cut.lexeme = .mark .colon :=
    (here.passes_mark (m := .colon) rfl rfl).1
  have ends : Name.EndsName (':' :: ' ' :: rest) := by
    rintro d ⟨⟩
    decide
  rw [TypeMember.lead] at reaches
  cases isReadonly : m.isReadonly with
  | false =>
    rw [isReadonly, if_neg (by decide), List.nil_append] at reaches
    obtain ⟨cut, passes⟩ := reaches.passes_word m.name.isWord ends
    have sees := colon _ passes.reaches
    refine ⟨c, ?_, ⟨_, by rw [cut]⟩, by rw [cut], .inl sees, .refl reaches⟩
    exact modifiers_of_followsName (by rw [FollowsName, sees]; decide) (by omega)
  | true =>
    rw [isReadonly, if_pos rfl, List.append_assoc, List.singleton_append] at reaches
    obtain ⟨cut, passes⟩ := reaches.passes_word (Keyword.isWord_spelling .readonly) (by rintro d ⟨⟩; decide)
    have behind := passes.blank (by decide)
    obtain ⟨named, passes'⟩ := behind.reaches.passes_word m.name.isWord ends
    have lexeme : c.next.cut.lexeme = Lexeme.ofName m.name.text.toList := by rw [named]
    have inLine : c.next.afterBreak = false := Cursor.afterBreak_next_of_blank (by rw [cut])
        (startsToken_word m.name.isWord _)
    refine ⟨c.next, ?_, ⟨_, by rw [cut]⟩, by rw [cut], .inr ⟨_, lexeme⟩, behind⟩
    exact modifiers_word (by decide) cut inLine (mayFollowModifier_bareName (b := .word m.name) lexeme)
      (by rw [FollowsName, colon _ passes'.reaches]; decide) bound

theorem typing?_type {g : Grammar} {t : Tree} (colon : c.cut.lexeme = .mark .colon)
    (read : oneType g text s c.next = some (t, c')) :
    typing? g text s c = some ([.node .typing ⟨c.place.offset, c'.lastStop⟩ [t]], c') := by
  rw [typing?, bind_of_eq (sees_eq .colon), colon]
  change (Parse.here >>= _) text s c = _
  rw [bind_of_eq here_apply, bind_of_eq advance_apply]
  change (oneType g >>= _) text s c.next = _
  rw [bind_of_eq read]
  rfl

theorem memberEnd_free (breaks : c.afterBreak = true) (comma : c.cut.lexeme ≠ .mark .comma)
    (other : c.cut.lexeme ≠ .mark .semicolon) : memberEnd text s c = some ((), c) := by
  have none : eat .comma text s c = some (false, c) := by
    rw [eat_apply, beq_eq_false_iff_ne.mpr comma, if_neg (by decide)]
  rw [memberEnd, bind_of_eq none]
  exact semicolon_free (.inl breaks) other

theorem endsLine_member {m : TypeMember} (type : EndsLine oneType m.type) : EndsLine signature m.phrase := by
  intro text s n c rest room goals starts reaches
  have length : m.type.text.length + 3 ≤ m.phrase.text.length := by
    have filled := List.length_pos_iff.mpr m.name.isWord.ne_nil
    simp only [TypeMember.phrase, List.length_append, List.length_cons]
    omega
  simp only [TypeMember.phrase, List.append_assoc, List.cons_append] at reaches
  obtain ⟨c₁, modified, ⟨w, named⟩, -, second, passes₁⟩ := modifiers_member (s := s) m (by omega) reaches
  obtain ⟨cut, passes₂⟩ := passes₁.reaches.passes_word m.name.isWord (by rintro d ⟨⟩; decide)
  have lexeme : c₁.cut.lexeme = Lexeme.ofName m.name.text.toList := by rw [cut]
  obtain ⟨colon, passes₃⟩ := passes₂.reaches.passes_mark (m := .colon) rfl rfl
  have behind := passes₃.blank (by decide)
  obtain ⟨t, c', read, shape, breaks, passes₄⟩ := type text s n c₁.next.next rest (by omega)
    (by unfold goalsPerCharacter at goals ⊢; omega) starts behind.reaches
  have noNew : afterNext (seesAny [.lparen, .langle]) text s c = some (false, c) := by
    refine afterNext_of_eq ?_
    rcases second with sees | ⟨w, sees⟩
    · rw [seesAny_apply, sees]
      rfl
    · exact seesAny_of_word sees _
  have follows : FollowsName c₁.next := by
    rw [FollowsName, colon]
    decide
  have noIndex : seesIndexSignature text s c₁ = some (false, c₁) := by
    rw [seesIndexSignature, bind_of_eq (sees_eq .lbrack), lexeme, Lexeme.ofName]
    split <;> rfl
  have optional : eat .question text s c₁.next = some (false, c₁.next) := by
    rw [eat_apply, colon]
    rfl
  have typed := typing?_type colon read
  have free {m : Mark} (other : m = .comma ∨ m = .semicolon) : c'.cut.lexeme ≠ .mark m := by
    rw [passes₄.reaches.lexeme_eq_first]
    rcases other with rfl | rfl <;> exact starts.lexeme_ne (by decide)
  have ended : memberEnd text s c' = some ((), c') := memberEnd_free breaks (free (.inl rfl)) (free (.inr rfl))
  refine ⟨.node (.signature (.property m.isReadonly false)) ⟨c.place.offset, c'.lastStop⟩
    [(BareName.word m.name).tree ⟨c₁.place.offset, c₁.next.lastStop⟩,
      .node .typing ⟨c₁.next.place.offset, c'.lastStop⟩ [t]], c', ?_, ?_, breaks,
    ((passes₁.trans passes₂).trans behind).trans passes₄⟩
  · rw [signature, bind_of_eq here_apply, bind_of_eq (seesAny_of_word named _), if_neg (by decide),
      bind_of_eq (seesWord_apply .new_)]
    suffices tail : (modifiers false >>= _) text s c = _ by
      cases c.cut.lexeme == .keyword .new_ with
      | false => exact tail
      | true =>
        change (afterNext (seesAny [.lparen, .langle]) >>= _) text s c = _
        rw [bind_of_eq noNew]
        exact tail
    have allowed : allowModifiers (if m.isReadonly then [.readonly] else []) [.readonly] text s c₁ = some ((), c₁) := by
      cases m.isReadonly <;> rfl
    have marks : seesAny [.lparen, .langle] text s c₁.next = some (false, c₁.next) := by
      rw [seesAny_apply, colon]
      rfl
    rw [bind_of_eq modified, bind_of_eq allowed, bind_of_eq noIndex, if_neg (by decide),
      bind_of_eq (accessorWord_of_followsName follows .get), if_neg (by decide),
      bind_of_eq (accessorWord_of_followsName follows .set_), if_neg (by decide),
      bind_of_eq (key_bareName (b := .word m.name) lexeme (upTo n)), bind_of_eq optional, bind_of_eq marks,
      if_neg (by decide), bind_of_eq typed, bind_of_eq ended]
    cases m.isReadonly <;> rfl
  · rw [Tree.shape, Tree.shapeList, Tree.shapeList, Tree.shapeList, Tree.shape, Tree.shapeList, shape]
    rfl

def lineEnded (items : List Indented) : List Char := items.flatMap fun i => i.gap ++ (i.phrase.text ++ ['\n'])

theorem lineEnded_cons (i : Indented) (items : List Indented) :
    lineEnded (i :: items) = i.gap ++ (i.phrase.text ++ ('\n' :: lineEnded items)) := by
  simp [lineEnded]

theorem length_lineEnded (items : List Indented) :
    items.length ≤ (lineEnded items).length ∧ ∀ i ∈ items, i.phrase.text.length < (lineEnded items).length := by
  refine ⟨length_le_length_flatMap (by simp) items, fun i mem => ?_⟩
  have part : (i.gap ++ (i.phrase.text ++ ['\n'])).length ≤ (lineEnded items).length :=
    length_le_of_mem (f := fun i : Indented => i.gap ++ (i.phrase.text ++ ['\n'])) mem
  simp only [List.length_append, List.length_cons, List.length_nil] at part
  omega

theorem startsLine_members (ms : List TypeMember) (rest : List Char) :
    StartsLine (lineEnded (ms.map TypeMember.indented) ++ '\x7d' :: rest) := by
  cases ms with
  | nil => exact .inl (by rw [List.map_nil, lineEnded, List.flatMap_nil, List.nil_append,
      firstLexeme_of_startsToken ⟨'\x7d', rest, rfl, rfl⟩]; rfl)
  | cons m ms =>
    rw [List.map_cons, lineEnded_cons, List.append_assoc, List.append_assoc]
    exact .inr (m.startsWithWord _)

/-- One more item, or the end of the items; the latest one stands first. -/
def itemRound (closing : Mark) (item : Parse Tree) (found : List Tree) : Parse (Round (List Tree)) := do
  if ← sees closing then return .stop found
  if (← lexeme) == .endOfText then reject
  return .again ((← item) :: found)

theorem itemRound_end {m : Mark} (closes : c.cut.lexeme = .mark m) (item : Parse Tree) (found : List Tree) :
    itemRound m item found text s c = some (.stop found, c) := by
  rw [itemRound, bind_of_eq (sees_eq m), closes, beq_self_eq_true]
  rfl

theorem itemRound_item {m : Mark} {item : Parse Tree} {t : Tree} (other : c.cut.lexeme ≠ .mark m)
    (more : c.cut.lexeme ≠ .endOfText) (read : item text s c = some (t, c')) (found : List Tree) :
    itemRound m item found text s c = some (.again (t :: found), c') := by
  rw [itemRound, bind_of_eq (sees_eq m), beq_eq_false_iff_ne.mpr other, if_neg (by decide),
    bind_of_eq (lexeme_eq (c := c)), beq_eq_false_iff_ne.mpr more, if_neg (by decide)]
  change (item >>= _) text s c = _
  rw [bind_of_eq read]
  rfl

theorem itemsUntil_of_rounds {m : Mark} {item : Parse Tree} {ts : List Tree}
    (rounds : rounds (itemRound m item) s.bound [] text s c = some (ts.reverse ++ [], c')) :
    itemsUntil m item text s c = some (ts, c') := by
  have repeated : repeatFrom [] (itemRound m item) text s c = some (ts.reverse ++ [], c') := rounds
  rw [itemsUntil]
  change (repeatFrom [] (itemRound m item) >>= _) text s c = _
  rw [bind_of_eq repeated, List.append_nil, List.reverse_reverse]
  rfl

theorem rounds_signatures {ms : List TypeMember} (n fuel : Nat)
    (reads : ∀ m ∈ ms, EndsLine oneType m.type) (room : (lineEnded (ms.map TypeMember.indented)).length < s.bound)
    (goals : goalsPerCharacter * (lineEnded (ms.map TypeMember.indented)).length ≤ n) (enough : ms.length < fuel)
    (reaches : c.Reaches (lineEnded (ms.map TypeMember.indented) ++ '\x7d' :: rest)) (found : List Tree) :
    ∃ (ts : List Tree) (c' : Cursor text),
      rounds (itemRound .rbrace (signature (upTo n))) fuel found text s c = some (ts.reverse ++ found, c') ∧
      ts.map Tree.shape = ms.map (fun m => m.phrase.shape) ∧ c.Passes c' ('\x7d' :: rest) := by
  induction ms generalizing fuel c found with
  | nil =>
    obtain ⟨fuel, rfl⟩ : ∃ k, fuel = k + 1 := ⟨fuel - 1, by simp at enough; omega⟩
    have rbrace := (Cursor.Reaches.passes_mark (m := .rbrace) reaches rfl rfl).1
    refine ⟨[], c, ?_, rfl, .refl reaches⟩
    rw [rounds, bind_of_eq (itemRound_end rbrace _ _)]
    rfl
  | cons m ms ih =>
    obtain ⟨fuel, rfl⟩ : ∃ k, fuel = k + 1 := ⟨fuel - 1, by omega⟩
    obtain ⟨first, others⟩ := List.forall_mem_cons.mp reads
    rw [List.map_cons, lineEnded_cons] at room goals reaches
    rw [List.append_assoc, List.append_assoc] at reaches
    simp only [TypeMember.indented, List.length_append, List.length_cons] at room goals enough
    obtain ⟨w, named⟩ := m.startsWithWord ('\n' :: (lineEnded (ms.map TypeMember.indented) ++ '\x7d' :: rest))
    have lexeme : c.cut.lexeme = Lexeme.ofName w := reaches.lexeme_eq_first.trans named
    have other : c.cut.lexeme ≠ .mark .rbrace ∧ c.cut.lexeme ≠ .endOfText := by
      rw [lexeme]
      exact ⟨Lexeme.ofName_ne_mark w .rbrace, Lexeme.ofName_ne_endOfText w⟩
    rw [Cursor.reaches_blanks m.indented.blank] at reaches
    obtain ⟨t, c₁, read, shape, breaks, passes⟩ := endsLine_member first text s n c _ (by omega)
      (by unfold goalsPerCharacter at goals ⊢; omega) (startsLine_members ms rest) reaches
    obtain ⟨ts, c₂, more, shapes, passes'⟩ := ih fuel others (by omega)
      (by unfold goalsPerCharacter at goals ⊢; omega) (by omega) passes.reaches (t :: found)
    refine ⟨t :: ts, c₂, ?_, by rw [List.map_cons, List.map_cons, shape, shapes], passes.trans passes'⟩
    rw [rounds, bind_of_eq (itemRound_item other.1 other.2 read found)]
    simpa using more

def objectType (ms : List TypeMember) : Phrase :=
  ⟨'\x7b' :: '\n' :: (lineEnded (ms.map TypeMember.indented) ++ ['\x7d']),
    .node (.typeNode .object) (ms.map fun m => m.phrase.shape)⟩

theorem opensMappedType_members {ms : List TypeMember} (bound : 2 ≤ s.bound)
    (reaches : c.next.Reaches (lineEnded (ms.map TypeMember.indented) ++ '\x7d' :: rest)) :
    opensMappedType text s c = some (false, c) := by
  have noBracket (c : Cursor text) (other : c.cut.lexeme ≠ .mark .lbrack) : eat .lbrack text s c = some (false, c) := by
    rw [eat_apply, beq_eq_false_iff_ne.mpr other, if_neg (by decide)]
  cases ms with
  | nil =>
    have rbrace := (Cursor.Reaches.passes_mark (m := .rbrace) reaches rfl rfl).1
    have none : eatWord .readonly text s c.next = some (false, c.next) := by
      rw [eatWord, bind_of_eq (seesWord_apply .readonly), rbrace]
      rfl
    refine afterNext_of_eq ?_
    rw [bind_of_eq (seesAny_apply _), rbrace]
    change (eatWord .readonly >>= _) text s c.next = _
    rw [bind_of_eq none, bind_of_eq (noBracket _ (by rw [rbrace]; decide))]
    rfl
  | cons m ms =>
    rw [List.map_cons, lineEnded_cons, List.append_assoc, List.append_assoc,
      Cursor.reaches_blanks m.indented.blank] at reaches
    simp only [TypeMember.indented, TypeMember.phrase, List.append_assoc, List.cons_append] at reaches
    obtain ⟨-, -, ⟨w, named⟩, plain, second, -⟩ := modifiers_member (s := s) m bound reaches
    have first : c.next.cut.lexeme ≠ .mark .lbrack := by
      rw [named]
      exact Lexeme.ofName_ne_mark w .lbrack
    have behind : c.next.next.cut.lexeme ≠ .mark .lbrack := by
      rcases second with sees | ⟨v, sees⟩
      · rw [sees]
        decide
      · rw [sees]
        exact Lexeme.ofName_ne_mark v .lbrack
    obtain ⟨b, c', taken, other⟩ : ∃ b c', eatWord .readonly text s c.next = some (b, c') ∧
        c'.cut.lexeme ≠ .mark .lbrack := by
      rw [eatWord, bind_of_eq (seesWord_apply .readonly)]
      split
      · refine ⟨true, c.next.next, ?_, behind⟩
        rw [bind_of_eq (takeWord_apply plain)]
        rfl
      · exact ⟨false, c.next, rfl, first⟩
    refine afterNext_of_read (show _ = some (_, c') from ?_)
    rw [bind_of_eq (seesAny_of_word named _), if_neg (by decide), bind_of_eq taken, bind_of_eq (noBracket c' other)]
    rfl

theorem typePrimary_objectType {ms : List TypeMember} {n : Nat} (reads : ∀ m ∈ ms, EndsLine oneType m.type)
    (room : (objectType ms).text.length < s.bound) (goals : goalsPerCharacter * (objectType ms).text.length ≤ n)
    (reaches : c.Reaches ((objectType ms).text ++ '\n' :: rest)) :
    c.cut.lexeme = .mark .lbrace ∧ ∃ t c', typePrimary (upTo n) text s c = some (t, c') ∧
      t.shape = (objectType ms).shape ∧ c'.afterBreak = true ∧ c.Passes c' rest := by
  simp only [objectType, List.length_cons, List.length_append, List.length_nil] at room goals
  simp only [objectType, List.cons_append, List.append_assoc, List.nil_append] at reaches
  obtain ⟨lbrace, opened⟩ := reaches.passes_mark (m := .lbrace) rfl rfl
  have inside := opened.blank (by decide)
  have count := (length_lineEnded (ms.map TypeMember.indented)).1
  rw [List.length_map] at count
  generalize setting : ({ s with refusesConditional := false, inDecorator := false } : Setting) = s'
  have bound : s'.bound = s.bound := by rw [← setting]
  obtain ⟨ts, c₁, read, shapes, passes⟩ := rounds_signatures (s := s') n s'.bound reads (by omega)
    (by unfold goalsPerCharacter at goals ⊢; omega) (by omega) inside.reaches []
  obtain ⟨cut, closed⟩ := passes.reaches.passes_cut (k := ⟨.mark .rbrace, ['\x7d'], '\n' :: rest, false⟩)
    ⟨'\x7d', '\n' :: rest, rfl, rfl⟩ rfl
  have rbrace : c₁.cut.lexeme = .mark .rbrace := by rw [cut]
  have noMapped : opensMappedType text s c = some (false, c) := opensMappedType_members (by omega) inside.reaches
  have members : signatures (upTo n) text s c = some (ts, c₁.next) := by
    have inner : within (fun s => { s with refusesConditional := false, inDecorator := false })
        (itemsUntil .rbrace (signature (upTo n))) text s c.next = some (ts, c₁) := by
      change itemsUntil .rbrace (signature (upTo n)) text { s with refusesConditional := false, inDecorator := false }
        c.next = _
      rw [setting]
      exact itemsUntil_of_rounds read
    rw [signatures, bind_of_eq (expect_apply lbrace), bind_of_eq inner, bind_of_eq (expect_apply rbrace)]
    rfl
  refine ⟨lbrace, .node (.typeNode .object) ⟨c.place.offset, c₁.next.lastStop⟩ ts, c₁.next, ?_, ?_,
    Cursor.afterBreak_next cut rfl, (inside.trans passes).trans (closed.blank (by decide))⟩
  · rw [typePrimary, bind_of_eq here_apply, bind_of_eq (lexeme_eq (c := c)), lbrace]
    change (opensMappedType >>= _) text s c = _
    rw [bind_of_eq noMapped]
    change (signatures (upTo n) >>= _) text s c = _
    rw [bind_of_eq members]
    rfl
  · rw [Tree.shape, Tree.shapeList_eq_map, shapes]
    rfl

theorem type_object {ms : List TypeMember} {n : Nat} (reads : ∀ m ∈ ms, EndsLine oneType m.type)
    (room : (objectType ms).text.length < s.bound) (goals : goalsPerCharacter * (objectType ms).text.length ≤ n)
    (unmarked : ∀ m, firstLexeme rest ≠ .mark m) (reaches : c.Reaches ((objectType ms).text ++ '\n' :: rest)) :
    ∃ t c', upTo (n + 2) .type text s c = some (t, c') ∧ t.shape = (objectType ms).shape ∧ c'.afterBreak = true ∧
      c.Passes c' rest := by
  obtain ⟨lbrace, t, c', read, shape, breaks, passes⟩ :=
    typePrimary_objectType (s := { s with refusesConditional := false }) reads room goals reaches
  have opens : OpensType c := by
    refine ⟨fun k _ => by rw [lbrace]; exact nofun, fun m mem same => ?_⟩
    rw [lbrace] at same
    obtain rfl := Lexeme.mark.inj same
    exact absurd mem (by decide)
  have ends : EndsType c' := by
    refine ⟨fun m _ => ?_, .inl breaks⟩
    rw [passes.reaches.lexeme_eq_first]
    exact unmarked m
  exact ⟨t, c', type_of_primary opens ends (by omega) read, shape, breaks, passes⟩

end VueOptions.Script.Grammar
