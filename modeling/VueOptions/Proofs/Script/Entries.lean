import VueOptions.Proofs.Script.Arguments

/-!
Entries of object literals in place. A key is a bare name or a text in quotes; an entry is read wherever what stands
behind its key is, as a value or as a function. Entries that are read one by one make an object, whether commas stand
between them or behind each of them.
-/

set_option autoImplicit false

namespace VueOptions.Script.Grammar

open Parse Text

/-- A key that stands for one property: a bare name, or a text in quotes. -/
inductive EntryKey
  | bare (b : BareName)
  | quoted (value : String) (inLine : ∀ c ∈ value.toList, c ≠ '\n' ∧ c ≠ '\r')

namespace EntryKey

variable {t rest : List Char} {s : Setting} {c : Cursor t}


def text : EntryKey → List Char
  | .bare b => b.text.toList
  | .quoted value _ => (singleQuoted value).toList

def shape : EntryKey → Shape
  | .bare b => .node (.key false) [.node b.kind []]
  | .quoted value _ => .node (.key false) [.node (.string value) []]

def lexeme : EntryKey → Lexeme
  | .bare b => b.lexeme
  | .quoted value _ => .string value

theorem lexeme_ne_mark (k : EntryKey) (m : Mark) : (k.lexeme == .mark m) = false := by
  cases k with
  | bare b => exact b.lexeme_ne_mark m
  | quoted value _ => rfl

theorem startsToken_append (k : EntryKey) (rest : List Char) : StartsToken (k.text ++ rest) := by
  cases k with
  | bare b => exact b.startsToken_append rest
  | quoted value _ => exact startsToken_singleQuoted value rest

theorem cut_append (k : EntryKey) (closes : BareName.Closes rest) :
    Lexeme.cut (k.text ++ rest) = ⟨k.lexeme, k.text, rest, false⟩ := by
  cases k with
  | bare b => exact b.cut_append closes
  | quoted value inLine => exact Lexeme.cut_singleQuoted inLine rest

theorem mayFollowModifier {k : EntryKey} (named : c.cut.lexeme = k.lexeme) :
    Grammar.mayFollowModifier t s c = some (true, c) := by
  cases k with
  | bare b => exact mayFollowModifier_bareName named
  | quoted value _ =>
    have member : c.token.namesMember = true := by
      simp only [Token.namesMember, Cursor.token, named, lexeme]
    change some (c.token.namesMember || _ || _ || _ || _, c) = _
    rw [member]
    rfl

theorem exists_key {k : EntryKey} (named : c.cut.lexeme = k.lexeme) (g : Grammar) :
    ∃ name, key g t s c = some (name, c.next) ∧ name.shape = k.shape := by
  cases k with
  | bare b => exact ⟨_, key_bareName named g, rfl⟩
  | quoted value _ =>
    refine ⟨.node (.key false) ⟨c.place.offset, c.next.lastStop⟩
      [.node (.string value) ⟨c.place.offset, c.next.lastStop⟩ []], ?_, rfl⟩
    rw [key, bind_of_eq here_apply, bind_of_eq (lexeme_eq (c := c)), named]
    rfl

end EntryKey

section

variable {text rest : List Char} {s : Setting} {c : Cursor text}

def entryOf (k : EntryKey) (shape : EntryShape) (opening : String) (p : Phrase) : Phrase :=
  ⟨shape.lead.toList ++ (k.text ++ (opening.toList ++ p.text)), .node (.entry shape.form) [k.shape, p.shape]⟩

theorem modifiers_lead {k : EntryKey} {shape : EntryShape} (bound : 2 ≤ s.bound)
    (closes : BareName.Closes rest) (follows : ∀ c : Cursor text, c.Reaches rest → FollowsName c)
    (reaches : c.Reaches (shape.lead.toList ++ (k.text ++ rest))) :
    ∃ c', modifiers false text s c = some (if shape = .function true then [.async] else [], c') ∧
      c.cut.lexeme ≠ .mark .ellipsis ∧ c.Passes c' (k.text ++ rest) := by
  by_cases async : shape = .function true
  · subst async
    have word : Name.EndsName (' ' :: (k.text ++ rest)) := by
      rintro d ⟨⟩
      decide
    have lead : (EntryShape.function true).lead.toList = "async".toList ++ [' '] := rfl
    rw [lead, List.append_assoc, List.singleton_append] at reaches
    obtain ⟨cut, next⟩ := reaches.passes_word (by decide) word
    have behind := next.blank (by decide)
    obtain ⟨named, passes⟩ := behind.reaches.passes_cut (k.startsToken_append rest) (k.cut_append closes)
    have inLine : c.next.afterBreak = false := Cursor.afterBreak_next_of_blank (by rw [cut]) (k.startsToken_append rest)
    have may : mayFollowModifier text s c.next = some (true, c.next) :=
      EntryKey.mayFollowModifier (k := k) (by rw [named])
    refine ⟨c.next, modifiers_word (by decide) cut inLine may (follows _ passes.reaches) bound, ?_, behind⟩
    rw [cut]
    exact nofun
  · have lead : shape.lead = "" := by
      cases shape with
      | value => rfl
      | function isAsync =>
        cases isAsync with
        | false => rfl
        | true => exact absurd rfl async
    rw [lead] at reaches
    obtain ⟨named, passes⟩ := Cursor.Reaches.passes_cut reaches (k.startsToken_append rest) (k.cut_append closes)
    refine ⟨c, ?_, ?_, .refl reaches⟩
    · rw [if_neg async]
      exact modifiers_of_followsName (follows _ passes.reaches) (by omega)
    · rw [named]
      exact beq_eq_false_iff_ne.mp (k.lexeme_ne_mark .ellipsis)

namespace EntryShape

variable {shape : EntryShape} {opening : String} {more : List Char}

theorem closes_opening (mem : opening ∈ shape.openings) : BareName.Closes (opening.toList ++ more) := by
  cases shape with
  | value =>
    obtain rfl : opening = ": " := by simpa [openings] using mem
    exact ⟨':', by decide, rfl⟩
  | function isAsync =>
    have either : opening = " (" ∨ opening = "(" := by simpa [openings] using mem
    rcases either with rfl | rfl
    · exact ⟨' ', by decide, rfl⟩
    · exact ⟨'(', by decide, rfl⟩

theorem passes_opening (mem : opening ∈ shape.openings) (here : c.Reaches (opening.toList ++ more)) :
    c.cut.lexeme = .mark (if shape = .value then .colon else .lparen) ∧
      c.Passes (if shape = .value then c.next else c) (shape.opened ++ more) := by
  cases shape with
  | value =>
    obtain rfl : opening = ": " := by simpa [openings] using mem
    obtain ⟨colon, behind⟩ := here.passes_mark (m := .colon) rfl rfl
    exact ⟨colon, behind.blank (by decide)⟩
  | function isAsync =>
    have paren : c.Reaches ('(' :: more) := by
      have either : opening = " (" ∨ opening = "(" := by simpa [openings] using mem
      rcases either with rfl | rfl
      · exact (Cursor.reaches_blank (by decide)).mp here
      · exact here
    exact ⟨(paren.passes_mark (m := .lparen) rfl rfl).1, .refl paren⟩

end EntryShape

theorem objectEntry_opening (k : EntryKey) {shape : EntryShape} {opening : String} {more : List Char}
    (mem : opening ∈ shape.openings) (bound : 2 ≤ s.bound)
    (reaches : c.Reaches (shape.lead.toList ++ (k.text ++ (opening.toList ++ more)))) (g : Grammar) :
    ∃ b name, c.Passes b (shape.opened ++ more) ∧ name.shape = k.shape ∧
      objectEntry g text s c = (shape.rule g text s b).map fun r =>
        (.node (.entry shape.form) ⟨c.place.offset, r.2.lastStop⟩ [name, r.1], r.2) := by
  have closes : BareName.Closes (opening.toList ++ more) := EntryShape.closes_opening mem
  have follows (c : Cursor text) (here : c.Reaches (opening.toList ++ more)) : FollowsName c := by
    rw [FollowsName, (EntryShape.passes_opening mem here).1]
    split <;> decide
  obtain ⟨c', modified, noSpread, passes⟩ := modifiers_lead (s := s) bound closes follows reaches
  obtain ⟨cut, named⟩ := passes.reaches.passes_cut (k.startsToken_append _) (k.cut_append closes)
  obtain ⟨sees, behind⟩ := EntryShape.passes_opening mem named.reaches
  obtain ⟨name, keyed, shaped⟩ := EntryKey.exists_key (s := s) (k := k) (by rw [cut]) g
  have star : eat .star text s c' = some (false, c') := by
    rw [eat_apply, cut, k.lexeme_ne_mark, if_neg (by decide)]
  have dots : Parse.sees .ellipsis text s c = some (false, c) := by
    rw [sees_eq, beq_eq_false_iff_ne.mpr noSpread]
  refine ⟨_, name, (passes.trans named).trans behind, shaped, ?_⟩
  rw [objectEntry_of_modifiers dots modified (follows _ named.reaches)]
  cases shape with
  | value => exact namedEntry_value star keyed sees c.place.offset
  | function isAsync =>
    have found : (if EntryShape.function isAsync = .function true then [Keyword.async] else []) =
        if isAsync then [.async] else [] := by
      cases isAsync <;> rfl
    rw [found]
    exact namedEntry_function star keyed sees isAsync c.place.offset

theorem readsIn_entry (k : EntryKey) (shape : EntryShape) {opening : String} {p : Phrase} {n : Nat}
    (mem : opening ∈ shape.openings) (bound : 2 ≤ s.bound)
    (reads : ReadsIn Closing.lexemes (shape.rule (upTo n)) text s ⟨shape.opened ++ p.text, p.shape⟩) :
    ReadsIn Closing.lexemes (objectEntry (upTo n)) text s (entryOf k shape opening p) := by
  intro c rest l last closing reaches
  simp only [entryOf, List.append_assoc] at reaches
  obtain ⟨b, name, passes, shaped, equation⟩ := objectEntry_opening (s := s) k mem bound reaches (upTo n)
  obtain ⟨t, c', read, shape', taken⟩ := reads b rest l last closing (by rw [List.append_assoc]; exact passes.reaches)
  refine ⟨.node (.entry shape.form) ⟨c.place.offset, c'.lastStop⟩ [name, t], c', ?_, ?_, passes.trans taken⟩
  · rw [equation, read]
    rfl
  · rw [Tree.shape, Tree.shapeList, Tree.shapeList, shape', shaped]
    rfl

theorem identifierName_rejects {m : Mark} (sees : c.cut.lexeme = .mark m) : identifierName text s c = none := by
  have word : c.token.word? = none := by
    rw [Token.word?, Cursor.token, sees]
  have missing : c.word? = none := by
    unfold Cursor.word?
    split
    · next same => rw [word] at same; cases same
    · rfl
  rw [identifierName, bind_of_eq (show look _ text s c = some (c.word?, c) from rfl), missing]
  rfl

theorem objectEntry_rejects (closes : c.cut.lexeme = .mark .rbrace) (bound : 1 ≤ s.bound) (g : Grammar) :
    objectEntry g text s c = none := by
  have modified : modifiers false text s c = some ([], c) := by
    obtain ⟨n, enough⟩ := Nat.exists_eq_add_of_le' bound
    have stops : repeatFrom [] (modifierRound false) text s c = some ([], c) := by
      change rounds (modifierRound false) s.bound [] text s c = _
      rw [enough, rounds, modifierRound, bind_apply, bind_of_eq (lexeme_eq (c := c)), closes]
      rfl
    rw [modifiers, bind_of_eq stops]
    rfl
  have accessor (k : Keyword) : accessorWord k text s c = some (false, c) := by
    rw [accessorWord, bind_of_eq (seesWord_apply k), closes]
    rfl
  have star : eat .star text s c = some (false, c) := by
    rw [eat_apply, closes]
    rfl
  have name : key g text s c = none := by
    rw [key, bind_of_eq here_apply, bind_of_eq (lexeme_eq (c := c)), closes]
    change (identifierName >>= _) text s c = _
    rw [bind_apply, identifierName_rejects closes]
    rfl
  rw [objectEntry, bind_of_eq here_apply, bind_of_eq (sees_eq .ellipsis), closes, if_neg (by decide),
    bind_of_eq modified, bind_of_eq (accessor .get), if_neg (by decide), bind_of_eq (accessor .set_),
    if_neg (by decide), namedEntry, bind_of_eq star, bind_of_eq token_apply, bind_apply, name]
  rfl

structure Indented where
  gap : List Char
  blank : ∀ b ∈ gap, isBlank b = true
  phrase : Phrase

def commaEnded (items : List Indented) : List Char := items.flatMap fun i => i.gap ++ (i.phrase.text ++ [','])

theorem commaEnded_cons (i : Indented) (items : List Indented) :
    commaEnded (i :: items) ++ rest = i.gap ++ (i.phrase.text ++ (',' :: (commaEnded items ++ rest))) := by
  simp [commaEnded]

theorem listTail_commaEnded {m : Mark} {tail : List Char} (closing : Closing (.mark m) tail) (items : List Indented) :
    ListTail m tail (items.map Indented.phrase) (',' :: (commaEnded items ++ tail)) := by
  induction items with
  | nil => exact .comma closing
  | cons i items ih =>
    rw [commaEnded_cons]
    exact .item i.blank ih

theorem commaSeparated_commaEnded {item : Parse Tree} {m : Mark} {items : List Indented} {tail : List Char}
    (rejects : ∀ c : Cursor text, c.cut.lexeme = .mark m → item text s c = none) (other : m ≠ .comma)
    (reads : ∀ i ∈ items, ReadsIn Closing.lexemes item text s i.phrase) (closing : Closing (.mark m) tail)
    (enough : items.length < s.bound) (reaches : c.Reaches (commaEnded items ++ tail)) :
    ∃ ts c', commaSeparated m item text s c = some (ts, c') ∧
      ts.map Tree.shape = (items.map Indented.phrase).map Phrase.shape ∧ c.Passes c' tail := by
  cases items with
  | nil => exact ⟨[], c, commaSeparated_nil item closing reaches, rfl, .refl reaches⟩
  | cons i items =>
    rw [commaEnded_cons, Cursor.reaches_blanks i.blank] at reaches
    exact commaSeparated_cons rejects other (listTail_commaEnded closing items) (List.forall_mem_map.mpr reads)
      (by simpa using Nat.lt_of_succ_lt enough) reaches

theorem primary_object {g : Grammar} {ts : List Tree} {c₁ : Cursor text} {inside : List Char}
    (lbrace : c.cut.lexeme = .mark .lbrace) (opened : c.Passes c.next inside)
    (read : commaSeparated .rbrace (objectEntry g) text (Setting.bracketed s) c.next = some (ts, c₁))
    (passes : c.next.Passes c₁ ('\x7d' :: rest)) :
    OpensOperand c ∧ ∃ t c', primary g text s c = some (t, c') ∧
      t.shape = .node .object (ts.map Tree.shape) ∧ Direct t ∧ c.Passes c' rest := by
  obtain ⟨rbrace, closed⟩ := passes.reaches.passes_mark (m := .rbrace) rfl rfl
  have inner : within Setting.bracketed (commaSeparated .rbrace (objectEntry g)) text s c.next = some (ts, c₁) := read
  refine ⟨opensOperand_of_ne (by rw [lbrace]; rfl) (by simp [lbrace]),
    .node .object ⟨c.place.offset, c₁.next.lastStop⟩ ts, c₁.next, ?_, ?_, ⟨rfl, rfl⟩,
      (opened.trans passes).trans closed⟩
  · rw [primary, bind_of_eq (lexeme_eq (c := c)), lbrace]
    change objectLiteral g text s c = _
    rw [objectLiteral, bind_of_eq here_apply, bind_of_eq (expect_apply lbrace), bind_of_eq inner,
      bind_of_eq (expect_apply rbrace)]
    rfl
  · rw [Tree.shape, Tree.shapeList_eq_map]

def AloneInside (rule : Grammar → Parse Tree) (p : Phrase) : Prop :=
  ∀ (text : List Char) (s : Setting) (n : Nat), p.text.length < s.bound → goalsPerCharacter * p.text.length ≤ n →
    ReadsIn Closing.lexemes (rule (upTo n)) text (Setting.bracketed s) p

theorem Alone.inside {rule : Grammar → Parse Tree} {p : Phrase} (alone : Alone rule p) : AloneInside rule p :=
  fun text s n room goals => alone text (Setting.bracketed s) n room goals

end

def linesObject (items : List Indented) (gap : List Char) : Phrase :=
  ⟨'\x7b' :: (commaEnded items ++ (gap ++ ['\x7d'])), .node .object (items.map fun i => i.phrase.shape)⟩

theorem length_commaEnded (items : List Indented) :
    items.length ≤ (commaEnded items).length ∧ ∀ i ∈ items, i.phrase.text.length < (commaEnded items).length := by
  refine ⟨length_le_length_flatMap (by simp) items, fun i mem => ?_⟩
  have part : (i.gap ++ (i.phrase.text ++ [','])).length ≤ (commaEnded items).length :=
    length_le_of_mem (f := fun i : Indented => i.gap ++ (i.phrase.text ++ [','])) mem
  simp only [List.length_append, List.length_cons, List.length_nil] at part
  omega

theorem leads_linesObject {items : List Indented} {gap : List Char} (blank : ∀ b ∈ gap, isBlank b = true)
    (alone : ∀ i ∈ items, AloneInside objectEntry i.phrase) :
    Leads (fun _ => True) (linesObject items gap) := by
  refine ⟨List.cons_ne_nil _ _, fun text rest s n c room goals _ reaches => ?_⟩
  obtain ⟨count, each⟩ := length_commaEnded items
  simp only [linesObject, List.length_cons, List.length_append, List.length_nil] at room goals
  simp only [linesObject, List.cons_append, List.append_assoc, List.nil_append] at reaches
  have bound : 1 ≤ (Setting.bracketed s).bound := show 1 ≤ s.bound by omega
  have reads : ∀ i ∈ items, ReadsIn Closing.lexemes (objectEntry (upTo n)) text (Setting.bracketed s) i.phrase := by
    intro i mem
    have part := each i mem
    refine alone i mem text s n (by omega) ?_
    unfold goalsPerCharacter at goals ⊢
    omega
  obtain ⟨lbrace, opened⟩ := reaches.passes_mark (m := .lbrace) rfl rfl
  obtain ⟨ts, c₁, read, shapes, passes⟩ := commaSeparated_commaEnded
    (fun c closes => objectEntry_rejects closes bound (upTo n)) (by decide) reads (.blanks blank (.rbrace rest))
    (show items.length < s.bound by omega) opened.reaches
  rw [List.map_map] at shapes
  rw [linesObject, ← Function.comp_def Phrase.shape, ← shapes]
  exact primary_object lbrace opened read (passes.blanks blank)

def objectOf (ps : List Phrase) : Phrase :=
  ⟨'\x7b' :: ' ' :: (joinTexts ps ++ [' ', '\x7d']), .node .object (ps.map Phrase.shape)⟩

theorem leads_object {ps : List Phrase} (alone : ∀ p ∈ ps, Alone objectEntry p) :
    Leads (fun _ => True) (objectOf ps) := by
  refine ⟨List.cons_ne_nil _ _, fun text rest s n c room goals _ reaches => ?_⟩
  obtain ⟨count, each⟩ := length_joinTexts ps
  simp only [objectOf, List.length_cons, List.length_append, List.length_nil] at room goals
  rw [objectOf, List.cons_append, List.cons_append, List.append_assoc] at reaches
  have bound : 1 ≤ (Setting.bracketed s).bound := show 1 ≤ s.bound by omega
  have reads : ∀ p ∈ ps, ReadsIn Closing.lexemes (objectEntry (upTo n)) text (Setting.bracketed s) p := by
    intro p mem
    have part := each p mem
    refine alone p mem text (Setting.bracketed s) n ?_ ?_
    · exact show p.text.length < s.bound by omega
    · unfold goalsPerCharacter at goals ⊢
      omega
  obtain ⟨lbrace, opened⟩ := reaches.passes_mark (m := .lbrace) rfl rfl
  obtain ⟨ts, c₁, read, shapes, passes⟩ := commaSeparated_phrases
    (fun c closes => objectEntry_rejects closes bound (upTo n)) (by decide) reads
    (.blank (b := ' ') (by decide) (.rbrace rest)) (show ps.length < s.bound by omega)
    (opened.blank (by decide)).reaches
  rw [objectOf, ← shapes]
  exact primary_object lbrace opened read (passes.blank (by decide))

end VueOptions.Script.Grammar
