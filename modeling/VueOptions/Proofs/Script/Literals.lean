import VueOptions.Proofs.Script.Entries

/-!
Literals in place: words, strings and numbers, and arrays and objects whose parts stand alone. Accesses and calls may
follow them.
-/

set_option autoImplicit false

namespace VueOptions.Script

open Text

theorem Name.IsWord.ne_nil {w : List Char} (word : Name.IsWord w) : w ≠ [] := by
  rintro rfl
  exact word

theorem Name.isPart_of_isStart {c : Char} (start : Name.isStart c = true) : Name.isPart c = true := by
  unfold Name.isPart
  split
  · next ascii =>
    rw [Name.isStart, if_pos ascii] at start
    simp only [Char.isAlphanum, Bool.or_eq_true] at start ⊢
    rcases start with (alpha | dollar) | low
    · exact .inl (.inl (.inl alpha))
    · exact .inl (.inr dollar)
    · exact .inr low
  · rw [start]
    rfl

theorem Name.IsWord.isPart {w : List Char} (word : Name.IsWord w) : ∀ c ∈ w, Name.isPart c = true := by
  cases w with
  | nil => simp
  | cons c cs => exact List.forall_mem_cons.mpr ⟨Name.isPart_of_isStart word.1, word.2⟩

def Keyword.literal? : Keyword → Option Kind
  | .this_ => some .thisWord
  | .null_ => some .null
  | .true_ => some (.boolean true)
  | .false_ => some (.boolean false)
  | _ => none

def Keyword.isFree (k : Keyword) : Bool := !k.isReserved && !([Keyword.await, .yield].contains k)

def Name.Word.isFree (w : Name.Word) : Bool := (Keyword.ofSpelling? w.text.toList).all Keyword.isFree

inductive Atom
  | reference (name : Name.Word) (isFree : name.isFree = true)
    (plain : Keyword.ofSpelling? name.text.toList ≠ some .async)
  | literal (word : Keyword) (kind : Kind) (means : word.literal? = some kind)
  | string (value : String) (inLine : ∀ c ∈ value.toList, c ≠ '\n' ∧ c ≠ '\r')

namespace Atom

def text : Atom → List Char
  | .reference name _ _ => name.text.toList
  | .literal word _ _ => word.spelling
  | .string value _ => (singleQuoted value).toList

def kind : Atom → Kind
  | .reference name _ _ => .identifier name
  | .literal _ kind _ => kind
  | .string value _ => .string value

def phrase (a : Atom) : Phrase := ⟨a.text, .node a.kind []⟩

end Atom

namespace Grammar

open Parse

variable {text rest : List Char} {s : Setting} {c c' : Cursor text} {g : Grammar}

theorem direct_leaf {kind : Kind} (plain : kind ≠ .instantiation) (s : Span) : Direct (.node kind s []) := by
  refine ⟨?_, ?_⟩
  · unfold reachesOptional
    split
    all_goals first | rfl | (next same => cases same)
  · unfold uninstantiated
    split
    · next same => exact absurd (Tree.node.inj same).1 plain
    · rfl

section

variable {w : Name.Word}

theorem isPlain_ofName (free : w.isFree = true) : (Lexeme.ofName w.text.toList).isPlain = true := by
  unfold Name.Word.isFree at free
  unfold Lexeme.ofName
  cases word : Keyword.ofSpelling? w.text.toList with
  | none => rfl
  | some k =>
    rw [word, Option.all_some] at free
    dsimp only
    cases k
    all_goals first | rfl | exact absurd free (by decide)

theorem namesReference_of_isFree (free : w.isFree = true) (named : c.cut.lexeme = Lexeme.ofName w.text.toList) :
    c.token.namesReference s = true := by
  unfold Name.Word.isFree at free
  unfold Token.namesReference Cursor.token
  rw [named, Lexeme.ofName]
  cases word : Keyword.ofSpelling? w.text.toList with
  | none => rfl
  | some k =>
    rw [word, Option.all_some, Keyword.isFree, Bool.and_eq_true, Bool.not_eq_true', Bool.not_eq_true'] at free
    dsimp only
    split
    · rfl
    · next same => cases same; exact absurd free.2 (by decide)
    · next same => cases same; exact absurd free.2 (by decide)
    · next same => cases same; rw [free.1]; rfl
    · next other => exact absurd rfl (other k)

theorem OpensOperand.seesAsyncFunction_eq (opens : OpensOperand c) (async : c.cut.lexeme = .keyword .async) :
    seesAsyncFunction text s c = some (false, c) := by
  have closes := opens.async async
  have function : seesWord .function text s c.next = some (false, c.next) := by
    rw [seesWord_apply, beq_eq_false_iff_ne.mpr]
    intro same
    rw [same] at closes
    exact absurd closes (by decide)
  rw [seesAsyncFunction, bind_of_eq (seesWord_apply .async), async, beq_self_eq_true, if_pos rfl]
  apply afterNext_of_eq
  rw [bind_of_eq function, bind_of_eq afterBreak_apply]
  rfl

theorem primary_reference (free : w.isFree = true) (named : c.cut.lexeme = Lexeme.ofName w.text.toList)
    (opens : OpensOperand c) :
    primary g text s c = some (.node (.identifier w) ⟨c.place.offset, c.next.lastStop⟩ [], c.next) := by
  have reference : identifierReference text s c =
      some (.node (.identifier w) ⟨c.place.offset, c.next.lastStop⟩ [], c.next) := by
    rw [identifierReference, bind_of_eq token_apply, bind_of_eq read_apply, namesReference_of_isFree free named]
    exact identifierName_word named
  unfold Name.Word.isFree at free
  unfold primary
  rw [bind_of_eq (lexeme_eq (c := c))]
  rw [Lexeme.ofName] at named
  cases word : Keyword.ofSpelling? w.text.toList with
  | none =>
    rw [word] at named
    rw [named]
    exact reference
  | some k =>
    rw [word] at named free
    rw [Option.all_some] at free
    rw [named]
    change (fun p : Parse Tree => p text s c) _ = _
    dsimp only
    cases k
    case async =>
      dsimp only
      rw [bind_of_eq (opens.seesAsyncFunction_eq named)]
      exact reference
    all_goals first | exact reference | exact absurd free (by decide)

end

theorem primary_literal {word : Keyword} {kind : Kind} (means : word.literal? = some kind)
    (sees : c.cut.lexeme = .keyword word) (plain : c.cut.isEscaped = false) :
    primary g text s c = some (.node kind ⟨c.place.offset, c.next.lastStop⟩ [], c.next) := by
  have taken (kind : Kind) : primary.takeLeaf kind text s c =
      some (.node kind ⟨c.place.offset, c.next.lastStop⟩ [], c.next) := by
    change (flawIf c.cut.isEscaped >>= fun _ => leaf kind) text s c = _
    rw [plain]
    rfl
  unfold primary
  rw [bind_of_eq (lexeme_eq (c := c)), sees]
  unfold Keyword.literal? at means
  split at means
  · cases means; exact taken _
  · cases means; exact taken _
  · cases means; exact taken _
  · cases means; exact taken _
  · cases means

theorem text_ne_nil (a : Atom) : a.text ≠ [] := by
  cases a with
  | reference name free plain => exact name.isWord.ne_nil
  | literal word kind means => exact word.isWord_spelling.ne_nil
  | string value inLine => simp [Atom.text, singleQuoted]

theorem kind_ne_instantiation (a : Atom) : a.kind ≠ .instantiation := by
  cases a with
  | reference name free plain => simp [Atom.kind]
  | literal word kind means =>
    unfold Keyword.literal? at means
    split at means <;> cases means <;> simp [Atom.kind]
  | string value inLine => simp [Atom.kind]

theorem direct_identifier (w : Name.Word) (s : Span) : Direct (.node (.identifier w) s []) := direct_leaf (by simp) s

theorem leads_reference {w : Name.Word} {follows : List Char → Prop} (free : w.isFree = true)
    (ends : ∀ rest, follows rest → Name.EndsName rest)
    (async : Keyword.ofSpelling? w.text.toList = some .async → ∀ rest, follows rest → ∃ l, Closing l rest) :
    Leads follows ⟨w.text.toList, .node (.identifier w) []⟩ := by
  refine ⟨w.isWord.ne_nil, fun text rest s n c _ _ follow reaches => ?_⟩
  obtain ⟨cut, passes⟩ := reaches.passes_word w.isWord (ends rest follow)
  have named : c.cut.lexeme = Lexeme.ofName w.text.toList := by rw [cut]
  have opens : OpensOperand c := by
    refine ⟨named ▸ isPlain_ofName free, fun same => ?_⟩
    have word : Keyword.ofSpelling? w.text.toList = some .async := by
      rw [named, Lexeme.ofName] at same
      cases word : Keyword.ofSpelling? w.text.toList with
      | none =>
        rw [word] at same
        cases same
      | some k =>
        rw [word] at same
        rw [Lexeme.keyword.inj same]
    obtain ⟨l, closing⟩ := async word rest follow
    exact closing.lexeme_eq passes.reaches ▸ closing.mem_lexemes
  exact ⟨opens, _, c.next, primary_reference free named opens, rfl, direct_identifier w _, passes⟩

theorem leads_atom (a : Atom) : Leads Continues a.phrase := by
  have direct (s : Span) := direct_leaf (kind_ne_instantiation a) s
  refine ⟨text_ne_nil a, fun text rest s n c room goals continues reaches => ?_⟩
  cases a with
  | reference name free plain =>
    have leads : Leads Continues ⟨name.text.toList, .node (.identifier name) []⟩ :=
      leads_reference free (fun _ continues => continues.endsName) fun async => absurd async plain
    exact leads.reads text rest s n c room goals continues reaches
  | literal word kind means =>
    obtain ⟨cut, passes⟩ := reaches.passes_word word.isWord_spelling continues.endsName
    have sees : c.cut.lexeme = .keyword word := by
      rw [cut, Lexeme.ofName, Keyword.ofSpelling?_spelling]
    have plain : (Lexeme.keyword word).isPlain = true ∧ Lexeme.keyword word ≠ .keyword .async := by
      unfold Keyword.literal? at means
      split at means
      all_goals first | exact ⟨rfl, by decide⟩ | cases means
    have opens : OpensOperand c := opensOperand_of_ne (sees ▸ plain.1) (sees ▸ plain.2)
    exact ⟨opens, _, c.next, primary_literal means sees (by rw [cut]), rfl, direct _, passes⟩
  | string value inLine =>
    simp only [Atom.phrase, Atom.text] at reaches
    obtain ⟨cut, passes⟩ := reaches.passes_cut (startsToken_singleQuoted value rest)
      (Lexeme.cut_singleQuoted inLine rest)
    have sees : c.cut.lexeme = .string value := by rw [cut]
    have read : primary (upTo n) text s c =
        some (.node (.string value) ⟨c.place.offset, c.next.lastStop⟩ [], c.next) := by
      rw [primary, bind_of_eq (lexeme_eq (c := c)), sees]
      rfl
    exact ⟨opensOperand_of_ne (by rw [sees]; rfl) (by simp [sees]), _, c.next, read, rfl, direct _, passes⟩

theorem leads_numeral (number : Literal.Numeral) :
    Leads Literal.EndsNumber ⟨number.text.toList, .node (.numeral number) []⟩ := by
  have starts := (BareName.numeral number).startsToken_append
  have filled : number.text.toList ≠ [] := by
    intro none
    have starts := number.isNumeral.starts
    rw [none] at starts
    exact starts
  refine ⟨filled, fun text rest s n c _ _ ends reaches => ?_⟩
  obtain ⟨cut, passes⟩ := reaches.passes_cut (starts rest) (Lexeme.cut_numeral number.isNumeral ends)
  have sees : c.cut.lexeme = .numeral number.text := by rw [cut, String.ofList_toList]
  have read : primary (upTo n) text s c =
      some (.node (.numeral number) ⟨c.place.offset, c.next.lastStop⟩ [], c.next) := by
    rw [primary, bind_of_eq (lexeme_eq (c := c)), sees]
    exact numeral_of_lexeme sees
  exact ⟨opensOperand_of_ne (by rw [sees]; rfl) (by simp [sees]), _, c.next, read, rfl, direct_leaf (by simp) _, passes⟩

theorem alone_of_leads {p : Phrase} {follows : List Char → Prop} (leads : Leads follows p)
    (fit : ∀ l rest, Closing l rest → follows rest) : Alone oneExpression p := by
  have alone := alone_chain (k := ⟨p, [], []⟩) leads (by simpa [Chain.tail, memberTexts] using fit) (by simp)
  simpa [Chain.phrase, Chain.tail, memberTexts] using alone

theorem alone_reference {w : Name.Word} (free : w.isFree = true) :
    Alone oneExpression ⟨w.text.toList, .node (.identifier w) []⟩ := by
  have leads : Leads (fun rest => ∃ l, Closing l rest) ⟨w.text.toList, .node (.identifier w) []⟩ :=
    leads_reference free (fun _ ⟨_, closing⟩ => closing.apart.1) fun _ _ closing => closing
  exact alone_of_leads leads fun l _ closing => ⟨l, closing⟩

theorem alone_string {value : String} (inLine : ∀ c ∈ value.toList, c ≠ '\n' ∧ c ≠ '\r') :
    Alone oneExpression ⟨(singleQuoted value).toList, .node (.string value) []⟩ :=
  alone_of_leads (leads_atom (.string value inLine)) fun l _ closing => .inl (.inl ⟨l, closing⟩)

theorem alone_numeral (number : Literal.Numeral) :
    Alone oneExpression ⟨number.text.toList, .node (.numeral number) []⟩ :=
  alone_of_leads (leads_numeral number) fun _ _ closing => closing.apart.2

def arrayOf (ps : List Phrase) : Phrase := ⟨'[' :: (joinTexts ps ++ [']']), .node .array (ps.map Phrase.shape)⟩

section

variable {ps : List Phrase}

theorem readsIn_arrayElement {p : Phrase} {n : Nat} (bound : 1 ≤ s.bound)
    (reads : ReadsIn Closing.lexemes (argument (upTo n)) text s p) :
    ReadsIn Closing.lexemes (arrayElement (upTo n)) text s p := by
  intro c rest l mem closing reaches
  obtain ⟨t, c', read, shape, passes⟩ := reads c rest l mem closing reaches
  refine ⟨t, c', ?_, shape, passes⟩
  have comma : sees .comma text s c = some (false, c) :=
    sees_of_read (fun c same => argument_rejects (same ▸ (Closing.comma []).mem_lexemes) bound n) read
  rw [arrayElement, bind_of_eq comma]
  exact read

theorem arrayElement_rejects (closes : c.cut.lexeme = .mark .rbrack) (bound : 1 ≤ s.bound) (n : Nat) :
    arrayElement (upTo n) text s c = none := by
  rw [arrayElement, bind_of_eq (sees_eq .comma), closes]
  exact argument_rejects (closes ▸ (Closing.rbrack []).mem_lexemes) bound n

theorem leads_array (alone : ∀ p ∈ ps, Alone argument p) :
    Leads (fun _ => True) (arrayOf ps) := by
  refine ⟨List.cons_ne_nil _ _, fun text rest s n c room goals _ reaches => ?_⟩
  obtain ⟨count, each⟩ := length_joinTexts ps
  simp only [arrayOf, List.length_cons, List.length_append, List.length_nil] at room goals
  rw [arrayOf, List.cons_append, List.append_assoc] at reaches
  obtain ⟨lbrack, opened⟩ := reaches.passes_mark (m := .lbrack) rfl rfl
  have bound : 1 ≤ (Setting.bracketed s).bound := show 1 ≤ s.bound by omega
  have reads : ∀ p ∈ ps, ReadsIn Closing.lexemes (arrayElement (upTo n)) text (Setting.bracketed s) p := by
    intro p mem
    have part := each p mem
    refine readsIn_arrayElement bound (alone p mem text (Setting.bracketed s) n ?_ ?_)
    · exact show p.text.length < s.bound by omega
    · unfold goalsPerCharacter at goals ⊢
      omega
  obtain ⟨ts, c₁, read, shapes, passes⟩ := commaSeparated_phrases
    (fun c closes => arrayElement_rejects closes bound n) (by decide) reads (.rbrack rest)
    (show ps.length < s.bound by omega) opened.reaches
  obtain ⟨rbrack, closed⟩ := passes.reaches.passes_mark (m := .rbrack) rfl rfl
  have inside : within Setting.bracketed (commaSeparated .rbrack (arrayElement (upTo n))) text s c.next =
      some (ts, c₁) := read
  refine ⟨opensOperand_of_ne (by rw [lbrack]; rfl) (by simp [lbrack]),
    .node .array ⟨c.place.offset, c₁.next.lastStop⟩ ts, c₁.next, ?_, ?_, ⟨rfl, rfl⟩, (opened.trans passes).trans closed⟩
  · rw [primary, bind_of_eq (lexeme_eq (c := c)), lbrack]
    change arrayLiteral (upTo n) text s c = _
    rw [arrayLiteral, bind_of_eq here_apply, bind_of_eq (expect_apply lbrack), bind_of_eq inside,
      bind_of_eq (expect_apply rbrack)]
    rfl
  · rw [Tree.shape, Tree.shapeList_eq_map, shapes]
    rfl

end

def namedValue (b : BareName) (p : Phrase) : Phrase :=
  ⟨b.text.toList ++ ':' :: ' ' :: p.text, .node (.entry .plain) [.node (.key false) [.node b.kind []], p.shape]⟩

def ownValue (w : Name.Word) : Phrase :=
  ⟨w.text.toList, .node (.entry .shorthand) [.node (.key false) [.node (.identifier w) []]]⟩

theorem alone_namedValue {b : BareName} {p : Phrase} (alone : Alone oneExpression p) :
    Alone objectEntry (namedValue b p) := by
  intro text s n room goals
  have whole : (namedValue b p).text.length = b.text.toList.length + (p.text.length + 2) := by
    simp only [namedValue, List.length_append, List.length_cons]
  have filled : 1 ≤ b.text.toList.length := by
    obtain ⟨c, cs, text, -⟩ := b.startsToken_append []
    rw [List.append_nil] at text
    simp [text]
  exact readsIn_entry (.bare b) .value (List.mem_singleton.mpr rfl) (by omega)
    (alone text s n (by omega) (by unfold goalsPerCharacter at goals ⊢; omega))

theorem namedEntry_shorthand {w : Name.Word} (free : w.isFree = true)
    (named : c.cut.lexeme = Lexeme.ofName w.text.toList)
    (closes : c.next.cut.lexeme ∈ Closing.lexemes) (g : Grammar) (start : Nat) :
    namedEntry g start [] text s c = some (.node (.entry .shorthand) ⟨start, c.next.lastStop⟩
      [(BareName.word w).tree ⟨c.place.offset, c.next.lastStop⟩], c.next) := by
  have named' : c.cut.lexeme = (BareName.word w).lexeme := named
  have other (m : Mark) (open' : Lexeme.mark m ∉ Closing.lexemes) : (c.next.cut.lexeme == .mark m) = false :=
    beq_eq_false_iff_ne.mpr fun same => open' (same ▸ closes)
  have marks : seesAny [.lparen, .langle] text s c.next = some (false, c.next) := by
    rw [seesAny_apply]
    simp only [Closing.lexemes, List.mem_cons, List.not_mem_nil, or_false] at closes
    rcases closes with sees | sees | sees | sees | sees | sees <;> rw [sees] <;> rfl
  have colon : sees .colon text s c.next = some (false, c.next) := by
    rw [sees_eq, other .colon (by decide)]
  have eq : eat .eq text s c.next = some (false, c.next) := by
    rw [eat_apply, other .eq (by decide), if_neg (by decide)]
  unfold namedEntry
  rw [bind_of_eq (eat_bareName named' .star), bind_of_eq token_apply, bind_of_eq (key_bareName named' g),
    bind_of_eq marks, if_neg (by decide),
    bind_of_eq (show allowModifiers [] [] text s c.next = some ((), c.next) from rfl), bind_of_eq read_apply,
    bind_of_eq colon, namesReference_of_isFree free named, Bool.not_false, Bool.and_true, if_pos rfl, bind_of_eq eq,
    if_neg (by decide)]
  rfl

theorem alone_ownValue {w : Name.Word} (free : w.isFree = true) : Alone objectEntry (ownValue w) := by
  intro text s n room _ c rest l mem closing reaches
  obtain ⟨cut, passes⟩ := reaches.passes_word w.isWord closing.apart.1
  have named : c.cut.lexeme = (BareName.word w).lexeme := by
    rw [cut]
    rfl
  have closes : c.next.cut.lexeme ∈ Closing.lexemes := closing.lexeme_eq passes.reaches ▸ mem
  have follows : FollowsName c.next := List.mem_cons_of_mem _ (List.mem_cons_of_mem _ closes)
  have noSpread : sees .ellipsis text s c = some (false, c) := by
    rw [sees_eq, named, BareName.lexeme_ne_mark]
  refine ⟨.node (.entry .shorthand) ⟨c.place.offset, c.next.lastStop⟩
    [(BareName.word w).tree ⟨c.place.offset, c.next.lastStop⟩], c.next, ?_, rfl, passes⟩
  rw [objectEntry_of_modifiers noSpread (modifiers_of_followsName follows (by omega)) follows,
    namedEntry_shorthand free named closes]

theorem alone_spreadEntry {p : Phrase} (alone : Alone oneExpression p) :
    Alone objectEntry ⟨'.' :: '.' :: '.' :: p.text, .node .spread [p.shape]⟩ := by
  intro text s n room goals c rest l mem closing reaches
  have cut := (reaches.passes_cut (k := ⟨.mark .ellipsis, ['.', '.', '.'], p.text ++ rest, false⟩)
    ⟨'.', '.' :: '.' :: (p.text ++ rest), rfl, rfl⟩ rfl).1
  obtain ⟨t, c', read, shape, passes⟩ := alone_spread alone text s n room goals c rest l mem closing reaches
  refine ⟨t, c', ?_, shape, passes⟩
  rw [objectEntry, bind_of_eq here_apply, bind_of_eq (sees_eq .ellipsis), cut]
  exact read

end Grammar

end VueOptions.Script
