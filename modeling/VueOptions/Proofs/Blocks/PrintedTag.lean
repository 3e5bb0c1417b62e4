import Mathlib.Data.List.Nodup
import VueOptions.Blocks.Block

/-!
Opening tags as they are printed. A key is a run of key characters, and a printed value stands in
quotes that it does not hold; so a reading of a printed tag never has to go back for another way to
read a value (`OpenTag.read?_printed`, `Attribute.ofText_printed`).
-/

set_option autoImplicit false

namespace VueOptions.Blocks

open Text

def HoldsBothQuotes (value : String) : Prop := '"' ∈ value.toList ∧ '\'' ∈ value.toList

instance HoldsBothQuotes.decidable (value : String) : Decidable (HoldsBothQuotes value) :=
  inferInstanceAs (Decidable ('"' ∈ value.toList ∧ '\'' ∈ value.toList))

/-- The value as it is read back: its double quotes are entities if it holds both kinds of quotes. -/
def escapedValue (value : String) : String :=
  if HoldsBothQuotes value then
    String.ofList (value.toList.flatMap fun c => if c = '"' then "&quot;".toList else [c])
  else value

theorem escapeQuotes_eq_flatMap (cs : List Char) :
    escapeQuotes cs = cs.flatMap fun c => if c = '"' then "&quot;".toList else [c] := by
  induction cs with
  | nil => rfl
  | cons c cs ih =>
    rw [escapeQuotes, List.flatMap_cons, ← ih]
    split <;> rfl

theorem quote_not_mem_escapeQuotes (cs : List Char) : '"' ∉ escapeQuotes cs := by
  induction cs with
  | nil => exact List.not_mem_nil
  | cons c cs ih =>
    rw [escapeQuotes]
    split
    · rw [List.mem_append, not_or]
      exact ⟨by decide, ih⟩
    · next ne =>
      rw [List.mem_cons, not_or]
      exact ⟨fun same => ne same.symm, ih⟩

theorem escapedValue_of_both {value : String} (both : HoldsBothQuotes value) :
    escapedValue value = String.ofList (escapeQuotes value.toList) := by
  rw [escapedValue, if_pos both, escapeQuotes_eq_flatMap]

theorem escapedValue_eq_self_iff {value : String} :
    escapedValue value = value ↔ ¬HoldsBothQuotes value := by
  constructor
  · intro same both
    rw [escapedValue_of_both both] at same
    have mem := both.1
    rw [← same, String.toList_ofList] at mem
    exact quote_not_mem_escapeQuotes _ mem
  · exact fun h => if_neg h

theorem exists_quote (value : String) :
    ∃ q, (q = '"' ∨ q = '\'') ∧ q ∉ (escapedValue value).toList ∧
      (quoteValue value).toList = q :: (escapedValue value).toList ++ [q] := by
  by_cases double : '"' ∈ value.toList
  · by_cases single : '\'' ∈ value.toList
    · rw [escapedValue_of_both ⟨double, single⟩, String.toList_ofList]
      exact ⟨'"', .inl rfl, quote_not_mem_escapeQuotes _, by simp [quoteValue, double, single]⟩
    · refine ⟨'\'', .inr rfl, ?_, ?_⟩
      · rwa [escapedValue, if_neg fun both => single both.2]
      · simp [quoteValue, double, single, escapedValue, HoldsBothQuotes]
  · refine ⟨'"', .inl rfl, ?_, ?_⟩
    · rwa [escapedValue, if_neg fun both => double both.1]
    · simp [quoteValue, double, escapedValue, HoldsBothQuotes]

theorem quoteValue_escapedValue (value : String) : quoteValue (escapedValue value) = quoteValue value := by
  by_cases both : HoldsBothQuotes value
  · have absent := quote_not_mem_escapeQuotes value.toList
    simp [escapedValue_of_both both, quoteValue, absent, both.1, both.2]
  · rw [escapedValue_eq_self_iff.mpr both]

theorem escapedValue_isEmpty (value : String) : (escapedValue value).isEmpty = value.isEmpty := by
  by_cases both : HoldsBothQuotes value
  · have nonempty : value ≠ "" := by
      rintro rfl
      exact absurd both (by decide)
    rw [escapedValue_of_both both]
    cases h : value.toList with
    | nil => exact absurd (String.toList_eq_nil_iff.mp h) nonempty
    | cons c cs =>
      have filled : escapeQuotes (c :: cs) ≠ [] := by
        rw [escapeQuotes]
        split <;> simp
      rw [Bool.eq_iff_iff, String.isEmpty_iff, String.isEmpty_iff]
      exact ⟨fun h => absurd (String.ofList_eq_empty_iff.mp h) filled, fun h => absurd h nonempty⟩
  · rw [escapedValue_eq_self_iff.mpr both]

theorem valueReadings_quoted {q : Char} (quote : q = '"' ∨ q = '\'') {value : List Char} (absent : q ∉ value)
    (rest : List Char) :
    ∃ others, valueReadings (q :: value ++ q :: rest) = (value, rest) :: others := by
  have inside : ∀ c ∈ value, (c != q) = true := by
    intro c mem
    simp only [bne_iff_ne]
    rintro rfl
    exact absent mem
  have read : quotedValue? q (value ++ q :: rest) = some (value, rest) := by
    simp [quotedValue?, List.dropWhile_append_of_pos inside, List.takeWhile_append_of_pos inside]
  rcases quote with rfl | rfl <;> simp [valueReadings, read]

namespace Attribute

def IsKey (key : String) : Prop := key.toList ≠ [] ∧ ∀ c ∈ key.toList, isKeyChar c = true

/-- Attributes whose keys can stand in a tag, each of them once. -/
structure WellKeyed (as : List Attribute) : Prop where
  keys : ∀ a ∈ as, IsKey a.key
  distinct : (as.map key).Nodup

def escaped (a : Attribute) : Attribute := ⟨a.key, escapedValue a.value⟩

def valueText (a : Attribute) : List Char :=
  if a.value.isEmpty then [] else '=' :: (quoteValue a.value).toList

def printed (as : List Attribute) : List Char :=
  as.flatMap fun a => ' ' :: a.key.toList ++ valueText a

theorem toList_print (a : Attribute) : a.print.toList = ' ' :: a.key.toList ++ valueText a := by
  unfold print valueText
  split <;> simp

theorem toList_join_print (as : List Attribute) : (String.join (as.map print)).toList = printed as := by
  rw [String.toList_join, List.flatMap_map]
  exact congrArg as.flatMap (funext toList_print)

theorem printed_cons_append (a : Attribute) (as : List Attribute) (rest : List Char) :
    printed (a :: as) ++ rest = ' ' :: a.key.toList ++ (valueText a ++ (printed as ++ rest)) := by
  simp [printed]

theorem print_escaped (a : Attribute) : a.escaped.print = a.print := by
  simp only [print, escaped, escapedValue_isEmpty, quoteValue_escapedValue]

/-- A text that goes on neither a key nor its value. -/
structure Ends (rest : List Char) : Prop where
  key : ∀ c ∈ rest.head?, isKeyChar c = false
  value : afterEquals? rest = none

theorem Ends.nil : Ends [] := ⟨nofun, rfl⟩

theorem Ends.angle (rest : List Char) : Ends ('>' :: rest) := by
  refine ⟨fun c mem => ?_, rfl⟩
  obtain rfl := Option.some.inj mem
  rfl

private theorem not_isBlank_of_isKeyChar {c : Char} (h : isKeyChar c = true) : isBlank c = false := by
  rw [isKeyChar, Bool.not_eq_true', Bool.or_eq_false_iff, Bool.or_eq_false_iff,
    Bool.or_eq_false_iff] at h
  exact h.1.1.1

private theorem dropWhile_blank_key {p : Char → Bool} (blank : p ' ' = true)
    (stops : ∀ c, isKeyChar c = true → p c = false) {key : String} (h : IsKey key) (rest : List Char) :
    (' ' :: key.toList ++ rest).dropWhile p = key.toList ++ rest := by
  obtain ⟨ne, chars⟩ := h
  cases hk : key.toList with
  | nil => exact absurd hk ne
  | cons c cs =>
    have first := stops c (chars c (hk ▸ List.mem_cons_self))
    rw [List.cons_append, List.dropWhile_cons_of_pos blank, List.cons_append,
      List.dropWhile_cons_of_neg (by simp [first])]

private theorem trimStart_blank_key {key : String} (h : IsKey key) (rest : List Char) :
    trimStart (' ' :: key.toList ++ rest) = key.toList ++ rest :=
  dropWhile_blank_key rfl (fun _ => not_isBlank_of_isKeyChar) h rest

theorem Ends.printed {as : List Attribute} (keys : ∀ a ∈ as, IsKey a.key) {rest : List Char}
    (ends : Ends rest) : Ends (Attribute.printed as ++ rest) := by
  cases as with
  | nil => exact ends
  | cons a as =>
    have key := keys a List.mem_cons_self
    refine ⟨fun c mem => ?_, ?_⟩
    · obtain rfl := Option.some.inj mem
      rfl
    · rw [printed_cons_append, afterEquals?, trimStart_blank_key key]
      obtain ⟨ne, chars⟩ := key
      cases hk : a.key.toList with
      | nil => exact absurd hk ne
      | cons c cs =>
        have first := chars c (hk ▸ List.mem_cons_self)
        split
        · next eq =>
          obtain ⟨rfl, -⟩ := List.cons.inj eq
          exact absurd first (by decide)
        · rfl

private theorem cut_key {key : String} (h : IsKey key) {rest : List Char}
    (ends : ∀ c ∈ rest.head?, isKeyChar c = false) :
    (key.toList ++ rest).takeWhile isKeyChar = key.toList ∧
      (key.toList ++ rest).dropWhile isKeyChar = rest := by
  rw [List.takeWhile_append_of_pos h.2, List.dropWhile_append_of_pos h.2]
  cases rest with
  | nil => simp
  | cons c rest => simp [ends c rfl]

private theorem reads_value (a : Attribute) {rest : List Char} (ends : Ends rest) :
    (a.value.isEmpty = true ∧ valueText a ++ rest = rest ∧ afterEquals? (valueText a ++ rest) = none) ∨
      ∃ text others, afterEquals? (valueText a ++ rest) = some text ∧
        valueReadings text = ((escapedValue a.value).toList, rest) :: others := by
  unfold valueText
  split
  · next empty => exact .inl ⟨empty, rfl, ends.value⟩
  · obtain ⟨q, quote, absent, printed⟩ := exists_quote a.value
    obtain ⟨others, read⟩ := valueReadings_quoted quote absent rest
    refine .inr ⟨_, others, ?_, read⟩
    rw [printed]
    rcases quote with rfl | rfl <;> simp [afterEquals?, trimStart, isBlank]

private theorem head?_valueText_append (a : Attribute) {rest : List Char} (ends : Ends rest) :
    ∀ c ∈ (valueText a ++ rest).head?, isKeyChar c = false := by
  unfold valueText
  split
  · exact ends.key
  · intro c mem
    obtain rfl := Option.some.inj mem
    rfl

theorem attributeRests_printed {a : Attribute} (key : IsKey a.key) {rest : List Char}
    (ends : Ends rest) :
    ∃ others, attributeRests (a.key.toList ++ (valueText a ++ rest)) = rest :: others := by
  obtain ⟨taken, left⟩ := cut_key key (head?_valueText_append a ends)
  have filled : ¬a.key.toList.isEmpty = true := by simpa using key.1
  rw [attributeRests, taken, left, if_neg filled]
  dsimp only
  rcases reads_value a ends with ⟨-, bare, none⟩ | ⟨text, others, found, read⟩
  · exact ⟨[], by rw [none, bare]⟩
  · exact ⟨others.map Prod.snd, by rw [found]; simp [read]⟩

theorem readAttributes_succ (fuel : Nat) (c : Char) (cs : List Char) :
    readAttributes (fuel + 1) (c :: cs) =
      match (if isBlank c then (attributeRests (trimStart (c :: cs))).findSome? (readAttributes fuel)
        else none) with
      | some r => some r
      | none => (tagEnd? (c :: cs)).map fun r => ⟨c :: cs, r.1, r.2⟩ := by
  cases cs <;> rfl

/-- A text that completes a tag behind its attributes: no further attribute can be read there. -/
structure Completes (closing : List Char) (isSelfClosing : Bool) (rest : List Char) : Prop where
  ends : Ends closing
  noTagChar : ∀ c ∈ closing.head?, isTagChar c = false
  noAttribute : attributeRests (trimStart closing) = []
  tagEnd : tagEnd? closing = some (isSelfClosing, rest)

theorem Completes.angle (rest : List Char) : Completes ('>' :: rest) false rest := by
  refine ⟨.angle rest, fun c mem => ?_, rfl, rfl⟩
  obtain rfl := Option.some.inj mem
  decide

theorem Completes.slash (rest : List Char) : Completes (' ' :: '/' :: '>' :: rest) true rest := by
  refine ⟨⟨fun c mem => ?_, rfl⟩, fun c mem => ?_, rfl, rfl⟩
  · obtain rfl := Option.some.inj mem
    rfl
  · obtain rfl := Option.some.inj mem
    decide

theorem readAttributes_printed {as : List Attribute} (keys : ∀ a ∈ as, IsKey a.key)
    {closing rest : List Char} {isSelfClosing : Bool} (completes : Completes closing isSelfClosing rest)
    {fuel : Nat} (enough : as.length ≤ fuel) :
    readAttributes (fuel + 1) (printed as ++ closing) = some ⟨closing, isSelfClosing, rest⟩ := by
  induction as generalizing fuel with
  | nil =>
    have tagEnd := completes.tagEnd
    have shape : printed [] ++ closing = closing := rfl
    rw [shape]
    cases closing with
    | nil => cases tagEnd
    | cons c cs =>
      rw [readAttributes_succ, completes.noAttribute, tagEnd]
      simp
  | cons a as ih =>
    obtain ⟨fuel, rfl⟩ : ∃ n, fuel = n + 1 :=
      Nat.exists_eq_add_one.mpr (Nat.lt_of_lt_of_le (by simp) enough)
    have key := keys a List.mem_cons_self
    have later : ∀ b ∈ as, IsKey b.key := fun b mem => keys b (List.mem_cons_of_mem a mem)
    obtain ⟨others, rests⟩ := attributeRests_printed key (Ends.printed later completes.ends)
    have read := ih later (Nat.le_of_succ_le_succ enough)
    rw [printed_cons_append, List.cons_append, readAttributes_succ, ← List.cons_append,
      trimStart_blank_key key, rests, List.findSome?_cons, read]
    simp [isBlank]

theorem readPairs_printed {as : List Attribute} (keys : ∀ a ∈ as, IsKey a.key) {fuel : Nat}
    (enough : as.length ≤ fuel) :
    readPairs (fuel + 1) (printed as) =
      as.map fun a => (a.key.toList, (escapedValue a.value).toList) := by
  induction as generalizing fuel with
  | nil => rfl
  | cons a as ih =>
    obtain ⟨fuel, rfl⟩ : ∃ n, fuel = n + 1 :=
      Nat.exists_eq_add_one.mpr (Nat.lt_of_lt_of_le (by simp) enough)
    have key := keys a List.mem_cons_self
    have later : ∀ b ∈ as, IsKey b.key := fun b mem => keys b (List.mem_cons_of_mem a mem)
    have ends : Ends (printed as) := by simpa using Ends.printed later Ends.nil
    obtain ⟨taken, left⟩ := cut_key key (head?_valueText_append a ends)
    have shape := printed_cons_append a as []
    rw [List.append_nil, List.append_nil] at shape
    have starts : (printed (a :: as)).dropWhile (fun c => !isKeyChar c) =
        a.key.toList ++ (valueText a ++ printed as) := by
      rw [shape]
      exact dropWhile_blank_key rfl (fun c h => by simp [h]) key _
    have filled : ¬a.key.toList.isEmpty = true := by simpa using key.1
    rw [readPairs]
    dsimp only
    rw [starts, taken, left, if_neg filled]
    have read := ih later (Nat.le_of_succ_le_succ enough)
    rcases reads_value a ends with ⟨empty, bare, none⟩ | ⟨text, others, found, value⟩
    · have bareValue : (escapedValue a.value).toList = [] := by
        have empty' := (escapedValue_isEmpty a.value).trans empty
        exact String.toList_eq_nil_iff.mpr (String.isEmpty_iff.mp empty')
      rw [none, bare, Option.bind_none, List.map_cons, bareValue, read]
    · rw [found, Option.bind_some, value]
      simp [read]

theorem insert_of_not_mem {as : List Attribute} {a : Attribute} (absent : a.key ∉ as.map key) :
    insert as a = as ++ [a] := by
  induction as with
  | nil => rfl
  | cons b as ih =>
    rw [List.map_cons, List.mem_cons, not_or] at absent
    have ne : ¬(b.key == a.key) = true := by simpa using fun same => absent.1 same.symm
    rw [insert, if_neg ne, ih absent.2, List.cons_append]

theorem foldl_insert_of_nodup {as bs : List Attribute} (distinct : ((as ++ bs).map key).Nodup) :
    bs.foldl insert as = as ++ bs := by
  induction bs generalizing as with
  | nil => simp
  | cons b bs ih =>
    have shifted : as ++ b :: bs = (as ++ [b]) ++ bs := by simp
    have absent : b.key ∉ as.map key := by
      rw [List.map_append, List.map_cons, List.nodup_append] at distinct
      exact fun mem => distinct.2.2 _ mem _ List.mem_cons_self rfl
    rw [List.foldl_cons, insert_of_not_mem absent, ih (shifted ▸ distinct), shifted]

theorem keys_insert (as : List Attribute) (a : Attribute) :
    (insert as a).map key = if a.key ∈ as.map key then as.map key else as.map key ++ [a.key] := by
  induction as with
  | nil => rfl
  | cons b as ih =>
    rw [insert]
    by_cases same : b.key = a.key
    · simp [same]
    · have ne : ¬a.key = b.key := fun h => same h.symm
      have skipped : ¬(b.key == a.key) = true := by simpa using same
      rw [if_neg skipped, List.map_cons, ih, List.map_cons]
      by_cases mem : a.key ∈ as.map key
      · rw [if_pos mem, if_pos (List.mem_cons_of_mem _ mem)]
      · rw [if_neg mem, if_neg (by simpa [ne] using mem), List.cons_append]

theorem WellKeyed.nil : WellKeyed [] := ⟨nofun, List.nodup_nil⟩

theorem WellKeyed.insert {as : List Attribute} {a : Attribute} (wellKeyed : WellKeyed as)
    (isKey : IsKey a.key) : WellKeyed (insert as a) := by
  have keys := keys_insert as a
  constructor
  · intro b mem
    have found : b.key ∈ (Attribute.insert as a).map Attribute.key := List.mem_map_of_mem mem
    rw [keys] at found
    have old : b.key ∈ as.map Attribute.key → IsKey b.key := by
      intro h
      obtain ⟨c, hc, same⟩ := List.mem_map.mp h
      exact same ▸ wellKeyed.keys c hc
    split at found
    · exact old found
    · rcases List.mem_append.mp found with h | h
      · exact old h
      · exact List.mem_singleton.mp h ▸ isKey
  · rw [keys]
    split
    · exact wellKeyed.distinct
    · next absent =>
      exact List.nodup_append.mpr ⟨wellKeyed.distinct, List.nodup_singleton _, fun x hx y hy same =>
        absent (List.mem_singleton.mp hy ▸ same ▸ hx)⟩

theorem isKey_of_mem_readPairs {fuel : Nat} {cs : List Char} {p : List Char × List Char}
    (mem : p ∈ readPairs fuel cs) : p.1 ≠ [] ∧ ∀ c ∈ p.1, isKeyChar c = true := by
  induction fuel generalizing cs with
  | zero => cases mem
  | succ fuel ih =>
    rw [readPairs] at mem
    dsimp only at mem
    split at mem
    · cases mem
    · next filled =>
      have key : ∀ value, p = (((cs.dropWhile fun c => !isKeyChar c).takeWhile isKeyChar), value) →
          p.1 ≠ [] ∧ ∀ c ∈ p.1, isKeyChar c = true := by
        rintro value rfl
        exact ⟨by simpa using filled, fun c hc => List.all_eq_true.mp List.all_takeWhile c hc⟩
      split at mem
      · rcases List.mem_cons.mp mem with same | mem
        · exact key _ same
        · exact ih mem
      · rcases List.mem_cons.mp mem with same | mem
        · exact key _ same
        · exact ih mem

theorem WellKeyed.foldl {as bs : List Attribute} (wellKeyed : WellKeyed as)
    (keys : ∀ b ∈ bs, IsKey b.key) : WellKeyed (bs.foldl Attribute.insert as) := by
  induction bs generalizing as with
  | nil => exact wellKeyed
  | cons b bs ih =>
    exact ih (wellKeyed.insert (keys b List.mem_cons_self)) fun c mem =>
      keys c (List.mem_cons_of_mem b mem)

theorem wellKeyed_ofText (cs : List Char) : WellKeyed (ofText cs) := by
  refine WellKeyed.nil.foldl fun b mem => ?_
  obtain ⟨p, hp, rfl⟩ := List.mem_map.mp mem
  rw [IsKey, String.toList_ofList]
  exact isKey_of_mem_readPairs hp

theorem length_le_length_printed (as : List Attribute) : as.length ≤ (printed as).length := by
  induction as with
  | nil => exact Nat.le_refl 0
  | cons a as ih =>
    have shape := congrArg List.length (printed_cons_append a as [])
    simp only [List.append_nil, List.cons_append, List.length_cons, List.length_append] at shape ⊢
    omega

theorem ofText_printed {as : List Attribute} (wellKeyed : WellKeyed as) :
    ofText (printed as) = as.map escaped := by
  rw [ofText, readPairs_printed wellKeyed.keys (length_le_length_printed as), List.map_map]
  have read : ((fun p : List Char × List Char => Attribute.mk (String.ofList p.1) (String.ofList p.2)) ∘
      fun a : Attribute => (a.key.toList, (escapedValue a.value).toList)) = escaped := by
    funext a
    simp [escaped]
  rw [read]
  have distinct : (([] ++ as.map escaped).map key).Nodup := by
    simpa [escaped, Function.comp_def] using wellKeyed.distinct
  simpa using foldl_insert_of_nodup distinct

end Attribute

def IsTagName (name : List Char) : Prop :=
  ∃ c cs, name = c :: cs ∧ c.isAlpha = true ∧ ∀ x ∈ cs, isTagChar x = true

theorem OpenTag.isTagName_of_read? {cs : List Char} {tag : OpenTag} (h : OpenTag.read? cs = some tag) :
    IsTagName tag.name := by
  unfold OpenTag.read? at h
  split at h
  · next c rest =>
    split at h
    · next alpha =>
      obtain ⟨r, -, rfl⟩ := Option.map_eq_some_iff.mp h
      exact ⟨c, _, rfl, alpha, fun x hx => List.all_eq_true.mp List.all_takeWhile x hx⟩
    · cases h
  · cases h

theorem OpenTag.read?_completed {name : List Char} (isTagName : IsTagName name) {as : List Attribute}
    (keys : ∀ a ∈ as, Attribute.IsKey a.key) {closing rest : List Char} {isSelfClosing : Bool}
    (completes : Attribute.Completes closing isSelfClosing rest) :
    OpenTag.read? ('<' :: name ++ (Attribute.printed as ++ closing)) =
      some ⟨name, Attribute.printed as, isSelfClosing, rest⟩ := by
  obtain ⟨c, cs, rfl, alpha, tagChars⟩ := isTagName
  have ends : ∀ x ∈ (Attribute.printed as ++ closing).head?, isTagChar x = false := by
    cases as with
    | nil => exact completes.noTagChar
    | cons a as =>
      rw [Attribute.printed_cons_append]
      intro x mem
      obtain rfl := Option.some.inj mem
      decide
  have cut : (cs ++ (Attribute.printed as ++ closing)).takeWhile isTagChar = cs ∧
      (cs ++ (Attribute.printed as ++ closing)).dropWhile isTagChar = Attribute.printed as ++ closing := by
    rw [List.takeWhile_append_of_pos tagChars, List.dropWhile_append_of_pos tagChars]
    cases shape : Attribute.printed as ++ closing with
    | nil => simp
    | cons x xs => simp [ends x (by rw [shape]; rfl)]
  have enough : as.length ≤ (Attribute.printed as ++ closing).length := by
    have := Attribute.length_le_length_printed as
    rw [List.length_append]
    omega
  simp only [OpenTag.read?, List.cons_append, alpha, if_true, cut.1, cut.2,
    Attribute.readAttributes_printed keys completes enough, Option.map_some]
  simp

theorem OpenTag.read?_printed {name : List Char} (isTagName : IsTagName name) {as : List Attribute}
    (keys : ∀ a ∈ as, Attribute.IsKey a.key) (rest : List Char) :
    OpenTag.read? ('<' :: name ++ (Attribute.printed as ++ '>' :: rest)) =
      some ⟨name, Attribute.printed as, false, rest⟩ :=
  read?_completed isTagName keys (.angle rest)

end VueOptions.Blocks
