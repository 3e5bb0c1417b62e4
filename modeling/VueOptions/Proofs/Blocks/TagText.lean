import VueOptions.Proofs.Blocks.NestedTemplates

/-!
The text of tags. An opening tag is an angle, a name, attributes with blanks before them, and a closing angle. What
is read is spelled so (`OpenTag.spells_of_read?`), and something is read wherever a tag is spelled
(`OpenTag.read?_isSome_iff`). The content of a block ends where its closing tag stands for the first time, for a
template where the depth of open templates has come back (`blockClose?_eq_some_iff`).
-/

set_option autoImplicit false

namespace VueOptions.Blocks

open Text

/-- The text between the key of an attribute and the next one: nothing, or an equals sign with a value behind it. -/
inductive ValueText : List Char → Prop
  | none : ValueText []
  | quoted {before after value : List Char} {quote : Char} (left : ∀ c ∈ before, isBlank c = true)
    (right : ∀ c ∈ after, isBlank c = true) (mark : quote = '"' ∨ quote = '\'') (closed : quote ∉ value) :
    ValueText (before ++ '=' :: (after ++ (quote :: value ++ [quote])))
  | bare {before after value : List Char} (left : ∀ c ∈ before, isBlank c = true)
    (right : ∀ c ∈ after, isBlank c = true) (filled : value ≠ []) (plain : ∀ c ∈ value, isBareChar c = true) :
    ValueText (before ++ '=' :: (after ++ value))

inductive AttributesText : List Char → Prop
  | nil : AttributesText []
  | cons {gap key value rest : List Char} (apart : gap ≠ []) (blank : ∀ c ∈ gap, isBlank c = true)
    (named : key ≠ []) (plain : ∀ c ∈ key, isKeyChar c = true) (valued : ValueText value)
    (more : AttributesText rest) : AttributesText (gap ++ (key ++ (value ++ rest)))

/-- The angle that ends a tag, perhaps with a slash before it. -/
def tagEnd (isSelfClosing : Bool) : List Char := if isSelfClosing then ['/', '>'] else ['>']

structure OpenTag.Spells (tag : OpenTag) (text : List Char) : Prop where
  name : IsTagName tag.name
  attributes : AttributesText tag.attributes
  whole : ∃ blanks, (∀ c ∈ blanks, isBlank c = true) ∧
    text = '<' :: (tag.name ++ (tag.attributes ++ (blanks ++ tagEnd tag.isSelfClosing)))

theorem exists_blanks (cs : List Char) : ∃ blanks, (∀ c ∈ blanks, isBlank c = true) ∧ blanks ++ trimStart cs = cs :=
  ⟨cs.takeWhile isBlank, List.all_eq_true.mp List.all_takeWhile, List.takeWhile_append_dropWhile⟩

theorem exists_of_tagEnd? {cs : List Char} {r : Bool × List Char} (h : tagEnd? cs = some r) :
    ∃ blanks, (∀ c ∈ blanks, isBlank c = true) ∧ cs = blanks ++ (tagEnd r.1 ++ r.2) := by
  obtain ⟨blanks, blank, whole⟩ := exists_blanks cs
  refine ⟨blanks, blank, ?_⟩
  rw [tagEnd?] at h
  split at h
  · next rest shape =>
    obtain rfl := Option.some.inj h
    exact (shape ▸ whole).symm
  · next rest shape =>
    obtain rfl := Option.some.inj h
    exact (shape ▸ whole).symm
  · cases h

theorem exists_of_mem_valueReadings {cs : List Char} {r : List Char × List Char} (mem : r ∈ valueReadings cs) :
    (∃ quote value, (quote = '"' ∨ quote = '\'') ∧ quote ∉ value ∧ cs = quote :: value ++ [quote] ++ r.2) ∨
      ∃ value, value ≠ [] ∧ (∀ c ∈ value, isBareChar c = true) ∧ cs = value ++ r.2 := by
  have quoted {q : Char} {rest : List Char} (mem : r ∈ (quotedValue? q rest).toList) :
      ∃ value, q ∉ value ∧ q :: rest = q :: value ++ [q] ++ r.2 := by
    rw [quotedValue?] at mem
    cases after : rest.dropWhile (· != q) with
    | nil => simp [after] at mem
    | cons c cs =>
      obtain rfl : r = (rest.takeWhile (· != q), cs) := by simpa [after] using mem
      have first := List.head?_dropWhile_not (· != q) rest
      rw [after] at first
      obtain rfl : c = q := by simpa using first
      refine ⟨rest.takeWhile (· != c), fun mem => ?_, ?_⟩
      · have differs := List.all_eq_true.mp List.all_takeWhile c mem
        simp at differs
      · have whole : rest.takeWhile (· != c) ++ rest.dropWhile (· != c) = rest :=
          List.takeWhile_append_dropWhile
        rw [after] at whole
        simp [whole]
  unfold valueReadings at mem
  rw [List.mem_append] at mem
  rcases mem with inQuotes | bare
  · left
    split at inQuotes
    · next rest =>
      obtain ⟨value, closed, whole⟩ := quoted inQuotes
      exact ⟨'"', value, .inl rfl, closed, whole⟩
    · next rest =>
      obtain ⟨value, closed, whole⟩ := quoted inQuotes
      exact ⟨'\'', value, .inr rfl, closed, whole⟩
    · cases inQuotes
  · right
    split at bare
    · cases bare
    · next filled =>
      obtain rfl := List.mem_singleton.mp bare
      exact ⟨cs.takeWhile isBareChar, by simpa using filled, List.all_eq_true.mp List.all_takeWhile,
        List.takeWhile_append_dropWhile.symm⟩

theorem exists_of_mem_attributeRests {cs rest : List Char} (mem : rest ∈ attributeRests cs) :
    ∃ key value, key ≠ [] ∧ (∀ c ∈ key, isKeyChar c = true) ∧ ValueText value ∧ cs = key ++ (value ++ rest) := by
  rw [attributeRests] at mem
  split at mem
  · cases mem
  · next filled =>
    have named : cs.takeWhile isKeyChar ≠ [] := by simpa using filled
    have plain : ∀ c ∈ cs.takeWhile isKeyChar, isKeyChar c = true := List.all_eq_true.mp List.all_takeWhile
    have whole : cs.takeWhile isKeyChar ++ cs.dropWhile isKeyChar = cs := List.takeWhile_append_dropWhile
    dsimp only at mem
    generalize cs.takeWhile isKeyChar = key at named plain whole
    generalize cs.dropWhile isKeyChar = behind at mem whole
    subst whole
    cases equals : afterEquals? behind with
    | none =>
      rw [equals] at mem
      obtain rfl := List.mem_singleton.mp mem
      exact ⟨key, [], named, plain, .none, rfl⟩
    | some text =>
      rw [equals] at mem
      obtain ⟨r, read, rfl⟩ := List.mem_map.mp mem
      obtain ⟨before, after, left, right, rfl⟩ : ∃ before after, (∀ c ∈ before, isBlank c = true) ∧
          (∀ c ∈ after, isBlank c = true) ∧ behind = before ++ '=' :: (after ++ text) := by
        rw [afterEquals?] at equals
        split at equals
        · next rest shape =>
          obtain rfl := Option.some.inj equals
          obtain ⟨before, left, front⟩ := exists_blanks behind
          obtain ⟨after, right, back⟩ := exists_blanks rest
          exact ⟨before, after, left, right, by rw [back, ← shape, front]⟩
        · cases equals
      rcases exists_of_mem_valueReadings read with ⟨quote, value, mark, closed, rfl⟩ | ⟨value, some, bare, rfl⟩
      · exact ⟨key, _, named, plain, .quoted left right mark closed, by simp⟩
      · exact ⟨key, _, named, plain, .bare left right some bare, by simp⟩

theorem exists_of_readAttributes {fuel : Nat} {cs : List Char} {r : TagRest} (h : readAttributes fuel cs = some r) :
    ∃ text, AttributesText text ∧ cs = text ++ r.attributesEnd ∧
      tagEnd? r.attributesEnd = some (r.isSelfClosing, r.after) := by
  induction fuel generalizing cs with
  | zero =>
    have refused : readAttributes 0 cs = none := rfl
    rw [refused] at h
    cases h
  | succ fuel ih =>
    cases cs with
    | nil =>
      have refused : readAttributes (fuel + 1) [] = none := rfl
      rw [refused] at h
      cases h
    | cons c cs =>
      rw [Attribute.readAttributes_succ] at h
      split at h
      · next longer found =>
        obtain rfl := Option.some.inj h
        split at found
        · next blank =>
          obtain ⟨rest, mem, read⟩ := List.exists_of_findSome?_eq_some found
          obtain ⟨text, more, rfl, ends⟩ := ih read
          obtain ⟨key, value, named, plain, valued, whole⟩ := exists_of_mem_attributeRests mem
          obtain ⟨gap, blanks, front⟩ := exists_blanks (c :: cs)
          have apart : gap ≠ [] := by
            rintro rfl
            have kept := congrArg List.length front
            have dropped : trimStart (c :: cs) = cs.dropWhile isBlank := List.dropWhile_cons_of_pos blank
            have short := (List.dropWhile_suffix isBlank (l := cs)).length_le
            rw [List.nil_append, dropped, List.length_cons] at kept
            omega
          refine ⟨_, .cons apart blanks named plain valued more, ?_, ends⟩
          rw [← front, whole]
          simp
        · cases found
      · obtain ⟨ended, tagEnd, rfl⟩ := Option.map_eq_some_iff.mp h
        exact ⟨[], .nil, rfl, tagEnd⟩

theorem OpenTag.spells_of_read? {cs : List Char} {tag : OpenTag} (h : OpenTag.read? cs = some tag) :
    ∃ text, tag.Spells text ∧ text ++ tag.after = cs := by
  have name := OpenTag.isTagName_of_read? h
  unfold OpenTag.read? at h
  split at h
  · next c rest =>
    split at h
    · obtain ⟨r, read, rfl⟩ := Option.map_eq_some_iff.mp h
      obtain ⟨text, spelled, body, ends⟩ := exists_of_readAttributes read
      obtain ⟨blanks, blank, closing⟩ := exists_of_tagEnd? ends
      have cut : (rest.dropWhile isTagChar).take ((rest.dropWhile isTagChar).length - r.attributesEnd.length) =
          text := by
        rw [body, List.length_append, Nat.add_sub_cancel, List.take_left]
      simp only [cut] at name ⊢
      refine ⟨_, ⟨name, spelled, blanks, blank, rfl⟩, ?_⟩
      have whole : rest.takeWhile isTagChar ++ rest.dropWhile isTagChar = rest := List.takeWhile_append_dropWhile
      rw [body, closing] at whole
      simp only [List.cons_append, List.append_assoc]
      exact congrArg (fun cs => '<' :: c :: cs) whole
    · cases h
  · cases h

private theorem cut_off {p : Char → Bool} {front rest : List Char} (inside : ∀ c ∈ front, p c = true)
    (ends : ∀ c ∈ rest.head?, p c = false) :
    (front ++ rest).takeWhile p = front ∧ (front ++ rest).dropWhile p = rest := by
  rw [List.takeWhile_append_of_pos inside, List.dropWhile_append_of_pos inside]
  cases rest with
  | nil => simp
  | cons c rest => simp [ends c rfl]

theorem solid_isTagChar : Solid isTagChar := solid_of_blanks (by decide +kernel)

theorem solid_isKeyChar : Solid isKeyChar := solid_of_blanks (by decide)

theorem solid_isBareChar : Solid isBareChar := solid_of_blanks (by decide)

/-- The end of a tag with blanks before it, and the text behind it. -/
def ending (blanks : List Char) (isSelfClosing : Bool) (rest : List Char) : List Char :=
  blanks ++ (tagEnd isSelfClosing ++ rest)

section

variable {text blanks : List Char} {isSelfClosing : Bool} {rest : List Char}

theorem trimStart_ending (blank : ∀ c ∈ blanks, isBlank c = true) :
    trimStart (ending blanks isSelfClosing rest) = tagEnd isSelfClosing ++ rest := by
  refine (cut_off blank fun c head => ?_).2
  cases isSelfClosing <;> obtain rfl := Option.some.inj head <;> rfl

theorem tagEnd?_ending (blank : ∀ c ∈ blanks, isBlank c = true) :
    tagEnd? (ending blanks isSelfClosing rest) = some (isSelfClosing, rest) := by
  rw [tagEnd?, trimStart_ending blank]
  cases isSelfClosing <;> rfl

theorem AttributesText.head?_append (spelled : AttributesText text) (blank : ∀ c ∈ blanks, isBlank c = true) :
    ∀ c ∈ (text ++ ending blanks isSelfClosing rest).head?, isBlank c = true ∨ c = '>' ∨ c = '/' := by
  intro c head
  cases spelled with
  | nil =>
    cases blanks with
    | nil => cases isSelfClosing <;> obtain rfl := Option.some.inj head <;> simp
    | cons b blanks =>
      obtain rfl := Option.some.inj head
      exact .inl (blank _ List.mem_cons_self)
  | @cons gap _ _ _ apart gaps =>
    cases gap with
    | nil => exact absurd rfl apart
    | cons b gap =>
      obtain rfl := Option.some.inj head
      exact .inl (gaps _ List.mem_cons_self)

theorem head?_key {key : List Char} (named : key ≠ []) (plain : ∀ c ∈ key, isKeyChar c = true) (more : List Char) :
    ∀ c ∈ (key ++ more).head?, isKeyChar c = true := by
  intro c head
  cases key with
  | nil => exact absurd rfl named
  | cons k key =>
    obtain rfl := Option.some.inj head
    exact plain _ List.mem_cons_self

theorem AttributesText.ends (spelled : AttributesText text) (blank : ∀ c ∈ blanks, isBlank c = true) :
    Attribute.Ends (text ++ ending blanks isSelfClosing rest) := by
  refine ⟨fun c head => ?_, ?_⟩
  · rcases spelled.head?_append blank c head with blank | rfl | rfl
    · simp [isKeyChar, blank]
    · rfl
    · rfl
  · have noEquals {cs : List Char} (front : (trimStart cs).head? ≠ some '=') : afterEquals? cs = none := by
      rw [afterEquals?]
      split
      · next shape => exact absurd (congrArg List.head? shape) front
      · rfl
    refine noEquals ?_
    cases spelled with
    | nil =>
      rw [List.nil_append, trimStart_ending blank]
      cases isSelfClosing <;> simp [tagEnd]
    | @cons gap key value more apart gaps named plain =>
      have front := head?_key named plain (value ++ more ++ ending blanks isSelfClosing rest)
      have trimmed := (cut_off gaps fun c head => solid_isKeyChar.isBlank_eq_false (front c head)).2
      rw [← trimStart] at trimmed
      simp only [List.append_assoc] at trimmed front ⊢
      rw [trimmed]
      intro equals
      exact absurd (front _ equals) (by decide)

theorem afterEquals?_append {before after more : List Char} (left : ∀ c ∈ before, isBlank c = true)
    (right : ∀ c ∈ after, isBlank c = true) (solid : ∀ c ∈ more.head?, isBlank c = false) :
    afterEquals? (before ++ '=' :: (after ++ more)) = some more := by
  have front : trimStart (before ++ '=' :: (after ++ more)) = '=' :: (after ++ more) := by
    refine (cut_off left fun c head => ?_).2
    obtain rfl := Option.some.inj head
    rfl
  have back : trimStart (after ++ more) = more := (cut_off right solid).2
  rw [afterEquals?, front]
  exact congrArg some back

theorem attributeRests_value {key before after more : List Char} (named : key ≠ [])
    (plain : ∀ c ∈ key, isKeyChar c = true) (left : ∀ c ∈ before, isBlank c = true)
    (right : ∀ c ∈ after, isBlank c = true) (solid : ∀ c ∈ more.head?, isBlank c = false) :
    attributeRests (key ++ (before ++ '=' :: (after ++ more))) = (valueReadings more).map Prod.snd := by
  have ends : ∀ c ∈ (before ++ '=' :: (after ++ more)).head?, isKeyChar c = false := by
    intro c head
    cases before with
    | nil =>
      obtain rfl := Option.some.inj head
      rfl
    | cons b before =>
      obtain rfl := Option.some.inj head
      exact solid_isKeyChar _ (left _ List.mem_cons_self)
  obtain ⟨taken, behind⟩ := cut_off plain ends
  rw [attributeRests, taken, behind, if_neg (by simpa using named)]
  dsimp only
  rw [afterEquals?_append left right solid]

theorem exists_mem_attributeRests {key value tail : List Char} (named : key ≠ [])
    (plain : ∀ c ∈ key, isKeyChar c = true) (valued : ValueText value) (ends : Attribute.Ends tail) :
    ∃ follow ∈ attributeRests (key ++ (value ++ tail)), follow = tail ∨ follow = tail.dropWhile isBareChar := by
  cases valued with
  | none =>
    obtain ⟨taken, behind⟩ := cut_off plain ends.key
    refine ⟨tail, ?_, .inl rfl⟩
    rw [List.nil_append, attributeRests, taken, behind, if_neg (by simpa using named)]
    dsimp only
    rw [ends.value]
    exact List.mem_singleton.mpr rfl
  | @quoted before after value quote left right mark closed =>
    obtain ⟨others, read⟩ := valueReadings_quoted mark closed tail
    have solid : ∀ c ∈ (quote :: value ++ quote :: tail).head?, isBlank c = false := by
      intro c head
      obtain rfl := Option.some.inj head
      rcases mark with rfl | rfl <;> rfl
    have rests := attributeRests_value named plain left right solid
    rw [read, List.map_cons] at rests
    refine ⟨tail, ?_, .inl rfl⟩
    simp only [List.append_assoc, List.cons_append, List.nil_append] at rests ⊢
    rw [rests]
    exact List.mem_cons_self
  | @bare before after value left right filled bare =>
    have solid : ∀ c ∈ (value ++ tail).head?, isBlank c = false := by
      intro c head
      cases value with
      | nil => exact absurd rfl filled
      | cons d value =>
        obtain rfl := Option.some.inj head
        exact solid_isBareChar.isBlank_eq_false (bare _ List.mem_cons_self)
    have long : (value ++ tail).takeWhile isBareChar ≠ [] := by
      rw [List.takeWhile_append_of_pos bare]
      exact List.append_ne_nil_of_left_ne_nil filled _
    have rests := attributeRests_value named plain left right solid
    refine ⟨_, ?_, .inr rfl⟩
    simp only [List.append_assoc, List.cons_append] at rests ⊢
    rw [rests]
    unfold valueReadings
    dsimp only
    rw [if_neg (by simpa using long), List.map_append, List.dropWhile_append_of_pos bare]
    exact List.mem_append_right _ (List.mem_singleton.mpr rfl)

theorem AttributesText.dropWhile_isBareChar (spelled : AttributesText text) (blank : ∀ c ∈ blanks, isBlank c = true) :
    (text ++ ending blanks isSelfClosing rest).dropWhile isBareChar = text ++ ending blanks isSelfClosing rest ∨
      (text ++ ending blanks isSelfClosing rest).dropWhile isBareChar = '>' :: rest := by
  have stays {c : Char} {cs : List Char} (stop : isBareChar c = false) : (c :: cs).dropWhile isBareChar = c :: cs :=
    List.dropWhile_cons_of_neg (by simp [stop])
  cases spelled with
  | nil =>
    cases blanks with
    | nil =>
      cases isSelfClosing with
      | false => exact .inl (stays rfl)
      | true => exact .inr rfl
    | cons b blanks => exact .inl (stays (solid_isBareChar b (blank b List.mem_cons_self)))
  | @cons gap _ _ _ apart gaps =>
    cases gap with
    | nil => exact absurd rfl apart
    | cons b gap => exact .inl (stays (solid_isBareChar b (gaps b List.mem_cons_self)))

theorem readAttributes_of_tagEnd? {fuel : Nat} {cs : List Char} (ends : (tagEnd? cs).isSome = true) :
    (readAttributes (fuel + 1) cs).isSome = true := by
  cases cs with
  | nil => cases ends
  | cons c cs =>
    rw [Attribute.readAttributes_succ]
    split
    · rfl
    · rwa [Option.isSome_map]

theorem readAttributes_of_mem {fuel : Nat} {c : Char} {cs follow : List Char} (blank : isBlank c = true)
    (mem : follow ∈ attributeRests (trimStart (c :: cs))) (read : (readAttributes fuel follow).isSome = true) :
    (readAttributes (fuel + 1) (c :: cs)).isSome = true := by
  have found : ((attributeRests (trimStart (c :: cs))).findSome? (readAttributes fuel)).isSome = true :=
    List.findSome?_isSome_iff.mpr ⟨follow, mem, read⟩
  obtain ⟨r, found⟩ := Option.isSome_iff_exists.mp found
  rw [Attribute.readAttributes_succ, if_pos blank, found]
  rfl

theorem AttributesText.readAttributes_isSome (spelled : AttributesText text) (blank : ∀ c ∈ blanks, isBlank c = true)
    {fuel : Nat} (enough : (text ++ ending blanks isSelfClosing rest).length < fuel) :
    (readAttributes fuel (text ++ ending blanks isSelfClosing rest)).isSome = true := by
  induction spelled generalizing fuel with
  | nil =>
    obtain ⟨fuel, rfl⟩ := Nat.exists_eq_add_one.mpr (Nat.zero_lt_of_lt enough)
    refine readAttributes_of_tagEnd? ?_
    rw [List.nil_append, tagEnd?_ending blank]
    rfl
  | @cons gap key value text apart gaps named plain valued more ih =>
    obtain ⟨fuel, rfl⟩ := Nat.exists_eq_add_one.mpr (Nat.zero_lt_of_lt enough)
    have ends : Attribute.Ends (text ++ ending blanks isSelfClosing rest) := more.ends blank
    obtain ⟨follow, mem, shape⟩ := exists_mem_attributeRests named plain valued ends
    have front := head?_key named plain (value ++ (text ++ ending blanks isSelfClosing rest))
    have trimmed := (cut_off gaps fun c head => solid_isKeyChar.isBlank_eq_false (front c head)).2
    rw [← trimStart] at trimmed
    simp only [List.append_assoc, List.length_append] at enough ⊢
    have long := List.length_pos_of_ne_nil apart
    have read : (readAttributes fuel follow).isSome = true := by
      have again : (readAttributes fuel (text ++ ending blanks isSelfClosing rest)).isSome = true := by
        refine ih ?_
        rw [List.length_append]
        omega
      rcases shape with rfl | rfl
      · exact again
      · rcases more.dropWhile_isBareChar blank with same | angle
        · rwa [same]
        · obtain ⟨fuel, rfl⟩ := Nat.exists_eq_add_one.mpr (show 0 < fuel by omega)
          rw [angle]
          exact readAttributes_of_tagEnd? rfl
    cases gap with
    | nil => exact absurd rfl apart
    | cons b gap =>
      rw [← trimmed] at mem
      exact readAttributes_of_mem (gaps b List.mem_cons_self) mem read

def OpensTag (cs : List Char) : Prop :=
  ∃ (tag : OpenTag) (opening rest : List Char), tag.Spells opening ∧ opening ++ rest = cs

theorem OpenTag.read?_isSome_iff {cs : List Char} : (OpenTag.read? cs).isSome = true ↔ OpensTag cs := by
  constructor
  · intro read
    obtain ⟨tag, read⟩ := Option.isSome_iff_exists.mp read
    obtain ⟨opening, spelled, whole⟩ := OpenTag.spells_of_read? read
    exact ⟨tag, opening, tag.after, spelled, whole⟩
  · rintro ⟨⟨name, attributes, isSelfClosing, after⟩, opening, rest, ⟨named, spelled, blanks, blank, rfl⟩, rfl⟩
    obtain ⟨c, cs, rfl, alpha, inName⟩ := named
    have ends : ∀ c ∈ (attributes ++ ending blanks isSelfClosing rest).head?, isTagChar c = false := by
      intro c head
      rcases spelled.head?_append blank c head with blank | rfl | rfl
      · exact solid_isTagChar c blank
      · rfl
      · rfl
    obtain ⟨-, behind⟩ := cut_off inName ends
    have shape : '<' :: (c :: cs ++ (attributes ++ (blanks ++ tagEnd isSelfClosing))) ++ rest =
        '<' :: c :: (cs ++ (attributes ++ ending blanks isSelfClosing rest)) := by simp [ending]
    rw [shape, OpenTag.read?, if_pos alpha, behind, Option.isSome_map]
    exact spelled.readAttributes_isSome blank (Nat.lt_succ_self _)

theorem OpenTag.read?_eq_none_iff {cs : List Char} : OpenTag.read? cs = none ↔ ¬OpensTag cs := by
  rw [← OpenTag.read?_isSome_iff, Option.not_isSome_iff_eq_none]

end

theorem not_infix_dropLast_of_splitAt? {piece cs before after : List Char} (filled : piece ≠ [])
    (found : splitAt? piece cs = some (before, after)) : ¬piece <:+: (before ++ piece).dropLast := by
  intro inside
  obtain ⟨front, back, earlier⟩ := exists_splitAt?_of_infix inside
  have whole := append_of_splitAt? earlier
  obtain ⟨last, split⟩ : ∃ last, (before ++ piece).dropLast ++ [last] = before ++ piece :=
    ⟨_, List.dropLast_concat_getLast (List.append_ne_nil_of_right_ne_nil _ filled)⟩
  have again := splitAt?_append earlier (back ++ (last :: after))
  have text : front ++ (piece ++ (back ++ last :: after)) = cs := by
    rw [← append_of_splitAt? found, ← split, ← whole]
    simp
  rw [text, found] at again
  obtain ⟨rfl, -⟩ := Prod.mk.inj (Option.some.inj again)
  have length := congrArg List.length split
  rw [← whole] at length
  simp only [List.length_append, List.length_singleton] at length
  omega

theorem not_infix_of_splitAt? {piece cs before after : List Char} (filled : piece ≠ [])
    (found : splitAt? piece cs = some (before, after)) : ¬piece <:+: before := by
  intro inside
  refine not_infix_dropLast_of_splitAt? filled found (inside.trans ?_)
  rw [List.dropLast_append_of_ne_nil filled]
  exact (List.prefix_append before _).isInfix

/-- The closing tag of a block, with the text behind it. That of a template may hold more behind its name; it goes
up to the next angle, or up to the end of the text. -/
def IsClosing (kind closing rest : List Char) : Prop :=
  if kind = "template".toList then
    startsTag "</template".toList closing = true ∧ '>' ∉ closing.dropLast ∧
      (closing.getLast? = some '>' ∨ '>' ∉ closing ∧ rest = [])
  else closing = "</".toList ++ kind ++ ">".toList

theorem depth_of_templateClose? {depth : Nat} {cs content tail : List Char} (pos : 0 < depth)
    (h : templateClose? depth cs = some (content, tail)) :
    content ++ tail = cs ∧ tagAt? tail = some true ∧
      (∀ tags, tags <+: templateTags content → 0 < (depth : Int) + tags.count false - tags.count true) ∧
      (depth : Int) + (templateTags content).count false - (templateTags content).count true = 1 := by
  induction cs generalizing depth content with
  | nil => cases h
  | cons c cs ih =>
    rw [templateClose?_cons] at h
    split at h
    · next here =>
      obtain ⟨rfl, rfl⟩ := Prod.mk.inj (Option.some.inj h)
      obtain ⟨closing, rfl⟩ := here
      refine ⟨rfl, closing, fun tags before => ?_, by simp [templateTags]⟩
      obtain rfl := List.prefix_nil.mp before
      decide
    · next elsewhere =>
      obtain ⟨⟨inner, tail'⟩, found, eq⟩ := Option.map_eq_some_iff.mp h
      obtain ⟨rfl, rfl⟩ := Prod.mk.inj eq
      have deep : 0 < depthBehind (tagAt? (c :: cs)) depth := by
        unfold depthBehind
        split
        · next closing =>
          have more : depth ≠ 1 := fun one => elsewhere ⟨closing, one⟩
          omega
        · omega
        · exact pos
      obtain ⟨rfl, closes, stays, ends⟩ := ih deep found
      obtain ⟨more, rfl⟩ := exists_of_tagAt? closes
      have same : tagAt? (c :: (inner ++ ("</template".toList ++ more))) = tagAt? (c :: inner) :=
        tagAt?_angle c inner ("/template".toList ++ more)
      have deep' : 0 < depthBehind (tagAt? (c :: inner)) depth := same ▸ deep
      rw [same] at stays ends
      refine ⟨rfl, closes, ?_⟩
      rw [templateTags]
      cases tag : tagAt? (c :: inner) with
      | none =>
        rw [tag] at stays ends
        exact ⟨stays, ends⟩
      | some isClosing =>
        rw [tag] at stays ends
        have shape : (some isClosing).toList ++ templateTags inner = isClosing :: templateTags inner := rfl
        rw [shape]
        rw [tag] at deep'
        refine ⟨fun tags before => ?_, ?_⟩
        · rcases List.prefix_cons_iff.mp before with rfl | ⟨later, rfl, among⟩
          · simpa using pos
          · have next := stays later among
            cases isClosing <;> simp [depthBehind] at deep' next ⊢ <;> omega
        · cases isClosing <;> simp [depthBehind] at deep' ends ⊢ <;> omega

theorem angle_not_mem_takeWhile (cs : List Char) : '>' ∉ cs.takeWhile (· != '>') := by
  intro mem
  have differs := List.all_eq_true.mp List.all_takeWhile '>' mem
  simp at differs

theorem exists_closing {tail : List Char} (closes : tagAt? tail = some true) :
    ∃ closing, closing ++ (tail.dropWhile (· != '>')).drop 1 = tail ∧
      IsClosing "template".toList closing ((tail.dropWhile (· != '>')).drop 1) := by
  have starts : startsTag "</template".toList tail = true := by
    unfold tagAt? at closes
    split at closes
    · next starts => exact starts
    · split at closes <;> cases closes
  obtain ⟨c, rest, shape, ends⟩ := exists_of_startsTag starts
  have whole : tail.takeWhile (· != '>') ++ tail.dropWhile (· != '>') = tail := List.takeWhile_append_dropWhile
  have split : tail.takeWhile (· != '>') ++ (tail.dropWhile (· != '>')).take 1 ++
      (tail.dropWhile (· != '>')).drop 1 = tail := by
    rw [List.append_assoc, List.take_append_drop, whole]
  have long : "</template".toList.length < (tail.takeWhile (· != '>') ++
      (tail.dropWhile (· != '>')).take 1).length := by
    have passes : ∀ d ∈ "</template".toList, (d != '>') = true := List.all_eq_true.mp (by decide)
    rw [shape, List.takeWhile_append_of_pos passes, List.dropWhile_append_of_pos passes]
    by_cases angle : c = '>' <;> simp [angle]
  refine ⟨_, split, ?_⟩
  rw [IsClosing, if_pos rfl]
  refine ⟨by rw [← startsTag_append long, split, starts], ?_⟩
  cases behind : tail.dropWhile (· != '>') with
  | nil =>
    have absent := angle_not_mem_takeWhile tail
    rw [List.take_nil, List.append_nil]
    exact ⟨fun mem => absent (List.mem_of_mem_dropLast mem), .inr ⟨absent, rfl⟩⟩
  | cons d more =>
    have first := List.head?_dropWhile_not (· != '>') tail
    rw [behind] at first
    obtain rfl : d = '>' := by simpa using first
    have one : ('>' :: more).take 1 = ['>'] := rfl
    rw [one, List.dropLast_concat]
    exact ⟨angle_not_mem_takeWhile tail, .inl List.getLast?_concat⟩

theorem exists_of_isClosing {closing rest : List Char} (closes : IsClosing "template".toList closing rest) :
    tagAt? (closing ++ rest) = some true ∧ ((closing ++ rest).dropWhile (· != '>')).drop 1 = rest := by
  rw [IsClosing, if_pos rfl] at closes
  obtain ⟨starts, once, ends⟩ := closes
  have long : "</template".toList.length < closing.length := by
    obtain ⟨c, more, rfl, -⟩ := exists_of_startsTag starts
    simp
  refine ⟨by rw [tagAt?, startsTag_append long, if_pos starts], ?_⟩
  have passes {cs : List Char} (absent : '>' ∉ cs) : ∀ c ∈ cs, (c != '>') = true := by
    intro c mem
    rw [bne_iff_ne]
    rintro rfl
    exact absent mem
  rcases ends with last | ⟨absent, rfl⟩
  · obtain ⟨front, rfl⟩ := List.getLast?_eq_some_iff.mp last
    rw [List.dropLast_concat] at once
    rw [List.append_assoc, List.dropWhile_append_of_pos (passes once)]
    rfl
  · rw [List.dropWhile_append_of_pos (passes absent)]
    rfl

theorem blockClose?_eq_some_iff {kind cs content after : List Char} (isTagName : IsTagName kind) :
    blockClose? kind cs = some (content, after) ↔
      ∃ closing, content ++ (closing ++ after) = cs ∧ FitsIn kind content ∧ IsClosing kind closing after := by
  by_cases isTemplate : kind = "template".toList
  · subst isTemplate
    rw [blockClose?, if_pos rfl, FitsIn, if_pos rfl]
    constructor
    · intro found
      obtain ⟨⟨inner, tail⟩, closed, eq⟩ := Option.map_eq_some_iff.mp found
      obtain ⟨rfl, rfl⟩ := Prod.mk.inj eq
      obtain ⟨whole, closes, stays, ends⟩ := depth_of_templateClose? Nat.one_pos closed
      obtain ⟨closing, split, isClosing⟩ := exists_closing closes
      exact ⟨closing, by rw [split, whole], ⟨stays, ends⟩, isClosing⟩
    · rintro ⟨closing, rfl, fits, isClosing⟩
      obtain ⟨closes, behind⟩ := exists_of_isClosing isClosing
      have closed : templateClose? 1 (content ++ (closing ++ after)) = some (content, closing ++ after) :=
        templateClose?_of_depth fits.stays fits.ends closes
      rw [closed, Option.map_some, behind]
  · rw [FitsIn, if_neg isTemplate]
    constructor
    · intro found
      rw [blockClose?, if_neg isTemplate] at found
      refine ⟨_, ?_, not_infix_of_splitAt? (by simp) found, by rw [IsClosing, if_neg isTemplate]⟩
      rw [← append_of_splitAt? found]
      simp
    · rintro ⟨closing, rfl, absent, isClosing⟩
      rw [IsClosing, if_neg isTemplate] at isClosing
      subst isClosing
      have closed := closes_of_fitsIn isTagName (by rw [FitsIn, if_neg isTemplate]; exact absent) after
      simpa using closed

end VueOptions.Blocks
