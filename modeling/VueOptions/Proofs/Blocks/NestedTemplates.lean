import Mathlib.Data.List.Infix
import VueOptions.Proofs.Blocks.WrittenFile

/-!
Templates in templates. Every tag that opens a template counts as one more open template, also one that
closes itself; so a content leaves the depth higher by the number of its self-closing tags
(`templateClose?_markup`), and a template ends at its own closing tag exactly if it holds none of them.
-/

set_option autoImplicit false

namespace VueOptions.Blocks

open Text

theorem suffix_of_mem_valueReadings {cs : List Char} {r : List Char × List Char}
    (mem : r ∈ valueReadings cs) : r.2 <:+ cs := by
  have quoted {q : Char} {rest : List Char} (mem : r ∈ (quotedValue? q rest).toList) : r.2 <:+ q :: rest := by
    rw [quotedValue?] at mem
    cases after : rest.dropWhile (· != q) with
    | nil => simp [after] at mem
    | cons c cs =>
      obtain rfl : r = (rest.takeWhile (· != q), cs) := by simpa [after] using mem
      have left : c :: cs <:+ rest := after ▸ List.dropWhile_suffix _
      exact ((List.suffix_cons c cs).trans left).trans (List.suffix_cons q rest)
  unfold valueReadings at mem
  rw [List.mem_append] at mem
  rcases mem with inQuotes | bare
  · split at inQuotes
    · exact quoted inQuotes
    · exact quoted inQuotes
    · cases inQuotes
  · split at bare
    · cases bare
    · obtain rfl := List.mem_singleton.mp bare
      exact List.dropWhile_suffix _

theorem suffix_of_mem_attributeRests {cs rest : List Char} (mem : rest ∈ attributeRests cs) : rest <:+ cs := by
  rw [attributeRests] at mem
  split at mem
  · cases mem
  · have behindKey : cs.dropWhile isKeyChar <:+ cs := List.dropWhile_suffix _
    dsimp only at mem
    cases equals : afterEquals? (cs.dropWhile isKeyChar) with
    | none =>
      rw [equals] at mem
      obtain rfl := List.mem_singleton.mp mem
      exact behindKey
    | some value =>
      rw [equals] at mem
      obtain ⟨r, read, rfl⟩ := List.mem_map.mp mem
      have behindEquals : value <:+ cs.dropWhile isKeyChar := by
        rw [afterEquals?] at equals
        split at equals
        · next text shape =>
          obtain rfl := Option.some.inj equals
          have trimmed : '=' :: text <:+ cs.dropWhile isKeyChar := shape ▸ List.dropWhile_suffix _
          exact ((List.dropWhile_suffix _).trans (List.suffix_cons '=' text)).trans trimmed
        · cases equals
      exact ((suffix_of_mem_valueReadings read).trans behindEquals).trans behindKey

theorem suffix_of_tagEnd? {cs : List Char} {r : Bool × List Char} (h : tagEnd? cs = some r) : r.2 <:+ cs := by
  have trimmed : trimStart cs <:+ cs := List.dropWhile_suffix _
  rw [tagEnd?] at h
  split at h
  · next rest shape =>
    obtain rfl := Option.some.inj h
    exact (List.suffix_cons '>' rest).trans (shape ▸ trimmed)
  · next rest shape =>
    obtain rfl := Option.some.inj h
    rw [shape] at trimmed
    exact (List.suffix_append ['/', '>'] rest).trans trimmed
  · cases h

theorem suffix_of_readAttributes {fuel : Nat} {cs : List Char} {r : TagRest}
    (h : readAttributes fuel cs = some r) : r.after <:+ cs := by
  induction fuel generalizing cs with
  | zero =>
    have refused : readAttributes 0 cs = none := rfl
    rw [refused] at h
    cases h
  | succ fuel ih =>
    cases cs with
    | nil =>
      have refused : readAttributes (fuel + 1) [] = none := rfl
      rw [refused] at h
      cases h
    | cons c cs =>
      rw [Attribute.readAttributes_succ] at h
      split at h
      · next longer found =>
        obtain rfl := Option.some.inj h
        split at found
        · obtain ⟨text, mem, read⟩ := List.exists_of_findSome?_eq_some found
          exact ((ih read).trans (suffix_of_mem_attributeRests mem)).trans (List.dropWhile_suffix _)
        · cases found
      · obtain ⟨ended, tagEnd, rfl⟩ := Option.map_eq_some_iff.mp h
        exact suffix_of_tagEnd? tagEnd

theorem length_after_of_read? {cs : List Char} {tag : OpenTag} (h : OpenTag.read? cs = some tag) :
    tag.after.length < cs.length := by
  unfold OpenTag.read? at h
  split at h
  · next c rest =>
    split at h
    · obtain ⟨r, read, rfl⟩ := Option.map_eq_some_iff.mp h
      have left := ((suffix_of_readAttributes read).trans (List.dropWhile_suffix _)).length_le
      simp only [List.length_cons]
      omega
    · cases h
  · cases h

theorem suffix_of_templateClose? {depth : Nat} {cs content tail : List Char}
    (h : templateClose? depth cs = some (content, tail)) : tail <:+ cs := by
  induction cs generalizing depth content with
  | nil => cases h
  | cons c cs ih =>
    rw [templateClose?_cons] at h
    split at h
    · obtain ⟨-, rfl⟩ := Prod.mk.inj (Option.some.inj h)
      exact List.suffix_refl _
    · obtain ⟨r, found, eq⟩ := Option.map_eq_some_iff.mp h
      obtain ⟨-, rfl⟩ := Prod.mk.inj eq
      exact (ih found).trans (List.suffix_cons c cs)

theorem length_after_of_blockClose? {kind cs content after : List Char}
    (h : blockClose? kind cs = some (content, after)) : after.length ≤ cs.length := by
  rw [blockClose?] at h
  split at h
  · obtain ⟨⟨inner, tail⟩, found, eq⟩ := Option.map_eq_some_iff.mp h
    obtain ⟨-, rfl⟩ := Prod.mk.inj eq
    have behind : (tail.dropWhile (· != '>')).drop 1 <:+ tail :=
      (List.drop_suffix _ _).trans (List.dropWhile_suffix _)
    exact (behind.trans (suffix_of_templateClose? found)).length_le
  · have whole := congrArg List.length (append_of_splitAt? h)
    simp only [List.length_append] at whole
    omega

theorem length_after_of_afterComment? {c : Char} {cs after : List Char}
    (h : afterComment? (c :: cs) = some after) : after.length ≤ cs.length := by
  rw [afterComment?] at h
  split at h
  · split at h
    · next before rest found =>
      obtain rfl := Option.some.inj h
      have whole := congrArg List.length (append_of_splitAt? found)
      have positive : 0 < "-->".toList.length := by decide
      simp only [List.length_append, List.length_cons] at whole
      omega
    · obtain rfl := Option.some.inj h
      exact Nat.zero_le _
  · cases h

theorem readBlocks_of_enough {cs : List Char} {m n : Nat} (left : cs.length ≤ m) (right : cs.length ≤ n) :
    readBlocks m cs = readBlocks n cs := by
  have empty (k : Nat) : readBlocks k [] = [] := by cases k <;> rfl
  induction m generalizing cs n with
  | zero =>
    obtain rfl := List.eq_nil_of_length_eq_zero (Nat.le_zero.mp left)
    rw [empty, empty]
  | succ m ih =>
    cases n with
    | zero =>
      obtain rfl := List.eq_nil_of_length_eq_zero (Nat.le_zero.mp right)
      rw [empty, empty]
    | succ n =>
      rw [readBlocks, readBlocks]
      cases angle : cs.dropWhile (· != '<') with
      | nil => rfl
      | cons c rest =>
        have fits : (c :: rest).length ≤ cs.length := angle ▸ (List.dropWhile_suffix _).length_le
        rw [List.length_cons] at fits
        -- Each way to go on leaves a shorter text.
        have go {text : List Char} (le : text.length ≤ rest.length) : readBlocks m text = readBlocks n text :=
          ih (by omega) (by omega)
        dsimp only
        cases comment : afterComment? (c :: rest) with
        | some after => exact go (length_after_of_afterComment? comment)
        | none =>
          cases read : OpenTag.read? (c :: rest) with
          | none => exact go (Nat.le_refl _)
          | some tag =>
            have behind : tag.after.length ≤ rest.length := Nat.le_of_lt_succ (length_after_of_read? read)
            dsimp only
            split
            · exact go behind
            · cases closed : blockClose? tag.name tag.after with
              | none => rfl
              | some r => exact congrArg _ (go ((length_after_of_blockClose? closed).trans behind))

def blocksIn (cs : List Char) : List Block := readBlocks (cs.length + 1) cs

theorem readBlocks_eq_blocksIn {cs : List Char} {fuel : Nat} (enough : cs.length ≤ fuel) :
    readBlocks fuel cs = blocksIn cs := readBlocks_of_enough enough (Nat.le_succ _)

theorem blocksIn_items {items : List Item} (wellFormed : ∀ i ∈ items, i.WellFormed) (rest : List Char) :
    blocksIn ((items.flatMap fun i => i.print.toList) ++ rest) =
      items.filterMap Item.block? ++ blocksIn rest := by
  induction items with
  | nil => rfl
  | cons i items ih =>
    have later := ih fun j mem => wellFormed j (List.mem_cons_of_mem i mem)
    obtain ⟨less, fits, read⟩ := (wellFormed i List.mem_cons_self).readBlocks_print
      (Nat.le_succ (i.print.toList ++ ((items.flatMap fun i => i.print.toList) ++ rest)).length)
    rw [List.flatMap_cons, List.append_assoc, blocksIn, read, readBlocks_eq_blocksIn fits, later,
      List.filterMap_cons]
    cases i.block? <;> rfl

structure QuotedAttribute where
  gap : List Char
  key : List Char
  value : List Char

namespace QuotedAttribute

def print (a : QuotedAttribute) : List Char := a.gap ++ (a.key ++ '=' :: ('"' :: a.value ++ ['"']))

structure WellFormed (a : QuotedAttribute) : Prop where
  apart : a.gap ≠ []
  blank : ∀ c ∈ a.gap, isBlank c = true
  key : ∀ c ∈ a.key, isKeyChar c = true
  named : a.key ≠ []
  closed : '"' ∉ a.value
  noAngle : '<' ∉ a.value

instance WellFormed.decidable (a : QuotedAttribute) : Decidable a.WellFormed :=
  decidable_of_iff (a.gap ≠ [] ∧ a.gap.all isBlank = true ∧ a.key.all isKeyChar = true ∧
      a.key ≠ [] ∧ '"' ∉ a.value ∧ '<' ∉ a.value)
    ⟨fun ⟨apart, blank, key, named, closed, noAngle⟩ =>
        ⟨apart, List.all_eq_true.mp blank, List.all_eq_true.mp key, named, closed, noAngle⟩,
      fun h => ⟨h.apart, List.all_eq_true.mpr h.blank, List.all_eq_true.mpr h.key, h.named, h.closed, h.noAngle⟩⟩

end QuotedAttribute

/-- The content of a template: a text, or a text before a tag and what stands behind that. -/
inductive Markup
  | text (run : List Char)
  /-- A template with a content of its own. -/
  | nested (run : List Char) (attributes : List QuotedAttribute) (inner rest : Markup)
  /-- A template tag that closes itself. -/
  | selfClosing (run : List Char) (attributes : List QuotedAttribute) (rest : Markup)

namespace Markup

def print : Markup → List Char
  | .text run => run
  | .nested run attributes inner rest =>
    run ++ ("<template".toList ++ (attributes.flatMap QuotedAttribute.print ++ ">".toList) ++
      (inner.print ++ ("</template>".toList ++ rest.print)))
  | .selfClosing run attributes rest =>
    run ++ ("<template".toList ++ (attributes.flatMap QuotedAttribute.print ++ "/>".toList) ++ rest.print)

/-- How many of its template tags close themselves. -/
def selfClosings : Markup → Nat
  | .text _ => 0
  | .nested _ _ inner rest => inner.selfClosings + rest.selfClosings
  | .selfClosing _ _ rest => rest.selfClosings + 1

def IsRun (run : List Char) : Prop := ¬"<template".toList <:+: run ∧ ¬"</template".toList <:+: run

instance IsRun.decidable (run : List Char) : Decidable (IsRun run) :=
  inferInstanceAs (Decidable (¬_ ∧ ¬_))

def WellFormed : Markup → Prop
  | .text run => IsRun run
  | .nested run attributes inner rest =>
    IsRun run ∧ (∀ a ∈ attributes, a.WellFormed) ∧ inner.WellFormed ∧ rest.WellFormed
  | .selfClosing run attributes rest => IsRun run ∧ (∀ a ∈ attributes, a.WellFormed) ∧ rest.WellFormed

instance WellFormed.decidable : (c : Markup) → Decidable c.WellFormed
  | .text run => IsRun.decidable run
  | .nested _ _ inner rest =>
    have := decidable inner
    have := decidable rest
    inferInstanceAs (Decidable (_ ∧ _ ∧ _ ∧ _))
  | .selfClosing _ _ rest =>
    have := decidable rest
    inferInstanceAs (Decidable (_ ∧ _ ∧ _))

end Markup

/-- A text before another one in which no template tag starts. -/
def Untagged : List Char → List Char → Prop
  | [], _ => True
  | c :: cs, more => tagAt? (c :: (cs ++ more)) = none ∧ Untagged cs more

theorem Untagged.append {front back more : List Char} (first : Untagged front (back ++ more))
    (second : Untagged back more) : Untagged (front ++ back) more := by
  induction front with
  | nil => exact second
  | cons c front ih =>
    obtain ⟨here, later⟩ := first
    rw [← List.append_assoc] at here
    exact ⟨here, ih later⟩

theorem exists_of_startsTag {name cs : List Char} (h : startsTag name cs = true) :
    ∃ c rest, cs = name ++ c :: rest ∧ (isBlank c || c = '>' || c = '/') = true := by
  rw [startsTag] at h
  split at h
  · next c rest found => exact ⟨c, rest, (append_of_dropLead? found).symm, h⟩
  · cases h

theorem tagAt?_eq_none {cs : List Char} (closing : startsTag "</template".toList cs ≠ true)
    (opening : startsTag "<template".toList cs ≠ true) : tagAt? cs = none := by
  rw [tagAt?, if_neg closing, if_neg opening]

theorem tagAt?_of_ne_angle {c : Char} (ne : c ≠ '<') (cs : List Char) : tagAt? (c :: cs) = none := by
  refine tagAt?_eq_none ?_ ?_ <;>
  · intro starts
    obtain ⟨d, rest, shape, -⟩ := exists_of_startsTag starts
    exact ne (List.cons.inj shape).1

theorem untagged_of_noAngle {cs : List Char} (noAngle : '<' ∉ cs) (more : List Char) : Untagged cs more := by
  induction cs with
  | nil => trivial
  | cons c cs ih =>
    have ne : c ≠ '<' := fun same => noAngle (same ▸ List.mem_cons_self)
    exact ⟨tagAt?_of_ne_angle ne _, ih fun mem => noAngle (List.mem_cons_of_mem c mem)⟩

theorem untagged_key {key : List Char} (chars : ∀ c ∈ key, isKeyChar c = true) (more : List Char) :
    Untagged key ('=' :: more) := by
  have absent {name cs : List Char} (noSign : '=' ∉ name) (chars : ∀ c ∈ cs, isKeyChar c = true) :
      startsTag name (cs ++ '=' :: more) ≠ true := by
    intro starts
    obtain ⟨d, rest, shape, ends⟩ := exists_of_startsTag starts
    have noKey : d ∉ cs := by
      intro mem
      have char := chars d mem
      simp only [isKeyChar, Bool.not_eq_true'] at char
      grind
    have noEquals : d ≠ '=' := by
      rintro rfl
      exact absurd ends (by decide)
    rcases List.append_eq_append_iff.mp shape with ⟨between, rfl, sign⟩ | ⟨between, rfl, sign⟩
    · cases between with
      | nil => exact noEquals (List.cons.inj sign).1.symm
      | cons x between =>
        obtain ⟨rfl, -⟩ := List.cons.inj sign
        simp at noSign
    · cases between with
      | nil => exact noEquals (List.cons.inj sign).1
      | cons x between =>
        obtain ⟨rfl, -⟩ := List.cons.inj sign
        simp at noKey
  induction key with
  | nil => trivial
  | cons c key ih =>
    exact ⟨tagAt?_eq_none (absent (by decide) chars) (absent (by decide) chars),
      ih fun d mem => chars d (List.mem_cons_of_mem c mem)⟩

theorem QuotedAttribute.WellFormed.untagged {a : QuotedAttribute} (wellFormed : a.WellFormed)
    (more : List Char) : Untagged a.print more := by
  have gap : '<' ∉ a.gap := fun mem => absurd (wellFormed.blank _ mem) (by decide)
  have value : '<' ∉ '=' :: ('"' :: a.value ++ ['"']) := by
    have := wellFormed.noAngle
    simp [this]
  refine (untagged_of_noAngle gap _).append (Untagged.append ?_ (untagged_of_noAngle value more))
  exact untagged_key wellFormed.key _

theorem untagged_attributes {attributes : List QuotedAttribute}
    (wellFormed : ∀ a ∈ attributes, a.WellFormed) (more : List Char) :
    Untagged (attributes.flatMap QuotedAttribute.print) more := by
  induction attributes with
  | nil => trivial
  | cons a attributes ih =>
    rw [List.flatMap_cons]
    exact ((wellFormed a List.mem_cons_self).untagged _).append
      (ih fun b mem => wellFormed b (List.mem_cons_of_mem a mem))

theorem Markup.IsRun.untagged {run : List Char} (isRun : IsRun run) (more : List Char) :
    Untagged run ('<' :: more) := by
  induction run with
  | nil => trivial
  | cons c run ih =>
    obtain ⟨opening, closing⟩ := isRun
    have later : IsRun run := ⟨fun h => opening (List.infix_cons h), fun h => closing (List.infix_cons h)⟩
    have absent {name : List Char} (no : ¬name <:+: c :: run) : startsTag name (c :: run) ≠ true := by
      intro starts
      obtain ⟨d, rest, shape, -⟩ := exists_of_startsTag starts
      exact no ⟨[], d :: rest, by rw [shape, List.nil_append]⟩
    refine ⟨?_, ih later⟩
    rw [tagAt?_angle]
    exact tagAt?_eq_none (absent closing) (absent opening)

def passedOver (cs : List Char) (r : List Char × List Char) : List Char × List Char := (cs ++ r.1, r.2)

theorem map_passedOver (front back : List Char) (found : Option (List Char × List Char)) :
    (found.map (passedOver back)).map (passedOver front) = found.map (passedOver (front ++ back)) := by
  cases found with
  | none => rfl
  | some r => simp [passedOver]

theorem templateClose?_untagged {cs more : List Char} (untagged : Untagged cs more) (depth : Nat) :
    templateClose? depth (cs ++ more) = (templateClose? depth more).map (passedOver cs) := by
  induction cs with
  | nil => cases h : templateClose? depth more <;> simp [h, passedOver]
  | cons c cs ih =>
    obtain ⟨here, later⟩ := untagged
    have step : (fun r : List Char × List Char => (c :: r.1, r.2)) = passedOver [c] := rfl
    rw [List.cons_append, templateClose?_cons, here, if_neg (by simp), depthBehind, ih later, step,
      map_passedOver, List.singleton_append]

theorem templateClose?_opening {attributes : List QuotedAttribute}
    (wellFormed : ∀ a ∈ attributes, a.WellFormed) {closing : List Char}
    (isClosing : closing = ">".toList ∨ closing = "/>".toList) (depth : Nat) (more : List Char) :
    templateClose? depth
        ("<template".toList ++ (attributes.flatMap QuotedAttribute.print ++ closing) ++ more) =
      (templateClose? (depth + 1) more).map
        (passedOver ("<template".toList ++ (attributes.flatMap QuotedAttribute.print ++ closing))) := by
  have ends : ∃ c rest, attributes.flatMap QuotedAttribute.print ++ (closing ++ more) = c :: rest ∧
      (isBlank c || c = '>' || c = '/') = true := by
    cases attributes with
    | nil =>
      rcases isClosing with rfl | rfl
      · exact ⟨'>', more, rfl, rfl⟩
      · exact ⟨'/', '>' :: more, rfl, rfl⟩
    | cons a attributes =>
      have ⟨apart, blank, _, _, _, _⟩ := wellFormed a List.mem_cons_self
      obtain ⟨c, gap, shape⟩ := List.exists_cons_of_ne_nil apart
      refine ⟨c, _, by rw [List.flatMap_cons, QuotedAttribute.print, shape]; rfl, ?_⟩
      simp [blank c (shape ▸ List.mem_cons_self)]
  have opens : tagAt? ("<template".toList ++ (attributes.flatMap QuotedAttribute.print ++ closing) ++
      more) = some false := by
    obtain ⟨c, rest, shape, isEnd⟩ := ends
    have named : startsTag "<template".toList ("<template".toList ++ c :: rest) = true := isEnd
    rw [List.append_assoc, List.append_assoc, shape, tagAt?, if_neg (by simp [startsTag, dropLead?]),
      if_pos named]
  have name : Untagged "template".toList
      (attributes.flatMap QuotedAttribute.print ++ (closing ++ more)) :=
    untagged_of_noAngle (by decide) _
  have angle : Untagged closing more := by
    rcases isClosing with rfl | rfl
    · exact untagged_of_noAngle (by decide) more
    · exact untagged_of_noAngle (by decide) more
  have tail : Untagged ("template".toList ++ (attributes.flatMap QuotedAttribute.print ++ closing)) more := by
    refine Untagged.append ?_ ((untagged_attributes wellFormed _).append angle)
    rwa [List.append_assoc]
  have shape : "<template".toList ++ (attributes.flatMap QuotedAttribute.print ++ closing) ++ more =
      '<' :: ("template".toList ++ (attributes.flatMap QuotedAttribute.print ++ closing) ++ more) := rfl
  have step : (fun r : List Char × List Char => ('<' :: r.1, r.2)) = passedOver ['<'] := rfl
  rw [shape, templateClose?_cons, ← shape, opens, if_neg (by simp), depthBehind,
    templateClose?_untagged tail, step, map_passedOver]
  rfl

theorem templateClose?_closing {depth : Nat} (deep : depth ≠ 1) (more : List Char) :
    templateClose? depth ("</template>".toList ++ more) =
      (templateClose? (depth - 1) more).map (passedOver "</template>".toList) := by
  have shape : "</template>".toList ++ more = '<' :: ("/template>".toList ++ more) := rfl
  have closes : tagAt? ('<' :: ("/template>".toList ++ more)) = some true := rfl
  have tail : Untagged "/template>".toList more := untagged_of_noAngle (by decide) more
  have step : (fun r : List Char × List Char => ('<' :: r.1, r.2)) = passedOver ['<'] := rfl
  rw [shape, templateClose?_cons, closes, if_neg (by simp [deep]), depthBehind,
    templateClose?_untagged tail, step, map_passedOver]
  rfl

theorem templateClose?_markup {content : Markup} (wellFormed : content.WellFormed) (depth : Nat)
    (more : List Char) :
    templateClose? (depth + 1) (content.print ++ '<' :: more) =
      (templateClose? (depth + 1 + content.selfClosings) ('<' :: more)).map (passedOver content.print) := by
  induction content generalizing depth more with
  | text run => exact templateClose?_untagged (Markup.IsRun.untagged wellFormed more) _
  | nested run attributes inner rest ihInner ihRest =>
    obtain ⟨isRun, keyed, innerFormed, restFormed⟩ := wellFormed
    have deep : depth + 1 + 1 + inner.selfClosings ≠ 1 := by omega
    have lowered : depth + 1 + 1 + inner.selfClosings - 1 = depth + inner.selfClosings + 1 := by omega
    have total : depth + inner.selfClosings + 1 + rest.selfClosings =
        depth + 1 + (inner.selfClosings + rest.selfClosings) := by omega
    have behind := ihRest restFormed (depth + inner.selfClosings) more
    rw [total] at behind
    have closing := templateClose?_closing deep (rest.print ++ '<' :: more)
    rw [lowered, behind, map_passedOver] at closing
    have within := ihInner innerFormed (depth + 1) ("/template>".toList ++ (rest.print ++ '<' :: more))
    have angle : '<' :: ("/template>".toList ++ (rest.print ++ '<' :: more)) =
        "</template>".toList ++ (rest.print ++ '<' :: more) := rfl
    rw [angle, closing, map_passedOver] at within
    have opening := templateClose?_opening keyed (.inl rfl) (depth + 1)
      (inner.print ++ ("</template>".toList ++ (rest.print ++ '<' :: more)))
    rw [within, map_passedOver] at opening
    have text := templateClose?_untagged (isRun.untagged ("template".toList ++
      (attributes.flatMap QuotedAttribute.print ++ ">".toList) ++
        (inner.print ++ ("</template>".toList ++ (rest.print ++ '<' :: more))))) (depth + 1)
    have shape : (Markup.nested run attributes inner rest).print ++ '<' :: more =
        run ++ '<' :: ("template".toList ++ (attributes.flatMap QuotedAttribute.print ++ ">".toList) ++
          (inner.print ++ ("</template>".toList ++ (rest.print ++ '<' :: more)))) := by
      simp [Markup.print]
    rw [shape, text]
    refine (congrArg _ opening).trans ?_
    rw [map_passedOver]
    rfl
  | selfClosing run attributes rest ih =>
    obtain ⟨isRun, keyed, restFormed⟩ := wellFormed
    have total : depth + 1 + 1 + rest.selfClosings = depth + 1 + (rest.selfClosings + 1) := by omega
    have behind := ih restFormed (depth + 1) more
    rw [total] at behind
    have opening := templateClose?_opening keyed (.inr rfl) (depth + 1) (rest.print ++ '<' :: more)
    rw [behind, map_passedOver] at opening
    have text := templateClose?_untagged (isRun.untagged ("template".toList ++
      (attributes.flatMap QuotedAttribute.print ++ "/>".toList) ++ (rest.print ++ '<' :: more))) (depth + 1)
    have shape : (Markup.selfClosing run attributes rest).print ++ '<' :: more =
        run ++ '<' :: ("template".toList ++ (attributes.flatMap QuotedAttribute.print ++ "/>".toList) ++
          (rest.print ++ '<' :: more)) := by
      simp [Markup.print]
    rw [shape, text]
    refine (congrArg _ opening).trans ?_
    rw [map_passedOver]
    rfl

theorem templateClose?_of_balanced {content : Markup} (wellFormed : content.WellFormed)
    (balanced : content.selfClosings = 0) (after : List Char) :
    templateClose? 1 (content.print ++ ("</template>".toList ++ after)) =
      some (content.print, "</template>".toList ++ after) := by
  have shape : "</template>".toList ++ after = '<' :: ("/template>".toList ++ after) := rfl
  have passed := templateClose?_markup wellFormed 0 ("/template>".toList ++ after)
  have closes : templateClose? 1 ('<' :: ("/template>".toList ++ after)) =
      some ([], '<' :: ("/template>".toList ++ after)) := by
    rw [templateClose?_cons, if_pos ⟨rfl, rfl⟩]
  rw [balanced, Nat.zero_add, closes] at passed
  rw [shape, passed, Option.map_some, passedOver, List.append_nil]

theorem templateClose?_of_unbalanced {content : Markup} (wellFormed : content.WellFormed)
    (unbalanced : content.selfClosings ≠ 0) (after : List Char) :
    templateClose? 1 (content.print ++ ("</template>".toList ++ after)) =
      (templateClose? content.selfClosings after).map
        (passedOver (content.print ++ "</template>".toList)) := by
  have shape : "</template>".toList ++ after = '<' :: ("/template>".toList ++ after) := rfl
  have passed := templateClose?_markup wellFormed 0 ("/template>".toList ++ after)
  have deep : 0 + 1 + content.selfClosings ≠ 1 := by omega
  rw [← shape, templateClose?_closing deep, map_passedOver, Nat.zero_add, Nat.add_sub_cancel_left] at passed
  exact passed

theorem templateClose?_eq_none {cs : List Char} (unclosed : true ∉ templateTags cs) (depth : Nat) :
    templateClose? depth cs = none := by
  induction cs generalizing depth with
  | nil => rfl
  | cons c cs ih =>
    rw [templateTags, List.mem_append, not_or] at unclosed
    have here : tagAt? (c :: cs) ≠ some true := fun tag => unclosed.1 (by simp [tag])
    rw [templateClose?_cons, if_neg fun h => here h.1, ih unclosed.2]
    rfl

theorem blocksIn_template {cs : List Char} {tag : OpenTag} (read : OpenTag.read? cs = some tag)
    (isTemplate : tag.name = "template".toList) (opens : tag.isSelfClosing = false) :
    blocksIn cs = match templateClose? 1 tag.after with
      | none => []
      | some (content, tail) =>
        Block.ofTag tag content :: blocksIn ((tail.dropWhile (· != '>')).drop 1) := by
  have close : blockClose? tag.name tag.after =
      (templateClose? 1 tag.after).map fun r => (r.1, (r.2.dropWhile (· != '>')).drop 1) := by
    rw [blockClose?, if_pos isTemplate]
  have shorter := length_after_of_read? read
  cases found : templateClose? 1 tag.after with
  | none =>
    rw [found] at close
    obtain ⟨rest, rfl, uncommented⟩ := afterComment?_of_read? read
    have whole : ('<' :: rest).dropWhile (· != '<') = '<' :: rest := rfl
    rw [blocksIn, readBlocks, whole]
    dsimp only
    rw [uncommented, read]
    dsimp only
    rw [opens, close]
    rfl
  | some r =>
    rw [found, Option.map_some] at close
    have fits := length_after_of_blockClose? close
    rw [blocksIn, readBlocks_of_read? read opens close]
    dsimp only
    rw [readBlocks_eq_blocksIn (by omega)]

namespace ComponentFile

theorem parse_ofList (cs : List Char) : parse (String.ofList cs) = arranged (blocksIn cs) := by
  rw [parse, String.toList_ofList, ofBlocks_eq_arranged, blocksIn]

end ComponentFile

/-- A template ends at its own closing tag exactly if no template tag in its content closes itself. Then the
blocks behind it are those of the text behind it. Otherwise the template goes on in that text, and all of it
is lost if the text holds no closing tag of a template. -/
theorem template_ends_at_own_close_iff {content : Markup} (wellFormed : content.WellFormed) :
    (∀ after, templateClose? 1 (content.print ++ ("</template>".toList ++ after)) =
        some (content.print, "</template>".toList ++ after) ↔ content.selfClosings = 0) ∧
      ∀ (items : List Item) (text after : List Char) (tag : OpenTag), (∀ i ∈ items, i.WellFormed) →
        OpenTag.read? text = some tag → tag.name = "template".toList → tag.isSelfClosing = false →
        tag.after = content.print ++ ("</template>".toList ++ after) →
        (content.selfClosings = 0 →
          ComponentFile.parse (String.ofList ((items.flatMap fun i => i.print.toList) ++ text)) =
            .arranged (items.filterMap Item.block? ++ Block.ofTag tag content.print :: blocksIn after)) ∧
        (content.selfClosings ≠ 0 →
          ComponentFile.parse (String.ofList ((items.flatMap fun i => i.print.toList) ++ text)) =
            .arranged (items.filterMap Item.block? ++
              match templateClose? content.selfClosings after with
              | none => []
              | some (more, tail) =>
                Block.ofTag tag (content.print ++ "</template>".toList ++ more) ::
                  blocksIn ((tail.dropWhile (· != '>')).drop 1))) ∧
        (content.selfClosings ≠ 0 → true ∉ templateTags after →
          ComponentFile.parse (String.ofList ((items.flatMap fun i => i.print.toList) ++ text)) =
            .arranged (items.filterMap Item.block?)) := by
  refine ⟨fun after => ⟨fun closes => ?_, fun balanced => templateClose?_of_balanced wellFormed balanced after⟩,
    ?_⟩
  · by_contra unbalanced
    rw [templateClose?_of_unbalanced wellFormed unbalanced] at closes
    obtain ⟨r, -, eq⟩ := Option.map_eq_some_iff.mp closes
    have length := congrArg (fun r : List Char × List Char => r.1.length) eq
    simp [passedOver] at length
  · intro items text after tag itemsFormed read isTemplate opens behind
    have blocks := blocksIn_template read isTemplate opens
    rw [behind] at blocks
    have file : ComponentFile.parse (String.ofList ((items.flatMap fun i => i.print.toList) ++ text)) =
        .arranged (items.filterMap Item.block? ++ blocksIn text) := by
      rw [ComponentFile.parse_ofList, blocksIn_items itemsFormed]
    have unclosed (unbalanced : content.selfClosings ≠ 0) :=
      templateClose?_of_unbalanced wellFormed unbalanced after
    refine ⟨fun balanced => ?_, fun unbalanced => ?_, fun unbalanced noClosing => ?_⟩
    · rw [templateClose?_of_balanced wellFormed balanced] at blocks
      have closed : (("</template>".toList ++ after).dropWhile (· != '>')).drop 1 = after := rfl
      rw [file, blocks]
      dsimp only
      rw [closed]
    · rw [unclosed unbalanced] at blocks
      rw [file, blocks]
      cases templateClose? content.selfClosings after <;> rfl
    · rw [unclosed unbalanced, templateClose?_eq_none noClosing, Option.map_none] at blocks
      rw [file, blocks, List.append_nil]

/-- A template in a template, behind a text that looks like the start of a tag. -/
def slottedMarkup : Markup :=
  .nested "\n<templ".toList [⟨" ".toList, "#head".toList, "a > b".toList⟩, ⟨"\n\t".toList, "<b".toList, []⟩]
    (.nested [] [] (.text "</b>".toList) (.text "c".toList)) (.text "\n".toList)

theorem slotted_template_keeps_script :
    slottedMarkup.WellFormed ∧ slottedMarkup.selfClosings = 0 ∧
      ComponentFile.parse ("<docs>d</docs>\n<template lang=\"x\">\n<templ<template #head=\"a > b\"\n\t<b=\"\">" ++
          "<template></b></template>c</template>\n</template>\n<script>a</script>\n") =
        { template := some ⟨"template", "\n<templ<template #head=\"a > b\"\n\t<b=\"\"><template></b></template>c" ++
            "</template>\n", [⟨"lang", "x"⟩], some "x"⟩
          script := some ⟨"script", "a", [], none⟩
          others := [⟨"docs", "d", [], none⟩] } := by
  have wellFormed : slottedMarkup.WellFormed := by decide +kernel
  have balanced : slottedMarkup.selfClosings = 0 := rfl
  have keys : ∀ a ∈ [Attribute.mk "lang" "x"], Attribute.IsKey a.key :=
    List.forall_mem_singleton.mpr ⟨by decide, List.all_eq_true.mp (by decide)⟩
  have items : ∀ i ∈ [Item.block ⟨"docs", "d", [], none⟩], i.WellFormed := by decide +kernel
  have read := OpenTag.read?_printed (by decide : IsTagName "template".toList) keys
    (slottedMarkup.print ++ ("</template>".toList ++ "\n<script>a</script>\n".toList))
  have kept := ((template_ends_at_own_close_iff wellFormed).2 _ _ _ _ items read rfl rfl rfl).1 balanced
  refine ⟨wellFormed, balanced, (congrArg ComponentFile.parse ?_).trans (kept.trans ?_)⟩
  · decide +kernel
  · decide +kernel

/-- A template tag that closes itself is counted as an open template: the template is left open, and the
script behind it is lost. -/
theorem self_closing_template_loses_script :
    (Markup.selfClosing [] [] (.text [])).WellFormed ∧
      templateClose? 1 ((Markup.selfClosing [] [] (.text [])).print ++
        ("</template>".toList ++ "\n<script>a</script>\n".toList)) = none ∧
      ComponentFile.parse "<template><template/></template>\n<script>a</script>\n" = {} := by
  decide +kernel

end VueOptions.Blocks
