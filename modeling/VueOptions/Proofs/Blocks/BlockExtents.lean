import Mathlib.Data.List.Forall2
import VueOptions.Proofs.Blocks.TagText
import VueOptions.Text.Offset

/-!
Where the blocks of a file stand. A reading goes over a text step by step, and each step takes something off its
front: a character, a comment, a tag that closes itself, or a block (`Step`). It stops at the end of the text or
at an opening tag whose block is not closed, and there is always a step where it does not stop (`stops_or_step`).
So the blocks of a file are those of the steps, each at an extent of its own, one behind another.
-/

set_option autoImplicit false

namespace VueOptions.Blocks

open Text

/-- What a reading takes off the front of a text. -/
inductive Part
  | char (c : Char)
  | comment (text : List Char)
  /-- A tag that closes itself. -/
  | tag (text : List Char)
  | block (opening content closing : List Char) (b : Block)

namespace Part

def text : Part → List Char
  | .char c => [c]
  | .comment text => text
  | .tag text => text
  | .block opening content closing _ => opening ++ (content ++ closing)

def block? : Part → Option Block
  | .block _ _ _ b => some b
  | _ => none

end Part

/-- What may stand at the front of a text, with the text behind it. -/
inductive Step : List Char → Part → List Char → Prop
  /-- A character at which neither a comment nor a tag starts. -/
  | char {c : Char} {rest : List Char} (noComment : ¬"<!--".toList <+: c :: rest)
    (noTag : ¬OpensTag (c :: rest)) : Step (c :: rest) (.char c) rest
  | comment {text rest : List Char} (opens : "<!--".toList <+: text) (closes : "-->".toList <:+ text)
    (once : ¬"-->".toList <:+: text.dropLast) : Step (text ++ rest) (.comment text) rest
  /-- A comment that is left open. -/
  | openComment {text : List Char} (opens : "<!--".toList <+: text) (never : ¬"-->".toList <:+: text) :
    Step text (.comment text) []
  | tag {cs opening : List Char} {tag : OpenTag} (read : OpenTag.read? cs = some tag) (spelled : tag.Spells opening)
    (whole : opening ++ tag.after = cs) (closes : tag.isSelfClosing = true) : Step cs (.tag opening) tag.after
  | block {cs opening content closing rest : List Char} {tag : OpenTag} (read : OpenTag.read? cs = some tag)
    (spelled : tag.Spells opening) (whole : opening ++ tag.after = cs) (opens : tag.isSelfClosing = false)
    (behind : content ++ (closing ++ rest) = tag.after) (fits : FitsIn tag.name content)
    (closes : IsClosing tag.name closing rest) :
    Step cs (.block opening content closing (Block.ofTag tag content)) rest

/-- An opening tag of a block that is not closed in the text behind it. -/
def Unclosed (cs : List Char) : Prop :=
  ∃ tag, OpenTag.read? cs = some tag ∧ tag.isSelfClosing = false ∧ ∀ content closing rest,
    content ++ (closing ++ rest) = tag.after → FitsIn tag.name content → ¬IsClosing tag.name closing rest

def Stops (cs : List Char) : Prop := cs = [] ∨ Unclosed cs

inductive Steps : List Char → List Part → List Char → Prop
  | nil (cs : List Char) : Steps cs [] cs
  | cons {cs rest last : List Char} {p : Part} {ps : List Part} (first : Step cs p rest)
    (more : Steps rest ps last) : Steps cs (p :: ps) last

section

variable {cs rest : List Char} {p : Part} {ps : List Part}

theorem Step.whole (step : Step cs p rest) : p.text ++ rest = cs := by
  cases step with
  | char => rfl
  | comment => rfl
  | openComment => exact List.append_nil _
  | tag _ _ whole => exact whole
  | block _ _ whole _ behind =>
    rw [← whole, ← behind]
    simp [Part.text]

theorem IsClosing.ne_nil {kind closing rest : List Char} (closes : IsClosing kind closing rest) : closing ≠ [] := by
  rintro rfl
  unfold IsClosing at closes
  split at closes
  · exact absurd closes.1 (by decide)
  · simp at closes

theorem Step.length_lt (step : Step cs p rest) : rest.length < cs.length := by
  have filled : p.text ≠ [] := by
    cases step with
    | char => exact List.cons_ne_nil _ _
    | comment opens | openComment opens =>
      rintro rfl
      exact absurd opens (by decide)
    | tag _ spelled =>
      obtain ⟨blanks, -, rfl⟩ := spelled.whole
      exact List.cons_ne_nil _ _
    | block _ spelled =>
      obtain ⟨blanks, -, rfl⟩ := spelled.whole
      exact List.cons_ne_nil _ _
  have size := List.length_pos_of_ne_nil filled
  rw [← step.whole, List.length_append]
  omega

theorem stops_or_step (cs : List Char) : Stops cs ∨ ∃ p rest, Step cs p rest := by
  cases cs with
  | nil => exact .inl (.inl rfl)
  | cons c rest =>
    by_cases comment : "<!--".toList <+: c :: rest
    · right
      cases found : splitAt? "-->".toList (c :: rest) with
      | none =>
        refine ⟨_, [], .openComment comment fun inside => ?_⟩
        obtain ⟨before, after, some⟩ := exists_splitAt?_of_infix inside
        rw [found] at some
        cases some
      | some r =>
        obtain ⟨before, after⟩ := r
        have whole := append_of_splitAt? found
        have opens : "<!--".toList <+: before ++ "-->".toList := by
          refine List.prefix_of_prefix_length_le comment ⟨after, whole⟩ ?_
          cases before with
          | nil =>
            obtain ⟨more, shape⟩ := comment
            rw [← shape] at whole
            cases (List.cons.inj whole).1
          | cons d before => simp
        have step : Step (before ++ "-->".toList ++ after) (.comment (before ++ "-->".toList)) after :=
          .comment opens (List.suffix_append before _) (not_infix_dropLast_of_splitAt? (by decide) found)
        rw [whole] at step
        exact ⟨_, after, step⟩
    · cases read : OpenTag.read? (c :: rest) with
      | none => exact .inr ⟨_, rest, .char comment (OpenTag.read?_eq_none_iff.mp read)⟩
      | some tag =>
        obtain ⟨opening, spelled, whole⟩ := OpenTag.spells_of_read? read
        cases closing : tag.isSelfClosing with
        | true => exact .inr ⟨_, _, .tag read spelled whole closing⟩
        | false =>
          cases closed : blockClose? tag.name tag.after with
          | none =>
            refine .inl (.inr ⟨tag, read, closing, fun content close after behind fits closes => ?_⟩)
            have some := (blockClose?_eq_some_iff spelled.name).mpr ⟨close, behind, fits, closes⟩
            rw [closed] at some
            cases some
          | some r =>
            obtain ⟨close, behind, fits, closes⟩ := (blockClose?_eq_some_iff spelled.name).mp closed
            exact .inr ⟨_, r.2, .block read spelled whole closing behind fits closes⟩

theorem exists_steps (cs : List Char) : ∃ ps rest, Steps cs ps rest ∧ Stops rest := by
  induction size : cs.length using Nat.strongRecOn generalizing cs with
  | ind n ih =>
    rcases stops_or_step cs with stops | ⟨p, rest, step⟩
    · exact ⟨[], cs, .nil cs, stops⟩
    · obtain ⟨ps, last, steps, stops⟩ := ih rest.length (size ▸ step.length_lt) rest rfl
      exact ⟨p :: ps, last, .cons step steps, stops⟩

theorem Steps.whole (steps : Steps cs ps rest) : ps.flatMap Part.text ++ rest = cs := by
  induction steps with
  | nil => rfl
  | cons first _ ih => rw [List.flatMap_cons, List.append_assoc, ih, first.whole]

theorem afterComment?_eq_none (noComment : ¬"<!--".toList <+: cs) : afterComment? cs = none := by
  rw [afterComment?, if_neg]
  rwa [List.isPrefixOf_iff_prefix]

theorem Step.blocksIn_eq (step : Step cs p rest) : blocksIn cs = p.block?.toList ++ blocksIn rest := by
  have le := step.length_lt
  have enough : readBlocks cs.length rest = blocksIn rest := readBlocks_eq_blocksIn (Nat.le_of_lt le)
  cases step with
  | @char c rest noComment noTag =>
    by_cases angle : c = '<'
    · subst angle
      have starts : ('<' :: rest).dropWhile (· != '<') = '<' :: rest := rfl
      rw [blocksIn, readBlocks, starts]
      dsimp only
      rw [afterComment?_eq_none noComment, OpenTag.read?_eq_none_iff.mpr noTag]
      exact enough
    · have noAngle : '<' ∉ [c] := by simpa using Ne.symm angle
      have skipped := readBlocks_text noAngle ((c :: rest).length + 1) rest
      rw [List.singleton_append] at skipped
      rw [blocksIn, skipped, readBlocks_eq_blocksIn (by omega)]
      rfl
  | comment opens closes once =>
    rw [blocksIn, readBlocks_comment opens closes once, enough]
    rfl
  | openComment opens never =>
    have unended : splitAt? "-->".toList cs = none := by
      cases found : splitAt? "-->".toList cs with
      | none => rfl
      | some r => exact absurd ⟨r.1, r.2, append_of_splitAt? found⟩ never
    have ended : afterComment? cs = some [] := by
      rw [afterComment?, if_pos (List.isPrefixOf_iff_prefix.mpr opens), unended]
    obtain ⟨more, rfl⟩ := opens
    have starts : ("<!--".toList ++ more).dropWhile (· != '<') = '<' :: ("!--".toList ++ more) := rfl
    have shape : "<!--".toList ++ more = '<' :: ("!--".toList ++ more) := rfl
    rw [shape] at ended
    rw [blocksIn, readBlocks, starts]
    dsimp only
    rw [ended]
    exact enough
  | tag read _ _ closes =>
    rw [blocksIn, readBlocks_of_selfClosing read closes, enough]
    rfl
  | block read spelled _ opens behind fits closes =>
    have closed := (blockClose?_eq_some_iff spelled.name).mpr ⟨_, behind, fits, closes⟩
    rw [blocksIn, readBlocks_of_read? read opens closed, enough]
    rfl

theorem Stops.blocksIn_eq (stops : Stops cs) : blocksIn cs = [] := by
  rcases stops with rfl | ⟨tag, read, opens, never⟩
  · rfl
  · have closed : blockClose? tag.name tag.after = none := by
      cases found : blockClose? tag.name tag.after with
      | none => rfl
      | some r =>
        obtain ⟨close, behind, fits, closes⟩ :=
          (blockClose?_eq_some_iff (OpenTag.isTagName_of_read? read)).mp found
        exact absurd closes (never _ _ _ behind fits)
    obtain ⟨rest, rfl, uncommented⟩ := afterComment?_of_read? read
    have starts : ('<' :: rest).dropWhile (· != '<') = '<' :: rest := rfl
    rw [blocksIn, readBlocks, starts]
    dsimp only
    rw [uncommented, read]
    dsimp only
    rw [opens, closed]
    rfl

theorem Steps.blocksIn_eq (steps : Steps cs ps rest) : blocksIn cs = ps.filterMap Part.block? ++ blocksIn rest := by
  induction steps with
  | nil => rfl
  | @cons cs rest last p ps first _ ih =>
    rw [first.blocksIn_eq, ih, List.filterMap_cons]
    cases p.block? <;> rfl

end

/-- Where a block stands in a text, as byte offsets: its opening tag, its content and its closing tag. -/
structure Extent where
  start : Nat
  opened : Nat
  closing : Nat
  stop : Nat
  deriving DecidableEq, Repr

def Part.extent? (n : Nat) : Part → Option Extent
  | .block opening content closing _ => some ⟨n, n + byteLength opening, n + byteLength (opening ++ content),
      n + byteLength (opening ++ (content ++ closing))⟩
  | _ => none

/-- The extents of the blocks among parts that stand from an offset on. -/
def extentsFrom : Nat → List Part → List Extent
  | _, [] => []
  | n, p :: ps => (p.extent? n).toList ++ extentsFrom (n + byteLength p.text) ps

def Block.Opens (b : Block) (opening : List Char) : Prop :=
  ∃ tag : OpenTag, tag.Spells opening ∧ tag.isSelfClosing = false ∧ b = Block.ofTag tag b.content.toList

/-- A block stands at an extent of a text: its opening tag, its content, its closing tag. -/
def Extent.Holds (e : Extent) (text : List Char) (b : Block) : Prop :=
  ∃ before opening closing after, before ++ (opening ++ (b.content.toList ++ (closing ++ after))) = text ∧
    b.Opens opening ∧ IsClosing b.kind.toList closing after ∧
    e.start = byteLength before ∧ e.opened = byteLength (before ++ opening) ∧
    e.closing = byteLength (before ++ opening ++ b.content.toList) ∧
    e.stop = byteLength (before ++ opening ++ b.content.toList ++ closing)

namespace Extent.Holds

variable {e : Extent} {text : List Char} {b : Block}

theorem slice_eq (holds : e.Holds text b) : slice text e.opened e.closing = b.content.toList := by
  obtain ⟨before, opening, closing, after, rfl, -, -, -, opened, closes, -⟩ := holds
  rw [opened, closes, ← List.append_assoc]
  exact slice_between (before ++ opening) b.content.toList (closing ++ after)

theorem bounds (holds : e.Holds text b) : e.start < e.opened ∧ e.opened ≤ e.closing ∧ e.closing < e.stop := by
  obtain ⟨before, opening, closing, after, rfl, ⟨tag, spelled, -⟩, closes, start, opened, closed, stop⟩ := holds
  have left : 0 < byteLength opening := by
    obtain ⟨blanks, -, rfl⟩ := spelled.whole
    exact byteLength_pos (List.cons_ne_nil _ _)
  have right := byteLength_pos closes.ne_nil
  simp only [byteLength_append] at start opened closed stop ⊢
  omega

end Extent.Holds

theorem Steps.holds {cs rest before text : List Char} {ps : List Part} (steps : Steps cs ps rest)
    (whole : before ++ cs = text) : List.Forall₂ (fun e b => e.Holds text b)
      (extentsFrom (byteLength before) ps) (ps.filterMap Part.block?) := by
  induction steps generalizing before with
  | nil => exact .nil
  | @cons cs rest last p ps first more ih =>
    have joined : before ++ p.text ++ rest = text := by rw [List.append_assoc, first.whole, whole]
    have later := ih joined
    rw [byteLength_append] at later
    cases first with
    | char | comment | openComment | tag => exact later
    | @block _ opening content closing _ tag read spelled front opens behind fits closes =>
      have inner : (Block.ofTag tag content).content.toList = content := String.toList_ofList
      have kind : (Block.ofTag tag content).kind.toList = tag.name := String.toList_ofList
      refine .cons ⟨before, opening, closing, rest, ?_, ⟨tag, spelled, opens, by rw [inner]⟩,
        by rw [kind]; exact closes, rfl, ?_⟩ later
      · rw [inner, behind, front, whole]
      · rw [inner]
        simp only [byteLength_append, Nat.add_assoc, and_self]

theorem bounds_of_mem_extentsFrom {n : Nat} {ps : List Part} {e : Extent} (mem : e ∈ extentsFrom n ps) :
    n ≤ e.start ∧ e.stop ≤ n + byteLength (ps.flatMap Part.text) := by
  induction ps generalizing n with
  | nil => cases mem
  | cons p ps ih =>
    rw [extentsFrom, List.mem_append] at mem
    rw [List.flatMap_cons, byteLength_append]
    rcases mem with here | later
    · cases p with
      | block opening content closing b =>
        obtain rfl := List.mem_singleton.mp here
        exact ⟨Nat.le_refl n, Nat.add_le_add_left (Nat.le_add_right _ _) n⟩
      | char | comment | tag => cases here
    · have bounds := ih later
      omega

theorem pairwise_extentsFrom (n : Nat) (ps : List Part) :
    (extentsFrom n ps).Pairwise fun e e' => e.stop ≤ e'.start := by
  induction ps generalizing n with
  | nil => exact .nil
  | cons p ps ih =>
    rw [extentsFrom]
    cases p with
    | block opening content closing b =>
      exact List.pairwise_cons.mpr ⟨fun e mem => (bounds_of_mem_extentsFrom mem).1, ih _⟩
    | char | comment | tag => exact ih _

namespace ComponentFile

/-- The reading of a file comes to an end, and its blocks are those of its steps: the parts of the steps make up
the text before the place where the reading stops, each block stands at an extent of its own with its content
between its opening and its closing tag, and these extents come one behind another. The reading stops at the end of
the text or at an opening tag whose block is not closed. The first template and the first script get places of their
own, and the styles and the other blocks keep the order of the text. -/
theorem parse_reads_blocks_apart (text : String) :
    (∃ parts rest, Steps text.toList parts rest ∧ Stops rest) ∧
    ∀ parts rest, Steps text.toList parts rest → Stops rest →
      parts.flatMap Part.text ++ rest = text.toList ∧
      parse text = arranged (parts.filterMap Part.block?) ∧
      (parse text).styles.Sublist (parts.filterMap Part.block?) ∧
      (parse text).others.Sublist (parts.filterMap Part.block?) ∧
      ∃ extents : List Extent,
        List.Forall₂ (fun e b => e.Holds text.toList b ∧ slice text.toList e.opened e.closing = b.content.toList ∧
          e.start < e.opened ∧ e.opened ≤ e.closing ∧ e.closing < e.stop) extents (parts.filterMap Part.block?) ∧
        extents.Pairwise (fun e e' => e.stop ≤ e'.start) ∧
        ∀ e ∈ extents, e.stop ≤ byteLength (parts.flatMap Part.text) := by
  refine ⟨exists_steps text.toList, fun parts rest steps stops => ?_⟩
  have parsed : parse text = arranged (parts.filterMap Part.block?) := by
    have blocks := steps.blocksIn_eq
    rw [stops.blocksIn_eq, List.append_nil] at blocks
    rw [parse, ofBlocks_eq_arranged, ← blocksIn, blocks]
  have holds : List.Forall₂ (fun e b => e.Holds text.toList b) (extentsFrom 0 parts) (parts.filterMap Part.block?) :=
    steps.holds (List.nil_append text.toList)
  refine ⟨steps.whole, parsed, ?_, ?_, extentsFrom 0 parts, holds.imp fun e b h => ⟨h, h.slice_eq, h.bounds⟩,
    pairwise_extentsFrom 0 parts, fun e mem => ?_⟩
  · rw [parsed]
    exact List.filter_sublist
  · rw [parsed]
    exact List.filter_sublist.trans (List.eraseP_sublist.trans List.eraseP_sublist)
  · have bounds := (bounds_of_mem_extentsFrom mem).2
    rwa [Nat.zero_add] at bounds

/-- A letter of two bytes, a tag that closes itself, a script and an opening tag without a closing one. -/
def oddFile : String := "é<i/><script>a</script>\n<p>"

def oddParts : List Part :=
  [.char 'é', .tag "<i/>".toList,
    .block "<script>".toList "a".toList "</script>".toList (Block.plain "script" "a"), .char '\n']

theorem steps_oddFile : Steps oddFile.toList oddParts "<p>".toList := by
  have spelled {name : List Char} (isTagName : IsTagName name) (isSelfClosing : Bool) (after : List Char) :
      (OpenTag.mk name [] isSelfClosing after).Spells ('<' :: (name ++ tagEnd isSelfClosing)) :=
    ⟨isTagName, .nil, [], by simp, rfl⟩
  have icon : OpenTag.read? "<i/><script>a</script>\n<p>".toList =
      some ⟨"i".toList, [], true, "<script>a</script>\n<p>".toList⟩ := rfl
  have script : OpenTag.read? "<script>a</script>\n<p>".toList =
      some ⟨"script".toList, [], false, "a</script>\n<p>".toList⟩ := rfl
  have whole : oddFile.toList = 'é' :: "<i/><script>a</script>\n<p>".toList := by decide
  have first : Step ('é' :: "<i/><script>a</script>\n<p>".toList) (.char 'é') "<i/><script>a</script>\n<p>".toList :=
    .char (by decide) (OpenTag.read?_eq_none_iff.mp rfl)
  have second : Step "<i/><script>a</script>\n<p>".toList (.tag "<i/>".toList) "<script>a</script>\n<p>".toList :=
    .tag icon (spelled (by decide) true _) rfl rfl
  have third : Step "<script>a</script>\n<p>".toList (.block "<script>".toList "a".toList "</script>".toList
      (Block.plain "script" "a")) "\n<p>".toList :=
    .block script (spelled (by decide) false _) rfl rfl rfl (by decide) rfl
  have last : Step "\n<p>".toList (.char '\n') "<p>".toList :=
    .char (by decide) (OpenTag.read?_eq_none_iff.mp rfl)
  rw [whole]
  exact .cons first (.cons second (.cons third (.cons last (.nil _))))

theorem stops_oddFile : Stops "<p>".toList := by
  have read : OpenTag.read? "<p>".toList = some ⟨"p".toList, [], false, []⟩ := rfl
  refine .inr ⟨_, read, rfl, fun content closing rest whole _ closes => closes.ne_nil ?_⟩
  have none : content = [] ∧ closing = [] ∧ rest = [] := by simpa using whole
  exact none.2.1

theorem oddFile_reads_blocks_apart :
    parse oddFile = { script := some (Block.plain "script" "a") } ∧
      ∃ e : Extent, e.Holds oddFile.toList (Block.plain "script" "a") ∧
        slice oddFile.toList e.opened e.closing = "a".toList ∧ e.stop ≤ 25 := by
  obtain ⟨-, parsed, -, -, extents, held, -, last⟩ :=
    (parse_reads_blocks_apart oddFile).2 oddParts _ steps_oddFile stops_oddFile
  have one : oddParts.filterMap Part.block? = [Block.plain "script" "a"] := rfl
  have shown : arranged [Block.plain "script" "a"] = { script := some (Block.plain "script" "a") } := rfl
  rw [one] at parsed held
  refine ⟨parsed.trans shown, ?_⟩
  cases held with
  | cons first more => exact ⟨_, first.1, first.2.1, last _ List.mem_cons_self⟩

end ComponentFile

end VueOptions.Blocks
