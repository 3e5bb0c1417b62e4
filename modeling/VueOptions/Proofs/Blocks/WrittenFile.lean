import Mathlib.Data.List.Induction
import Mathlib.Data.List.Infix
import VueOptions.Proofs.Blocks.PrintedFile

/-!
Component files as they are written: texts, comments, tags that close themselves and blocks, in any
order. Of items that can be told apart the blocks are read and nothing else (`parse_written`). An item at
the front of a text is read without looking at what follows it (`readBlocks_print`), so the items are read
one by one.
-/

set_option autoImplicit false

namespace VueOptions.Blocks

open Text

/-- The template tags of a text in order: whether each of them is a closing one. -/
def templateTags : List Char → List Bool
  | [] => []
  | c :: cs => (tagAt? (c :: cs)).toList ++ templateTags cs

def depthAfter (tags : List Bool) : Int := 1 + tags.count false - tags.count true

structure Nests (content : List Char) : Prop where
  stays : ∀ tags, tags <+: templateTags content → 0 < depthAfter tags
  ends : depthAfter (templateTags content) = 1

instance Nests.decidable (content : List Char) : Decidable (Nests content) :=
  decidable_of_iff ((∀ tags ∈ (templateTags content).inits, 0 < depthAfter tags) ∧
      depthAfter (templateTags content) = 1)
    ⟨fun h => ⟨fun tags before => h.1 tags ((List.mem_inits tags _).mpr before), h.2⟩,
      fun h => ⟨fun tags mem => h.stays tags ((List.mem_inits tags _).mp mem), h.ends⟩⟩

theorem startsTag_angle {c : Char} {name cs : List Char} (once : '<' ∉ name) (more : List Char) :
    startsTag ('<' :: name) (c :: (cs ++ '<' :: more)) = startsTag ('<' :: name) (c :: cs) := by
  by_cases lt : name.length < cs.length
  · have long : ('<' :: name).length < (c :: cs).length := by simpa using lt
    exact startsTag_append long ('<' :: more)
  · have short : startsTag ('<' :: name) (c :: cs) = false := by
      unfold startsTag
      split
      · next d rest found =>
        have whole := congrArg List.length (append_of_dropLead? found)
        simp only [List.cons_append, List.length_cons, List.length_append] at whole
        omega
      · rfl
    rw [short]
    unfold startsTag
    split
    · next d rest found =>
      have whole := append_of_dropLead? found
      rw [← List.cons_append, List.append_eq_append_iff] at whole
      rcases whole with ⟨between, reaches, follows⟩ | ⟨between, reaches, follows⟩
      · cases between with
        | nil =>
          obtain ⟨rfl, -⟩ := List.cons.inj follows
          rfl
        | cons y between =>
          have length := congrArg List.length reaches
          simp only [List.length_cons, List.length_append] at length
          omega
      · cases between with
        | nil =>
          obtain ⟨rfl, -⟩ := List.cons.inj follows
          rfl
        | cons y between =>
          obtain ⟨rfl, -⟩ := List.cons.inj follows
          obtain ⟨-, tail⟩ := List.cons.inj reaches
          exact absurd (by rw [tail]; simp) once
    · rfl

theorem tagAt?_angle (c : Char) (cs more : List Char) :
    tagAt? (c :: (cs ++ '<' :: more)) = tagAt? (c :: cs) := by
  have closing : startsTag "</template".toList (c :: (cs ++ '<' :: more)) =
      startsTag "</template".toList (c :: cs) := startsTag_angle (by decide) more
  have opening : startsTag "<template".toList (c :: (cs ++ '<' :: more)) =
      startsTag "<template".toList (c :: cs) := startsTag_angle (by decide) more
  rw [tagAt?, tagAt?, closing, opening]

theorem templateClose?_of_depth {depth : Nat} {content tail : List Char}
    (stays : ∀ tags, tags <+: templateTags content →
      0 < (depth : Int) + tags.count false - tags.count true)
    (ends : (depth : Int) + (templateTags content).count false - (templateTags content).count true = 1)
    (closes : tagAt? tail = some true) : templateClose? depth (content ++ tail) = some (content, tail) := by
  obtain ⟨more, shape⟩ : ∃ more, tail = '<' :: more := by
    obtain ⟨more, rfl⟩ := exists_of_tagAt? closes
    exact ⟨_, rfl⟩
  induction content generalizing depth with
  | nil =>
    obtain rfl : depth = 1 := by
      simp [templateTags] at ends
      omega
    rw [shape] at closes ⊢
    rw [List.nil_append, templateClose?_cons, if_pos ⟨closes, rfl⟩]
  | cons c content ih =>
    have here := tagAt?_angle c content more
    rw [← shape] at here
    rw [List.cons_append, templateClose?_cons, here]
    cases tag : tagAt? (c :: content) with
    | none =>
      rw [templateTags, tag] at stays ends
      rw [if_neg (by simp), depthBehind, ih stays ends]
      rfl
    | some isClosing =>
      rw [templateTags, tag] at stays ends
      have first := stays [isClosing] (List.prefix_append _ _)
      cases isClosing with
      | true =>
        have deep : 1 < depth := by
          simp at first
          omega
        rw [if_neg (by omega), depthBehind, ih]
        · rfl
        · intro tags before
          have next := stays (true :: tags) ((List.prefix_cons_inj true).mpr before)
          simp at next
          omega
        · simp at ends
          omega
      | false =>
        rw [if_neg (by simp), depthBehind, ih]
        · rfl
        · intro tags before
          have next := stays (false :: tags) ((List.prefix_cons_inj false).mpr before)
          simp at next
          omega
        · simp at ends
          omega

/-- The contents that a block of a kind may have: one where all templates are closed for a template,
and for any other block one without its closing tag. -/
def FitsIn (kind content : List Char) : Prop :=
  if kind = "template".toList then Nests content else ¬"</".toList ++ kind ++ ">".toList <:+: content

instance FitsIn.decidable (kind content : List Char) : Decidable (FitsIn kind content) :=
  inferInstanceAs (Decidable (if kind = "template".toList then Nests content else
    ¬"</".toList ++ kind ++ ">".toList <:+: content))

theorem closes_of_fitsIn {kind content : List Char} (isTagName : IsTagName kind)
    (fits : FitsIn kind content) : Closes kind content := by
  intro rest
  unfold FitsIn at fits
  rw [blockClose?]
  split at fits
  · next isTemplate =>
    have shape : "</".toList ++ kind ++ '>' :: rest = "</template>".toList ++ rest := by
      rw [isTemplate]
      rfl
    have closed : templateClose? 1 (content ++ ("</template>".toList ++ rest)) =
        some (content, "</template>".toList ++ rest) :=
      templateClose?_of_depth fits.stays fits.ends rfl
    rw [if_pos isTemplate, shape, closed]
    simp
  · next other =>
    have once : '<' ∉ '/' :: kind ++ ['>'] := by
      obtain ⟨c, cs, rfl, alpha, tagChars⟩ := isTagName
      intro mem
      simp only [List.cons_append, List.mem_cons, List.mem_append, List.not_mem_nil, or_false] at mem
      rcases mem with h | h | h | h
      · cases h
      · rw [← h] at alpha
        cases alpha
      · have tagChar := tagChars _ h
        exact absurd tagChar (by decide)
      · cases h
    have shape : "</".toList ++ kind ++ '>' :: rest = '<' :: ('/' :: kind ++ ['>']) ++ rest := by simp
    have piece : "</".toList ++ kind ++ ">".toList = '<' :: ('/' :: kind ++ ['>']) := by simp
    rw [if_neg other, shape, piece]
    rw [piece] at fits
    exact splitAt?_of_not_infix once fits rest

/-- A block that can be written down: its name and its keys can stand in a tag, no value holds both kinds of
quotes, its language is that of its attributes, and its content fits in. -/
structure Block.WellFormed (b : Block) : Prop where
  name : IsTagName b.kind.toList
  wellKeyed : Attribute.WellKeyed b.attributes
  quotable : ∀ a ∈ b.attributes, ¬HoldsBothQuotes a.value
  language : b.lang = Attribute.find? b.attributes "lang"
  content : FitsIn b.kind.toList b.content.toList

instance IsTagName.decidable (name : List Char) : Decidable (IsTagName name) :=
  match name with
  | [] => isFalse nofun
  | c :: cs => decidable_of_iff (c.isAlpha = true ∧ cs.all isTagChar = true)
      ⟨fun h => ⟨c, cs, rfl, h.1, List.all_eq_true.mp h.2⟩, fun ⟨_, _, eq, h⟩ => by
        obtain ⟨rfl, rfl⟩ := List.cons.inj eq
        exact ⟨h.1, List.all_eq_true.mpr h.2⟩⟩

instance Attribute.IsKey.decidable (key : String) : Decidable (Attribute.IsKey key) :=
  decidable_of_iff (key.toList ≠ [] ∧ key.toList.all isKeyChar = true)
    (and_congr_right fun _ => List.all_eq_true)

instance Block.WellFormed.decidable (b : Block) : Decidable b.WellFormed :=
  decidable_of_iff (IsTagName b.kind.toList ∧ (∀ a ∈ b.attributes, Attribute.IsKey a.key) ∧
      (b.attributes.map Attribute.key).Nodup ∧ (∀ a ∈ b.attributes, ¬HoldsBothQuotes a.value) ∧
      b.lang = Attribute.find? b.attributes "lang" ∧ FitsIn b.kind.toList b.content.toList)
    ⟨fun ⟨name, keys, distinct, quotable, language, content⟩ =>
        ⟨name, ⟨keys, distinct⟩, quotable, language, content⟩,
      fun h => ⟨h.name, h.wellKeyed.keys, h.wellKeyed.distinct, h.quotable, h.language, h.content⟩⟩

inductive Item
  | text (text : String)
  | comment (text : String)
  /-- A tag that closes itself. -/
  | tag (name : String) (attributes : List Attribute)
  | block (b : Block)

namespace Item

def print : Item → String
  | .text cs => cs
  | .comment cs => cs
  | .tag name attributes => "<" ++ name ++ String.join (attributes.map Attribute.print) ++ " />"
  | .block b => b.print

def block? : Item → Option Block
  | .block b => some b
  | _ => none

/-- Items that can be told apart: a text holds no angle, a comment holds no end of a comment before its own
one, and the names and keys of a tag can stand there. -/
def WellFormed : Item → Prop
  | .text cs => '<' ∉ cs.toList
  | .comment cs => "<!--".toList <+: cs.toList ∧ "-->".toList <:+ cs.toList ∧
      ¬"-->".toList <:+: cs.toList.dropLast
  | .tag name attributes => IsTagName name.toList ∧ ∀ a ∈ attributes, Attribute.IsKey a.key
  | .block b => b.WellFormed

instance WellFormed.decidable (i : Item) : Decidable i.WellFormed :=
  match i with
  | .text _ => inferInstanceAs (Decidable (¬_))
  | .comment _ => inferInstanceAs (Decidable (_ ∧ _ ∧ ¬_))
  | .tag _ _ => inferInstanceAs (Decidable (_ ∧ _))
  | .block b => Block.WellFormed.decidable b

end Item

theorem readBlocks_text {cs : List Char} (noAngle : '<' ∉ cs) (fuel : Nat) (rest : List Char) :
    readBlocks fuel (cs ++ rest) = readBlocks fuel rest := by
  have skipped : (cs ++ rest).dropWhile (· != '<') = rest.dropWhile (· != '<') := by
    refine List.dropWhile_append_of_pos fun c mem => ?_
    simp only [bne_iff_ne]
    rintro rfl
    exact noAngle mem
  cases fuel with
  | zero => rfl
  | succ fuel => rw [readBlocks, readBlocks, skipped]

theorem readBlocks_comment {cs : List Char} (opens : "<!--".toList <+: cs) (closes : "-->".toList <:+ cs)
    (once : ¬"-->".toList <:+: cs.dropLast) (fuel : Nat) (rest : List Char) :
    readBlocks (fuel + 1) (cs ++ rest) = readBlocks fuel rest := by
  obtain ⟨before, after, found⟩ := exists_splitAt?_of_infix closes.isInfix
  have whole := append_of_splitAt? found
  obtain rfl : after = [] := by
    by_contra more
    exact once ⟨before, after.dropLast, by rw [← whole, List.dropLast_append_of_ne_nil more]⟩
  have passed : splitAt? "-->".toList (cs ++ rest) = some (before, rest) := by
    rw [← whole, List.append_nil, List.append_assoc]
    exact splitAt?_append found rest
  have prefixed : "<!--".toList.isPrefixOf (cs ++ rest) = true :=
    List.isPrefixOf_iff_prefix.mpr (opens.trans (List.prefix_append cs rest))
  have ended : afterComment? (cs ++ rest) = some rest := by
    rw [afterComment?, if_pos prefixed, passed]
  obtain ⟨more, shape⟩ := opens.trans (List.prefix_append cs rest)
  have starts : (cs ++ rest).dropWhile (· != '<') = '<' :: ("!--".toList ++ more) := by
    rw [← shape]
    rfl
  rw [← shape] at ended
  rw [readBlocks, starts]
  dsimp only
  rw [← List.cons_append]
  exact ended ▸ rfl

theorem readBlocks_tag {name : List Char} (isTagName : IsTagName name) {as : List Attribute}
    (keys : ∀ a ∈ as, Attribute.IsKey a.key) (fuel : Nat) (rest : List Char) :
    readBlocks (fuel + 1) ('<' :: name ++ (Attribute.printed as ++ " />".toList ++ rest)) =
      readBlocks fuel rest := by
  have read := OpenTag.read?_completed isTagName keys (Attribute.Completes.slash rest)
  have shape : Attribute.printed as ++ " />".toList ++ rest =
      Attribute.printed as ++ ' ' :: '/' :: '>' :: rest := by
    rw [List.append_assoc]
    rfl
  rw [shape, readBlocks_of_selfClosing read rfl]

theorem Block.WellFormed.readable {b : Block} (wellFormed : b.WellFormed) : b.Readable :=
  ⟨wellFormed.name, wellFormed.wellKeyed, wellFormed.language,
    closes_of_fitsIn wellFormed.name wellFormed.content⟩

theorem Block.WellFormed.escaped_eq_self {b : Block} (wellFormed : b.WellFormed) : b.escaped = b :=
  wellFormed.readable.escaped_eq_self_iff.mpr wellFormed.quotable

theorem Item.toList_print_tag (name : String) (as : List Attribute) :
    (Item.tag name as).print.toList = '<' :: name.toList ++ (Attribute.printed as ++ " />".toList) := by
  have joined := Attribute.toList_join_print as
  simp [Item.print, joined]

theorem Item.WellFormed.readBlocks_print {i : Item} (wellFormed : i.WellFormed) {fuel : Nat}
    {rest : List Char} (enough : (i.print.toList ++ rest).length ≤ fuel) :
    ∃ less, rest.length ≤ less ∧
      readBlocks fuel (i.print.toList ++ rest) = i.block?.toList ++ readBlocks less rest := by
  rw [List.length_append] at enough
  have succ (filled : i.print.toList ≠ []) : ∃ less, rest.length ≤ less ∧ fuel = less + 1 := by
    have := List.length_pos_of_ne_nil filled
    exact ⟨fuel - 1, by omega, by omega⟩
  cases i with
  | text cs => exact ⟨fuel, by omega, readBlocks_text wellFormed fuel rest⟩
  | comment cs =>
    obtain ⟨opens, closes, once⟩ := wellFormed
    obtain ⟨less, fits, rfl⟩ := succ fun empty => by
      have := opens.length_le
      simp_all [Item.print]
    exact ⟨less, fits, readBlocks_comment opens closes once less rest⟩
  | tag name attributes =>
    obtain ⟨isTagName, keys⟩ := wellFormed
    obtain ⟨less, fits, rfl⟩ := succ fun empty => by
      simp [Item.toList_print_tag] at empty
    refine ⟨less, fits, ?_⟩
    rw [Item.toList_print_tag, List.append_assoc]
    exact readBlocks_tag isTagName keys less rest
  | block b =>
    have wellFormed : b.WellFormed := wellFormed
    obtain ⟨less, fits, rfl⟩ := succ fun empty => by
      simp [Item.print, Block.toList_print] at empty
    refine ⟨less, fits, ?_⟩
    have read := Blocks.readBlocks_print wellFormed.readable less rest
    rw [wellFormed.escaped_eq_self] at read
    exact read

theorem readBlocks_items {items : List Item} (wellFormed : ∀ i ∈ items, i.WellFormed) {fuel : Nat}
    (enough : (items.flatMap fun i => i.print.toList).length ≤ fuel) :
    readBlocks fuel (items.flatMap fun i => i.print.toList) = items.filterMap Item.block? := by
  induction items generalizing fuel with
  | nil => cases fuel <;> rfl
  | cons i items ih =>
    rw [List.flatMap_cons] at enough
    obtain ⟨less, fits, read⟩ := (wellFormed i List.mem_cons_self).readBlocks_print enough
    have later := ih (fun j mem => wellFormed j (List.mem_cons_of_mem i mem)) fits
    rw [List.flatMap_cons, read, later, List.filterMap_cons]
    cases i.block? <;> rfl

namespace ComponentFile

/-- The file that blocks make up: the first template and the first script have places of their own, all
styles stand together, and so does what is left. -/
def arranged (bs : List Block) : ComponentFile :=
  { template := bs.find? (·.kind == "template")
    script := bs.find? (·.kind == "script")
    styles := bs.filter (·.kind == "style")
    others := ((bs.eraseP (·.kind == "template")).eraseP (·.kind == "script")).filter
      (·.kind != "style") }

theorem eraseP_concat {p : Block → Bool} {bs : List Block} {b : Block}
    (stays : p b = true → bs.find? p ≠ none) : (bs ++ [b]).eraseP p = bs.eraseP p ++ [b] := by
  by_cases found : ∃ a ∈ bs, p a = true
  · obtain ⟨a, mem, holds⟩ := found
    exact List.eraseP_append_left holds [b] mem
  · have absent : ∀ a ∈ bs, ¬p a = true := by simpa using found
    have keeps : ¬p b = true := fun holds => stays holds (List.find?_eq_none.mpr absent)
    rw [List.eraseP_append_right [b] absent, List.eraseP_of_forall_not absent]
    simp [keeps]

theorem find?_concat {p : Block → Bool} {bs : List Block} {b : Block}
    (stays : p b = true → bs.find? p ≠ none) : (bs ++ [b]).find? p = bs.find? p := by
  rw [List.find?_append]
  cases first : bs.find? p with
  | some a => rfl
  | none =>
    have keeps : ¬p b = true := fun holds => stays holds first
    simp [keeps]

theorem eraseP_concat_first {p : Block → Bool} {bs : List Block} {b : Block} (holds : p b = true)
    (free : bs.find? p = none) : (bs ++ [b]).eraseP p = bs.eraseP p := by
  have absent := List.find?_eq_none.mp free
  rw [List.eraseP_append_right [b] absent, List.eraseP_of_forall_not absent]
  simp [holds]

theorem arranged_concat (bs : List Block) (b : Block) :
    arranged (bs ++ [b]) = (arranged bs).add b := by
  rcases place_cases (arranged bs) b with ⟨kind, free⟩ | ⟨kind, free⟩ | kind | other
  · have dropped : (bs ++ [b]).eraseP (·.kind == "template") = bs.eraseP (·.kind == "template") :=
      eraseP_concat_first (by simp [kind]) free
    have first : bs.find? (·.kind == "template") = none := free
    rw [add_template kind free, arranged, dropped]
    simp [arranged, kind, first]
  · have first : bs.find? (·.kind == "script") = none := free
    have kept : (bs ++ [b]).eraseP (·.kind == "template") = bs.eraseP (·.kind == "template") ++ [b] :=
      eraseP_concat (by simp [kind])
    have free' : (bs.eraseP (·.kind == "template")).find? (·.kind == "script") = none :=
      List.find?_eq_none.mpr fun c mem => List.find?_eq_none.mp first c (List.mem_of_mem_eraseP mem)
    have dropped := eraseP_concat_first (b := b) (by simp [kind]) free'
    rw [add_script kind free, arranged, kept, dropped]
    simp [arranged, kind, first]
  · rw [add_style kind, arranged, eraseP_concat (by simp [kind]), eraseP_concat (by simp [kind])]
    simp [arranged, kind]
  · have template : (b.kind == "template") = true → bs.find? (·.kind == "template") ≠ none :=
      fun kind => other.template (by simpa using kind)
    have script : (b.kind == "script") = true → bs.find? (·.kind == "script") ≠ none :=
      fun kind => other.script (by simpa using kind)
    have later : (b.kind == "script") = true →
        (bs.eraseP (·.kind == "template")).find? (·.kind == "script") ≠ none := by
      intro kind free
      obtain ⟨a, mem, isScript⟩ := by simpa using script kind
      have stays : a ∈ bs.eraseP (·.kind == "template") :=
        (List.mem_eraseP_of_neg (by simp [isScript])).mpr mem
      exact List.find?_eq_none.mp free a stays (by simp [isScript])
    rw [add_other other, arranged, find?_concat template, find?_concat script, eraseP_concat template,
      eraseP_concat later]
    simp [arranged, other.style]

theorem ofBlocks_eq_arranged (bs : List Block) : ofBlocks bs = arranged bs := by
  induction bs using List.reverseRecOn with
  | nil => rfl
  | append_singleton bs b ih =>
    rw [arranged_concat, ← ih, ofBlocks, ofBlocks, List.foldl_append]
    rfl

/-- Of a file made of items its blocks are read, and arranged by their kinds. -/
theorem parse_written {items : List Item} (wellFormed : ∀ i ∈ items, i.WellFormed) :
    parse (String.join (items.map Item.print)) = arranged (items.filterMap Item.block?) := by
  have shape : (String.join (items.map Item.print)).toList = items.flatMap fun i => i.print.toList := by
    rw [String.toList_join, List.flatMap_map]
  have enough : (items.flatMap fun i => i.print.toList).length ≤
      (items.flatMap fun i => i.print.toList).length + 1 := Nat.le_succ _
  rw [parse, shape, readBlocks_items wellFormed enough, ofBlocks_eq_arranged]

theorem parse_written_mixed :
    parse ("\n<!-- <script></script> -->\n<style>a > b</style>\n<i18n src=\"a/>b\" />" ++
        "<template lang=\"x>y\"><template #a><b/></template></style></template>\n" ++
        "<docs a='\"' b></script></docs>\n - <script lang=\"ts\" setup></a></script>\n" ++
        "<template></template>\n<script></script>\n<style scoped></style>\n") =
      { template := some ⟨"template", "<template #a><b/></template></style>", [⟨"lang", "x>y"⟩],
          some "x>y"⟩
        script := some ⟨"script", "</a>", [⟨"lang", "ts"⟩, ⟨"setup", ""⟩], some "ts"⟩
        styles := [⟨"style", "a > b", [], none⟩, ⟨"style", "", [⟨"scoped", ""⟩], none⟩]
        others := [⟨"docs", "</script>", [⟨"a", "\""⟩, ⟨"b", ""⟩], none⟩, ⟨"template", "", [], none⟩,
          ⟨"script", "", [], none⟩] } := by
  have wellFormed : ∀ i ∈ ([.text "\n", .comment "<!-- <script></script> -->", .text "\n",
      .block ⟨"style", "a > b", [], none⟩, .tag "i18n" [⟨"src", "a/>b"⟩],
      .block ⟨"template", "<template #a><b/></template></style>", [⟨"lang", "x>y"⟩], some "x>y"⟩,
      .block ⟨"docs", "</script>", [⟨"a", "\""⟩, ⟨"b", ""⟩], none⟩, .text " - ",
      .block ⟨"script", "</a>", [⟨"lang", "ts"⟩, ⟨"setup", ""⟩], some "ts"⟩,
      .block ⟨"template", "", [], none⟩, .block ⟨"script", "", [], none⟩,
      .block ⟨"style", "", [⟨"scoped", ""⟩], none⟩] : List Item), i.WellFormed := by
    decide +kernel
  refine (congrArg parse ?_).trans ((parse_written wellFormed).trans ?_)
  · decide +kernel
  · decide +kernel

end ComponentFile

end VueOptions.Blocks
