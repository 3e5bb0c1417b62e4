import VueOptions.Blocks.ComponentFile
import VueOptions.Proofs.Blocks.PrintedTag

/-!
Component files as they are printed. The content of a block ends at the first text that closes it, and
this text is printed behind it again; so each printed block is read as it was, and the blocks come back
in the order in which they are printed. Main statement: what is read of any file is read back from its
print, with the quotes escaped where an attribute holds both kinds.
-/

set_option autoImplicit false

namespace VueOptions.Blocks

open Text

/-- Whether a text starts with a tag of a name, given with the signs before it. -/
def startsTag (name cs : List Char) : Bool :=
  match dropLead? name cs with
  | some (c :: _) => isBlank c || c = '>' || c = '/'
  | _ => false

theorem startsTag_append {name cs : List Char} (lt : name.length < cs.length) (rest : List Char) :
    startsTag name (cs ++ rest) = startsTag name cs := by
  rw [startsTag, startsTag, dropLead?_append (Nat.le_of_lt lt)]
  cases h : dropLead? name cs with
  | none => rfl
  | some after =>
    cases after with
    | nil =>
      have whole := congrArg List.length (append_of_dropLead? h)
      rw [List.append_nil] at whole
      omega
    | cons c after => rfl

/-- The kind of template tag that a text starts with: whether it is a closing one. -/
def tagAt? (cs : List Char) : Option Bool :=
  if startsTag "</template".toList cs then some true
  else if startsTag "<template".toList cs then some false
  else none

theorem templateTag?_map_fst (cs : List Char) : (templateTag? cs).map Prod.fst = tagAt? cs := by
  unfold templateTag? tagAt? startsTag
  rcases dropLead? "</template".toList cs with _ | _ | ⟨c, after⟩ <;>
    rcases dropLead? "<template".toList cs with _ | _ | ⟨c', after'⟩ <;> grind

theorem exists_of_tagAt? {cs : List Char} (h : tagAt? cs = some true) :
    ∃ more, cs = "</template".toList ++ more := by
  rw [tagAt?] at h
  split at h
  · next starts =>
    rw [startsTag] at starts
    split at starts
    · next c rest found => exact ⟨c :: rest, (append_of_dropLead? found).symm⟩
    · cases starts
  · split at h <;> cases h

def depthBehind (tag : Option Bool) (depth : Nat) : Nat :=
  match tag with
  | some true => depth - 1
  | some false => depth + 1
  | none => depth

theorem templateClose?_cons (depth : Nat) (c : Char) (cs : List Char) :
    templateClose? depth (c :: cs) =
      if tagAt? (c :: cs) = some true ∧ depth = 1 then some ([], c :: cs)
      else (templateClose? (depthBehind (tagAt? (c :: cs)) depth) cs).map fun r => (c :: r.1, r.2) := by
  rw [templateClose?, ← templateTag?_map_fst]
  rcases templateTag? (c :: cs) with _ | ⟨_ | _, rest⟩
  · simp [depthBehind]
  · simp [depthBehind]
  · simp only [Option.map_some, true_and, depthBehind]

theorem templateClose?_append {depth : Nat} {cs content tail : List Char}
    (h : templateClose? depth cs = some (content, tail)) :
    (∃ more, cs = content ++ ("</template".toList ++ more)) ∧
      ∀ rest, templateClose? depth (content ++ ("</template>".toList ++ rest)) =
        some (content, "</template>".toList ++ rest) := by
  induction cs generalizing depth content with
  | nil => cases h
  | cons c cs ih =>
    rw [templateClose?_cons] at h
    split at h
    · next here =>
      obtain ⟨rfl, -⟩ := Prod.mk.inj (Option.some.inj h)
      obtain ⟨closing, rfl⟩ := here
      refine ⟨exists_of_tagAt? closing, fun rest => ?_⟩
      have shape : "</template>".toList ++ rest = '<' :: ("/template>".toList ++ rest) := rfl
      rw [List.nil_append, shape, templateClose?_cons, if_pos ⟨rfl, rfl⟩]
    · next elsewhere =>
      obtain ⟨⟨inner, tail'⟩, found, eq⟩ := Option.map_eq_some_iff.mp h
      obtain ⟨rfl, rfl⟩ := Prod.mk.inj eq
      obtain ⟨⟨more, rfl⟩, again⟩ := ih found
      have same (rest : List Char) : tagAt? (c :: (inner ++ ("</template".toList ++ rest))) =
          tagAt? (c :: (inner ++ "</template".toList)) := by
        have shape : c :: (inner ++ ("</template".toList ++ rest)) =
            (c :: (inner ++ "</template".toList)) ++ rest := by simp
        have le : 11 ≤ (c :: (inner ++ "</template".toList)).length := by simp
        rw [shape, tagAt?, tagAt?, startsTag_append (Nat.lt_of_lt_of_le (by decide) le),
          startsTag_append (Nat.lt_of_lt_of_le (by decide) le)]
      refine ⟨⟨more, rfl⟩, fun rest => ?_⟩
      have shape : "</template>".toList ++ rest = "</template".toList ++ '>' :: rest := rfl
      rw [same] at elsewhere again
      have read := again rest
      rw [shape] at read ⊢
      rw [List.cons_append, templateClose?_cons, same, if_neg elsewhere, read, Option.map_some]

/-- A content behind which the closing tag of its block is the first text that closes it. -/
def Closes (kind content : List Char) : Prop :=
  ∀ rest, blockClose? kind (content ++ ("</".toList ++ kind ++ '>' :: rest)) = some (content, rest)

theorem closes_of_blockClose? {kind cs content after : List Char}
    (h : blockClose? kind cs = some (content, after)) : Closes kind content := by
  intro rest
  rw [blockClose?] at h ⊢
  split at h
  · next isTemplate =>
    obtain ⟨⟨inner, tail⟩, found, eq⟩ := Option.map_eq_some_iff.mp h
    obtain ⟨rfl, -⟩ := Prod.mk.inj eq
    have closed := (templateClose?_append found).2 rest
    have shape : "</".toList ++ kind ++ '>' :: rest = "</template>".toList ++ rest := by
      rw [isTemplate]
      rfl
    rw [if_pos isTemplate, shape, closed]
    simp
  · next other =>
    have found := splitAt?_append h rest
    have shape : "</".toList ++ kind ++ '>' :: rest = "</".toList ++ kind ++ ">".toList ++ rest := by
      simp
    rw [if_neg other, shape, found]

namespace Block

/-- A block that can be read: its name and its keys can stand in a tag, its language is that of its
attributes, and its content is closed by its closing tag. -/
structure Readable (b : Block) : Prop where
  name : IsTagName b.kind.toList
  wellKeyed : Attribute.WellKeyed b.attributes
  language : b.lang = Attribute.find? b.attributes "lang"
  closes : Closes b.kind.toList b.content.toList

def escaped (b : Block) : Block :=
  { b with attributes := b.attributes.map Attribute.escaped, lang := b.lang.map escapedValue }

theorem print_escaped (b : Block) : b.escaped.print = b.print := by
  simp only [print, escaped, List.map_map, Function.comp_def, Attribute.print_escaped]

theorem find?_map_escaped (as : List Attribute) (key : String) :
    Attribute.find? (as.map Attribute.escaped) key = (Attribute.find? as key).map escapedValue := by
  rw [Attribute.find?, Attribute.find?, List.find?_map, Option.map_map, Option.map_map]
  rfl

theorem Readable.escaped_eq_self_iff {b : Block} (readable : b.Readable) :
    b.escaped = b ↔ ∀ a ∈ b.attributes, ¬HoldsBothQuotes a.value := by
  have attributes_iff : b.attributes.map Attribute.escaped = b.attributes ↔
      ∀ a ∈ b.attributes, ¬HoldsBothQuotes a.value := by
    conv_lhs => rhs; rw [← List.map_id b.attributes]
    rw [List.map_inj_left]
    refine forall₂_congr fun a _ => ?_
    rw [← escapedValue_eq_self_iff, id_eq]
    exact ⟨congrArg Attribute.value, fun same => congrArg (Attribute.mk a.key) same⟩
  rw [← attributes_iff]
  constructor
  · exact congrArg attributes
  · intro same
    have language : b.lang.map escapedValue = b.lang := by
      rw [readable.language, ← find?_map_escaped, same]
    rw [escaped, same, language]

theorem toList_print (b : Block) :
    b.print.toList = '<' :: b.kind.toList ++ (Attribute.printed b.attributes ++
      '>' :: (b.content.toList ++ ("</".toList ++ b.kind.toList ++ '>' :: ['\n']))) := by
  have joined := Attribute.toList_join_print b.attributes
  simp [print, joined]

theorem readable_of_mem_readBlocks {fuel : Nat} {cs : List Char} {b : Block}
    (mem : b ∈ readBlocks fuel cs) : b.Readable := by
  induction fuel generalizing cs with
  | zero => cases mem
  | succ fuel ih =>
    rw [readBlocks] at mem
    split at mem
    · cases mem
    · split at mem
      · exact ih mem
      · split at mem
        · exact ih mem
        · next tag read =>
          split at mem
          · exact ih mem
          · split at mem
            · cases mem
            · next content after closed =>
              rcases List.mem_cons.mp mem with rfl | mem
              · constructor
                · simpa [ofTag] using OpenTag.isTagName_of_read? read
                · exact Attribute.wellKeyed_ofText _
                · rfl
                · simpa [ofTag] using closes_of_blockClose? closed
              · exact ih mem

end Block

theorem readBlocks_feed (fuel : Nat) (cs : List Char) :
    readBlocks fuel ('\n' :: cs) = readBlocks fuel cs := by
  cases fuel with
  | zero => rfl
  | succ fuel =>
    have skipped : ('\n' :: cs).dropWhile (· != '<') = cs.dropWhile (· != '<') := rfl
    rw [readBlocks, readBlocks, skipped]

theorem afterComment?_of_read? {cs : List Char} {tag : OpenTag} (read : OpenTag.read? cs = some tag) :
    ∃ rest, cs = '<' :: rest ∧ afterComment? cs = none := by
  unfold OpenTag.read? at read
  split at read
  · next c rest =>
    split at read
    · next alpha =>
      have ne : '!' ≠ c := by
        rintro rfl
        exact absurd alpha (by decide)
      exact ⟨c :: rest, rfl, by simp [afterComment?, ne]⟩
    · cases read
  · cases read

theorem readBlocks_of_read? {fuel : Nat} {cs content after : List Char} {tag : OpenTag}
    (read : OpenTag.read? cs = some tag) (opens : tag.isSelfClosing = false)
    (closed : blockClose? tag.name tag.after = some (content, after)) :
    readBlocks (fuel + 1) cs = Block.ofTag tag content :: readBlocks fuel after := by
  obtain ⟨rest, rfl, uncommented⟩ := afterComment?_of_read? read
  have whole : ('<' :: rest).dropWhile (· != '<') = '<' :: rest := rfl
  rw [readBlocks, whole]
  dsimp only
  rw [uncommented, read]
  dsimp only
  rw [opens, closed]
  rfl

theorem readBlocks_of_selfClosing {fuel : Nat} {cs : List Char} {tag : OpenTag}
    (read : OpenTag.read? cs = some tag) (closes : tag.isSelfClosing = true) :
    readBlocks (fuel + 1) cs = readBlocks fuel tag.after := by
  obtain ⟨rest, rfl, uncommented⟩ := afterComment?_of_read? read
  have whole : ('<' :: rest).dropWhile (· != '<') = '<' :: rest := rfl
  rw [readBlocks, whole]
  dsimp only
  rw [uncommented, read]
  dsimp only
  rw [if_pos closes]

theorem readBlocks_closed {b : Block} (readable : b.Readable) (fuel : Nat) (rest : List Char) :
    readBlocks (fuel + 1) ('<' :: b.kind.toList ++ (Attribute.printed b.attributes ++
      '>' :: (b.content.toList ++ ("</".toList ++ b.kind.toList ++ '>' :: rest)))) =
        b.escaped :: readBlocks fuel rest := by
  have read := OpenTag.read?_printed readable.name readable.wellKeyed.keys
    (b.content.toList ++ ("</".toList ++ b.kind.toList ++ '>' :: rest))
  have block : Block.ofTag ⟨b.kind.toList, Attribute.printed b.attributes, false,
      b.content.toList ++ ("</".toList ++ b.kind.toList ++ '>' :: rest)⟩ b.content.toList =
        b.escaped := by
    simp only [Block.ofTag, Attribute.ofText_printed readable.wellKeyed, Block.find?_map_escaped,
      ← readable.language, String.ofList_toList, Block.escaped]
  rw [readBlocks_of_read? read rfl (readable.closes rest), block]

theorem readBlocks_print {b : Block} (readable : b.Readable) (fuel : Nat) (rest : List Char) :
    readBlocks (fuel + 1) (b.print.toList ++ rest) = b.escaped :: readBlocks fuel rest := by
  have shape : b.print.toList ++ rest = '<' :: b.kind.toList ++ (Attribute.printed b.attributes ++
      '>' :: (b.content.toList ++ ("</".toList ++ b.kind.toList ++ '>' :: '\n' :: rest))) := by
    simp [Block.toList_print]
  rw [shape, readBlocks_closed readable, readBlocks_feed]

theorem readBlocks_prints {bs : List Block} (readable : ∀ b ∈ bs, b.Readable) {fuel : Nat}
    (enough : bs.length ≤ fuel) :
    readBlocks fuel (bs.flatMap fun b => '\n' :: b.print.toList) = bs.map Block.escaped := by
  induction bs generalizing fuel with
  | nil => cases fuel <;> rfl
  | cons b bs ih =>
    obtain ⟨fuel, rfl⟩ : ∃ n, fuel = n + 1 :=
      Nat.exists_eq_add_one.mpr (Nat.lt_of_lt_of_le (by simp) enough)
    have later := ih (fun c mem => readable c (List.mem_cons_of_mem b mem)) (Nat.le_of_succ_le_succ enough)
    rw [List.flatMap_cons, List.cons_append, readBlocks_feed,
      readBlocks_print (readable b List.mem_cons_self), later, List.map_cons]

namespace ComponentFile

def escaped (f : ComponentFile) : ComponentFile :=
  { template := f.template.map Block.escaped
    script := f.script.map Block.escaped
    styles := f.styles.map Block.escaped
    others := f.others.map Block.escaped }

theorem blocks_escaped (f : ComponentFile) : f.escaped.blocks = f.blocks.map Block.escaped := by
  simp [blocks, escaped, Option.toList_map]

theorem escaped_eq_self_iff {f : ComponentFile} : f.escaped = f ↔ ∀ b ∈ f.blocks, b.escaped = b := by
  have list_iff (bs : List Block) : bs.map Block.escaped = bs ↔ ∀ b ∈ bs, b.escaped = b := by
    conv_lhs => rhs; rw [← List.map_id bs]
    exact List.map_inj_left
  have option_iff (b? : Option Block) : b?.map Block.escaped = b? ↔ ∀ b ∈ b?.toList, b.escaped = b := by
    cases b? <;> simp
  cases f
  simp only [escaped, blocks, mk.injEq, option_iff, list_iff, List.mem_append, or_imp, forall_and,
    and_assoc]

theorem print_escaped (f : ComponentFile) : f.escaped.print = f.print := by
  rw [print, print, blocks_escaped, List.map_map]
  exact congrArg (fun print => "\n".intercalate (f.blocks.map print)) (funext Block.print_escaped)

theorem add_template {f : ComponentFile} {b : Block} (kind : b.kind = "template")
    (free : f.template = none) : f.add b = { f with template := some b } := by
  simp [add, kind, free]

theorem add_script {f : ComponentFile} {b : Block} (kind : b.kind = "script")
    (free : f.script = none) : f.add b = { f with script := some b } := by
  simp [add, kind, free]

theorem add_style {f : ComponentFile} {b : Block} (kind : b.kind = "style") :
    f.add b = { f with styles := f.styles ++ [b] } := by
  simp [add, kind]

/-- A block that has no place of its own: no style, and no template or script but a further one. -/
structure IsOther (f : ComponentFile) (b : Block) : Prop where
  style : b.kind ≠ "style"
  template : b.kind = "template" → f.template ≠ none
  script : b.kind = "script" → f.script ≠ none

theorem add_other {f : ComponentFile} {b : Block} (other : f.IsOther b) :
    f.add b = { f with others := f.others ++ [b] } := by
  have template : ¬(b.kind == "template" && f.template.isNone) = true := by
    simpa using other.template
  have script : ¬(b.kind == "script" && f.script.isNone) = true := by
    simpa using other.script
  simp only [add, template, script, other.style, beq_iff_eq, if_false, Bool.false_eq_true]

theorem place_cases (f : ComponentFile) (b : Block) :
    (b.kind = "template" ∧ f.template = none) ∨ (b.kind = "script" ∧ f.script = none) ∨
      b.kind = "style" ∨ f.IsOther b := by
  by_cases template : b.kind = "template" ∧ f.template = none
  · exact .inl template
  by_cases script : b.kind = "script" ∧ f.script = none
  · exact .inr (.inl script)
  by_cases style : b.kind = "style"
  · exact .inr (.inr (.inl style))
  · exact .inr (.inr (.inr ⟨style, fun kind free => template ⟨kind, free⟩,
      fun kind free => script ⟨kind, free⟩⟩))

theorem add_escaped (f : ComponentFile) (b : Block) : f.escaped.add b.escaped = (f.add b).escaped := by
  rcases place_cases f b with ⟨kind, free⟩ | ⟨kind, free⟩ | kind | other
  · have free' : f.escaped.template = none := by rw [escaped, free]; rfl
    rw [add_template kind free, add_template (b := b.escaped) kind free']
    rfl
  · have free' : f.escaped.script = none := by rw [escaped, free]; rfl
    rw [add_script kind free, add_script (b := b.escaped) kind free']
    rfl
  · rw [add_style kind, add_style (b := b.escaped) kind]
    simp [escaped]
  · have other' : f.escaped.IsOther b.escaped :=
      ⟨other.style, fun kind free => other.template kind (Option.map_eq_none_iff.mp free),
        fun kind free => other.script kind (Option.map_eq_none_iff.mp free)⟩
    rw [add_other other, add_other other']
    simp [escaped]

theorem ofBlocks_map_escaped (bs : List Block) :
    ofBlocks (bs.map Block.escaped) = (ofBlocks bs).escaped := by
  have run : ∀ f : ComponentFile,
      (bs.map Block.escaped).foldl add f.escaped = (bs.foldl add f).escaped := by
    induction bs with
    | nil => exact fun f => rfl
    | cons b bs ih =>
      intro f
      rw [List.map_cons, List.foldl_cons, add_escaped, ih, List.foldl_cons]
  exact run {}

structure Placed (f : ComponentFile) : Prop where
  template : ∀ b ∈ f.template, b.kind = "template"
  script : ∀ b ∈ f.script, b.kind = "script"
  styles : ∀ b ∈ f.styles, b.kind = "style"
  others : ∀ b ∈ f.others, f.IsOther b

theorem Placed.add {f : ComponentFile} (placed : f.Placed) (b : Block) : (f.add b).Placed := by
  rcases place_cases f b with ⟨kind, free⟩ | ⟨kind, free⟩ | kind | other
  · rw [add_template kind free]
    refine ⟨fun c mem => Option.some.inj mem ▸ kind, placed.script, placed.styles, fun c mem => ?_⟩
    have old := placed.others c mem
    exact ⟨old.style, fun _ => nofun, old.script⟩
  · rw [add_script kind free]
    refine ⟨placed.template, fun c mem => Option.some.inj mem ▸ kind, placed.styles, fun c mem => ?_⟩
    have old := placed.others c mem
    exact ⟨old.style, old.template, fun _ => nofun⟩
  · rw [add_style kind]
    refine ⟨placed.template, placed.script, fun c mem => ?_, fun c mem => ?_⟩
    · rcases List.mem_append.mp mem with mem | mem
      · exact placed.styles c mem
      · exact List.mem_singleton.mp mem ▸ kind
    · have old := placed.others c mem
      exact ⟨old.style, old.template, old.script⟩
  · rw [add_other other]
    refine ⟨placed.template, placed.script, placed.styles, fun c mem => ?_⟩
    have isOther : f.IsOther c := by
      rcases List.mem_append.mp mem with mem | mem
      · exact placed.others c mem
      · exact List.mem_singleton.mp mem ▸ other
    exact ⟨isOther.style, isOther.template, isOther.script⟩

theorem placed_ofBlocks (bs : List Block) : (ofBlocks bs).Placed := by
  have run : ∀ f : ComponentFile, f.Placed → (bs.foldl ComponentFile.add f).Placed := by
    induction bs with
    | nil => exact fun f placed => placed
    | cons b bs ih => exact fun f placed => ih _ (placed.add b)
  exact run _ ⟨nofun, nofun, nofun, nofun⟩

theorem foldl_add_styles {bs : List Block} (styles : ∀ b ∈ bs, b.kind = "style") (f : ComponentFile) :
    bs.foldl add f = { f with styles := f.styles ++ bs } := by
  induction bs generalizing f with
  | nil => simp
  | cons b bs ih =>
    rw [List.foldl_cons, add_style (styles b List.mem_cons_self),
      ih fun c mem => styles c (List.mem_cons_of_mem b mem)]
    simp

theorem foldl_add_others {bs : List Block} {f : ComponentFile} (others : ∀ b ∈ bs, f.IsOther b) :
    bs.foldl add f = { f with others := f.others ++ bs } := by
  induction bs generalizing f with
  | nil => simp
  | cons b bs ih =>
    have later : ∀ c ∈ bs, IsOther { f with others := f.others ++ [b] } c := fun c mem =>
      have old := others c (List.mem_cons_of_mem b mem)
      ⟨old.style, old.template, old.script⟩
    rw [List.foldl_cons, add_other (others b List.mem_cons_self), ih later]
    simp

theorem ofBlocks_blocks {f : ComponentFile} (placed : f.Placed) : ofBlocks f.blocks = f := by
  have template : f.template.toList.foldl add {} = { template := f.template } := by
    cases h : f.template with
    | none => rfl
    | some b => exact add_template (placed.template b h) rfl
  have script : f.script.toList.foldl add { template := f.template } =
      { template := f.template, script := f.script } := by
    cases h : f.script with
    | none => rfl
    | some b => exact add_script (placed.script b h) rfl
  have others : ∀ b ∈ f.others,
      IsOther { template := f.template, script := f.script, styles := [] ++ f.styles } b := fun b mem =>
    have old := placed.others b mem
    ⟨old.style, old.template, old.script⟩
  rw [ofBlocks, blocks, List.foldl_append, List.foldl_append, List.foldl_append, template, script,
    foldl_add_styles placed.styles, foldl_add_others others]
  simp

theorem mem_blocks_add {f : ComponentFile} {b c : Block} (mem : c ∈ (f.add b).blocks) :
    c ∈ f.blocks ∨ c = b := by
  simp only [blocks, List.mem_append, Option.mem_toList] at mem ⊢
  rcases place_cases f b with ⟨kind, free⟩ | ⟨kind, free⟩ | kind | other
  · rw [add_template kind free] at mem
    grind
  · rw [add_script kind free] at mem
    grind
  · rw [add_style kind] at mem
    grind
  · rw [add_other other] at mem
    grind

theorem mem_of_mem_blocks {bs : List Block} {b : Block} (mem : b ∈ (ofBlocks bs).blocks) : b ∈ bs := by
  have run : ∀ f : ComponentFile, b ∈ (bs.foldl ComponentFile.add f).blocks → b ∈ f.blocks ∨ b ∈ bs := by
    clear mem
    induction bs with
    | nil => exact fun f mem => .inl mem
    | cons c bs ih =>
      intro f mem
      rcases ih _ mem with mem | mem
      · rcases mem_blocks_add mem with mem | rfl
        · exact .inl mem
        · exact .inr List.mem_cons_self
      · exact .inr (List.mem_cons_of_mem c mem)
  exact (run _ mem).resolve_left List.not_mem_nil

theorem feed_toList_print {bs : List Block} (filled : bs ≠ []) :
    '\n' :: ("\n".intercalate (bs.map Block.print)).toList =
      bs.flatMap fun b => '\n' :: b.print.toList := by
  rw [String.toList_intercalate]
  induction bs with
  | nil => exact absurd rfl filled
  | cons b bs ih =>
    cases bs with
    | nil => simp
    | cons c bs =>
      have later := ih (by simp)
      rw [List.flatMap_cons, ← later]
      simp

theorem length_le_length_prints (bs : List Block) :
    bs.length ≤ (bs.flatMap fun b => '\n' :: b.print.toList).length := by
  induction bs with
  | nil => exact Nat.le_refl 0
  | cons b bs ih =>
    simp only [List.flatMap_cons, List.length_append, List.length_cons]
    omega

theorem parse_print {f : ComponentFile} (placed : f.Placed) (readable : ∀ b ∈ f.blocks, b.Readable) :
    parse f.print = f.escaped := by
  have read : readBlocks (f.print.toList.length + 1) f.print.toList = f.blocks.map Block.escaped := by
    rw [← readBlocks_feed]
    by_cases empty : f.blocks = []
    · simp [print, empty, readBlocks]
    · have shape := feed_toList_print empty
      have enough : f.blocks.length ≤ f.print.toList.length + 1 := by
        rw [← List.length_cons (a := '\n'), print, shape]
        exact length_le_length_prints f.blocks
      rw [← readBlocks_prints readable enough, ← shape, print]
  rw [parse, read, ofBlocks_map_escaped, ofBlocks_blocks placed]

/-- What is read of a file is read back from its print, escaped where a value holds both kinds of
quotes; so it is the same unless one does, and printing what is read changes a print no more. -/
theorem parse_print_parse (text : String) :
    parse (parse text).print = (parse text).escaped ∧
      (parse (parse text).print = parse text ↔
        ∀ b ∈ (parse text).blocks, ∀ a ∈ b.attributes, ¬HoldsBothQuotes a.value) ∧
      (parse (parse text).print).print = (parse text).print := by
  have placed : (parse text).Placed := placed_ofBlocks _
  have readable : ∀ b ∈ (parse text).blocks, b.Readable := fun b mem =>
    Block.readable_of_mem_readBlocks (mem_of_mem_blocks mem)
  have again := parse_print placed readable
  refine ⟨again, ?_, ?_⟩
  · rw [again, escaped_eq_self_iff]
    exact forall₂_congr fun b mem => (readable b mem).escaped_eq_self_iff
  · rw [again, print_escaped]

-- A bare value may hold both kinds of quotes; it comes back escaped.
example : (parse (parse "<a b=x\"'y></a>").print).others.map (fun b => b.attributes) =
    [[⟨"b", "x&quot;'y"⟩]] := by decide +kernel

end ComponentFile

end VueOptions.Blocks
