import VueOptions.Blocks.Compile
import VueOptions.Proofs.Blocks.WrittenFile
import VueOptions.Proofs.Options.SpelledScripts

/-!
Compiled component files and what is read of them again. Compiling replaces the content of the script,
and gives the script a language if it has none; all other blocks stay. A compiled file is read back as
it is exactly when the new content does not hold the closing tag of scripts; otherwise the script that
is read ends at the first one.
-/

set_option autoImplicit false

namespace VueOptions.Blocks

open Options Text

def scriptClose : List Char := "</script>".toList

namespace Block

theorem lang_not_mem_keys {b : Block} (readable : b.Readable) (free : b.lang = none) :
    "lang" ∉ b.attributes.map Attribute.key := by
  rw [readable.language, Attribute.find?, Option.map_eq_none_iff, List.find?_eq_none] at free
  intro mem
  obtain ⟨a, found, key⟩ := List.mem_map.mp mem
  exact free a found (by simp [key])

theorem withCompiled_eq {b : Block} (readable : b.Readable) (output : String) :
    b.withCompiled output =
      { kind := b.kind
        content := "\n" ++ output
        attributes := if b.lang = none then b.attributes ++ [⟨"lang", "ts"⟩] else b.attributes
        lang := some (b.lang.getD "ts") } := by
  cases language : b.lang with
  | none =>
    have added := Attribute.insert_of_not_mem (a := ⟨"lang", "ts"⟩)
      (lang_not_mem_keys readable language)
    simp [withCompiled, withLang, language, added]
  | some lang => simp [withCompiled, language]

theorem wellKeyed_withCompiled {b : Block} (readable : b.Readable) (output : String) :
    Attribute.WellKeyed (b.withCompiled output).attributes := by
  have isKey : Attribute.IsKey "lang" := ⟨by decide, List.all_eq_true.mp (by decide)⟩
  unfold withCompiled
  dsimp only
  split
  · exact readable.wellKeyed.insert isKey
  · exact readable.wellKeyed

theorem language_withCompiled {b : Block} (readable : b.Readable) (output : String) :
    (b.withCompiled output).lang = Attribute.find? (b.withCompiled output).attributes "lang" := by
  rw [withCompiled_eq readable]
  cases language : b.lang with
  | none =>
    have absent := readable.language
    rw [language, Attribute.find?, eq_comm, Option.map_eq_none_iff] at absent
    simp [Attribute.find?, absent]
  | some lang => simpa [language] using readable.language

theorem readable_withCompiled {b : Block} (readable : b.Readable) (script : b.kind = "script")
    (output : String) {content : String} (closes : Closes "script".toList content.toList) :
    Readable { b.withCompiled output with content := content } := by
  have kind : (b.withCompiled output).kind = "script" := by
    rw [withCompiled_eq readable]
    exact script
  refine ⟨?_, wellKeyed_withCompiled readable output, language_withCompiled readable output, ?_⟩
  · simpa only [kind, ← script] using readable.name
  · simpa only [kind] using closes

theorem quotable_withCompiled {b : Block} (readable : b.Readable) (output : String)
    (quotable : ∀ a ∈ b.attributes, ¬HoldsBothQuotes a.value) :
    ∀ a ∈ (b.withCompiled output).attributes, ¬HoldsBothQuotes a.value := by
  intro a mem
  rw [withCompiled_eq readable] at mem
  dsimp only at mem
  split at mem
  · rcases List.mem_append.mp mem with old | new
    · exact quotable a old
    · rw [List.mem_singleton.mp new]
      decide
  · exact quotable a mem

end Block

theorem isTagName_script : IsTagName "script".toList := by decide

theorem closes_script_of_absent {content : List Char} (absent : ¬scriptClose <:+: content) :
    Closes "script".toList content :=
  closes_of_fitsIn isTagName_script (by rw [FitsIn, if_neg (by decide)]; exact absent)

theorem closes_script_of_splitAt? {content before after : List Char}
    (found : splitAt? scriptClose content = some (before, after)) : Closes "script".toList before := by
  have closed : blockClose? "script".toList content = some (before, after) := by
    rw [blockClose?, if_neg (by decide)]
    exact found
  exact closes_of_blockClose? closed

namespace ComponentFile

theorem compile_eq_ok_iff {d : Dialect} {f c : ComponentFile} :
    f.compile d = .ok c ↔ ∃ b output, f.script = some b ∧ isBlankScript b.content = false ∧
      compileScript d b.content = .ok output ∧ c = { f with script := some (b.withCompiled output) } := by
  unfold compile scriptToCompile?
  cases script : f.script with
  | none => simp
  | some b =>
    rw [Option.filter_some]
    cases blank : isBlankScript b.content with
    | true => simp [blank]
    | false =>
      cases compiled : compileScript d b.content with
      | error why => simp [blank, compiled, Except.map]
      | ok output =>
        simp only [Bool.not_false, if_true, compiled, Except.map, Except.ok.injEq, Option.some.injEq]
        constructor
        · rintro rfl
          exact ⟨b, output, rfl, blank, compiled, rfl⟩
        · rintro ⟨b', output', rfl, -, again, rfl⟩
          rw [compiled, Except.ok.injEq] at again
          rw [again]

theorem Placed.withScript {f : ComponentFile} (placed : f.Placed) {s : Block} (kind : s.kind = "script") :
    Placed { f with script := some s } := by
  refine ⟨placed.template, fun b mem => Option.some.inj mem ▸ kind, placed.styles, fun b mem => ?_⟩
  have old := placed.others b mem
  exact ⟨old.style, old.template, fun _ => by simp⟩

theorem script_foldl_add {f : ComponentFile} {s : Block} (script : f.script = some s) (bs : List Block) :
    (bs.foldl add f).script = some s := by
  induction bs generalizing f with
  | nil => exact script
  | cons b bs ih =>
    refine ih ?_
    rcases place_cases f b with ⟨kind, free⟩ | ⟨kind, free⟩ | kind | other
    · rw [add_template kind free]
      exact script
    · rw [script] at free
      cases free
    · rw [add_style kind]
      exact script
    · rw [add_other other]
      exact script

theorem script_ofBlocks (template : Option Block) (isTemplate : ∀ b ∈ template, b.kind = "template")
    {s : Block} (kind : s.kind = "script") (rest : List Block) :
    (ofBlocks (template.toList ++ s :: rest)).script = some s := by
  have free : (template.toList.foldl add {}).script = none := by
    cases template with
    | none => rfl
    | some b =>
      have placed : add {} b = { template := some b } := add_template (isTemplate b rfl) rfl
      exact congrArg script placed
  rw [ofBlocks, List.foldl_append, List.foldl_cons]
  refine script_foldl_add ?_ rest
  rw [add_script kind free]

theorem script_parse_print {f : ComponentFile} {s : Block} {before after : List Char}
    (template : ∀ b ∈ f.template, b.kind = "template" ∧ b.Readable) (script : f.script = some s)
    (kind : s.kind = "script") (found : splitAt? scriptClose s.content.toList = some (before, after))
    (readable : Block.Readable { s with content := String.ofList before }) :
    (parse f.print).script = some (Block.escaped { s with content := String.ofList before }) := by
  -- What is printed behind the first closing tag is read on, but as further blocks.
  have shape (rest : List Char) : s.print.toList ++ rest = '<' :: s.kind.toList ++
      (Attribute.printed s.attributes ++ '>' :: ((String.ofList before).toList ++
        ("</".toList ++ s.kind.toList ++ '>' :: (after ++ (scriptClose ++ '\n' :: rest))))) := by
    have whole := append_of_splitAt? found
    have close (more : List Char) : "</".toList ++ s.kind.toList ++ '>' :: more = scriptClose ++ more := by
      rw [kind]
      rfl
    have list : (String.ofList before).toList = before := String.toList_ofList
    rw [Block.toList_print, ← whole, list, close, close]
    simp only [List.cons_append, List.append_assoc, List.nil_append]
  obtain ⟨later, printed⟩ : ∃ later, '\n' :: f.print.toList =
      (f.template.toList.flatMap fun b => '\n' :: b.print.toList) ++ '\n' :: (s.print.toList ++ later) := by
    have filled : f.blocks ≠ [] := by simp [blocks, script]
    refine ⟨(f.styles ++ f.others).flatMap fun b => '\n' :: b.print.toList, ?_⟩
    rw [print, feed_toList_print filled]
    simp [blocks, script]
  have enough : ∃ fuel, f.print.toList.length + 1 = fuel + 2 := by
    have long := congrArg List.length printed
    rw [shape] at long
    simp only [List.length_cons, List.length_append] at long
    exact ⟨f.print.toList.length - 1, by omega⟩
  obtain ⟨fuel, length⟩ := enough
  rw [parse, length, ← readBlocks_feed, printed]
  cases first : f.template with
  | none =>
    rw [Option.toList_none, List.flatMap_nil, List.nil_append, readBlocks_feed, shape,
      readBlocks_closed readable]
    exact script_ofBlocks none (by simp) (s := Block.escaped { s with content := String.ofList before }) kind _
  | some t =>
    obtain ⟨isTemplate, readableTemplate⟩ := template t first
    rw [Option.toList_some, List.flatMap_singleton, List.cons_append, readBlocks_feed,
      readBlocks_print readableTemplate, readBlocks_feed, shape, readBlocks_closed readable]
    exact script_ofBlocks (some t.escaped) (fun b mem => (Option.some.inj mem) ▸ isTemplate)
      (s := Block.escaped { s with content := String.ofList before }) kind _

/-- A file that can be read and whose values can stand in quotes. -/
structure Sound (f : ComponentFile) : Prop where
  placed : f.Placed
  readable : ∀ b ∈ f.blocks, b.Readable
  quotable : ∀ b ∈ f.blocks, ∀ a ∈ b.attributes, ¬HoldsBothQuotes a.value

theorem Sound.parse_print {f : ComponentFile} (sound : f.Sound) : parse f.print = f := by
  rw [ComponentFile.parse_print sound.placed sound.readable, escaped_eq_self_iff]
  exact fun b mem => (sound.readable b mem).escaped_eq_self_iff.mpr (sound.quotable b mem)

theorem sound_parse {text : String}
    (quotable : ∀ b ∈ (parse text).blocks, ∀ a ∈ b.attributes, ¬HoldsBothQuotes a.value) : (parse text).Sound :=
  ⟨placed_ofBlocks _, fun _ mem => Block.readable_of_mem_readBlocks (mem_of_mem_blocks mem), quotable⟩

theorem mem_blocks_of_script {f : ComponentFile} {b : Block} (script : f.script = some b) : b ∈ f.blocks := by
  simp [blocks, script]

theorem mem_blocks_of_template {f : ComponentFile} {b : Block} (template : f.template = some b) :
    b ∈ f.blocks := by
  simp [blocks, template]

theorem mem_blocks_withScript {f : ComponentFile} {b s : Block}
    (mem : b ∈ blocks { f with script := some s }) : b = s ∨ b ∈ f.blocks := by
  simp only [blocks, List.mem_append, Option.mem_toList, Option.some.injEq] at mem ⊢
  tauto

section Compiled

variable {f : ComponentFile} (sound : f.Sound) {old : Block} (script : f.script = some old)
  (output : String)

include sound script

theorem kind_withCompiled : (old.withCompiled output).kind = "script" := by
  rw [Block.withCompiled_eq (sound.readable old (mem_blocks_of_script script))]
  exact sound.placed.script old script

theorem sound_withCompiled (absent : ¬scriptClose <:+: (old.withCompiled output).content.toList) :
    Sound { f with script := some (old.withCompiled output) } := by
  have mem := mem_blocks_of_script script
  have readable : (old.withCompiled output).Readable :=
    Block.readable_withCompiled (sound.readable old mem) (sound.placed.script old script) output
      (closes_script_of_absent absent)
  have quotable := Block.quotable_withCompiled (sound.readable old mem) output (sound.quotable old mem)
  refine ⟨sound.placed.withScript (kind_withCompiled sound script output), fun b found => ?_,
    fun b found => ?_⟩
  · rcases mem_blocks_withScript found with rfl | other
    · exact readable
    · exact sound.readable b other
  · rcases mem_blocks_withScript found with rfl | other
    · exact quotable
    · exact sound.quotable b other

theorem script_parse_compiled {before after : List Char}
    (found : splitAt? scriptClose (old.withCompiled output).content.toList = some (before, after)) :
    (parse (print { f with script := some (old.withCompiled output) })).script =
      some { old.withCompiled output with content := String.ofList before } := by
  have mem := mem_blocks_of_script script
  have list : (String.ofList before).toList = before := String.toList_ofList
  have closes : Closes "script".toList (String.ofList before).toList := by
    rw [list]
    exact closes_script_of_splitAt? found
  have readable := Block.readable_withCompiled (sound.readable old mem)
    (sound.placed.script old script) output closes
  have template : ∀ b ∈ f.template, b.kind = "template" ∧ b.Readable := fun b isTemplate =>
    ⟨sound.placed.template b isTemplate, sound.readable b (mem_blocks_of_template isTemplate)⟩
  have quotable := Block.quotable_withCompiled (sound.readable old mem) output (sound.quotable old mem)
  rw [script_parse_print (f := { f with script := some (old.withCompiled output) }) template rfl
    (kind_withCompiled sound script output) found readable, readable.escaped_eq_self_iff.mpr quotable]

theorem parse_compiled_iff :
    parse (print { f with script := some (old.withCompiled output) }) =
        { f with script := some (old.withCompiled output) } ↔
      ¬scriptClose <:+: (old.withCompiled output).content.toList := by
  constructor
  · intro same holds
    obtain ⟨before, after, found⟩ := exists_splitAt?_of_infix holds
    have shorter := script_parse_compiled sound script output found
    rw [same] at shorter
    have content := congrArg (fun b : Block => b.content.toList.length) (Option.some.inj shorter)
    have length := congrArg List.length (append_of_splitAt? found)
    have positive : 0 < scriptClose.length := by decide
    simp only [String.toList_ofList, List.length_append] at content length
    omega
  · intro absent
    exact (sound_withCompiled sound script output absent).parse_print

end Compiled

/-- Compiling a file changes its script only: the content is the output, and a language is added at the
end of the attributes if there was none. The compiled file is read back as it is exactly when the new
content does not hold the closing tag of scripts; if it does, the script is read up to the first one. -/
theorem compiled_reads_back_iff_script_closes {d : Dialect} {text : String} {c : ComponentFile}
    (quotable : ∀ b ∈ (parse text).blocks, ∀ a ∈ b.attributes, ¬HoldsBothQuotes a.value)
    (compiled : (parse text).compile d = .ok c) :
    c.template = (parse text).template ∧ c.styles = (parse text).styles ∧
    c.others = (parse text).others ∧
    ∃ old new output, (parse text).script = some old ∧ compileScript d old.content = .ok output ∧
      c.script = some new ∧
      new = { kind := old.kind
              content := "\n" ++ output
              attributes := if old.lang = none then old.attributes ++ [⟨"lang", "ts"⟩] else old.attributes
              lang := some (old.lang.getD "ts") } ∧
      (parse c.print = c ↔ ¬"</script>".toList <:+: new.content.toList) ∧
      ∀ before after, splitAt? "</script>".toList new.content.toList = some (before, after) →
        (parse c.print).script = some { new with content := String.ofList before } := by
  obtain ⟨old, output, script, -, out, rfl⟩ := compile_eq_ok_iff.mp compiled
  have sound := sound_parse quotable
  have shape := Block.withCompiled_eq (sound.readable old (mem_blocks_of_script script)) output
  exact ⟨rfl, rfl, rfl, old, old.withCompiled output, output, script, out, rfl, shape,
    parse_compiled_iff sound script output,
    fun before after found => script_parse_compiled sound script output found⟩

/-- A file with blocks in any order, and quotes of one kind in a value. -/
def boxText : String :=
  "<docs a='\"'></style></docs><style scoped>a</style>" ++
    "<script setup>@Component class A \x7b\x7d</script><template><b/></template>"

def boxFile : ComponentFile :=
  { template := some ⟨"template", "<b/>", [], none⟩
    script := some ⟨"script",
      "\nimport \x7b defineComponent \x7d from 'vue'\n\nexport default defineComponent(\x7b\n" ++
        "    name: 'A',\n\x7d)\n", [⟨"setup", ""⟩, ⟨"lang", "ts"⟩], some "ts"⟩
    styles := [⟨"style", "a", [⟨"scoped", ""⟩], none⟩]
    others := [⟨"docs", "</style>", [⟨"a", "\""⟩], none⟩] }

def boxParts : ComponentFile :=
  { boxFile with script := some ⟨"script", "@Component class A \x7b\x7d", [⟨"setup", ""⟩], none⟩ }

def boxOutput : String :=
  "import \x7b defineComponent \x7d from 'vue'\n\nexport default defineComponent(\x7b\n    name: 'A',\n\x7d)\n"

private theorem parse_boxText : parse boxText = boxParts := by
  have text : Spelled boxText _ := .append (.literal rfl) (.literal rfl)
  rw [parse, text.toList_eq]
  decide +kernel

private theorem compile_boxParts : boxParts.compile {} = .ok boxFile := by
  have script : Spelled "@Component class A \x7b\x7d" _ := .literal rfl
  have output : Spelled boxOutput _ := .literal rfl
  have compiled : compileScript {} _ = .ok boxOutput := compileScript_of_spelled script output (by decide +kernel)
  refine compile_eq_ok_iff.mpr ⟨_, _, rfl, by decide, compiled, ?_⟩
  refine congrArg (fun content => { boxFile with
    script := some ⟨"script", content, [⟨"setup", ""⟩, ⟨"lang", "ts"⟩], some "ts"⟩ }) ?_
  exact Spelled.eq_of_same (.append (.literal rfl) (.literal rfl)) (.append (.literal rfl) output) rfl

theorem compiled_box_reads_back :
    (parse boxText).compile {} = .ok boxFile ∧ parse boxFile.print = boxFile := by
  have compiled : (parse boxText).compile {} = .ok boxFile := by
    rw [parse_boxText]
    exact compile_boxParts
  have quotable : ∀ b ∈ (parse boxText).blocks, ∀ a ∈ b.attributes, ¬HoldsBothQuotes a.value := by
    rw [parse_boxText]
    decide +kernel
  obtain ⟨-, -, -, old, new, output, -, -, script, -, reads, -⟩ :=
    compiled_reads_back_iff_script_closes quotable compiled
  refine ⟨compiled, reads.mpr ?_⟩
  rw [← Option.some.inj script]
  decide +kernel

/-- A file with a watcher whose path spells the closing tag of scripts, the slash escaped. -/
def closingPathText : String :=
  "<script>@Component class A \x7b @Watch('<\\/script>') m() \x7b\x7d \x7d</script><style>a</style>"

def closingPathFile : ComponentFile :=
  { script := some ⟨"script",
      "\nimport \x7b defineComponent \x7d from 'vue'\n\nexport default defineComponent(\x7b\n" ++
        "    name: 'A',\n\n    watch: \x7b\n        '</script>': \x7b\n            handler: 'm',\n" ++
        "        \x7d,\n    \x7d,\n\n    methods: \x7b\n        m () \x7b\n        \x7d,\n" ++
        "    \x7d,\n\x7d)\n", [⟨"lang", "ts"⟩], some "ts"⟩
    styles := [⟨"style", "a", [], none⟩] }

def closingPathRead : String :=
  "\nimport \x7b defineComponent \x7d from 'vue'\n\nexport default defineComponent(\x7b\n" ++
    "    name: 'A',\n\n    watch: \x7b\n        '"

def closingPathScript : Block := .plain "script" "@Component class A \x7b @Watch('<\\/script>') m() \x7b\x7d \x7d"

def closingPathParts : ComponentFile := { closingPathFile with script := some closingPathScript }

def closingPathOutput : String :=
  "import \x7b defineComponent \x7d from 'vue'\n\nexport default defineComponent(\x7b\n" ++
    "    name: 'A',\n\n    watch: \x7b\n        '</script>': \x7b\n            handler: 'm',\n" ++
    "        \x7d,\n    \x7d,\n\n    methods: \x7b\n        m () \x7b\n        \x7d,\n    \x7d,\n\x7d)\n"

private theorem parse_closingPathText : parse closingPathText = closingPathParts := by
  have text : Spelled closingPathText _ := .literal rfl
  rw [parse, text.toList_eq]
  decide +kernel

private theorem compileScript_closingPath :
    compileScript {} closingPathScript.content = .ok closingPathOutput := by
  have script : Spelled closingPathScript.content _ := .literal rfl
  have output : Spelled closingPathOutput _ := .append (.append (.literal rfl) (.literal rfl)) (.literal rfl)
  exact compileScript_of_spelled script output (by decide +kernel)

private theorem closingPathFile_eq :
    closingPathFile = { closingPathParts with script := some (closingPathScript.withCompiled closingPathOutput) } := by
  refine congrArg (fun content => { closingPathFile with
    script := some ⟨"script", content, [⟨"lang", "ts"⟩], some "ts"⟩ }) ?_
  exact Spelled.eq_of_same
    (.append (.append (.append (.literal rfl) (.literal rfl)) (.literal rfl)) (.literal rfl))
    (.append (.literal rfl) (.append (.append (.literal rfl) (.literal rfl)) (.literal rfl))) rfl

/-- Of a compiled file only half of the script may be read back. -/
theorem closing_path_cuts_compiled_script :
    (∀ b ∈ (parse closingPathText).blocks, ∀ a ∈ b.attributes, ¬HoldsBothQuotes a.value) ∧
      (parse closingPathText).compile {} = .ok closingPathFile ∧
      (parse closingPathFile.print).script.map (fun b => b.content) = some closingPathRead ∧
      parse closingPathFile.print ≠ closingPathFile := by
  have quotable : ∀ b ∈ (parse closingPathText).blocks, ∀ a ∈ b.attributes, ¬HoldsBothQuotes a.value := by
    rw [parse_closingPathText]
    decide +kernel
  have sound := sound_parse quotable
  have compiled : closingPathParts.compile {} = .ok closingPathFile :=
    compile_eq_ok_iff.mpr ⟨_, _, rfl, by decide, compileScript_closingPath, closingPathFile_eq⟩
  rw [parse_closingPathText] at quotable sound ⊢
  have content : Spelled (closingPathScript.withCompiled closingPathOutput).content _ :=
    .append (.literal rfl) (.append (.append (.literal rfl) (.literal rfl)) (.literal rfl))
  have front : (splitAt? scriptClose (closingPathScript.withCompiled closingPathOutput).content.toList).map Prod.fst =
      some closingPathRead.toList := by
    have read : Spelled closingPathRead _ := .append (.literal rfl) (.literal rfl)
    rw [content.toList_eq, read.toList_eq]
    decide +kernel
  obtain ⟨⟨before, after⟩, found, whole⟩ := Option.map_eq_some_iff.mp front
  rw [show before = closingPathRead.toList from whole] at found
  have cut := script_parse_compiled sound rfl closingPathOutput found
  refine ⟨quotable, compiled, ?_, ?_⟩ <;> rw [closingPathFile_eq]
  · rw [cut, Option.map_some, String.ofList_toList]
  · exact fun same => (parse_compiled_iff sound rfl closingPathOutput).mp same ⟨_, after, append_of_splitAt? found⟩

end ComponentFile

end VueOptions.Blocks
