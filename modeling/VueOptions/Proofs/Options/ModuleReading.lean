import VueOptions.Proofs.Classification.Ownership
import VueOptions.Proofs.Options.Conservation
import VueOptions.Proofs.Options.OptionsReading

/-!
The output module as it is read again. Its statements are its own imports, the statements that it takes over, the type
of the data and the component. Main statement: where what is copied is read wherever it stands, the text before house
style is a module with one statement for each of them, in their order.
-/

set_option autoImplicit false

namespace VueOptions.Script

open Text

def Shape.children : Shape → List Shape
  | .node _ parts => parts

namespace Grammar

private theorem lineEnded_append (xs ys : List Indented) : lineEnded (xs ++ ys) = lineEnded xs ++ lineEnded ys :=
  List.flatMap_append

private theorem eachStands_append {xs ys : List Indented} (second : EachStands ys)
    (first : ∀ before i after, xs = before ++ i :: after → ReadsBefore (lineEnded after ++ lineEnded ys) i.phrase) :
    EachStands (xs ++ ys) := by
  induction xs with
  | nil => exact second
  | cons i xs ih =>
    refine ⟨?_, ih fun before j after same => first (i :: before) j after (by rw [same]; rfl)⟩
    change ReadsBefore (lineEnded (xs ++ ys)) i.phrase
    rw [lineEnded_append]
    exact first [] i xs rfl

end Grammar

end VueOptions.Script

namespace VueOptions.Options

open Layout Script Source Text
open Script.Grammar
open Script.Literal (OneLine)

def keptImportTrees (d : Dialect) (ts : List Tree) : List Tree :=
  ts.filter fun t => ∃ path ∈ importSource? t, ¬d.isDecoratorSource path = true

/-- The statements of the rest, type aliases first, then interfaces, then all others. -/
def restByKind (source : List Char) (ts : List Tree) : List Tree :=
  [CarriedKind.typeAlias, .interface, .other].flatMap fun kind =>
    (ts.filter fun t => Group.rest.Holds (.spelling source) source (componentNames source ts) t).filter
      fun t => carriedKind t == kind

def keptShape (source : List Char) (components : List String) (t : Tree) : Shape :=
  match ownSpecifiers? t with
  | none => t.shape
  | some specifiers =>
    if ∃ s ∈ specifiers, s.IsComponent (.spelling source) components then
      .node (.exportNames false)
        ((specifiers.filter fun s => ¬s.IsComponent (.spelling source) components).map fun s => s.whole.shape)
    else t.shape

def importPhrase (source : List Char) (t : Tree) : Phrase := ⟨(t.span.text source).toList, t.shape⟩

def restPhrase (source : List Char) (components : List String) (t : Tree) : Phrase :=
  ⟨(carriedText (.spelling source) source components t).toList, keptShape source components t⟩

def apartItem (p : Phrase) : Indented := ⟨['\n'], List.all_eq_true.mp (by decide), p⟩

def nextItem (p : Phrase) : Indented := ⟨[], nofun, p⟩

/-- Imports that stand together behind a blank line. -/
def importItems : List Phrase → List Indented
  | [] => []
  | p :: ps => apartItem p :: ps.map nextItem

/-- The statements that the output takes over, in their order there. -/
def takenItems (d : Dialect) (source : List Char) (ts : List Tree) : List Indented :=
  importItems ((keptImportTrees d ts).map (importPhrase source))
    ++ ((restByKind source ts).map (restPhrase source (componentNames source ts))).map apartItem

theorem map_shape_takenItems (d : Dialect) (source : List Char) (ts : List Tree) :
    (takenItems d source ts).map (fun i => i.phrase.shape) =
      (keptImportTrees d ts).map Tree.shape ++
        (restByKind source ts).map (keptShape source (componentNames source ts)) := by
  have imports (ps : List Phrase) : (importItems ps).map (fun i => i.phrase.shape) = ps.map Phrase.shape := by
    cases ps with
    | nil => rfl
    | cons p ps => simp [importItems, apartItem, nextItem]
  rw [takenItems, List.map_append, imports, List.map_map, List.map_map, List.map_map]
  rfl

theorem joinLines_cons (block : List Char) (blocks : List (List Char)) :
    joinLines (block :: blocks) = block ++ blocks.flatMap fun b => '\n' :: b := by
  induction blocks generalizing block with
  | nil => simp [joinLines, join]
  | cons b blocks ih =>
    have rest : joinLines (b :: blocks) = join '\n' (b :: blocks) := rfl
    rw [joinLines, join_cons (List.cons_ne_nil b blocks), ← rest, ih, List.flatMap_cons]
    rfl

private theorem lineEnded_importItems (ps : List Phrase) :
    lineEnded (importItems ps) =
      (blockWhen (!ps.isEmpty) (ps.flatMap fun p => p.text ++ ['\n'])).flatMap fun b => '\n' :: b := by
  cases ps with
  | nil => rfl
  | cons p ps => simp [importItems, lineEnded, apartItem, nextItem, blockWhen, List.flatMap_map]

private theorem lineEnded_apartItems (ps : List Phrase) :
    lineEnded (ps.map apartItem) = (ps.map fun p => p.text ++ ['\n']).flatMap fun b => '\n' :: b := by
  simp [lineEnded, apartItem, List.flatMap_map]

private theorem byKind_carriedStatements (source : List Char) (ts : List Tree) :
    byKind (carriedStatements (.spelling source) source ts) = (restByKind source ts).map fun t =>
      (carriedKind t, carriedText (.spelling source) source (componentNames source ts) t) := by
  rw [byKind, restByKind, List.map_flatMap]
  refine congrArg (List.flatMap · _) (funext fun kind => ?_)
  rw [carriedStatements, List.filter_map]
  rfl

def closingText (d : Dialect) (c : Component) (t : Table) : List Char :=
  (closingBlocks d c t).flatMap fun b => '\n' :: b

theorem joinLines_moduleBlocks (d : Dialect) (source : List Char) (tree : Tree) (c : Component) (t : Table) :
    joinLines (moduleBlocks d (Module.ofTree source tree) c t) =
      openingBlock d t ++ (lineEnded (takenItems d source (statementsOf tree)) ++ closingText d c t) := by
  have imports : keptImports d (Module.ofTree source tree) =
      (keptImportTrees d (statementsOf tree)).map fun i => i.span.text source := keptImports_eq d source tree
  rw [moduleBlocks_eq, List.append_assoc, List.append_assoc, List.singleton_append, joinLines_cons, List.flatMap_append,
    List.flatMap_append, imports, Module.carried_ofTree, byKind_carriedStatements, takenItems, lineEnded_append,
    lineEnded_importItems, lineEnded_apartItems, closingText]
  simp only [List.isEmpty_map, List.flatMap_map, List.append_assoc]
  rfl

def makerWord : Name.Word := ⟨"defineComponent", by decide⟩

private theorem isWord_data : Name.IsWord "Data".toList := by decide

def dataWord : Name.Word := ⟨"Data", isWord_data⟩

def openingItems (t : Table) : List Indented :=
  nextItem (importOf false makerWord "vue") ::
    if t.props.isEmpty then [] else [nextItem (importOf true ⟨"PropType", by decide⟩ "vue")]

private theorem lineEnded_openingItems (d : Dialect) (t : Table) : lineEnded (openingItems t) = openingBlock d t := by
  have maker : (importOf false makerWord "vue").text = "import \x7b defineComponent \x7d from 'vue'".toList := by decide
  have type : (importOf true ⟨"PropType", by decide⟩ "vue").text =
      "import type \x7b PropType \x7d from 'vue'".toList := by decide
  unfold openingItems openingBlock
  cases t.props.isEmpty <;> simp [lineEnded, nextItem, maker, type, textLine]

/-- A line of the type of the data, of which the type is read up to the end of its line. -/
def TypeStands (width : Nat) (f : DataField) : Prop :=
  ∃ p : Phrase, EndsLine oneType p ∧ standAlone width 1 f.renderType = List.replicate (width * 1) ' ' ++
    ((if f.isReadonly then "readonly ".toList else []) ++ (f.name.toList ++ (':' :: ' ' :: (p.text ++ ['\n']))))

private theorem exists_members {width : Nat} {fields : List DataField} (words : ∀ f ∈ fields, Name.IsWord f.name.toList)
    (types : ∀ f ∈ fields, TypeStands width f) :
    ∃ ms : List TypeMember, entries width 1 DataField.renderType fields = lineEnded (ms.map TypeMember.indented) ∧
      ∀ m ∈ ms, EndsLine oneType m.type := by
  induction fields with
  | nil => exact ⟨[], rfl, nofun⟩
  | cons f fields ih =>
    obtain ⟨word, words⟩ := List.forall_mem_cons.mp words
    obtain ⟨⟨p, ends, printed⟩, types⟩ := List.forall_mem_cons.mp types
    obtain ⟨ms, lines, all⟩ := ih words types
    have blank : ∀ b ∈ List.replicate (width * 1) ' ', isBlank b = true := fun b mem => isBlank_of_mem_replicate mem
    refine ⟨⟨List.replicate (width * 1) ' ', blank, f.isReadonly, ⟨f.name, word⟩, p⟩ :: ms, ?_,
      List.forall_mem_cons.mpr ⟨ends, all⟩⟩
    rw [List.map_cons, lineEnded_cons, ← lines]
    have first : entries width 1 DataField.renderType (f :: fields) =
        standAlone width 1 f.renderType ++ entries width 1 DataField.renderType fields := rfl
    rw [first, printed]
    simp only [TypeMember.indented, TypeMember.phrase, TypeMember.lead]
    cases f.isReadonly <;> simp [Keyword.spelling]

def componentPhrase (body : List Char) (options : List Shape) : Phrase :=
  ⟨"export default ".toList ++ ("defineComponent".toList ++ ('(' :: '\x7b' :: '\n' :: (body ++ ['\x7d', ')']))),
    .node .exportDefault [.node (.call false) [.node (.identifier makerWord) [], .node .object options]]⟩

private theorem readsBefore_component {body : List Char} {options : List Shape} (lists : ListsEntries body options) :
    ReadsBefore [] (componentPhrase body options) := by
  have feed : ∀ b ∈ ['\n'], isBlank b = true := List.all_eq_true.mp (by decide)
  have none : ∀ b ∈ ([] : List Char), isBlank b = true := nofun
  have object := lists.alone_object feed none
  have call := alone_chain (k := ⟨⟨makerWord.text.toList, .node (.identifier makerWord) []⟩, [], [⟨[_], []⟩]⟩)
    (leads_atom (.reference makerWord (by decide) (by decide)))
    (fun l rest closing => Chain.continues_tail _ closing) (by simpa using alone_argument object)
  have same : Chain.phrase ⟨⟨makerWord.text.toList, .node (.identifier makerWord) []⟩, [],
      [⟨[⟨'\x7b' :: '\n' :: (body ++ ['\x7d']), .node .object options⟩], []⟩]⟩ =
      ⟨"defineComponent".toList ++ ('(' :: '\x7b' :: '\n' :: (body ++ ['\x7d', ')'])),
        .node (.call false) [.node (.identifier makerWord) [], .node .object options]⟩ := by
    simp [Chain.phrase, Chain.tail, Grammar.memberTexts, Link.spelling, joinTexts, List.intercalate, Link.onto,
      makerWord]
  rw [same] at call
  exact readsBefore_exportDefault call ⟨"defineComponent".toList, _, by decide, by decide, rfl⟩

private theorem framed_component (width : Nat) (body : List Char) (options : List Shape) :
    framed width 0 "export default defineComponent(\x7b" body "\x7d)" =
      (componentPhrase body options).text ++ ['\n'] := by
  have opening : "export default defineComponent(\x7b".toList =
      "export default ".toList ++ ("defineComponent".toList ++ ['(', '\x7b']) := by decide
  have closing : "\x7d)".toList = ['\x7d', ')'] := by decide
  rw [framed, textLine, textLine, opening, closing]
  change _ = "export default ".toList ++ ("defineComponent".toList ++
    ('(' :: '\x7b' :: '\n' :: (body ++ ['\x7d', ')']))) ++ ['\n']
  generalize "export default ".toList = first, "defineComponent".toList = second
  simp

private theorem framed_alias (width : Nat) (ms : List TypeMember) :
    framed width 0 "type Data = \x7b" (lineEnded (ms.map TypeMember.indented)) "\x7d" =
      (aliasOf dataWord ms).text ++ ['\n'] := by
  simp [framed, textLine, aliasOf, objectType, dataWord]

theorem firstLexeme_apartItem {p : Phrase} {w more : List Char} {c : Char} (word : Name.IsWord w)
    (begins : p.text = w ++ c :: more) (ends : Name.isPart c = false ∧ c ≠ '\\') (items : List Indented)
    (tail : List Char) : firstLexeme (lineEnded (apartItem p :: items) ++ tail) = Lexeme.ofName w := by
  have blank : ∀ b ∈ ['\n'], isBlank b = true := List.all_eq_true.mp (by decide)
  have stops (rest : List Char) : Name.EndsName (c :: more ++ rest) := by
    rintro d ⟨⟩
    exact ends
  rw [lineEnded_cons, apartItem, begins, List.append_assoc, firstLexeme_blanks blank, List.append_assoc,
    List.append_assoc]
  exact firstLexeme_word word (stops _)

/-- What is copied into the output is read wherever it stands, and its keys are words or quoted within a line. Each
statement that is taken over is read before what follows it, and the first of them begins with nothing that an import
goes on into. -/
structure OutputStands (d : Dialect) (source : List Char) (tree : Tree) (c : Component) (t : Table) : Prop where
  copies : CopiesStand d.indentWidth c t
  keys : KeysStand t
  types : ∀ f ∈ t.data, TypeStands d.indentWidth f
  statements : ∀ before i after, takenItems d source (statementsOf tree) = before ++ i :: after →
    StandsBefore (firstLexeme (lineEnded after ++ closingText d c t)) i.phrase
  follows : ∀ l ∈ [Lexeme.keyword .with_, .mark .semicolon],
    firstLexeme (lineEnded (takenItems d source (statementsOf tree)) ++ closingText d c t) ≠ l

theorem takenItems_eq_nil {d : Dialect} {source : List Char} {ts : List Tree} (imports : keptImportTrees d ts = [])
    (rest : restByKind source ts = []) : takenItems d source ts = [] := by
  rw [takenItems, imports, rest]
  rfl

theorem outputStands_alone {d : Dialect} {source : List Char} {tree : Tree} {c : Component} {t : Table}
    (none : takenItems d source (statementsOf tree) = []) (copies : CopiesStand d.indentWidth c t) (keys : KeysStand t)
    (types : ∀ f ∈ t.data, TypeStands d.indentWidth f)
    (follows : ∀ l ∈ [Lexeme.keyword .with_, .mark .semicolon], firstLexeme (closingText d c t) ≠ l) :
    OutputStands d source tree c t := by
  refine ⟨copies, keys, types, fun before i after same => ?_, by rw [none]; exact follows⟩
  rw [none] at same
  cases before <;> cases same

def aliasShapes (t : Table) (members : Shape) : List Shape :=
  if t.data.isEmpty then [] else [.node (.typeAlias false) [.node (.identifier dataWord) [], members]]

def outputShapes (d : Dialect) (source : List Char) (ts : List Tree) (t : Table) (members : Shape)
    (options : List Shape) : List Shape :=
  (openingItems t).map (fun i => i.phrase.shape) ++ (takenItems d source ts).map (fun i => i.phrase.shape)
    ++ aliasShapes t members
    ++ [.node .exportDefault [.node (.call false) [.node (.identifier makerWord) [], .node .object options]]]

section

variable {d : Dialect} {source : List Char} {tree : Tree} {c : Component} {t : Table}

private theorem exists_closingItems (stands : OutputStands d source tree c t) {options : List Shape}
    (lists : ListsEntries (joinLines (sections d.indentWidth c t)) options) :
    ∃ (items : List Indented) (members : Shape), lineEnded items = closingText d c t ∧ EachStands items ∧
      items.map (fun i => i.phrase.shape) = aliasShapes t members ++
        [.node .exportDefault [.node (.call false) [.node (.identifier makerWord) [], .node .object options]]] := by
  have component := readsBefore_component lists
  have printed := framed_component d.indentWidth (joinLines (sections d.indentWidth c t)) options
  have begins := firstLexeme_apartItem (p := componentPhrase (joinLines (sections d.indentWidth c t)) options)
    (w := "export".toList) (c := ' ') (by decide) rfl (by decide) [] []
  rw [List.append_nil] at begins
  cases none : t.data.isEmpty with
  | true =>
    refine ⟨[apartItem (componentPhrase (joinLines (sections d.indentWidth c t)) options)], .node .object [], ?_,
      ⟨component, trivial⟩, ?_⟩
    · rw [closingText, closingBlocks, none, printed]
      simp [blockWhen, lineEnded, apartItem]
    · rw [aliasShapes, none]
      rfl
  | false =>
    obtain ⟨ms, lines, ends⟩ := exists_members
      (fun f mem => (stands.keys.words .data ⟨by decide, by decide⟩ f.name
        (List.mem_map.mpr ⟨_, List.mem_map.mpr ⟨f, mem, rfl⟩, rfl⟩)).1) stands.types
    have typed := standsBefore_alias (w := dataWord) (l := .keyword .export_) (by decide) ends (by simp)
    refine ⟨[apartItem (aliasOf dataWord ms),
      apartItem (componentPhrase (joinLines (sections d.indentWidth c t)) options)],
      (objectType ms).shape, ?_, ⟨typed _ begins, component, trivial⟩, ?_⟩
    · rw [closingText, closingBlocks, none, printed, lines, framed_alias]
      simp [blockWhen, lineEnded, apartItem]
    · rw [aliasShapes, none]
      rfl

private theorem exists_outputModule (stands : OutputStands d source tree c t) (inLine : OneLine c.name.toList)
    (hooks : ∀ h ∈ t.hooks, KeyDenotes h.name h.name ∧ ∀ map : OptionMap, h.name ≠ map.label) :
    ∃ (out : Tree) (members : Shape) (options : List Shape),
      Tree.ofModule? (joinLines (moduleBlocks d (Module.ofTree source tree) c t)) = some out ∧
      out.shape = .node .moduleBody (outputShapes d source (statementsOf tree) t members options) ∧
      ∀ map : OptionMap, (map.entriesIn options).map Shape.property? = (t.namesOf map).map some := by
  obtain ⟨options, lists, names⟩ := exists_options stands.copies stands.keys inLine hooks
  obtain ⟨closing, members, closes, standing, shapes⟩ := exists_closingItems stands lists
  have taken : EachStands (takenItems d source (statementsOf tree) ++ closing) := by
    refine eachStands_append standing fun before i after same => stands.statements before i after same _ ?_
    rw [closes]
  have behind : firstLexeme (lineEnded (takenItems d source (statementsOf tree) ++ closing)) ≠ .keyword .with_ ∧
      firstLexeme (lineEnded (takenItems d source (statementsOf tree) ++ closing)) ≠ .mark .semicolon := by
    rw [lineEnded_append, closes]
    exact ⟨stands.follows _ (by decide), stands.follows _ (by decide)⟩
  have all : EachStands (openingItems t ++ (takenItems d source (statementsOf tree) ++ closing)) := by
    have own {l : Lexeme} (noWith : l ≠ .keyword .with_) (free : l ≠ .mark .semicolon) {isType : Bool} {w : Name.Word}
        (binds : (Keyword.ofSpelling? w.text.toList).any Keyword.isReserved = false) :
        StandsBefore l (importOf isType w "vue") :=
      standsBefore_import binds (oneLine_of_isWord (by decide)) noWith free
    unfold openingItems
    cases t.props.isEmpty with
    | true => exact ⟨own behind.1 behind.2 (by decide) _ rfl, taken⟩
    | false =>
      have second : StandsBefore _ (importOf true ⟨"PropType", by decide⟩ "vue") := own behind.1 behind.2 (by decide)
      refine ⟨own (l := .keyword .import_) nofun nofun (by decide) _ ?_, second _ rfl, taken⟩
      change firstLexeme (lineEnded (nextItem (importOf true ⟨"PropType", by decide⟩ "vue") :: _)) = _
      rw [lineEnded_cons, nextItem, List.nil_append, importOf, List.append_assoc]
      exact firstLexeme_word (by decide) (by rintro d ⟨⟩; decide)
  have text : joinLines (moduleBlocks d (Module.ofTree source tree) c t) =
      lineEnded (openingItems t ++ (takenItems d source (statementsOf tree) ++ closing)) := by
    rw [joinLines_moduleBlocks, lineEnded_append, lineEnded_append, closes, lineEnded_openingItems d]
  have opening : (Passage.opening (lineEnded (openingItems t ++
      (takenItems d source (statementsOf tree) ++ closing)))).after =
      lineEnded (openingItems t ++ (takenItems d source (statementsOf tree) ++ closing)) := rfl
  obtain ⟨out, read, shape⟩ := exists_module all rfl opening
  refine ⟨out, members, options, text ▸ read, ?_, names⟩
  rw [shape]
  simp [outputShapes, shapes, openingItems]

end

def outputText (d : Dialect) (source : List Char) (tree : Tree) (c : Component) (t : Table) : List Char :=
  joinLines (moduleBlocks d (Module.ofTree source tree) c t)

def KeepsTree (text : List Char) (width : Nat) : Prop :=
  (Tree.ofModule? (normalize text width)).map Tree.shape = (Tree.ofModule? text).map Tree.shape

private theorem Hook.keyDenotes {d : Dialect} {nodes : List Node} {h : Hook} (mem : h ∈ (Table.reading d nodes).hooks) :
    KeyDenotes h.name h.name ∧ ∀ map : OptionMap, h.name ≠ map.label := by
  obtain ⟨n, -, shown⟩ := List.mem_filterMap.mp mem
  obtain ⟨m, rfl, ⟨-, isHook⟩, rfl⟩ := Hook.ofNode?_eq_some_iff.mp shown
  have words : ∀ name ∈ d.target.hooks, Name.IsWord name.toList ∧ name ≠ "__proto__" ∧
      ∀ map : OptionMap, name ≠ map.label := by
    have labels : ∀ map : OptionMap, map.label ∈ ["props", "data", "watch", "computed", "methods", "emits"] := by
      intro map
      cases map <;> decide
    have apart : ∀ name ∈ d.target.hooks, Name.IsWord name.toList ∧ name ≠ "__proto__" ∧
        name ∉ ["props", "data", "watch", "computed", "methods", "emits"] := by
      cases d.target <;> decide
    intro name mem
    obtain ⟨word, other, free⟩ := apart name mem
    exact ⟨word, other, fun map same => free (same ▸ labels map)⟩
  obtain ⟨word, other, free⟩ := words _ isHook
  exact ⟨keyDenotes_word word other, free⟩

section

variable {script : String} {d : Dialect} {tree : Tree} {t : Table} {c : Component}
  (read : Tree.ofModule? script.toList = some tree) (accepted : Table.ofScript d script = .ok t)

include read accepted

theorem exists_component : ∃ c, t.component = some c ∧
    compileScript d script = .ok (String.ofList (normalize (outputText d script.toList tree c t) d.indentWidth)) := by
  have parsed : Module.parse? script = some (Module.ofTree script.toList tree) := by
    rw [Module.parse?, read, Option.map_some]
  have classified : Table.ofModule d (Module.ofTree script.toList tree) = .ok t := by
    unfold Table.ofScript at accepted
    rw [parsed] at accepted
    exact accepted
  obtain ⟨c, component⟩ := Option.ne_none_iff_exists'.mp (Table.ofModule_eq_ok_iff.mp classified).2
  refine ⟨c, component, ?_⟩
  have compiled : compileScript d script = .ok (generate d (Module.ofTree script.toList tree) t) := by
    unfold compileScript
    rw [parsed]
    exact congrArg (Except.map (generate d _)) classified
  rw [compiled, generate, print_renderModule parsed component]
  rfl

theorem exists_outputTree (component : t.component = some c) (stands : OutputStands d script.toList tree c t) :
    ∃ (members : Shape) (options : List Shape),
      (Tree.ofModule? (outputText d script.toList tree c t)).map Tree.shape =
        some (.node .moduleBody (outputShapes d script.toList (statementsOf tree) t members options)) ∧
      ∀ map : OptionMap, (map.entriesIn options).map Shape.property? = (t.namesOf map).map some := by
  have parsed : Module.parse? script = some (Module.ofTree script.toList tree) := by
    rw [Module.parse?, read, Option.map_some]
  obtain ⟨m, parsed', -, rfl, -⟩ := accepted_of_ofScript accepted
  obtain rfl := Option.some.inj (parsed.symm.trans parsed')
  have inLine : OneLine c.name.toList := by
    obtain ⟨n, mem, shown⟩ := List.exists_of_findSome?_eq_some component
    cases n with
    | header h =>
      unfold Component.ofNode? at shown
      dsimp only at shown
      split at shown
      · split at shown
        · obtain rfl := Option.some.inj shown
          exact oneLine_of_header parsed mem
        · cases shown
      · cases shown
    | _ => cases shown
  obtain ⟨out, members, options, made, shape, names⟩ :=
    exists_outputModule stands inLine fun h mem => Hook.keyDenotes mem
  refine ⟨members, options, ?_, names⟩
  rw [outputText, made, Option.map_some, shape]

end

end VueOptions.Options
