import VueOptions.Proofs.Options.Compilation
import VueOptions.Proofs.Options.ModuleReading

/-!
Compiling an output again. The statements that an output takes over declare no class that could be a
component. So where the output is read as it was put together, it is refused as being without a component.
The generator does not see to that, since it writes names and parameters as they stand: there are outputs
that are no modules, and outputs that hold a component.
-/

set_option autoImplicit false

namespace VueOptions.Script.Shape

def isCall : Shape → Bool
  | .node (.call _) (_ :: _) => true
  | _ => false

def kind : Shape → Kind
  | .node k _ => k

/-- A class with these parts may be a component. -/
def markCandidate (parts : List Shape) : Bool :=
  parts.any (fun σ => σ.kind == .decorator) ||
    ((parts.find? fun σ => σ.kind == .heritage).bind fun σ => σ.children.head?).any isCall

def declaresCandidate : Shape → Bool
  | .node (.classNode _) parts => markCandidate parts
  | .node .exportDeclaration [.node (.classNode _) parts] => markCandidate parts
  | .node .exportDefault [.node (.classNode _) parts] => markCandidate parts
  | _ => false

end VueOptions.Script.Shape

namespace VueOptions.Options

open Layout Script Source Text
open Script.Shape (markCandidate declaresCandidate)

private theorem isEmpty_decoratorsOf (source : List Char) (parts : List Tree) :
    (!(decoratorsOf source parts).isEmpty) = (parts.map Tree.shape).any fun σ => σ.kind == .decorator := by
  rw [decoratorsOf, List.isEmpty_map, List.any_map]
  induction parts with
  | nil => rfl
  | cons t parts ih =>
    obtain ⟨kind, span, below⟩ := t
    cases mark : kind == .decorator <;> simp_all [Shape.kind, Tree.shape, Tree.kind]

private theorem isCandidate_ofParts (source : List Char) (parts : List Tree) :
    (ClassHeader.ofParts source parts).isCandidate = markCandidate (parts.map Tree.shape) := by
  have kinds : (Shape.kind · == Kind.heritage) ∘ Tree.shape = fun t : Tree => t.kind == .heritage := by
    funext ⟨kind, span, below⟩
    rfl
  have super : (ClassHeader.ofParts source parts).superClass =
      (parts.find? fun t => t.kind == .heritage).bind fun t => t.children.head?.map (Expression.ofTree source) := rfl
  have decorators : (ClassHeader.ofParts source parts).decorators = decoratorsOf source parts := rfl
  rw [ClassHeader.isCandidate, markCandidate, super, decorators, isEmpty_decoratorsOf, List.find?_map, kinds]
  refine congrArg (_ || ·) ?_
  clear super
  generalize (parts.find? fun t => t.kind == .heritage) = found
  rcases found with _ | ⟨kind, span, _ | ⟨⟨kind', span', below⟩, more⟩⟩
  · rfl
  · rfl
  · cases kind' with
    | call isOptional => cases below <;> rfl
    | _ => rfl

private theorem isSome_candidate? (source : List Char) (t : Tree) :
    (candidate? source t).isSome = declaresCandidate t.shape := by
  have ofClass {c : Tree} (declared : declaredClass? t = some c) :
      (candidate? source t).isSome = markCandidate c.shape.children := by
    have shapes : c.shape.children = c.children.map Tree.shape := by
      cases c
      exact Tree.shapeList_eq_map _
    rw [candidate?, declared, shapes, ← isCandidate_ofParts source]
    cases marked : (ClassHeader.ofParts source c.children).isCandidate <;> simp [marked]
  have ofNone (declared : declaredClass? t = none) : (candidate? source t).isSome = false := by
    rw [candidate?, declared]
    rfl
  obtain ⟨kind, span, parts⟩ := t
  cases kind with
  | classNode modifiers => exact ofClass rfl
  | exportDeclaration =>
    rcases parts with _ | ⟨⟨kind, span', parts⟩, _ | ⟨e, more⟩⟩
    · exact ofNone rfl
    · cases kind with
      | classNode modifiers => exact ofClass rfl
      | _ => exact ofNone rfl
    · cases kind <;> exact ofNone rfl
  | exportDefault =>
    rcases parts with _ | ⟨⟨kind, span', parts⟩, _ | ⟨e, more⟩⟩
    · exact ofNone rfl
    · cases kind with
      | classNode modifiers => exact ofClass rfl
      | _ => exact ofNone rfl
    · cases kind <;> exact ofNone rfl
  | _ => exact ofNone rfl

private theorem declaresCandidate_outputShapes {d : Dialect} {source : List Char} {ts : List Tree} {t : Table}
    {members : Shape} {options : List Shape} {σ : Shape} (mem : σ ∈ outputShapes d source ts t members options) :
    declaresCandidate σ = false := by
  have opening : ∀ σ ∈ (openingItems t).map fun i => i.phrase.shape, declaresCandidate σ = false := by
    unfold openingItems
    cases t.props.isEmpty <;> simp [nextItem, Grammar.importOf, declaresCandidate]
  have alias' : ∀ σ ∈ aliasShapes t members, declaresCandidate σ = false := by
    unfold aliasShapes
    cases t.data.isEmpty <;> simp [declaresCandidate]
  have imports (u : Tree) (held : u ∈ keptImportTrees d ts) : declaresCandidate u.shape = false := by
    obtain ⟨path, source?, -⟩ := of_decide_eq_true (List.mem_filter.mp held).2
    have declared := ((profile_exclusive u).1 (Option.isSome_of_mem source?)).1
    rw [← isSome_candidate? source, candidate?, declared]
    rfl
  have rest (u : Tree) (held : u ∈ restByKind source ts) :
      declaresCandidate (keptShape source (componentNames source ts) u) = false := by
    obtain ⟨kind, -, held⟩ := List.mem_flatMap.mp held
    have holds : Group.rest.Holds _ source (componentNames source ts) u :=
      of_decide_eq_true (List.mem_filter.mp (List.mem_filter.mp held).1).2
    have whole : declaresCandidate u.shape = false := by
      rw [← isSome_candidate? source]
      exact Bool.eq_false_iff.mpr holds.2.1
    unfold keptShape
    split
    · exact whole
    · split
      · rfl
      · exact whole
  rw [outputShapes, map_shape_takenItems] at mem
  simp only [List.mem_append, List.mem_map, List.mem_singleton] at mem
  rcases mem with ((⟨i, held, rfl⟩ | ⟨u, held, rfl⟩ | ⟨u, held, rfl⟩) | held) | rfl
  · exact opening _ (List.mem_map_of_mem held)
  · exact imports u held
  · exact rest u held
  · exact alias' σ held
  · rfl

private theorem candidates_ofTree_eq_nil {source : List Char} {tree : Tree}
    (none : ∀ t ∈ tree.children, declaresCandidate t.shape = false) : (Module.ofTree source tree).candidates = [] := by
  rw [← List.map_eq_nil_iff, Module.headers_ofTree, List.filterMap_eq_nil_iff]
  intro t mem
  have bare := none t (List.mem_filter.mp mem).1
  rw [← isSome_candidate? source] at bare
  exact Option.not_isSome_iff_eq_none.mp (by simp [bare])

/-- An output that is read as it was put together holds no component. -/
private theorem compileScript_outputText {d : Dialect} {script : String} {tree : Tree} {t : Table} {c : Component}
    (read : Tree.ofModule? script.toList = some tree) (accepted : Table.ofScript d script = .ok t)
    (component : t.component = some c) (stands : OutputStands d script.toList tree c t)
    (keeps : KeepsTree (outputText d script.toList tree c t) d.indentWidth) :
    compileScript d (String.ofList (normalize (outputText d script.toList tree c t) d.indentWidth)) =
      .error .noComponent := by
  obtain ⟨members, options, shape, -⟩ := exists_outputTree read accepted component stands
  rw [← keeps] at shape
  obtain ⟨out, again, same⟩ := Option.map_eq_some_iff.mp shape
  have bare : (Module.ofTree (normalize (outputText d script.toList tree c t) d.indentWidth) out).candidates = [] := by
    refine candidates_ofTree_eq_nil fun u mem => ?_
    have shapes : out.children.map Tree.shape = outputShapes d script.toList (statementsOf tree) t members options := by
      rw [← Tree.shapeList_eq_map]
      cases out
      exact (Shape.node.inj same).2
    exact declaresCandidate_outputShapes (shapes ▸ List.mem_map_of_mem mem)
  refine compileScript_eq_noComponent_iff.mpr ⟨_, by rw [Module.parse?, String.toList_ofList, again]; rfl, ?_, ?_⟩
  · rw [bare]
    exact fun c mem => absurd mem List.not_mem_nil
  · rw [Module.nodes, bare]
    intro before n after empty
    cases before <;> cases empty

/-- The texts that an output takes over from a module: kept imports and carried statements. -/
def takenOver (d : Dialect) (m : Module) : List String :=
  keptImports d m ++ carriedOf .typeAlias m ++ carriedOf .interface m ++ carriedOf .other m

def IsTakenOf (m : Module) (s : Statement) (text : String) : Prop :=
  s.import?.map Prod.snd = some text ∨ (s.carried? m.candidateNames).map Prod.snd = some text

private theorem candidate?_eq_none_of_isTakenOf {m : Module} {s : Statement} {text : String}
    (taken : IsTakenOf m s text) : s.candidate? = none := by
  unfold Statement.candidate?
  split
  · next c hform =>
    have plain : ¬c.header.isCandidate = true := by
      intro candidate
      simp [IsTakenOf, Statement.import?, Statement.carried?, hform, candidate] at taken
    rw [if_neg plain]
  · rfl

private theorem exists_of_mem_takenOver {d : Dialect} {m : Module} {text : String}
    (mem : text ∈ takenOver d m) :
    ∃ s ∈ m.statements, s.candidate? = none ∧ IsTakenOf m s text := by
  have carried : ∀ kind, text ∈ carriedOf kind m → ∃ s ∈ m.statements, IsTakenOf m s text := by
    intro kind hkind
    obtain ⟨i, hi, rfl⟩ := List.mem_map.mp hkind
    obtain ⟨s, hs, found⟩ := List.mem_filterMap.mp (List.mem_filter.mp hi).1
    exact ⟨s, hs, .inr (by rw [found]; rfl)⟩
  have taken : ∃ s ∈ m.statements, IsTakenOf m s text := by
    simp only [takenOver, List.mem_append] at mem
    rcases mem with ((kept | named) | interface) | other
    · obtain ⟨i, hi, rfl⟩ := List.mem_map.mp kept
      obtain ⟨s, hs, found⟩ := List.mem_filterMap.mp (List.mem_filter.mp hi).1
      exact ⟨s, hs, .inl (by rw [found]; rfl)⟩
    · exact carried .typeAlias named
    · exact carried .interface interface
    · exact carried .other other
  obtain ⟨s, hs, of⟩ := taken
  exact ⟨s, hs, candidate?_eq_none_of_isTakenOf of, of⟩

/-- What is known of an output from how it was put together: it takes over no statement that declares a candidate. So it
is refused as being without a component, where what is copied is read wherever it stands and house style keeps the
tree. -/
structure IsOutput (d : Dialect) (script : String) (tree : Tree) (c : Component) (t : Table) (out : String) : Prop where
  read : Tree.ofModule? script.toList = some tree
  classified : Table.ofModule d (Module.ofTree script.toList tree) = .ok t
  component : t.component = some c
  text : out = String.ofList (normalize (outputText d script.toList tree c t) d.indentWidth)
  taken : ∀ text ∈ takenOver d (Module.ofTree script.toList tree),
    ∃ s ∈ (Module.ofTree script.toList tree).statements, s.candidate? = none ∧
      IsTakenOf (Module.ofTree script.toList tree) s text
  refused : OutputStands d script.toList tree c t →
    KeepsTree (outputText d script.toList tree c t) d.indentWidth → compileScript d out = .error .noComponent

/-- Compiling a text is refused as unreadable exactly when it is no module, and as being without a component exactly
when its candidates are there for their mixins only and none of their nodes is rejected; it succeeds exactly when
one of them is decorated and no node is rejected. -/
structure CompilesAsItReads (d : Dialect) (text : String) : Prop where
  unreadable : compileScript d text = .error .unreadable ↔ Module.parse? text = none
  noComponent : compileScript d text = .error .noComponent ↔ ∃ m, Module.parse? text = some m ∧
    (∀ c ∈ m.candidates, ListsMixins d c) ∧ NoneRejected d m.nodes
  compiled : (∃ out, compileScript d text = .ok out) ↔ ∃ m, Module.parse? text = some m ∧
    (∃ c ∈ m.candidates, c.header.decorators ≠ []) ∧ NoneRejected d m.nodes

/-- An output is the text of its blocks in house style, and compiling it again is a matter of how it reads. Read as
it was put together, it is without a component. -/
theorem output_compiles_again_as_it_reads {d : Dialect} {script out : String}
    (compiled : compileScript d script = .ok out) :
    (∃ tree c t, IsOutput d script tree c t out) ∧ CompilesAsItReads d out := by
  refine ⟨?_, compileScript_eq_unreadable_iff, compileScript_eq_noComponent_iff,
    exists_compileScript_eq_ok_iff⟩
  obtain ⟨m, t, parsed, classified, rfl⟩ := compileScript_eq_ok_iff.mp compiled
  obtain ⟨tree, read, rfl⟩ := Option.map_eq_some_iff.mp parsed
  obtain ⟨-, found⟩ := Table.ofModule_eq_ok_iff.mp classified
  obtain ⟨c, component⟩ := Option.ne_none_iff_exists'.mp found
  have accepted : Table.ofScript d script = .ok t := by
    unfold Table.ofScript
    rw [parsed]
    exact classified
  have text : generate d (Module.ofTree script.toList tree) t =
      String.ofList (normalize (outputText d script.toList tree c t) d.indentWidth) := by
    rw [generate, print_renderModule parsed component]
    rfl
  refine ⟨tree, c, t, read, classified, component, text, fun text mem => exists_of_mem_takenOver mem, ?_⟩
  intro stands keeps
  rw [text]
  exact compileScript_outputText read accepted component stands keeps

def pageOutput : String :=
  "import \x7b defineComponent \x7d from 'vue'\n\nimport x from './x'\n\ntype T = X\n\n"
    ++ "export \x7b x \x7d\n\nf(`a\n b`)\n\nexport default defineComponent(\x7b\n"
    ++ "    name: 'Page',\n\x7d)\n"

private theorem compileScript_page :
    compileScript {} pageScript = .ok pageOutput ∧ compileScript {} pageOutput = .error .noComponent := by
  have script : Spelled pageScript _ := .append (.literal rfl) (.literal rfl)
  have output : Spelled pageOutput _ := .append (.append (.literal rfl) (.literal rfl)) (.literal rfl)
  refine ⟨compileScript_of_spelled script output ?_, compileScript_refused_of_spelled output ?_⟩ <;>
    decide +kernel

def bareScript : String := "@Component class A \x7b\x7d"

def bareOutput : String :=
  "import \x7b defineComponent \x7d from 'vue'\n\nexport default defineComponent(\x7b\n    name: 'A',\n\x7d)\n"

/-- The output for the page is without a component, as it reads, and so is that of a class without members, as it was
put together. -/
theorem page_output_reads_without_component :
    (compileScript {} pageOutput = .error .noComponent ∧ ∃ m, Module.parse? pageOutput = some m ∧
      (∀ c ∈ m.candidates, ListsMixins {} c) ∧ NoneRejected {} m.nodes) ∧
    ∃ tree, OutputStands {} bareScript.toList tree ⟨"A", []⟩ { component := some ⟨"A", []⟩ } ∧
      KeepsTree (outputText {} bareScript.toList tree ⟨"A", []⟩ { component := some ⟨"A", []⟩ }) 4 ∧
      compileScript {} bareOutput = .error .noComponent := by
  obtain ⟨compiled, again⟩ := compileScript_page
  refine ⟨⟨again, (output_compiles_again_as_it_reads compiled).2.noComponent.mp again⟩, ?_⟩
  have script : Spelled bareScript _ := .literal rfl
  have compiled' : compileScript {} bareScript = .ok bareOutput :=
    compileScript_of_spelled script (.literal rfl) (by decide +kernel)
  have shown : (Tree.ofModule? bareScript.toList).map (fun tree =>
      (keptImportTrees {} (statementsOf tree)).length + (restByKind bareScript.toList (statementsOf tree)).length) =
      some 0 := by
    rw [script.toList_eq]
    decide +kernel
  have accepted : Table.ofScript {} bareScript = .ok { component := some ⟨"A", []⟩ } := by
    rw [ofScript_of_spelled script]
    decide +kernel
  obtain ⟨tree, c, t, out⟩ := (output_compiles_again_as_it_reads compiled').1
  rw [out.read, Option.map_some, Option.some.injEq, Nat.add_eq_zero_iff, List.length_eq_zero_iff,
    List.length_eq_zero_iff] at shown
  have classified : Table.ofModule {} (Module.ofTree bareScript.toList tree) = .ok { component := some ⟨"A", []⟩ } := by
    unfold Table.ofScript at accepted
    rw [Module.parse?, out.read] at accepted
    exact accepted
  obtain rfl := Except.ok.inj (out.classified.symm.trans classified)
  obtain rfl := Option.some.inj out.component
  have taken := takenItems_eq_nil shown.1 shown.2
  have follows : firstLexeme (closingText {} ⟨"A", []⟩ { component := some ⟨"A", []⟩ }) = .keyword .export_ := by
    decide +kernel
  have stands : OutputStands {} bareScript.toList tree ⟨"A", []⟩ { component := some ⟨"A", []⟩ } := by
    refine outputStands_alone taken
      ⟨fun some => absurd rfl some, fun some => absurd rfl some, fun h mem => absurd mem List.not_mem_nil, ?_⟩
      ⟨?_, fun w mem => absurd mem List.not_mem_nil, fun e mem => absurd mem List.not_mem_nil⟩
      (fun f mem => absurd mem List.not_mem_nil) (by rw [follows]; decide)
    · intro map _ e mem
      cases map <;> cases mem
    · intro map _ key mem
      cases map <;> cases mem
  have keeps : KeepsTree (outputText {} bareScript.toList tree ⟨"A", []⟩ { component := some ⟨"A", []⟩ }) 4 := by
    rw [KeepsTree, outputText, joinLines_moduleBlocks, taken]
    decide +kernel
  exact ⟨tree, stands, keeps, out.refused stands keeps⟩

/-- A component with a method that takes its parameter apart. -/
def patternScript : String :=
  "@Component class A \x7b m(\x7ba\x7d: T) \x7b\x7d \x7d"

def patternOutput : String :=
  "import \x7b defineComponent \x7d from 'vue'\n\nexport default defineComponent(\x7b\n"
    ++ "    name: 'A',\n\n    methods: \x7b\n        m (\x7ba\x7d: T: T) \x7b\n        \x7d,\n"
    ++ "    \x7d,\n\x7d)\n"

/-- A component with a method whose name closes what surrounds the method. -/
def closingNameScript : String :=
  "@Component class A \x7b '\x7d\x7d);@Component class X \x7b\x7d (\x7bm:\x7bn'() \x7b\x7d \x7d"

def closingNameOutput : String :=
  "import \x7b defineComponent \x7d from 'vue'\n\nexport default defineComponent(\x7b\n"
    ++ "    name: 'A',\n\n    methods: \x7b\n"
    ++ "        \x7d\x7d);@Component class X \x7b\x7d (\x7bm:\x7bn () \x7b\n        \x7d,\n"
    ++ "    \x7d,\n\x7d)\n"

/-- Of two outputs, one is no module and the other one holds a component. -/
theorem output_may_be_unreadable_or_hold_component :
    compileScript {} patternScript = .ok patternOutput ∧
      compileScript {} patternOutput = .error .unreadable ∧
      compileScript {} closingNameScript = .ok closingNameOutput ∧
      Table.ofScript {} closingNameOutput = .ok { component := some ⟨"X", []⟩ } := by
  have pattern : Spelled patternScript _ := .literal rfl
  have patternOut : Spelled patternOutput _ := .append (.append (.literal rfl) (.literal rfl)) (.literal rfl)
  have closingName : Spelled closingNameScript _ := .literal rfl
  have closingNameOut : Spelled closingNameOutput _ :=
    .append (.append (.append (.literal rfl) (.literal rfl)) (.literal rfl)) (.literal rfl)
  rw [ofScript_of_spelled closingNameOut]
  refine ⟨compileScript_of_spelled pattern patternOut ?_, compileScript_refused_of_spelled patternOut ?_,
    compileScript_of_spelled closingName closingNameOut ?_, ?_⟩ <;> decide +kernel

end VueOptions.Options
