import Mathlib.Data.List.Flatten
import Mathlib.Data.List.Nodup
import VueOptions.Proofs.Classification.Ownership
import VueOptions.Proofs.Options.ModuleReading
import VueOptions.Proofs.Options.SpelledScripts

/-!
Names and default exports at the top level of a module. A statement binds what it declares or imports, and the
variables that blocks and loops in it leave to the module. The output, read again, binds a name twice only if a
statement that is taken over binds one of the output's own names.
-/

set_option autoImplicit false

namespace VueOptions.Script.Shape

mutual
def patternNames : Shape → List String
  | .node (.identifier name) _ => [name.text]
  | .node (.binding _) (target :: _) => patternNames target
  | .node .defaulted (target :: _) => patternNames target
  | .node .rest (target :: _) => patternNames target
  | .node (.bindingEntry _) [.node (.key _) [name]] => patternNames name
  | .node (.bindingEntry _) [_, element] => patternNames element
  | .node .objectBinding entries => patternsNames entries
  | .node .arrayBinding elements => patternsNames elements
  | _ => []
def patternsNames : List Shape → List String
  | [] => []
  | σ :: σs => patternNames σ ++ patternsNames σs
end

def declaratorNames : Shape → List String
  | .node (.declarator _) (bound :: _) => patternNames bound
  | _ => []

/-- Statements that hold further statements and leave them the variables of the module. -/
def sharesVariables : Kind → Bool
  | .block | .ifStatement | .forLoop | .forIn | .forOf _ | .whileLoop | .doLoop | .tryStatement | .catchClause
  | .finallyClause | .switchStatement | .switchCase _ | .labelled | .withStatement | .exportDeclaration => true
  | _ => false

mutual
def varNames : Shape → List String
  | .node (.variables .var _) declarators => declarators.flatMap declaratorNames
  | .node kind parts => if sharesVariables kind then varsNames parts else []
def varsNames : List Shape → List String
  | [] => []
  | σ :: σs => varNames σ ++ varsNames σs
end

def identifier? : Shape → Option String
  | .node (.identifier name) _ => some name.text
  | _ => none

def leadingName (parts : List Shape) : List String := (parts.head?.bind identifier?).toList

def importedNames : Shape → List String
  | .node .importDefault parts | .node .importNamespace parts => leadingName parts
  | .node (.importSpecifier _) parts => (parts.getLast?.bind identifier?).toList
  | _ => []

def declaredNames : Shape → List String
  | .node (.variables .var _) _ => []
  | .node (.variables _ _) declarators => declarators.flatMap declaratorNames
  | .node (.functionNode _ _) parts => leadingName parts
  | .node (.classNode _) parts => (parts.findSome? identifier?).toList
  | .node (.typeAlias _) parts => leadingName parts
  | .node (.interfaceDeclaration _) parts => leadingName parts
  | .node (.enumDeclaration _ _) parts => leadingName parts
  | .node (.importEquals _) parts => leadingName parts
  | .node (.namespaceDeclaration _) [.node (.namespaceDeclaration _) parts] => leadingName parts
  | .node (.importDeclaration _) parts => parts.flatMap importedNames
  | _ => []

/-- The names that a statement at the top level declares or imports. -/
def boundNames (σ : Shape) : List String :=
  (match σ with
    | .node .exportDeclaration [d] => declaredNames d
    | .node .exportDefault [d] => declaredNames d
    | σ => declaredNames σ) ++ varNames σ

def isDefaultName : Shape → Bool
  | .node (.identifier name) _ => name.text == "default"
  | .node (.string value) _ => value == "default"
  | _ => false

def exportsDefault : Shape → Bool
  | .node (.exportSpecifier _) parts => parts.getLast?.any isDefaultName
  | _ => false

/-- The parts of a statement that export something by default, which may be all of it. -/
def defaultExports : Shape → List Shape
  | .node .exportDefault parts => [.node .exportDefault parts]
  | .node (.exportNames _) parts => parts.filter exportsDefault
  | .node (.exportAll isType) (name :: .node (.string source) parts :: more) =>
    if isDefaultName name then [.node (.exportAll isType) (name :: .node (.string source) parts :: more)] else []
  | _ => []

def topLevelNames (module : Shape) : List String := module.children.flatMap boundNames

def defaultCount (module : Shape) : Nat := (module.children.flatMap defaultExports).length

end VueOptions.Script.Shape

namespace VueOptions.Options

open Layout Script Source Text
open Script.Grammar
open Script.Shape (boundNames defaultExports topLevelNames defaultCount)

/-- The names that a text binds as a module, and how many default exports it has. -/
def topLevel? (text : List Char) : Option (List String × Nat) :=
  ((Tree.ofModule? text).map Tree.shape).map fun σ => (topLevelNames σ, defaultCount σ)

private theorem flatMap_filter_kind_perm {α : Type} (f : α → CarriedKind) (xs : List α) :
    ([CarriedKind.typeAlias, .interface, .other].flatMap fun kind =>
      xs.filter fun x => f x == kind).Perm xs := by
  simp only [List.flatMap_cons, List.flatMap_nil, List.append_nil]
  induction xs with
  | nil => exact .nil
  | cons x xs ih =>
    cases kind : f x with
    | typeAlias => simpa [kind] using ih
    | interface => simpa [kind] using List.perm_middle.trans (ih.cons x)
    | other =>
      have moved : ((xs.filter fun x => f x == .typeAlias) ++ (xs.filter fun x => f x == .interface) ++
          x :: xs.filter fun x => f x == .other).Perm (x :: xs) :=
        List.perm_middle.trans (.cons x (by rw [List.append_assoc]; exact ih))
      simpa [kind] using moved

private theorem filter_append_filter_perm {α : Type} {p q : α → Prop} [DecidablePred p] [DecidablePred q]
    (apart : ∀ x, p x → ¬q x) (xs : List α) :
    (xs.filter (fun x => p x) ++ xs.filter fun x => q x).Perm (xs.filter fun x => p x ∨ q x) := by
  induction xs with
  | nil => exact .nil
  | cons x xs ih =>
    by_cases hp : p x
    · have hq := apart x hp
      simpa [hp, hq] using ih
    · by_cases hq : q x
      · simpa [hp, hq] using List.perm_middle.trans (ih.cons x)
      · simpa [hp, hq] using ih

def keptStatements (d : Dialect) (source : List Char) (ts : List Tree) : List Tree :=
  ts.filter fun t => (∃ path ∈ importSource? t, ¬d.isDecoratorSource path = true) ∨
    Group.rest.Holds (.spelling source) source (componentNames source ts) t

private theorem imports_append_rest_perm (d : Dialect) (source : List Char) (ts : List Tree) :
    (keptImportTrees d ts ++ restByKind source ts).Perm (keptStatements d source ts) := by
  refine ((flatMap_filter_kind_perm carriedKind _).append_left _).trans ?_
  refine filter_append_filter_perm (fun t imports rest => rest.1 ?_) ts
  obtain ⟨path, mem, -⟩ := imports
  exact Option.isSome_of_mem mem

private theorem boundNames_keptShape (source : List Char) (components : List String) (t : Tree) :
    boundNames (keptShape source components t) = boundNames t.shape := by
  obtain ⟨kind, span, parts⟩ := t
  unfold keptShape
  split
  · rfl
  · next specifiers own =>
    split
    · cases kind with
      | exportNames isType => rfl
      | _ => cases own
    · rfl

private theorem whole_ofTree? {t : Tree} {s : Specifier} (shown : Specifier.ofTree? t = some s) : s.whole = t := by
  unfold Specifier.ofTree? at shown
  split at shown
  · obtain rfl := Option.some.inj shown
    rfl
  · cases shown

private theorem specifiers_sublist (parts : List Tree) :
    ((parts.filterMap Specifier.ofTree?).map Specifier.whole).Sublist parts := by
  induction parts with
  | nil => exact .slnil
  | cons t parts ih =>
    cases shown : Specifier.ofTree? t with
    | none =>
      rw [List.filterMap_cons_none shown]
      exact ih.cons t
    | some s =>
      rw [List.filterMap_cons_some shown, List.map_cons, whole_ofTree? shown]
      exact ih.cons_cons t

private theorem defaultExports_keptShape_sublist (source : List Char) (components : List String) (t : Tree) :
    (defaultExports (keptShape source components t)).Sublist (defaultExports t.shape) := by
  obtain ⟨kind, span, parts⟩ := t
  unfold keptShape
  split
  · exact .refl _
  · next specifiers own =>
    split
    · cases kind with
      | exportNames isType =>
        have own' : (if (StatementForm.sourceOf? parts).isSome then none
            else some (parts.filterMap Specifier.ofTree?)) = some specifiers := own
        split at own'
        · cases own'
        · obtain rfl := Option.some.inj own'
          have part := ((List.filter_sublist (p := fun s => ¬s.IsComponent (.spelling source) components)).map
            Specifier.whole).trans (specifiers_sublist parts)
          have shapes := part.map Tree.shape
          rw [List.map_map, ← Tree.shapeList_eq_map] at shapes
          exact shapes.filter _
      | _ => cases own
    · exact .refl _

private theorem defaultExports_of_import {t : Tree} (h : (importSource? t).isSome = true) :
    defaultExports t.shape = [] := by
  obtain ⟨kind, span, parts⟩ := t
  cases kind with
  | importDeclaration isType => rfl
  | _ => cases h

def ownNames (t : Table) : List String :=
  "defineComponent" :: (if t.props.isEmpty then [] else ["PropType"])
    ++ if t.data.isEmpty then [] else ["Data"]

private theorem boundNames_outputShapes_perm (d : Dialect) (source : List Char) (ts : List Tree) (t : Table)
    (members : Shape) (options : List Shape) :
    ((outputShapes d source ts t members options).flatMap boundNames).Perm
      (ownNames t ++ (keptStatements d source ts).flatMap fun s => boundNames s.shape) := by
  have opening : ((openingItems t).map fun i => i.phrase.shape).flatMap boundNames =
      "defineComponent" :: if t.props.isEmpty then [] else ["PropType"] := by
    unfold openingItems
    cases t.props.isEmpty <;> rfl
  have alias' : (aliasShapes t members).flatMap boundNames = if t.data.isEmpty then [] else ["Data"] := by
    unfold aliasShapes
    cases t.data.isEmpty <;> rfl
  have component : boundNames (.node .exportDefault
      [.node (.call false) [.node (.identifier makerWord) [], .node .object options]]) = [] := rfl
  have taken : ((takenItems d source ts).map fun i => i.phrase.shape).flatMap boundNames =
      (keptImportTrees d ts ++ restByKind source ts).flatMap fun s => boundNames s.shape := by
    rw [map_shape_takenItems, List.flatMap_append, List.flatMap_map, List.flatMap_map, List.flatMap_append]
    simp only [boundNames_keptShape]
  rw [outputShapes, List.flatMap_append, List.flatMap_append, List.flatMap_append, opening, alias', taken,
    List.flatMap_singleton, component, List.append_nil, ownNames, List.append_assoc, List.append_assoc]
  refine List.Perm.append_left _ (List.perm_append_comm.trans (List.Perm.append_left _ ?_))
  exact (imports_append_rest_perm d source ts).flatMap_right _

def keptDefaults (source : List Char) (ts : List Tree) : List Shape :=
  (restByKind source ts).flatMap fun s => defaultExports (keptShape source (componentNames source ts) s)

private theorem length_defaultExports_outputShapes (d : Dialect) (source : List Char) (ts : List Tree) (t : Table)
    (members : Shape) (options : List Shape) :
    ((outputShapes d source ts t members options).flatMap defaultExports).length =
      (keptDefaults source ts).length + 1 := by
  have opening : ((openingItems t).map fun i => i.phrase.shape).flatMap defaultExports = [] := by
    unfold openingItems
    cases t.props.isEmpty <;> rfl
  have alias' : (aliasShapes t members).flatMap defaultExports = [] := by
    unfold aliasShapes
    cases t.data.isEmpty <;> rfl
  have imports : ((keptImportTrees d ts).map Tree.shape).flatMap defaultExports = [] := by
    rw [List.flatMap_map, List.flatMap_eq_nil_iff]
    intro i held
    obtain ⟨path, source?, -⟩ := of_decide_eq_true (List.mem_filter.mp held).2
    exact defaultExports_of_import (Option.isSome_of_mem source?)
  rw [outputShapes, map_shape_takenItems, List.flatMap_append, List.flatMap_append, List.flatMap_append,
    List.flatMap_append, opening, imports, alias', List.flatMap_map, List.append_nil, List.length_append]
  rfl

private theorem nodup_ownNames (t : Table) : (ownNames t).Nodup := by
  unfold ownNames
  cases t.props.isEmpty <;> cases t.data.isEmpty <;> decide

private theorem nodup_keptStatements {d : Dialect} {source : List Char} {ts : List Tree}
    (once : (ts.flatMap fun s => boundNames s.shape).Nodup) :
    ((keptStatements d source ts).flatMap fun s => boundNames s.shape).Nodup := by
  obtain ⟨each, apart⟩ := List.nodup_flatMap.mp once
  refine List.nodup_flatMap.mpr ⟨fun t mem => each t (List.mem_filter.mp mem).1, ?_⟩
  exact apart.sublist List.filter_sublist

private theorem length_keptDefaults_le (source : List Char) (ts : List Tree) :
    (keptDefaults source ts).length ≤ (ts.flatMap fun s => defaultExports s.shape).length := by
  have fewer : (keptDefaults source ts).Sublist ((restByKind source ts).flatMap fun s => defaultExports s.shape) :=
    .flatMap_right _ fun t _ => defaultExports_keptShape_sublist source _ t
  have perm := (flatMap_filter_kind_perm carriedKind (ts.filter fun t =>
    Group.rest.Holds (.spelling source) source (componentNames source ts) t)).flatMap_right
      fun s => defaultExports s.shape
  have part : ((ts.filter fun t => Group.rest.Holds (.spelling source) source (componentNames source ts)
      t).flatMap fun s => defaultExports s.shape).Sublist (ts.flatMap fun s => defaultExports s.shape) :=
    List.filter_sublist.flatMap _
  exact fewer.length_le.trans (perm.length_eq.trans_le part.length_le)

/-- The top level of a text: it binds no name twice exactly when no statement that is taken over binds one of the
output's own names, and has one default export exactly when none of the rest keeps one, and else two. -/
structure BindsOnceIff (d : Dialect) (source : List Char) (ts : List Tree) (t : Table) (names : List String)
    (defaults : Nat) : Prop where
  names : names.Nodup ↔ ∀ s ∈ keptStatements d source ts, ∀ name ∈ boundNames s.shape, name ∉ ownNames t
  one : defaults = 1 ↔ ∀ s ∈ restByKind source ts, defaultExports (keptShape source (componentNames source ts) s) = []
  least : 1 ≤ defaults
  most : defaults ≤ 2

/-- Where a script binds no name twice and has one default export at most, so does its output, but for names and
default exports that it takes over beside its own. The text of the output is read again for this, where what is copied
stands by itself, and so is the output in house style where that keeps the tree. -/
theorem output_binds_once_iff_own_names_free {script : String} {d : Dialect} {tree : Tree} {t : Table}
    (read : Tree.ofModule? script.toList = some tree) (accepted : Table.ofScript d script = .ok t)
    (once : (topLevelNames tree.shape).Nodup) (one : defaultCount tree.shape ≤ 1) :
    ∃ c, t.component = some c ∧
      compileScript d script =
        .ok (String.ofList (normalize (outputText d script.toList tree c t) d.indentWidth)) ∧
      (OutputStands d script.toList tree c t → ∃ names defaults,
        topLevel? (outputText d script.toList tree c t) = some (names, defaults) ∧
        (KeepsTree (outputText d script.toList tree c t) d.indentWidth →
          topLevel? (normalize (outputText d script.toList tree c t) d.indentWidth) = some (names, defaults)) ∧
        BindsOnceIff d script.toList (statementsOf tree) t names defaults) := by
  obtain ⟨c, component, compiled⟩ := exists_component read accepted
  refine ⟨c, component, compiled, fun stands => ?_⟩
  obtain ⟨members, options, shape, -⟩ := exists_outputTree read accepted component stands
  have statements : (statementsOf tree).Sublist tree.children := List.filter_sublist
  have shapes : tree.shape.children = tree.children.map Tree.shape := by
    cases tree
    exact Tree.shapeList_eq_map _
  have free : ((statementsOf tree).flatMap fun s => boundNames s.shape).Nodup := by
    rw [topLevelNames, shapes, List.flatMap_map] at once
    obtain ⟨each, apart⟩ := List.nodup_flatMap.mp once
    exact List.nodup_flatMap.mpr ⟨fun s mem => each s (statements.subset mem), apart.sublist statements⟩
  have fewer : ((statementsOf tree).flatMap fun s => defaultExports s.shape).length ≤ 1 := by
    rw [defaultCount, shapes, List.flatMap_map] at one
    exact (statements.flatMap _).length_le.trans one
  have perm := boundNames_outputShapes_perm d script.toList (statementsOf tree) t members options
  have count := length_defaultExports_outputShapes d script.toList (statementsOf tree) t members options
  have most := (length_keptDefaults_le script.toList (statementsOf tree)).trans fewer
  refine ⟨_, _, by rw [topLevel?, shape, Option.map_some], fun keeps =>
    by rw [topLevel?, keeps, shape, Option.map_some], ⟨?_, ?_, ?_, ?_⟩⟩
  · rw [topLevelNames, Shape.children, perm.nodup_iff, List.nodup_append]
    constructor
    · rintro ⟨-, -, apart⟩ s mem name bound own
      exact apart name own name (List.mem_flatMap.mpr ⟨s, mem, bound⟩) rfl
    · intro disjoint
      refine ⟨nodup_ownNames t, nodup_keptStatements free, ?_⟩
      rintro name own _ taken rfl
      obtain ⟨s, mem, bound⟩ := List.mem_flatMap.mp taken
      exact disjoint s mem name bound own
  · rw [defaultCount, Shape.children, count, Nat.add_eq_right, List.length_eq_zero_iff, keptDefaults,
      List.flatMap_eq_nil_iff]
  · rw [defaultCount, Shape.children, count]
    omega
  · rw [defaultCount, Shape.children, count]
    omega

def importingScript : String :=
  "import \x7b b \x7d from 'x'\nf(b);\n@Component class A \x7b @Prop() p: T; q = 1 \x7d\nexport default A\n"

def importingTable : Table where
  component := some ⟨"A", []⟩
  props := [⟨"p", false, false, none, "T", none, none⟩]
  data := [⟨"q", some "1", none, false⟩]

private theorem isWord_bound : Name.IsWord "b".toList := by decide

private def boundWord : Name.Word := ⟨"b", isWord_bound⟩

private theorem isWord_called : Name.IsWord "f".toList := by decide

private def calledWord : Name.Word := ⟨"f", isWord_called⟩

private def callPhrase : Phrase :=
  ⟨['f', '(', 'b', ')'], .node (.call false) [.node (.identifier calledWord) [], .node (.identifier boundWord) []]⟩

private theorem alone_callPhrase : Alone oneExpression callPhrase := by
  have argument := alone_argument (alone_reference (w := boundWord) (by decide))
  have call := alone_chain (k := ⟨⟨calledWord.text.toList, .node (.identifier calledWord) []⟩, [], [⟨[_], []⟩]⟩)
    (leads_atom (.reference calledWord (by decide) (by decide)))
    (fun l rest closing => Chain.continues_tail _ closing) (by simpa using argument)
  have same : Chain.phrase ⟨⟨calledWord.text.toList, .node (.identifier calledWord) []⟩, [],
      [⟨[⟨boundWord.text.toList, .node (.identifier boundWord) []⟩], []⟩]⟩ = callPhrase := by decide
  rwa [same] at call

private def importingItems : List Indented :=
  [apartItem (importOf false boundWord "x"),
    apartItem ⟨callPhrase.text ++ [';'], .node .expressionStatement [callPhrase.shape]⟩]

private theorem outputStands_importing {tree : Tree}
    (taken : takenItems {} importingScript.toList (statementsOf tree) = importingItems) :
    OutputStands {} importingScript.toList tree ⟨"A", []⟩ importingTable := by
  have follows : firstLexeme (lineEnded importingItems ++ closingText {} ⟨"A", []⟩ importingTable) =
      .keyword .import_ :=
    firstLexeme_apartItem (w := "import".toList) (c := ' ') (by decide) rfl (by decide) _ _
  refine ⟨⟨fun some => absurd rfl some, fun some => absurd rfl some, nofun, ?_⟩, ⟨?_, nofun, nofun⟩, ?_, ?_, ?_⟩
  · intro map _ e mem
    cases map with
    | props =>
      obtain rfl := List.mem_singleton.mp mem
      exact standsBehind_empty 8 "p"
    | data =>
      obtain rfl := List.mem_singleton.mp mem
      exact standsBehind_value (alone_numeral ⟨"1", .inl rfl, by decide⟩) 12 "q"
    | _ => cases mem
  · intro map _ key mem
    cases map with
    | props =>
      obtain rfl := List.mem_singleton.mp mem
      decide
    | data =>
      obtain rfl := List.mem_singleton.mp mem
      decide
    | _ => cases mem
  · rintro f (_ | ⟨_, ⟨⟩⟩)
    exact ⟨_, endsLine_word (.keyword .any (by decide)), by decide +kernel⟩
  · rintro before i after same
    rw [taken] at same
    rcases before with _ | ⟨j, _ | ⟨k, before⟩⟩
    · obtain ⟨rfl, rfl⟩ := List.cons.inj same
      have called := firstLexeme_apartItem (w := ['f']) (c := '(')
        (p := ⟨callPhrase.text ++ [';'], .node .expressionStatement [callPhrase.shape]⟩) (by decide) rfl (by decide) []
        (closingText {} ⟨"A", []⟩ importingTable)
      rw [called]
      exact standsBefore_import (by decide) (oneLine_of_isWord (by decide)) nofun nofun
    · obtain ⟨rfl, rfl⟩ := List.cons.inj (List.cons.inj same).2
      exact fun rest _ => readsBefore_call alone_callPhrase ⟨['f'], ['b', ')'], by decide, by decide, rfl⟩ rfl rest
    · simp [importingItems] at same
  · rw [taken, follows]
    decide

/-- The output of that script binds its own names and those of the script once, and has one default export. -/
theorem importing_script_binds_once :
    ∃ tree names, Tree.ofModule? importingScript.toList = some tree ∧
      topLevelNames tree.shape = ["b", "A"] ∧ defaultCount tree.shape = 1 ∧
      OutputStands {} importingScript.toList tree ⟨"A", []⟩ importingTable ∧
      topLevel? (normalize (outputText {} importingScript.toList tree ⟨"A", []⟩ importingTable) 4) = some (names, 1) ∧
      names.Nodup := by
  have spelled : Spelled importingScript _ := .literal rfl
  have shown : (Tree.ofModule? importingScript.toList).map (fun tree => ((topLevelNames tree.shape,
      (keptStatements {} importingScript.toList (statementsOf tree)).flatMap fun s => boundNames s.shape),
      defaultCount tree.shape, (keptImportTrees {} (statementsOf tree)).map (importPhrase importingScript.toList),
      (restByKind importingScript.toList (statementsOf tree)).map (restPhrase importingScript.toList
        (componentNames importingScript.toList (statementsOf tree))))) =
      some ((["b", "A"], ["b"]), 1, [importOf false boundWord "x"],
        [⟨callPhrase.text ++ [';'], .node .expressionStatement [callPhrase.shape]⟩]) := by
    rw [spelled.toList_eq]
    decide +kernel
  have accepted : Table.ofScript {} importingScript = .ok importingTable := by
    rw [ofScript_of_spelled spelled]
    decide +kernel
  obtain ⟨tree, read, eq⟩ := Option.map_eq_some_iff.mp shown
  simp only [Prod.mk.injEq] at eq
  obtain ⟨⟨names, taken⟩, count, imports, rest⟩ := eq
  have items : takenItems {} importingScript.toList (statementsOf tree) = importingItems := by
    rw [takenItems, imports, rest]
    rfl
  have stands := outputStands_importing items
  have keeps : KeepsTree (outputText {} importingScript.toList tree ⟨"A", []⟩ importingTable) 4 := by
    rw [KeepsTree, outputText, joinLines_moduleBlocks, items]
    decide +kernel
  obtain ⟨c, component, -, binds⟩ :=
    output_binds_once_iff_own_names_free read accepted (by rw [names]; decide) (Nat.le_of_eq count)
  obtain rfl := Option.some.inj component
  obtain ⟨found, defaults, -, shape, iff⟩ := binds stands
  have one : defaults = 1 := by
    refine iff.one.mpr fun s mem => ?_
    have held := rest ▸ List.mem_map_of_mem (f := restPhrase importingScript.toList
      (componentNames importingScript.toList (statementsOf tree))) mem
    exact congrArg (fun p : Phrase => defaultExports p.shape) (List.mem_singleton.mp held)
  subst one
  refine ⟨tree, found, read, names, count, stands, shape keeps, iff.names.mpr fun s mem name inside => ?_⟩
  have held : name ∈ ["b"] := taken ▸ List.mem_flatMap.mpr ⟨s, mem, inside⟩
  rw [List.mem_singleton.mp held]
  decide

def propTypeScript : String :=
  "import \x7b PropType \x7d from 'vue'\n@Component class A \x7b @Prop(String) a: string \x7d\n"

def propTypeOutput : String :=
  "import \x7b defineComponent \x7d from 'vue'\nimport type \x7b PropType \x7d from 'vue'\n\n" ++
    "import \x7b PropType \x7d from 'vue'\n\nexport default defineComponent(\x7b\n    name: 'A',\n\n" ++
    "    props: \x7b\n        a: \x7b\n            type: String as PropType<string>,\n        \x7d,\n" ++
    "    \x7d,\n\x7d)\n"

def dataTypeScript : String := "type Data = number\n@Component class A \x7b a = 1 \x7d\n"

def dataTypeOutput : String :=
  "import \x7b defineComponent \x7d from 'vue'\n\ntype Data = number\n\ntype Data = \x7b\n" ++
    "    a: any\n\x7d\n\nexport default defineComponent(\x7b\n    name: 'A',\n\n" ++
    "    data (): Data \x7b\n        return \x7b\n            a: 1,\n        \x7d\n    \x7d,\n\x7d)\n"

def otherDefaultScript : String := "@Component class A \x7b\x7d\nexport default 1\n"

def otherDefaultOutput : String :=
  "import \x7b defineComponent \x7d from 'vue'\n\nexport default 1\n\n" ++
    "export default defineComponent(\x7b\n    name: 'A',\n\x7d)\n"

/-- Each of these scripts binds no name twice and has one default export at most. The outputs of the first
two, read again, bind a name twice, and that of the third has two default exports. -/
theorem own_names_and_default_may_be_doubled :
    topLevel? propTypeScript.toList = some (["PropType", "A"], 0) ∧
      compileScript {} propTypeScript = .ok propTypeOutput ∧
      topLevel? propTypeOutput.toList = some (["defineComponent", "PropType", "PropType"], 1) ∧
      topLevel? dataTypeScript.toList = some (["Data", "A"], 0) ∧
      compileScript {} dataTypeScript = .ok dataTypeOutput ∧
      topLevel? dataTypeOutput.toList = some (["defineComponent", "Data", "Data"], 1) ∧
      topLevel? otherDefaultScript.toList = some (["A"], 1) ∧
      compileScript {} otherDefaultScript = .ok otherDefaultOutput ∧
      topLevel? otherDefaultOutput.toList = some (["defineComponent"], 2) := by
  have propType : Spelled propTypeScript _ := .literal rfl
  have propTypeOut : Spelled propTypeOutput _ :=
    .append (.append (.append (.literal rfl) (.literal rfl)) (.literal rfl)) (.literal rfl)
  have dataType : Spelled dataTypeScript _ := .literal rfl
  have dataTypeOut : Spelled dataTypeOutput _ := .append (.append (.literal rfl) (.literal rfl)) (.literal rfl)
  have otherDefault : Spelled otherDefaultScript _ := .literal rfl
  have otherDefaultOut : Spelled otherDefaultOutput _ := .append (.literal rfl) (.literal rfl)
  rw [propType.toList_eq, propTypeOut.toList_eq, dataType.toList_eq, dataTypeOut.toList_eq,
    otherDefault.toList_eq, otherDefaultOut.toList_eq]
  refine ⟨?_, compileScript_of_spelled propType propTypeOut ?_, ?_, ?_,
    compileScript_of_spelled dataType dataTypeOut ?_, ?_, ?_,
    compileScript_of_spelled otherDefault otherDefaultOut ?_, ?_⟩ <;> decide +kernel

end VueOptions.Options
