import Mathlib.Data.List.Nodup
import Mathlib.Data.List.Pairwise
import VueOptions.Proofs.Options.ModuleReading
import VueOptions.Proofs.Options.SpelledScripts

/-!
Registration in the maps of a component. The output is read again, and of several entries of an object under one name
the last is registered. Where the members of the classes have distinct names, a watcher is shadowed by a later one with
the same path, the check of an event by a later one of the same event, and nothing else is.
-/

set_option autoImplicit false

namespace VueOptions.Script.Shape

/-- The place of the entry that an object has under a name: of several ones the last. -/
def lookup (name : String) : List Shape → Option Nat
  | [] => none
  | σ :: σs => ((lookup name σs).map (· + 1)).or (if σ.property? = some name then some 0 else none)

def EachRegistered (entries : List Shape) : Prop :=
  ∀ i name, (entries[i]?).bind property? = some name → lookup name entries = some i

private theorem property?_of_lookup {name : String} {entries : List Shape} {i : Nat}
    (found : lookup name entries = some i) :
    (entries[i]?).bind property? = some name := by
  induction entries generalizing i with
  | nil => cases found
  | cons σ σs ih =>
    rw [lookup] at found
    cases later : lookup name σs with
    | some j =>
      rw [later] at found
      obtain rfl := Option.some.inj found
      exact ih later
    | none =>
      rw [later, Option.map_none, Option.none_or] at found
      split at found
      · next named =>
        obtain rfl := Option.some.inj found
        exact named
      · cases found

private theorem exists_lookup {name : String} {entries : List Shape} {i : Nat}
    (named : (entries[i]?).bind property? = some name) : ∃ j, lookup name entries = some j := by
  induction entries generalizing i with
  | nil => cases named
  | cons σ σs ih =>
    rw [lookup]
    cases i with
    | zero =>
      have own : σ.property? = some name := named
      rw [if_pos own]
      cases lookup name σs with
      | some j => exact ⟨j + 1, rfl⟩
      | none => exact ⟨0, rfl⟩
    | succ i =>
      obtain ⟨j, later⟩ := ih named
      exact ⟨j + 1, by rw [later]; rfl⟩

private theorem eachRegistered_iff_nodup {entries : List Shape} {names : List String}
    (named : entries.map property? = names.map some) : EachRegistered entries ↔ names.Nodup := by
  have at' (i : Nat) : (entries[i]?).bind property? = names[i]? := by
    have same := congrArg (fun l => (l[i]?).bind id) named
    simpa [List.getElem?_map, Option.bind_map, Function.comp_def] using same
  rw [List.nodup_iff_getElem?_ne_getElem?]
  constructor
  · intro all i j less inside same
    have second : (entries[j]?).bind property? = some names[j] := (at' j).trans (List.getElem?_eq_getElem inside)
    have first : (entries[i]?).bind property? = some names[j] := ((at' i).trans same).trans ((at' j).symm.trans second)
    have both := (all i _ first).symm.trans (all j _ second)
    exact absurd (Option.some.inj both) (Nat.ne_of_lt less)
  · intro apart i name here
    obtain ⟨j, found⟩ := exists_lookup here
    have there := property?_of_lookup found
    rw [at'] at here there
    have inside : i < names.length ∧ j < names.length :=
      ⟨(List.getElem?_eq_some_iff.mp here).1, (List.getElem?_eq_some_iff.mp there).1⟩
    rcases Nat.lt_trichotomy i j with less | rfl | less
    · exact absurd (here.trans there.symm) (apart i j less inside.2)
    · exact found
    · exact absurd (there.trans here.symm) (apart j i less inside.1)

/-- The options that the last statement of a module exports: those in a call, as the default export. -/
def exportedOptions? : Shape → Option (List Shape)
  | .node _ statements =>
    match statements.getLast? with
    | some (.node .exportDefault [.node (.call false) [_, .node .object options]]) => some options
    | _ => none

end VueOptions.Script.Shape

namespace VueOptions.Options

open Layout Script Source Text
open Script.Shape (EachRegistered lookup)

def memberName? : Node → Option String
  | .header _ => none
  | .field f => some f.key.label
  | .method m => some m.key.label

def CalledApart (a b : Node) : Prop :=
  ∀ x, memberName? a = some x → ∀ y, memberName? b = some y → x ≠ y

private theorem calledApart_of_nodup {nodes : List Node} (distinct : (nodes.filterMap memberName?).Nodup)
    {a b : Node} (ha : a ∈ nodes) (hb : b ∈ nodes) (ne : a ≠ b) : CalledApart a b := by
  have symmetric : Std.Symm CalledApart := ⟨fun _ _ h x hx y hy => (h y hy x hx).symm⟩
  have pairs : nodes.Pairwise CalledApart := List.pairwise_filterMap.mp distinct
  exact pairs.forall ha hb ne

private theorem nodup_names {nodes : List Node} (distinct : (nodes.filterMap memberName?).Nodup)
    {kinds : List (Node → Option String)}
    (named : ∀ kind ∈ kinds, ∀ n name, kind n = some name → memberName? n = some name)
    (apart : kinds.Pairwise fun f g => ∀ n, f n = none ∨ g n = none) :
    (kinds.flatMap fun kind => nodes.filterMap kind).Nodup := by
  refine List.nodup_flatMap.mpr ⟨fun kind mem => ?_, ?_⟩
  · have pairs : nodes.Pairwise CalledApart := List.pairwise_filterMap.mp distinct
    refine List.pairwise_filterMap.mpr (pairs.imp fun differ x hx y hy => ?_)
    exact differ x (named kind mem _ _ hx) y (named kind mem _ _ hy)
  · refine apart.imp_of_mem fun {f g} hf hg excluded name inF inG => ?_
    obtain ⟨a, ha, fa⟩ := List.mem_filterMap.mp inF
    obtain ⟨b, hb, gb⟩ := List.mem_filterMap.mp inG
    by_cases same : a = b
    · subst same
      rcases excluded a with none | none
      · rw [none] at fa
        cases fa
      · rw [none] at gb
        cases gb
    · exact calledApart_of_nodup distinct ha hb same name (named f hf a name fa) name
        (named g hg b name gb) rfl

def kindsOf (d : Dialect) : OptionMap → List (Node → Option String)
  | .props => [fun n => (PropField.ofNode? d n).map PropField.name]
  | .data => [fun n => (DataField.ofNode? n).map DataField.name]
  | .watch => [fun n => (Watcher.ofNode? d n).map fun w => singleQuoted w.path]
  | .computed =>
    [fun n => (Getter.ofNode? n).map Getter.name, fun n => (RefField.ofNode? d n).map RefField.name]
  | .methods =>
    [fun n => (PlainMethod.ofNode? d n).map PlainMethod.name, fun n => (Emit.ofNode? d n).map Emit.name,
      fun n => (Watcher.ofNode? d n).map fun w => w.handler.name]
  | .emits => [fun n => (Emit.ofNode? d n).map fun e => e.event.key]

private theorem keysOf_reading (d : Dialect) (nodes : List Node) (map : OptionMap) :
    (Table.reading d nodes).keysOf map = (kindsOf d map).flatMap fun kind => nodes.filterMap kind := by
  cases map <;>
    simp [Table.keysOf, Table.entriesOf, Table.reading, kindsOf, List.map_filterMap, Function.comp_def]

private theorem memberName?_of_mem_kindsOf {d : Dialect} {map : OptionMap} (byName : map.IsByName)
    {kind : Node → Option String} (mem : kind ∈ kindsOf d map) {n : Node} {name : String}
    (called : kind n = some name) : memberName? n = some name := by
  cases map with
  | props =>
    obtain rfl := List.mem_singleton.mp mem
    obtain ⟨p, declared, rfl⟩ := Option.map_eq_some_iff.mp called
    obtain ⟨f, x, rfl, -, -, rfl⟩ := PropField.ofNode?_eq_some_iff.mp declared
    rw [PropField.name_ofField]
    rfl
  | data =>
    obtain rfl := List.mem_singleton.mp mem
    obtain ⟨e, declared, rfl⟩ := Option.map_eq_some_iff.mp called
    obtain ⟨f, rfl, -, rfl⟩ := DataField.ofNode?_eq_some_iff.mp declared
    rfl
  | computed =>
    simp only [kindsOf, List.mem_cons, List.not_mem_nil, or_false] at mem
    rcases mem with rfl | rfl
    · obtain ⟨g, declared, rfl⟩ := Option.map_eq_some_iff.mp called
      obtain ⟨m, rfl, -, rfl⟩ := Getter.ofNode?_eq_some_iff.mp declared
      rfl
    · obtain ⟨r, declared, rfl⟩ := Option.map_eq_some_iff.mp called
      obtain ⟨f, x, rfl, -, -, rfl⟩ := RefField.ofNode?_eq_some_iff.mp declared
      rfl
  | methods =>
    simp only [kindsOf, List.mem_cons, List.not_mem_nil, or_false] at mem
    rcases mem with rfl | rfl | rfl
    · obtain ⟨p, declared, rfl⟩ := Option.map_eq_some_iff.mp called
      obtain ⟨m, rfl, -, rfl⟩ := PlainMethod.ofNode?_eq_some_iff.mp declared
      rfl
    · obtain ⟨e, declared, rfl⟩ := Option.map_eq_some_iff.mp called
      obtain ⟨m, x, rfl, -, -, rfl⟩ := Emit.ofNode?_eq_some_iff.mp declared
      rfl
    · obtain ⟨w, declared, rfl⟩ := Option.map_eq_some_iff.mp called
      obtain ⟨m, x, rfl, -, -, read⟩ := Watcher.ofNode?_eq_some_iff.mp declared
      rw [Watcher.handler_of_ofMethod read]
      rfl
  | watch => exact absurd rfl byName.1
  | emits => exact absurd rfl byName.2

private theorem map_none_or_none {α β : Type} {a : Option α} {b : Option β}
    (apart : ∀ x y, a = some x → b = some y → False) (f : α → String) (g : β → String) :
    a.map f = none ∨ b.map g = none := by
  cases a with
  | none => exact .inl rfl
  | some x =>
    cases b with
    | none => exact .inr rfl
    | some y => exact (apart x y rfl rfl).elim

private theorem pairwise_kindsOf (d : Dialect) (map : OptionMap) :
    (kindsOf d map).Pairwise fun f g => ∀ n, f n = none ∨ g n = none := by
  have getter_ref (n : Node) (g : Getter) (r : RefField) (getter : Getter.ofNode? n = some g)
      (ref : RefField.ofNode? d n = some r) : False := by
    obtain ⟨m, rfl, -⟩ := Getter.ofNode?_eq_some_iff.mp getter
    obtain ⟨f, x, ⟨⟩, -⟩ := RefField.ofNode?_eq_some_iff.mp ref
  have plain_emit (n : Node) (p : PlainMethod) (e : Emit) (plain : PlainMethod.ofNode? d n = some p)
      (emit : Emit.ofNode? d n = some e) : False := by
    obtain ⟨m, rfl, ⟨⟨bare, -⟩, -⟩, -⟩ := PlainMethod.ofNode?_eq_some_iff.mp plain
    obtain ⟨_, x, ⟨⟩, one, -⟩ := Emit.ofNode?_eq_some_iff.mp emit
    rw [bare] at one
    cases one
  have plain_watcher (n : Node) (p : PlainMethod) (w : Watcher) (plain : PlainMethod.ofNode? d n = some p)
      (watcher : Watcher.ofNode? d n = some w) : False := by
    obtain ⟨m, rfl, ⟨⟨bare, -⟩, -⟩, -⟩ := PlainMethod.ofNode?_eq_some_iff.mp plain
    obtain ⟨_, x, ⟨⟩, one, -⟩ := Watcher.ofNode?_eq_some_iff.mp watcher
    rw [bare] at one
    cases one
  have emit_watcher (n : Node) (e : Emit) (w : Watcher) (emit : Emit.ofNode? d n = some e)
      (watcher : Watcher.ofNode? d n = some w) : False := by
    obtain ⟨m, x, rfl, first, ⟨-, unmarked, -⟩, -⟩ := Emit.ofNode?_eq_some_iff.mp emit
    obtain ⟨_, y, ⟨⟩, second, ⟨-, marked⟩, -⟩ := Watcher.ofNode?_eq_some_iff.mp watcher
    obtain ⟨rfl, -⟩ := List.cons.inj (first.symm.trans second)
    exact unmarked marked
  cases map with
  | computed => exact List.pairwise_pair.mpr fun n => map_none_or_none (getter_ref n) _ _
  | methods =>
    refine .cons ?_ (List.pairwise_pair.mpr fun n => map_none_or_none (emit_watcher n) _ _)
    rintro kind mem n
    simp only [List.mem_cons, List.not_mem_nil, or_false] at mem
    rcases mem with rfl | rfl
    · exact map_none_or_none (plain_emit n) _ _
    · exact map_none_or_none (plain_watcher n) _ _
  | _ => exact List.pairwise_singleton _ _

private theorem nodup_keysOf {d : Dialect} {nodes : List Node} (distinct : (nodes.filterMap memberName?).Nodup)
    {map : OptionMap} (byName : map.IsByName) : ((Table.reading d nodes).keysOf map).Nodup := by
  rw [keysOf_reading]
  exact nodup_names distinct (fun kind mem n name called => memberName?_of_mem_kindsOf byName mem called)
    (pairwise_kindsOf d map)

def optionsOf? (text : List Char) : Option (List Shape) :=
  ((Tree.ofModule? text).map Tree.shape).bind Shape.exportedOptions?

/-- Which entries of a table are registered in the maps of options: all that are called like their members; watchers
and checks of events exactly when no other one has the same path or event. -/
structure Registers (t : Table) (options : List Shape) : Prop where
  names : ∀ map : OptionMap, (map.entriesIn options).map Shape.property? = (t.namesOf map).map some
  byName : ∀ map : OptionMap, map.IsByName → EachRegistered (map.entriesIn options)
  watchers : EachRegistered (OptionMap.watch.entriesIn options) ↔ (t.watchers.map Watcher.path).Nodup
  checks : EachRegistered (OptionMap.emits.entriesIn options) ↔ (t.emits.map Emit.event).Nodup

private theorem nodup_events {t : Table} (keys : KeysStand t) :
    (t.namesOf .emits).Nodup ↔ (t.emits.map Emit.event).Nodup := by
  have events : t.emits.map Emit.event = (t.namesOf .emits).map Event.name := by
    rw [Table.namesOf, List.map_map]
    refine List.map_congr_left fun e mem => ?_
    obtain ⟨name, named, -⟩ := keys.events e mem
    rw [Function.comp_apply, named]
    rfl
  rw [events, List.nodup_map_iff fun _ _ same => Event.name.inj same]

/-- Where the members of the classes have distinct names, the maps of the output are shadowed only by equal arguments of
decorators. The options are read off the text of the output, where what is copied stands by itself and the keys are
words or quoted names, and off the output in house style where that keeps the tree. -/
theorem entries_shadowed_only_by_equal_arguments {script : String} {d : Dialect} {tree : Tree} {t : Table}
    (read : Tree.ofModule? script.toList = some tree) (accepted : Table.ofScript d script = .ok t)
    (distinct : ((Module.ofTree script.toList tree).nodes.filterMap memberName?).Nodup) :
    ∃ c, t.component = some c ∧
      compileScript d script =
        .ok (String.ofList (normalize (outputText d script.toList tree c t) d.indentWidth)) ∧
      (OutputStands d script.toList tree c t → ∃ options,
        optionsOf? (outputText d script.toList tree c t) = some options ∧
        (KeepsTree (outputText d script.toList tree c t) d.indentWidth →
          optionsOf? (normalize (outputText d script.toList tree c t) d.indentWidth) = some options) ∧
        Registers t options) := by
  obtain ⟨c, component, compiled⟩ := exists_component read accepted
  refine ⟨c, component, compiled, fun stands => ?_⟩
  obtain ⟨members, options, shape, names⟩ := exists_outputTree read accepted component stands
  have exported : (Shape.node .moduleBody (outputShapes d script.toList (statementsOf tree) t members
      options)).exportedOptions? = some options := by
    rw [Shape.exportedOptions?, outputShapes, List.getLast?_append]
    rfl
  obtain ⟨m, parsed, -, made, -⟩ := accepted_of_ofScript accepted
  have parsed' : Module.parse? script = some (Module.ofTree script.toList tree) := by
    rw [Module.parse?, read, Option.map_some]
  obtain rfl := Option.some.inj (parsed'.symm.trans parsed)
  refine ⟨options, by rw [optionsOf?, shape]; exact exported, fun keeps =>
    by rw [optionsOf?, keeps, shape]; exact exported,
    ⟨names, fun map byName => ?_, Shape.eachRegistered_iff_nodup (names .watch), ?_⟩⟩
  · refine (Shape.eachRegistered_iff_nodup (names map)).mpr ?_
    rw [t.namesOf_eq byName, made]
    exact nodup_keysOf distinct byName
  · rw [Shape.eachRegistered_iff_nodup (names .emits), nodup_events stands.keys]

/-- A component with entries in every map. -/
def variedScript : String :=
  "@Component class A \x7b @Prop() p; d = 1; get g() \x7b\x7d @Emit('x') e() \x7b\x7d " ++
    "@Watch('a') u() \x7b\x7d @Watch('b') v() \x7b\x7d \x7d"

def variedTable : Table where
  component := some ⟨"A", []⟩
  props := [⟨"p", false, false, none, "any", none, none⟩]
  data := [⟨"d", some "1", none, false⟩]
  getters := [⟨"g", none, []⟩]
  emits := [⟨"e", .name "x", [], "void", ["this.$emit('x')"], false⟩]
  watchers := [⟨"a", ⟨"u", [], none, some [], false⟩, none, none⟩,
    ⟨"b", ⟨"v", [], none, some [], false⟩, none, none⟩]

section

open Script.Grammar

/-- A function of that component: its answer, and what stands in its body before and behind a statement. -/
private def variedFunction (answer : Option WordType) (lead : List Char) (statement : Option Phrase) : PlainFunction :=
  ⟨false, answer, ⟨'\n' :: List.replicate 8 ' ' ++ lead, statement,
    if statement.isSome then '\n' :: List.replicate 8 ' ' else []⟩⟩

private theorem isRead_variedFunction (answer : Option WordType) {lead : List Char} (statement : Option Phrase)
    (trivia : IsTrivia lead) (reads : ∀ p ∈ statement, EndsBody p ∧ isDirective p.shape = false) :
    (variedFunction answer lead statement).body.IsRead := by
  have blank : ∀ b ∈ '\n' :: List.replicate 8 ' ', isBlank b = true := List.all_eq_true.mp (by decide)
  refine ⟨IsTrivia.append (isTrivia_of_blank blank) trivia, reads, ?_⟩
  cases statement with
  | none => exact nofun
  | some p => exact blank

private theorem isTrivia_indent : IsTrivia (List.replicate 4 ' ') := isTrivia_of_blank (List.all_eq_true.mp (by decide))

private theorem isTrivia_validator :
    IsTrivia (List.replicate 4 ' ' ++ ("// TODO add validator\n".toList ++ List.replicate 12 ' ')) := by
  have comment : IsTrivia "// TODO add validator\n".toList :=
    isTrivia_comment " TODO add validator".toList fun c mem => by
      simpa using List.any_eq_false.mp (by decide : " TODO add validator".toList.any isLineBreak = false) c mem
  exact IsTrivia.append isTrivia_indent (IsTrivia.append comment (isTrivia_of_blank (List.all_eq_true.mp (by decide))))

private def triggerPhrase : Phrase := (emitChain [⟨(singleQuoted "x").toList, .node (.string "x") []⟩]).phrase

private theorem endsBody_trigger : EndsBody ⟨triggerPhrase.text, .node .expressionStatement [triggerPhrase.shape]⟩ := by
  have inLine : Literal.OneLine "x".toList := by decide
  have alone : Alone oneExpression triggerPhrase :=
    alone_emitChain (by simpa using alone_argument (alone_string inLine))
  exact (isStatement_of_this alone (startsWithThis_emitChain _) rfl).endsBody

private def truePhrase : Phrase := ⟨Keyword.true_.spelling, .node (.boolean true) []⟩

private theorem endsBody_true : EndsBody ⟨"return ".toList ++ truePhrase.text,
    .node .returnStatement [truePhrase.shape]⟩ := by
  refine endsBody_return (alone_of_leads (leads_atom (.literal .true_ (.boolean true) rfl)) ?_) ?_
  · exact fun l _ closing => .inl (.inl ⟨l, closing⟩)
  · exact fun rest => startsToken_word (Keyword.isWord_spelling .true_) _

private theorem copiesStand_varied : CopiesStand 4 ⟨"A", []⟩ variedTable := by
  have none : ∀ p ∈ (Option.none : Option Phrase), EndsBody p ∧ isDirective p.shape = false := nofun
  have empty : IsTrivia [] := isTrivia_of_blank (List.all_eq_true.mp (by decide))
  have plain (opening key : String) (mem : opening ∈ [" (", "("]) :=
    standsBehind_function (isRead_variedFunction .none .none empty none) opening mem 8 key
  have trigger := standsBehind_function (isRead_variedFunction (some (.keyword .void (by decide)))
    (some ⟨triggerPhrase.text, .node .expressionStatement [triggerPhrase.shape]⟩) isTrivia_indent
    (by rintro p ⟨⟩; exact ⟨endsBody_trigger, rfl⟩)) " (" List.mem_cons_self 8 "e"
  have check := standsBehind_function (isRead_variedFunction (some (.keyword .boolean (by decide)))
    (some ⟨"return ".toList ++ truePhrase.text, .node .returnStatement [truePhrase.shape]⟩) isTrivia_validator
    (by rintro p ⟨⟩; exact ⟨endsBody_true, rfl⟩)) " (" List.mem_cons_self 8 "'x'"
  refine ⟨fun some => absurd rfl some, fun some => absurd rfl some, nofun, fun map noWatch e mem => ?_⟩
  cases map with
  | watch => exact absurd rfl noWatch
  | props =>
    obtain rfl := List.mem_singleton.mp mem
    exact standsBehind_empty 8 "p"
  | data =>
    obtain rfl := List.mem_singleton.mp mem
    exact standsBehind_value (alone_numeral ⟨"1", .inl rfl, by decide⟩) 12 "d"
  | computed =>
    obtain rfl := List.mem_singleton.mp mem
    exact plain "(" "g" (by decide)
  | methods =>
    rcases mem with _ | ⟨_, _ | ⟨_, _ | ⟨_, ⟨⟩⟩⟩⟩
    · exact trigger
    · exact plain " (" "u" (by decide)
    · exact plain " (" "v" (by decide)
  | emits =>
    obtain rfl := List.mem_singleton.mp mem
    exact check

private theorem keysStand_varied : KeysStand variedTable := by
  refine ⟨fun map byName key mem => ?_, by decide, ?_⟩
  · revert key
    cases map with
    | watch => exact absurd rfl byName.1
    | emits => exact absurd rfl byName.2
    | _ => decide
  · intro e mem
    obtain rfl := List.mem_singleton.mp mem
    exact ⟨"x", rfl, by decide, by decide⟩

end

/-- In that component every entry is registered. -/
theorem varied_component_shadows_nothing :
    ∃ tree options, Tree.ofModule? variedScript.toList = some tree ∧
      Table.ofScript {} variedScript = .ok variedTable ∧
      OutputStands {} variedScript.toList tree ⟨"A", []⟩ variedTable ∧
      optionsOf? (normalize (outputText {} variedScript.toList tree ⟨"A", []⟩ variedTable) 4) = some options ∧
      ∀ map : OptionMap, EachRegistered (map.entriesIn options) := by
  have spelled : Spelled variedScript _ := .append (.literal rfl) (.literal rfl)
  have shown : (Tree.ofModule? variedScript.toList).map (fun tree =>
      ((keptImportTrees {} (statementsOf tree)).length, (restByKind variedScript.toList (statementsOf tree)).length,
        (Module.ofTree variedScript.toList tree).nodes.filterMap memberName?)) =
      some (0, 0, ["p", "d", "g", "e", "u", "v"]) := by
    rw [spelled.toList_eq]
    decide +kernel
  have accepted : Table.ofScript {} variedScript = .ok variedTable := by
    rw [ofScript_of_spelled spelled]
    decide +kernel
  obtain ⟨tree, read, eq⟩ := Option.map_eq_some_iff.mp shown
  simp only [Prod.mk.injEq, List.length_eq_zero_iff] at eq
  obtain ⟨imports, rest, names⟩ := eq
  have taken := takenItems_eq_nil imports rest
  have follows : firstLexeme (closingText {} ⟨"A", []⟩ variedTable) = .keyword .type := by
    decide +kernel
  have stands : OutputStands {} variedScript.toList tree ⟨"A", []⟩ variedTable := by
    refine outputStands_alone taken copiesStand_varied keysStand_varied ?_ (by rw [follows]; decide)
    rintro f (_ | ⟨_, ⟨⟩⟩)
    exact ⟨_, Grammar.endsLine_word (.keyword .any (by decide)), by decide +kernel⟩
  have keeps : KeepsTree (outputText {} variedScript.toList tree ⟨"A", []⟩ variedTable) 4 := by
    have same : normalize (outputText {} variedScript.toList tree ⟨"A", []⟩ variedTable) 4 =
        outputText {} variedScript.toList tree ⟨"A", []⟩ variedTable := by
      rw [outputText, joinLines_moduleBlocks, taken]
      decide +kernel
    rw [KeepsTree, same]
  obtain ⟨c, component, -, registered⟩ :=
    entries_shadowed_only_by_equal_arguments read accepted (by rw [names]; decide)
  obtain rfl := Option.some.inj component
  obtain ⟨options, -, shown, registers⟩ := registered stands
  refine ⟨tree, options, read, accepted, stands, shown keeps, fun map => ?_⟩
  by_cases watch : map = .watch
  · rw [watch, registers.watchers]
    decide
  · by_cases emits : map = .emits
    · rw [emits, registers.checks]
      decide
    · exact registers.byName map ⟨watch, emits⟩

def watchedTwiceScript : String :=
  "@Component class A \x7b @Watch('x') a() \x7b\x7d @Watch('x') b() \x7b\x7d \x7d"

def watchedTwiceOutput : String :=
  "import \x7b defineComponent \x7d from 'vue'\n\nexport default defineComponent(\x7b\n    name: 'A',\n\n" ++
    "    watch: \x7b\n        'x': \x7b\n            handler: 'a',\n        \x7d,\n" ++
    "        'x': \x7b\n            handler: 'b',\n        \x7d,\n    \x7d,\n\n" ++
    "    methods: \x7b\n        a () \x7b\n        \x7d,\n        b () \x7b\n        \x7d,\n    \x7d,\n\x7d)\n"

/-- The members of that component have distinct names. The watchers of its output, read again, have one name twice, so
that only the second one is registered. -/
theorem equal_paths_lose_watcher :
    (Module.parse? watchedTwiceScript).map (fun m => m.nodes.filterMap memberName?) = some ["a", "b"] ∧
      compileScript {} watchedTwiceScript = .ok watchedTwiceOutput ∧
      (optionsOf? watchedTwiceOutput.toList).map (fun options =>
        ((OptionMap.watch.entriesIn options).map Shape.property?, lookup "x" (OptionMap.watch.entriesIn options))) =
          some ([some "x", some "x"], some 1) := by
  have script : Spelled watchedTwiceScript _ := .literal rfl
  have output : Spelled watchedTwiceOutput _ :=
    .append (.append (.append (.literal rfl) (.literal rfl)) (.literal rfl)) (.literal rfl)
  rw [parse?_of_spelled script, output.toList_eq]
  refine ⟨?_, compileScript_of_spelled script output ?_, ?_⟩ <;> decide +kernel

end VueOptions.Options
