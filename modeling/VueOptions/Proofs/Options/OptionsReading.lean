import VueOptions.Proofs.Options.OptionMaps
import VueOptions.Proofs.Options.QuotedNames
import VueOptions.Proofs.Script.ModuleTexts

/-!
The options object as it is read again. An entry that is copied stands behind its key if what follows the key is read
wherever it stands inside brackets. Main statement: where the copied entries stand so, the text of the options is a
list of entries, and each map among them holds the properties that the table gives it, in their order.
-/

set_option autoImplicit false

namespace VueOptions.Script

open Text

/-! ### Properties of an object -/

namespace Shape

def keyName? : Shape → Option String
  | .node (.key false) [.node (.identifier name) _] => some name.text
  | .node (.key _) [.node (.string value) _] => some value
  | _ => none

/-- A key that sets what an object inherits from, where a value stands behind it. -/
def setsPrototype : Shape → Bool
  | .node (.key false) name => keyName? (.node (.key false) name) == some "__proto__"
  | _ => false

/-- The property that an entry gives to its object, if it can be told from the text. -/
def property? : Shape → Option String
  | .node (.entry form) (key :: _) => if form = .plain ∧ key.setsPrototype = true then none else key.keyName?
  | _ => none

def returned? : Shape → Option Shape
  | .node .body [.node .returnStatement [σ]] => some σ
  | _ => none

/-- The entries of the object that an entry has as its value, or returns from its function. -/
def contents : Shape → List Shape
  | .node (.entry .plain) [_, .node .object entries] => entries
  | .node (.entry .method) [_, .node (.functionNode _ _) parts] =>
    match parts.getLast?.bind returned? with
    | some (.node .object entries) => entries
    | _ => []
  | _ => []

end Shape

namespace Grammar

/-! ### Texts of entries -/

/-- A text of entries with a comma behind each that are read one by one wherever they stand inside brackets. -/
def ListsEntries (text : List Char) (shapes : List Shape) : Prop :=
  ∃ (items : List Indented) (gap : List Char), text = commaEnded items ++ gap ∧ (∀ b ∈ gap, isBlank b = true) ∧
    (∀ i ∈ items, AloneInside objectEntry i.phrase) ∧ items.map (fun i => i.phrase.shape) = shapes

namespace ListsEntries

variable {text more : List Char} {shapes others : List Shape}

theorem blanks {gap : List Char} (blank : ∀ b ∈ gap, isBlank b = true) : ListsEntries gap [] :=
  ⟨[], gap, rfl, blank, nofun, rfl⟩

theorem nil : ListsEntries [] [] := blanks fun _ mem => absurd mem List.not_mem_nil

theorem append (first : ListsEntries text shapes) (second : ListsEntries more others) :
    ListsEntries (text ++ more) (shapes ++ others) := by
  obtain ⟨items, gap, rfl, blank, alone, rfl⟩ := first
  obtain ⟨items', gap', rfl, blank', alone', rfl⟩ := second
  cases items' with
  | nil =>
    refine ⟨items, gap ++ gap', by simp [commaEnded], ?_, alone, by simp⟩
    simpa [or_imp, forall_and] using And.intro blank blank'
  | cons i items' =>
    refine ⟨items ++ ⟨gap ++ i.gap, ?_, i.phrase⟩ :: items', gap', by simp [commaEnded], blank', ?_, by simp⟩
    · simpa [or_imp, forall_and] using And.intro blank i.blank
    · simpa [or_imp, forall_and] using And.intro alone alone'

theorem flatMap {α : Type} (items : List α) {text : α → List Char} {name : α → String}
    (each : ∀ i ∈ items, ∃ σ : Shape, ListsEntries (text i) [σ] ∧ σ.property? = some (name i)) :
    ∃ shapes, ListsEntries (items.flatMap text) shapes ∧
      shapes.map Shape.property? = (items.map name).map some := by
  induction items with
  | nil => exact ⟨[], nil, rfl⟩
  | cons i items ih =>
    obtain ⟨⟨σ, lists, named⟩, others⟩ := List.forall_mem_cons.mp each
    obtain ⟨shapes, more, names⟩ := ih others
    exact ⟨σ :: shapes, lists.append more, by simp [named, names]⟩

theorem alone_object (lists : ListsEntries text shapes) {lead gap : List Char} (first : ∀ b ∈ lead, isBlank b = true)
    (last : ∀ b ∈ gap, isBlank b = true) :
    Alone oneExpression ⟨'\x7b' :: (lead ++ (text ++ (gap ++ ['\x7d']))), .node .object shapes⟩ := by
  obtain ⟨items, gap', same, blank, alone, shown⟩ := ((blanks first).append lists).append (blanks last)
  rw [List.nil_append, List.append_nil] at shown
  have whole : lead ++ (text ++ (gap ++ ['\x7d'])) = commaEnded items ++ (gap' ++ ['\x7d']) := by
    rw [← List.append_assoc (commaEnded items), ← same]
    simp
  rw [whole, ← shown]
  exact alone_of_leads (leads_linesObject blank alone) fun _ _ _ => trivial

theorem entry {p : Phrase} (indent : Nat) (alone : AloneInside objectEntry p) :
    ListsEntries (List.replicate indent ' ' ++ (p.text ++ [',', '\n'])) [p.shape] := by
  refine ⟨[⟨List.replicate indent ' ', fun b mem => ?_, p⟩], ['\n'], by simp [commaEnded],
    List.all_eq_true.mp (by decide), ?_, rfl⟩
  · rw [List.eq_of_mem_replicate mem]
    decide
  · rintro i (_ | ⟨_, ⟨⟩⟩)
    exact alone

end ListsEntries

private theorem EntryKey.length_pos (k : EntryKey) : 0 < k.text.length := by
  obtain ⟨c, cs, text, -⟩ := k.startsToken_append []
  rw [List.append_nil] at text
  simp [text]

private theorem aloneInside_entry (k : EntryKey) (shape : EntryShape) {opening : String} (p : Phrase)
    (mem : opening ∈ shape.openings) (alone : AloneInside (fun g => shape.rule g) ⟨shape.opened ++ p.text, p.shape⟩) :
    AloneInside objectEntry (entryOf k shape opening p) := by
  intro text s n room goals
  have opened : shape.opened.length < opening.toList.length + 1 ∧ 1 ≤ opening.toList.length := by
    cases shape with
    | value =>
      obtain rfl : opening = ": " := by simpa [EntryShape.openings] using mem
      decide
    | function isAsync =>
      have either : opening = " (" ∨ opening = "(" := by simpa [EntryShape.openings] using mem
      rcases either with rfl | rfl
      · exact (by decide : 1 < " (".toList.length + 1 ∧ 1 ≤ " (".toList.length)
      · exact (by decide : 1 < "(".toList.length + 1 ∧ 1 ≤ "(".toList.length)
  have keyed := k.length_pos
  simp only [entryOf, List.length_append] at room goals
  refine readsIn_entry k shape mem (show 2 ≤ s.bound by omega) (alone text s n ?_ ?_)
  · simp only [List.length_append]
    omega
  · simp only [List.length_append]
    unfold goalsPerCharacter at goals ⊢
    omega

theorem ListsEntries.value (k : EntryKey) {p : Phrase} (indent : Nat) (alone : Alone oneExpression p) :
    ListsEntries (List.replicate indent ' ' ++ (k.text ++ (": ".toList ++ (p.text ++ [',', '\n']))))
      [.node (.entry .plain) [k.shape, p.shape]] := by
  have lists := ListsEntries.entry indent
    (aloneInside_entry k .value p (List.mem_singleton.mpr rfl) alone.inside)
  simpa [entryOf, EntryShape.lead, EntryShape.form] using lists

def KeyDenotes (key name : String) : Prop :=
  ∃ k : EntryKey, k.text = key.toList ∧ k.shape.keyName? = some name ∧ name ≠ "__proto__"

theorem keyDenotes_word {name : String} (word : Name.IsWord name.toList) (other : name ≠ "__proto__") :
    KeyDenotes name name :=
  ⟨.bare (.word ⟨name, word⟩), rfl, rfl, other⟩

private theorem keyDenotes_quoted {name : String} (inLine : ∀ c ∈ name.toList, c ≠ '\n' ∧ c ≠ '\r')
    (other : name ≠ "__proto__") :
    KeyDenotes (singleQuoted name) name :=
  ⟨.quoted name inLine, rfl, rfl, other⟩

private theorem property?_entry {key : Shape} {name : String} (form : EntryForm) (value : Shape)
    (named : key.keyName? = some name)
    (other : name ≠ "__proto__") : (Shape.node (.entry form) [key, value]).property? = some name := by
  have plain : key.setsPrototype = false := by
    unfold Shape.setsPrototype
    split
    · rw [named, beq_eq_false_iff_ne]
      exact fun same => other (Option.some.inj same)
    · rfl
  rw [Shape.property?, plain, if_neg (by simp), named]

end Grammar

end VueOptions.Script

namespace VueOptions.Options

open Layout Source Text Script
open Script.Grammar
open Script.Literal (OneLine)

/-! ### Entries that are copied -/

/-- A line with an entry, of which what follows the key is read wherever it stands inside brackets. -/
def StandsBehind (indent : Nat) (key : String) (text : List Char) : Prop :=
  ∃ (shape : EntryShape) (opening : String) (p : Phrase), opening ∈ shape.openings ∧
    AloneInside (fun g => shape.rule g) ⟨shape.opened ++ p.text, p.shape⟩ ∧
    text = List.replicate indent ' ' ++
      (shape.lead.toList ++ (key.toList ++ (opening.toList ++ (p.text ++ [',', '\n']))))

theorem standsBehind_value {p : Phrase} (alone : Alone oneExpression p) (indent : Nat) (key : String) :
    StandsBehind indent key
      (List.replicate indent ' ' ++ (key.toList ++ (": ".toList ++ (p.text ++ [',', '\n'])))) :=
  ⟨.value, ": ", p, List.mem_cons_self, alone.inside, by simp [EntryShape.lead]⟩

theorem isBlank_of_mem_replicate {n : Nat} {b : Char} (mem : b ∈ List.replicate n ' ') : isBlank b = true := by
  rw [List.eq_of_mem_replicate mem]
  decide

theorem standsBehind_empty (indent : Nat) (key : String) :
    StandsBehind indent key (List.replicate indent ' ' ++ (key.toList ++ (": ".toList ++
      ('\x7b' :: (['\n'] ++ ([] ++ (List.replicate indent ' ' ++ ['\x7d']))) ++ [',', '\n'])))) := by
  exact standsBehind_value (ListsEntries.nil.alone_object (List.all_eq_true.mp (by decide)) fun b mem =>
    isBlank_of_mem_replicate mem) indent key

theorem standsBehind_function {f : PlainFunction} (isRead : f.body.IsRead) (opening : String)
    (mem : opening ∈ [" (", "("]) (indent : Nat) (key : String) :
    StandsBehind indent key (List.replicate indent ' ' ++ ((EntryShape.function f.isAsync).lead.toList ++
      (key.toList ++ (opening.toList ++ (f.phrase.text.tail ++ [',', '\n']))))) :=
  ⟨.function f.isAsync, opening, ⟨f.phrase.text.tail, f.phrase.shape⟩, mem, (alone_function isRead).inside, rfl⟩

theorem StandsBehind.lists {indent : Nat} {key name : String} {text : List Char}
    (stands : StandsBehind indent key text) (denotes : KeyDenotes key name) :
    ∃ σ, ListsEntries text [σ] ∧ σ.property? = some name := by
  obtain ⟨shape, opening, p, mem, alone, rfl⟩ := stands
  obtain ⟨k, spelled, named, other⟩ := denotes
  have lists := ListsEntries.entry indent (aloneInside_entry k shape p mem alone)
  refine ⟨_, ?_, property?_entry shape.form p.shape named other⟩
  simpa [entryOf, spelled] using lists

/-! ### Watchers -/

private theorem framed_entry (width depth : Nat) (key : String) (body : List Char) :
    framed width depth (key ++ ": \x7b") body "\x7d," =
      List.replicate (width * depth) ' ' ++ (key.toList ++ (": ".toList ++
        ('\x7b' :: (['\n'] ++ (body ++ (List.replicate (width * depth) ' ' ++ ['\x7d']))) ++ [',', '\n']))) := by
  simp [framed, textLine, String.toList_append]

private theorem lists_framed (width depth : Nat) {key name : String} {body : List Char} {shapes : List Shape}
    (denotes : KeyDenotes key name) (lists : ListsEntries body shapes) :
    ∃ σ, ListsEntries (framed width depth (key ++ ": \x7b") body "\x7d,") [σ] ∧ σ.property? = some name ∧
      σ.contents = shapes := by
  obtain ⟨k, spelled, named, other⟩ := denotes
  have indent : ∀ b ∈ List.replicate (width * depth) ' ', isBlank b = true := fun b mem => isBlank_of_mem_replicate mem
  have feed : ∀ b ∈ ['\n'], isBlank b = true := List.all_eq_true.mp (by decide)
  refine ⟨.node (.entry .plain) [k.shape, .node .object shapes], ?_, property?_entry .plain _ named other, rfl⟩
  rw [framed_entry, ← spelled]
  exact ListsEntries.value k (width * depth) (lists.alone_object feed indent)

private theorem feed_not_mem_singleQuoted {name : String} (inLine : OneLine name.toList) :
    '\n' ∉ (singleQuoted name).toList := by
  have quoted : '\n' ∉ "".toList ++ ((singleQuoted name).toList ++ "".toList) :=
    feed_not_mem_quoted inLine (by decide) (by decide)
  simpa using quoted

private def PrintsEntries (width depth : Nat) (as : List Action) : Prop :=
  ∃ text shapes, Prints width depth as text ∧ ListsEntries text shapes

private theorem PrintsEntries.append {width depth : Nat} {as bs : List Action} (first : PrintsEntries width depth as)
    (second : PrintsEntries width depth bs) : PrintsEntries width depth (as ++ bs) := by
  obtain ⟨text, shapes, prints, lists⟩ := first
  obtain ⟨text', shapes', prints', lists'⟩ := second
  exact ⟨_, _, prints.append prints', lists.append lists'⟩

private theorem printsEntries_line (width depth : Nat) (key : EntryKey) {value line : String} {shape : Shape}
    (same : line.toList = key.text ++ (": ".toList ++ (value.toList ++ [','])))
    (left : '\n' ∉ key.text) (right : '\n' ∉ value.toList) (alone : Alone oneExpression ⟨value.toList, shape⟩) :
    PrintsEntries width depth (Action.line line) := by
  have inLine : '\n' ∉ line.toList := by
    rw [same]
    simp [left, right]
  have filled : line ≠ "" := by
    rintro rfl
    simp at same
  refine ⟨_, [.node (.entry .plain) [key.shape, shape]], (PrintsFilled.line inLine filled).prints, ?_⟩
  have printed : textLine width depth line = List.replicate (width * depth) ' ' ++
      (key.text ++ (": ".toList ++ (value.toList ++ [',', '\n']))) := by
    simp [textLine, same]
  rw [printed]
  exact ListsEntries.value key (width * depth) alone

private theorem printsEntries_flag (width depth : Nat) (key : String) (word : Name.IsWord key.toList)
    (inLine : '\n' ∉ key.toList) (flag : Option Bool) :
    PrintsEntries width depth (match flag with
      | some b => Action.line (key ++ ": " ++ flagText b ++ ",")
      | none => []) := by
  have stands (w : Keyword) (kind : Kind) (means : w.literal? = some kind) :
      Alone oneExpression ⟨w.spelling, .node kind []⟩ :=
    alone_of_leads (leads_atom (.literal w kind means)) fun l _ closing => .inl (.inl ⟨l, closing⟩)
  have line (b : Bool) (alone : Alone oneExpression ⟨(flagText b).toList, .node (.boolean b) []⟩)
      (within : '\n' ∉ (flagText b).toList) :
      PrintsEntries width depth (Action.line (key ++ ": " ++ flagText b ++ ",")) :=
    printsEntries_line width depth (.bare (.word ⟨key, word⟩))
      (by simp [EntryKey.text, BareName.text, String.toList_append]) inLine within alone
  cases flag with
  | none => exact ⟨[], [], .nil width depth, .nil⟩
  | some b =>
    cases b with
    | false => exact line false (stands .false_ _ rfl) (by decide)
    | true => exact line true (stands .true_ _ rfl) (by decide)

private theorem Watcher.lists_render {w : Watcher} (width : Nat) (path : OneLine w.path.toList)
    (other : w.path ≠ "__proto__") (handler : OneLine w.handler.name.toList) :
    ∃ σ, ListsEntries (standAlone width 2 w.render) [σ] ∧ σ.property? = some w.path := by
  have named : PrintsEntries width 3 (Action.line ("handler: " ++ singleQuoted w.handler.name ++ ",")) :=
    printsEntries_line width 3 (.bare (.word ⟨"handler", by decide⟩)) (by simp [EntryKey.text, BareName.text])
      (by decide) (feed_not_mem_singleQuoted handler) (alone_string handler)
  have immediate := printsEntries_flag width 3 "immediate" (by decide) (by decide) w.immediate
  have deep := printsEntries_flag width 3 "deep" (by decide) (by decide) w.deep
  obtain ⟨text, shapes, prints, lists⟩ := (named.append immediate).append deep
  obtain ⟨σ, read, property, -⟩ := lists_framed width 2 (keyDenotes_quoted path other) lists
  refine ⟨σ, ?_, property⟩
  have printed : standAlone width 2 w.render = framed width 2 (singleQuoted w.path ++ ": \x7b") text "\x7d," := by
    refine PrintsFilled.standAlone_eq (.framedWith ?_ ?_ (by decide) (by decide) prints)
    · simp [feed_not_mem_singleQuoted path]
    · simp [String.append_assoc]
  rwa [printed]

/-! ### Maps -/

def OptionMap.label : OptionMap → String
  | .props => "props"
  | .data => "data"
  | .watch => "watch"
  | .computed => "computed"
  | .methods => "methods"
  | .emits => "emits"

private theorem OptionMap.label_injective : Function.Injective OptionMap.label := by
  intro a b same
  cases a <;> cases b <;> first | rfl | exact absurd same (by decide)

private theorem OptionMap.keyDenotes_label (map : OptionMap) : KeyDenotes map.label map.label := by
  cases map <;> exact keyDenotes_word (by decide) (by decide)

private def dataObject (width : Nat) (body : List Char) (shapes : List Shape) : Phrase :=
  ⟨'\x7b' :: (['\n'] ++ (body ++ (List.replicate (width * 2) ' ' ++ ['\x7d']))), .node .object shapes⟩

private def dataFunction (width : Nat) (object : Phrase) : PlainFunction where
  isAsync := false
  answer := some (.reference ⟨"Data", by decide⟩ (by decide))
  body := ⟨'\n' :: List.replicate (width * 2) ' ',
    some ⟨"return ".toList ++ object.text, .node .returnStatement [object.shape]⟩,
      '\n' :: List.replicate (width * 1) ' '⟩

private theorem lists_data {width : Nat} {body : List Char} {shapes : List Shape} (lists : ListsEntries body shapes) :
    ∃ σ, ListsEntries (OptionMap.data.frame width body) [σ] ∧ σ.property? = some "data" ∧ σ.contents = shapes := by
  have indent (n : Nat) : ∀ b ∈ List.replicate n ' ', isBlank b = true := fun b mem => isBlank_of_mem_replicate mem
  have behind (n : Nat) : ∀ b ∈ '\n' :: List.replicate n ' ', isBlank b = true :=
    List.forall_mem_cons.mpr ⟨by decide, indent n⟩
  have feed : ∀ b ∈ ['\n'], isBlank b = true := List.all_eq_true.mp (by decide)
  have object : Alone oneExpression (dataObject width body shapes) := lists.alone_object feed (indent (width * 2))
  have returned := endsBody_return object fun rest => ⟨'\x7b', _, rfl, rfl⟩
  have isRead : (dataFunction width (dataObject width body shapes)).body.IsRead := by
    refine ⟨isTrivia_of_blank (behind _), ?_, behind _⟩
    rintro p ⟨⟩
    exact ⟨returned, rfl⟩
  generalize function : dataFunction width (dataObject width body shapes) = f at isRead
  have lists := ListsEntries.entry (width * 1) (aloneInside_entry (.bare (.word ⟨"data", by decide⟩))
    (.function f.isAsync) ⟨f.phrase.text.tail, f.phrase.shape⟩ (List.mem_cons_self (a := " (") (l := ["("]))
    (alone_function isRead).inside)
  have named : (EntryKey.bare (.word ⟨"data", by decide⟩)).shape.keyName? = some "data" := rfl
  refine ⟨_, ?_, property?_entry .method f.phrase.shape named (by decide), by rw [← function]; rfl⟩
  have printed : OptionMap.data.frame width body = List.replicate (width * 1) ' ' ++
      ((entryOf (.bare (.word ⟨"data", by decide⟩)) (.function f.isAsync) " ("
        ⟨f.phrase.text.tail, f.phrase.shape⟩).text ++ [',', '\n']) := by
    rw [← function]
    simp [OptionMap.frame, framed, textLine, entryOf, EntryKey.text, BareName.text, EntryShape.lead, dataFunction,
      dataObject, PlainFunction.phrase, Body.inside, WordType.word]
  rw [printed]
  exact lists

private theorem OptionMap.frame_eq {map : OptionMap} (other : map ≠ .data) (width : Nat) (body : List Char) :
    map.frame width body = framed width 1 (map.label ++ ": \x7b") body "\x7d," := by
  cases map with
  | data => exact absurd rfl other
  | _ => simp [OptionMap.frame, OptionMap.label]

private theorem OptionMap.lists_frame (map : OptionMap) (width : Nat) {body : List Char} {shapes : List Shape}
    (lists : ListsEntries body shapes) :
    ∃ σ, ListsEntries (map.frame width body) [σ] ∧ σ.property? = some map.label ∧ σ.contents = shapes := by
  by_cases data : map = .data
  · subst data
    exact lists_data lists
  · rw [OptionMap.frame_eq data]
    exact lists_framed width 1 map.keyDenotes_label lists

/-! ### What is copied -/

def Component.importedEntry (c : Component) : List Action :=
  blockEntry "components: " (c.imported.flatMap fun text => Action.line (text ++ ","))

structure CopiesStand (width : Nat) (c : Component) (t : Table) : Prop where
  components : c.imported ≠ [] → StandsBehind (width * 1) "components" (standAlone width 1 c.importedEntry)
  mixins : t.mixins ≠ [] → StandsBehind (width * 1) "mixins" (printLines width (inline 1 (mixinPieces t.mixins)))
  hooks : ∀ h ∈ t.hooks, StandsBehind (width * 1) h.name (standAlone width 1 h.render)
  entries : ∀ map : OptionMap, map ≠ .watch → ∀ e ∈ t.entriesOf map,
    StandsBehind (width * map.depth) e.1 (standAlone width map.depth e.2)

def Event.text : Event → String
  | .name value => value
  | .expression text => text

def Table.namesOf (t : Table) : OptionMap → List String
  | .watch => t.watchers.map Watcher.path
  | .emits => t.emits.map fun e => e.event.text
  | map => t.keysOf map

/-- The maps whose entries are called like the members that declare them. -/
def OptionMap.IsByName (map : OptionMap) : Prop := map ≠ .watch ∧ map ≠ .emits

/-- The keys of the maps are words, paths within a line, and names of events within a line; none of them is the one
that sets what an object inherits from. -/
structure KeysStand (t : Table) : Prop where
  words : ∀ map : OptionMap, map.IsByName → ∀ key ∈ t.keysOf map, Name.IsWord key.toList ∧ key ≠ "__proto__"
  paths : ∀ w ∈ t.watchers, OneLine w.path.toList ∧ w.path ≠ "__proto__"
  events : ∀ e ∈ t.emits, ∃ name, e.event = .name name ∧ OneLine name.toList ∧ name ≠ "__proto__"

section

variable {width : Nat} {c : Component} {t : Table}

theorem Table.namesOf_eq (t : Table) {map : OptionMap} (byName : map.IsByName) : t.namesOf map = t.keysOf map := by
  cases map with
  | watch => exact absurd rfl byName.1
  | emits => exact absurd rfl byName.2
  | _ => rfl

private theorem Table.length_namesOf (t : Table) (map : OptionMap) :
    (t.namesOf map).length = (t.entriesOf map).length := by
  cases map <;> simp [Table.namesOf, Table.keysOf, Table.entriesOf]

private theorem exists_entries (copies : CopiesStand width c t) (keys : KeysStand t) (map : OptionMap) :
    ∃ shapes, ListsEntries (Options.entries width map.depth Prod.snd (t.entriesOf map)) shapes ∧
      shapes.map Shape.property? = (t.namesOf map).map some := by
  by_cases watch : map = .watch
  · subst watch
    have handlers : ∀ w ∈ t.watchers, w.handler.name ∈ t.keysOf .methods := fun w mem =>
      List.mem_map.mpr ⟨_, List.mem_append_right _ (List.mem_map.mpr ⟨w, mem, rfl⟩), rfl⟩
    rw [Table.entriesOf, entries_map]
    exact ListsEntries.flatMap t.watchers fun w mem => w.lists_render width (keys.paths w mem).1 (keys.paths w mem).2
      (oneLine_of_isWord (keys.words .methods ⟨by decide, by decide⟩ _ (handlers w mem)).1)
  · by_cases emits : map = .emits
    · subst emits
      rw [Table.entriesOf, entries_map]
      refine ListsEntries.flatMap t.emits fun e mem => ?_
      obtain ⟨name, named, inLine, other⟩ := keys.events e mem
      have stands := copies.entries .emits watch _ (List.mem_map.mpr ⟨e, mem, rfl⟩)
      rw [named]
      refine stands.lists ?_
      rw [named]
      exact keyDenotes_quoted inLine other
    · rw [t.namesOf_eq ⟨watch, emits⟩]
      refine ListsEntries.flatMap (t.entriesOf map) fun e mem => (copies.entries map watch e mem).lists ?_
      obtain ⟨word, other⟩ := keys.words map ⟨watch, emits⟩ e.1 (List.mem_map.mpr ⟨e, mem, rfl⟩)
      exact keyDenotes_word word other

/-! ### Sections -/

def ListsBlocks (blocks : List (List Char)) (shapes : List Shape) : Prop :=
  ∃ segments : List (List Char × List Shape), blocks = segments.map Prod.fst ∧ shapes = segments.flatMap Prod.snd ∧
    ∀ s ∈ segments, ListsEntries s.1 s.2

theorem ListsBlocks.append {blocks more : List (List Char)} {shapes others : List Shape}
    (first : ListsBlocks blocks shapes) (second : ListsBlocks more others) :
    ListsBlocks (blocks ++ more) (shapes ++ others) := by
  obtain ⟨segments, rfl, rfl, lists⟩ := first
  obtain ⟨segments', rfl, rfl, lists'⟩ := second
  refine ⟨segments ++ segments', by simp, by simp, ?_⟩
  simpa only [List.mem_append, or_imp, forall_and] using And.intro lists lists'

theorem ListsBlocks.singleton {text : List Char} {shapes : List Shape} (lists : ListsEntries text shapes) :
    ListsBlocks [text] shapes :=
  ⟨[(text, shapes)], rfl, by simp, by simpa using lists⟩

theorem ListsBlocks.when (isPresent : Bool) (text : List Char) (P : Shape → Prop)
    (lists : isPresent = true → ∃ shapes, ListsEntries text shapes ∧ ∀ σ ∈ shapes, P σ) :
    ∃ shapes, ListsBlocks (blockWhen isPresent text) shapes ∧ ∀ σ ∈ shapes, P σ := by
  cases isPresent with
  | false => exact ⟨[], ⟨[], rfl, rfl, nofun⟩, nofun⟩
  | true =>
    obtain ⟨shapes, read, all⟩ := lists rfl
    exact ⟨shapes, .singleton read, all⟩

theorem ListsBlocks.joinLines {blocks : List (List Char)} {shapes : List Shape} (lists : ListsBlocks blocks shapes) :
    ListsEntries (Text.joinLines blocks) shapes := by
  obtain ⟨segments, rfl, rfl, each⟩ := lists
  induction segments with
  | nil => exact .nil
  | cons s segments ih =>
    obtain ⟨first, others⟩ := List.forall_mem_cons.mp each
    cases segments with
    | nil => simpa [Text.joinLines, join] using first
    | cons s' segments =>
      have feed : ListsEntries ['\n'] [] := .blanks (List.all_eq_true.mp (by decide))
      have whole := (first.append feed).append (ih others)
      simpa [Text.joinLines, join] using whole

private theorem exists_mapSection (copies : CopiesStand width c t) (keys : KeysStand t) (map : OptionMap) :
    ∃ option : List Shape, ListsBlocks (t.mapSection width map) option ∧
      (∀ σ ∈ option, σ.property? = some map.label) ∧
      ((option.getLast?.map Shape.contents).getD []).map Shape.property? = (t.namesOf map).map some := by
  obtain ⟨shapes, lists, names⟩ := exists_entries copies keys map
  obtain ⟨σ, framed, property, contents⟩ := map.lists_frame width lists
  unfold Table.mapSection
  cases none : (t.entriesOf map).isEmpty with
  | true =>
    have empty : t.entriesOf map = [] := List.isEmpty_iff.mp none
    have noNames : t.namesOf map = [] := List.length_eq_zero_iff.mp (by rw [t.length_namesOf, empty, List.length_nil])
    exact ⟨[], ⟨[], rfl, rfl, nofun⟩, nofun, by rw [noNames]; rfl⟩
  | false =>
    refine ⟨[σ], .singleton framed, by simpa using property, ?_⟩
    simpa [contents] using names

theorem exists_head (copies : CopiesStand width c t) (inLine : OneLine c.name.toList) :
    ∃ shapes, ListsEntries (standAlone width 1 c.render) shapes ∧
      ∀ σ ∈ shapes, σ.property? = some "name" ∨ σ.property? = some "components" := by
  have quoted := feed_not_mem_singleQuoted inLine
  have named : PrintsFilled width 1 (Action.line ("name: " ++ singleQuoted c.name ++ ","))
      (textLine width 1 ("name: " ++ singleQuoted c.name ++ ",")) :=
    .line (by simp [quoted]) (by simp)
  have lays : Lays width 1 c.render ([textLine width 1 ("name: " ++ singleQuoted c.name ++ ",")] ++
      blockWhen (!c.imported.isEmpty) (standAlone width 1 c.importedEntry)) := by
    have entry : IsFilled 1 c.importedEntry :=
      isFilled_blockEntry "components: " (.flatMap c.imported fun text => .line _ (text ++ ","))
    have same : c.render = Action.line ("name: " ++ singleQuoted c.name ++ ",") ++
        sectionWhen (!c.imported.isEmpty) c.importedEntry := by
      unfold Component.render sectionWhen
      cases c.imported.isEmpty <;> rfl
    rw [same]
    exact lays_sectionWhen (.singleton named) fun _ => entry.prints
  obtain ⟨σ, first, name⟩ : ∃ σ, ListsEntries (textLine width 1 ("name: " ++ singleQuoted c.name ++ ",")) [σ] ∧
      σ.property? = some "name" := by
    have line : textLine width 1 ("name: " ++ singleQuoted c.name ++ ",") = List.replicate (width * 1) ' ' ++
        ("name".toList ++ (": ".toList ++ ((singleQuoted c.name).toList ++ [',', '\n']))) := by
      simp [textLine]
    have read := ListsEntries.value (.bare (.word ⟨"name", by decide⟩)) (width * 1) (alone_string inLine)
    exact ⟨_, by rw [line]; exact read, rfl⟩
  obtain ⟨shapes, second, components⟩ := ListsBlocks.when (!c.imported.isEmpty)
    (standAlone width 1 c.importedEntry) (fun σ => σ.property? = some "components") fun present => by
      obtain ⟨σ, read, property⟩ := (copies.components (by simpa using present)).lists
        (keyDenotes_word (by decide) (by decide))
      exact ⟨[σ], read, by simpa using property⟩
  rw [lays.prints.standAlone_eq]
  refine ⟨[σ] ++ shapes, (ListsBlocks.append (.singleton first) second).joinLines, ?_⟩
  intro τ mem
  rcases List.mem_append.mp mem with mem | mem
  · rw [List.mem_singleton.mp mem]
    exact .inl name
  · exact .inr (components τ mem)

/-- The entries of a map among the options; of several options with its name the last counts. -/
def OptionMap.entriesIn (map : OptionMap) (options : List Shape) : List Shape :=
  ((options.filter fun o => o.property? == some map.label).getLast?.map Shape.contents).getD []

theorem exists_options (copies : CopiesStand width c t) (keys : KeysStand t) (inLine : OneLine c.name.toList)
    (hooks : ∀ h ∈ t.hooks, KeyDenotes h.name h.name ∧ ∀ map : OptionMap, h.name ≠ map.label) :
    ∃ options, ListsEntries (joinLines (sections width c t)) options ∧
      ∀ map : OptionMap, (map.entriesIn options).map Shape.property? = (t.namesOf map).map some := by
  obtain ⟨head, listsHead, inHead⟩ := exists_head copies inLine
  obtain ⟨mixins, listsMixins, inMixins⟩ := ListsBlocks.when (!t.mixins.isEmpty)
    (printLines width (inline 1 (mixinPieces t.mixins))) (fun σ => σ.property? = some "mixins") fun present => by
      obtain ⟨σ, read, property⟩ := (copies.mixins (by simpa using present)).lists
        (keyDenotes_word (by decide) (by decide))
      exact ⟨[σ], read, by simpa using property⟩
  obtain ⟨hooked, listsHooks, inHooks⟩ := ListsBlocks.when (!t.hooks.isEmpty)
    (Options.entries width 1 Hook.render t.hooks)
    (fun σ => ∀ map : OptionMap, σ.property? ≠ some map.label) fun _ => by
      obtain ⟨shapes, read, names⟩ := ListsEntries.flatMap t.hooks fun h mem =>
          (copies.hooks h mem).lists (hooks h mem).1
      refine ⟨shapes, read, fun σ mem map same => ?_⟩
      have named : σ.property? ∈ (t.hooks.map Hook.name).map some := names ▸ List.mem_map_of_mem mem
      simp only [List.mem_map, exists_exists_and_eq_and] at named
      obtain ⟨h, held, eq⟩ := named
      exact (hooks h held).2 map (Option.some.inj (eq.trans same))
  choose option lists labelled held using exists_mapSection copies keys
  have whole := ((((((((ListsBlocks.singleton listsHead).append listsMixins).append (lists .props)).append
    (lists .data)).append listsHooks).append (lists .watch)).append (lists .computed)).append
    (lists .methods)).append (lists .emits)
  rw [← sections_eq] at whole
  refine ⟨_, whole.joinLines, fun map => ?_⟩
  have own : (option map).filter (fun o => o.property? == some map.label) = option map :=
    List.filter_eq_self.mpr fun σ mem => beq_iff_eq.mpr (labelled map σ mem)
  have others (map' : OptionMap) (apart : map' ≠ map) :
      (option map').filter (fun o => o.property? == some map.label) = [] := by
    refine List.filter_eq_nil_iff.mpr fun σ mem same => apart ?_
    rw [labelled map' σ mem, beq_iff_eq] at same
    exact OptionMap.label_injective (Option.some.inj same)
  have noHead : head.filter (fun o => o.property? == some map.label) = [] := by
    refine List.filter_eq_nil_iff.mpr fun σ mem same => ?_
    rw [beq_iff_eq] at same
    rcases inHead σ mem with name | name <;> rw [name] at same <;> cases map <;> exact absurd same (by decide)
  have noMixins : mixins.filter (fun o => o.property? == some map.label) = [] := by
    refine List.filter_eq_nil_iff.mpr fun σ mem same => ?_
    rw [beq_iff_eq, inMixins σ mem] at same
    cases map <;> exact absurd same (by decide)
  have noHooks : hooked.filter (fun o => o.property? == some map.label) = [] :=
    List.filter_eq_nil_iff.mpr fun σ mem same => inHooks σ mem map (beq_iff_eq.mp same)
  rw [OptionMap.entriesIn, ← held map]
  simp only [List.filter_append, noHead, noMixins, noHooks, List.nil_append]
  cases map with
  | _ => simp [own, others]

end

end VueOptions.Options
