import VueOptions.Proofs.Options.OutputModule

/-!
The options that are maps. Each is a section of the output where it has entries, and holds them one behind another.
-/

set_option autoImplicit false

namespace VueOptions.Options

open Layout Source Text

inductive OptionMap
  | props
  | data
  | watch
  | computed
  | methods
  | emits
  deriving DecidableEq, Repr

def OptionMap.frame (width : Nat) (body : List Char) : OptionMap → List Char
  | .props => framed width 1 "props: \x7b" body "\x7d,"
  | .data => framed width 1 "data (): Data \x7b" (framed width 2 "return \x7b" body "\x7d") "\x7d,"
  | .watch => framed width 1 "watch: \x7b" body "\x7d,"
  | .computed => framed width 1 "computed: \x7b" body "\x7d,"
  | .methods => framed width 1 "methods: \x7b" body "\x7d,"
  | .emits => framed width 1 "emits: \x7b" body "\x7d,"

def OptionMap.depth : OptionMap → Nat
  | .data => 3
  | _ => 2

def Table.entriesOf (t : Table) : OptionMap → List (String × List Action)
  | .props => t.props.map fun p => (p.name, p.render)
  | .data => t.data.map fun f => (f.name, f.render)
  | .watch => t.watchers.map fun w => (singleQuoted w.path, w.render)
  | .computed => t.getters.map (fun g => (g.name, g.render)) ++ t.refs.map fun r => (r.name, r.render)
  | .methods => t.methods.map (fun m => (m.name, m.render)) ++ t.emits.map (fun e => (e.name, e.render))
      ++ t.watchers.map fun w => (w.handler.name, w.handler.render)
  | .emits => t.emits.map fun e => (e.event.key, e.renderValidator)

def Table.keysOf (t : Table) (map : OptionMap) : List String := (t.entriesOf map).map Prod.fst

theorem entries_map {α β : Type} (width depth : Nat) (render : β → List Action) (f : α → β)
    (items : List α) :
    entries width depth render (items.map f) = entries width depth (fun i => render (f i)) items := by
  rw [entries, List.flatMap_map, entries]

private theorem entries_append {α : Type} (width depth : Nat) (render : α → List Action) (xs ys : List α) :
    entries width depth render (xs ++ ys) =
      entries width depth render xs ++ entries width depth render ys := by
  rw [entries, List.flatMap_append, entries, entries]

private theorem not_isEmpty_append {α : Type} (xs ys : List α) :
    (!(xs ++ ys).isEmpty) = (!xs.isEmpty || !ys.isEmpty) := by
  cases xs <;> rfl

def Table.mapSection (t : Table) (width : Nat) (map : OptionMap) : List (List Char) :=
  blockWhen (!(t.entriesOf map).isEmpty)
    (map.frame width (entries width map.depth Prod.snd (t.entriesOf map)))

theorem sections_eq (width : Nat) (c : Component) (t : Table) :
    sections width c t = [standAlone width 1 c.render]
      ++ blockWhen (!t.mixins.isEmpty) (printLines width (inline 1 (mixinPieces t.mixins)))
      ++ t.mapSection width .props ++ t.mapSection width .data
      ++ blockWhen (!t.hooks.isEmpty) (entries width 1 Hook.render t.hooks)
      ++ t.mapSection width .watch ++ t.mapSection width .computed ++ t.mapSection width .methods
      ++ t.mapSection width .emits := by
  have methods : (methodEntries width t).flatten = entries width 2 Prod.snd (t.entriesOf .methods) := by
    rw [methodEntries, List.flatten_append, List.flatten_append, Table.entriesOf, entries_append,
      entries_append, entries_map, entries_map, entries_map]
    rfl
  have computed : entries width 2 Getter.render t.getters ++ entries width 2 RefField.render t.refs =
      entries width 2 Prod.snd (t.entriesOf .computed) := by
    rw [Table.entriesOf, entries_append, entries_map, entries_map]
  have anyMethods : (!t.methods.isEmpty || !t.emits.isEmpty || !t.watchers.isEmpty) =
      !(t.entriesOf .methods).isEmpty := by
    simp only [Table.entriesOf, not_isEmpty_append, List.isEmpty_map]
  have anyComputed : (!t.getters.isEmpty || !t.refs.isEmpty) = !(t.entriesOf .computed).isEmpty := by
    simp only [Table.entriesOf, not_isEmpty_append, List.isEmpty_map]
  rw [sections, methods, computed, anyMethods, anyComputed]
  simp only [Table.mapSection, OptionMap.frame, OptionMap.depth, Table.entriesOf, entries_map,
    List.isEmpty_map]

theorem frame_mem_sections (width : Nat) (c : Component) {t : Table} {map : OptionMap}
    (filled : t.entriesOf map ≠ []) :
    map.frame width (entries width map.depth Prod.snd (t.entriesOf map)) ∈ sections width c t := by
  have present : map.frame width (entries width map.depth Prod.snd (t.entriesOf map)) ∈
      t.mapSection width map := by
    simp [Table.mapSection, blockWhen, filled]
  rw [sections_eq]
  simp only [List.mem_append]
  cases map <;> simp only [present, true_or, or_true]

private theorem PropField.name_withOption (p : PropField) (o : String × Expression) :
    (p.withOption o).name = p.name := by
  unfold withOption
  split
  split
  · rfl
  · split
    · rfl
    · split
      · rfl
      · split
        · rfl
        · rfl

theorem PropField.name_ofField (f : Field) (x : Decorator) : (PropField.ofField f x).name = f.key.label := by
  have run (options : List (String × Expression)) (p : PropField) :
      (options.foldl withOption p).name = p.name := by
    induction options generalizing p with
    | nil => rfl
    | cons o options ih => rw [List.foldl_cons, ih, name_withOption]
  unfold ofField
  split
  · exact run _ _
  · rfl
  · rfl

end VueOptions.Options
