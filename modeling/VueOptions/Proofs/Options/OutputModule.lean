import VueOptions.Options.Generate
import VueOptions.Proofs.Layout.Composition
import VueOptions.Proofs.Source.StatementText

/-!
The text of the output module before house style, said without a writer that goes through all of it:
blocks with one blank line between each two, of which the last holds the sections of the component in
the same way. The body of a section is made of its entries, each laid out on a writer of its own. Main
statement: this is what the generator writes.
-/

set_option autoImplicit false

namespace VueOptions.Options

open Layout Source Text

/-- Entries one behind another, each laid out on a writer of its own. -/
def entries {α : Type} (width depth : Nat) (render : α → List Action) (items : List α) : List Char :=
  items.flatMap fun i => standAlone width depth (render i)

def blockWhen (isPresent : Bool) (block : List Char) : List (List Char) :=
  if isPresent then [block] else []

def mixinPieces (ms : List Mixin) : List (List Action) :=
  [.write "mixins: ["] :: (ms.map Mixin.render).intersperse [.write ", "] ++ [[.write "],"]]

/-- The entries of the methods: methods, then emits, then the handlers of watchers. -/
def methodEntries (width : Nat) (t : Table) : List (List Char) :=
  t.methods.map (fun m => standAlone width 2 m.render)
    ++ t.emits.map (fun e => standAlone width 2 e.render)
    ++ t.watchers.map (fun w => standAlone width 2 w.handler.render)

def sections (width : Nat) (c : Component) (t : Table) : List (List Char) :=
  [standAlone width 1 c.render]
    ++ blockWhen (!t.mixins.isEmpty) (printLines width (inline 1 (mixinPieces t.mixins)))
    ++ blockWhen (!t.props.isEmpty)
      (framed width 1 "props: \x7b" (entries width 2 PropField.render t.props) "\x7d,")
    ++ blockWhen (!t.data.isEmpty)
      (framed width 1 "data (): Data \x7b"
        (framed width 2 "return \x7b" (entries width 3 DataField.render t.data) "\x7d") "\x7d,")
    ++ blockWhen (!t.hooks.isEmpty) (entries width 1 Hook.render t.hooks)
    ++ blockWhen (!t.watchers.isEmpty)
      (framed width 1 "watch: \x7b" (entries width 2 Watcher.render t.watchers) "\x7d,")
    ++ blockWhen (!t.getters.isEmpty || !t.refs.isEmpty)
      (framed width 1 "computed: \x7b"
        (entries width 2 Getter.render t.getters ++ entries width 2 RefField.render t.refs) "\x7d,")
    ++ blockWhen (!t.methods.isEmpty || !t.emits.isEmpty || !t.watchers.isEmpty)
      (framed width 1 "methods: \x7b" (methodEntries width t).flatten "\x7d,")
    ++ blockWhen (!t.emits.isEmpty)
      (framed width 1 "emits: \x7b" (entries width 2 Emit.renderValidator t.emits) "\x7d,")

def keptImports (d : Dialect) (m : Module) : List String :=
  (m.imports.filter fun i => !d.isDecoratorSource i.1).map Prod.snd

def carriedOf (kind : CarriedKind) (m : Module) : List String :=
  (m.carried.filter fun c => c.1 == kind).map Prod.snd

def ended (text : String) : List Char := text.toList ++ ['\n']

def moduleBlocks (d : Dialect) (m : Module) (c : Component) (t : Table) : List (List Char) :=
  [textLine d.indentWidth 0 "import \x7b defineComponent \x7d from 'vue'"
      ++ if t.props.isEmpty then []
        else textLine d.indentWidth 0 "import type \x7b PropType \x7d from 'vue'"]
    ++ blockWhen (!(keptImports d m).isEmpty) ((keptImports d m).flatMap ended)
    ++ (carriedOf .typeAlias m ++ carriedOf .interface m ++ carriedOf .other m).map ended
    ++ blockWhen (!t.data.isEmpty)
      (framed d.indentWidth 0 "type Data = \x7b"
        (entries d.indentWidth 1 DataField.renderType t.data) "\x7d")
    ++ [framed d.indentWidth 0 "export default defineComponent(\x7b"
      (joinLines (sections d.indentWidth c t)) "\x7d)"]

section

variable {depth : Nat}

theorem isFilled_blockEntry (head : String) {body : List Action} (inner : WholeLines (depth + 1) body) :
    IsFilled depth (blockEntry head body) :=
  .block head inner (by decide)

theorem isFilled_functionEntry (head : String) (statements : List String) :
    IsFilled depth (functionEntry head statements) :=
  isFilled_blockEntry head (.flatMap statements fun s => .line (depth + 1) s)

private theorem PropField.isFilled_render (p : PropField) : IsFilled depth p.render := by
  refine isFilled_blockEntry _ (((WholeLines.append ?_ ?_).append ?_).append ?_)
  · cases p.propType with
    | none => exact .nil _
    | some _ => exact .line _ _
  · split
    · exact .line _ _
    · exact .nil _
  · cases p.default with
    | none => exact .nil _
    | some _ => exact .line _ _
  · cases p.validator with
    | none => exact .nil _
    | some _ => exact .line _ _

private theorem Watcher.isFilled_render (w : Watcher) : IsFilled depth w.render := by
  refine isFilled_blockEntry _ ((WholeLines.append (.line _ _) ?_).append ?_)
  · cases w.immediate with
    | none => exact .nil _
    | some _ => exact .line _ _
  · cases w.deep with
    | none => exact .nil _
    | some _ => exact .line _ _

private theorem RefField.isFilled_render (r : RefField) : IsFilled depth r.render := by
  unfold RefField.render
  split <;> exact isFilled_functionEntry _ _

theorem DataField.isEntry_render (f : DataField) : IsEntry depth f.render :=
  .line (c := ',') (by simp [String.toList_append]) (by decide)

private theorem DataField.isEntry_renderType (f : DataField) : IsEntry depth f.renderType :=
  .line (c := ':') (by simp [DataField.typeEntry, String.toList_append]) (by decide)

private theorem Component.isFilled_render (c : Component) : IsFilled depth c.render := by
  have named : EndsFilled (Line.ofText depth ("name: " ++ singleQuoted c.name ++ ",").toList) :=
    Line.endsFilled_ofText (by simp) (by
      rw [String.toList_append, List.getLast?_append]
      exact nofun)
  unfold Component.render
  split
  · rw [List.append_nil]
    exact ⟨_, .line depth _, named⟩
  · have components : IsFilled depth (blockEntry "components: "
        (c.imported.flatMap fun text => Action.line (text ++ ","))) :=
      isFilled_blockEntry _ (.flatMap _ fun _ => .line _ _)
    obtain ⟨ls, written, l, last, notBlank⟩ := components
    have steps := (Writes.blankLine (.line depth _) named).append written
    rw [List.append_assoc] at steps
    refine ⟨_, steps, l, ?_, notBlank⟩
    rw [List.getLast?_append, last, Option.some_or]

end

theorem lays_sectionWhen {width depth : Nat} {as bs : List Action} {blocks : List (List Char)}
    {text : List Char} {isPresent : Bool} (first : Lays width depth as blocks)
    (second : isPresent = true → PrintsFilled width depth bs text) :
    Lays width depth (as ++ sectionWhen isPresent bs) (blocks ++ blockWhen isPresent text) := by
  cases isPresent with
  | false => simpa [sectionWhen, blockWhen] using first
  | true => exact first.blankLine (second rfl)

private theorem printsFilled_braces {width : Nat} {head opening : String} {body : List Action}
    {text : List Char} (inLine : '\n' ∉ head.toList) (opens : opening = head ++ "\x7b")
    (inner : Prints width 2 body text) :
    PrintsFilled width 1 (blockEntry head body) (framed width 1 opening text "\x7d,") :=
  .framedWith inLine opens (by simp) (by decide) inner

private theorem intersperse_map {α β : Type} (f : α → β) (sep : α) (xs : List α) :
    (xs.map f).intersperse (f sep) = (xs.intersperse sep).map f := by
  induction xs with
  | nil => rfl
  | cons x xs ih =>
    cases xs with
    | nil => rfl
    | cons y ys =>
      rw [List.map_cons, List.map_cons, List.intersperse_cons_cons, ← List.map_cons, ih]
      rfl

private theorem printsFilled_mixins (width : Nat) (ms : List Mixin) :
    PrintsFilled width 1 (.write "mixins: [" :: [Action.write ", "].intercalate (ms.map Mixin.render)
      ++ [.write "],", .newLine]) (printLines width (inline 1 (mixinPieces ms))) := by
  let texts := "mixins: [" :: (ms.map Mixin.name).intersperse ", "
  have rendered : (ms.map Mixin.render).intersperse [Action.write ", "] =
      ((ms.map Mixin.name).intersperse ", ").map fun t => [.write t] := by
    rw [← intersperse_map, List.map_map]
    rfl
  have pieces : mixinPieces ms = (texts.map fun t => [Action.write t]) ++ [[.write "],"]] := by
    rw [mixinPieces, rendered]
    rfl
  have actions : .write "mixins: [" :: [Action.write ", "].intercalate (ms.map Mixin.render)
      = texts.map Action.write := by
    rw [List.intercalate, rendered, ← List.flatMap_def, List.map_cons]
    exact congrArg _ List.map_eq_flatMap.symm
  rw [pieces, actions]
  exact .inline texts (by decide) (by decide)

private theorem lays_sections (width : Nat) {c : Component} {t : Table} (component : t.component = some c) :
    Lays width 1 t.renderOptions (sections width c t) := by
  unfold Table.renderOptions sections
  rw [component]
  refine lays_sectionWhen (lays_sectionWhen (lays_sectionWhen (lays_sectionWhen (lays_sectionWhen
    (lays_sectionWhen (lays_sectionWhen (lays_sectionWhen (.singleton c.isFilled_render.prints)
      ?mixins) ?props) ?data) ?hooks) ?watch) ?computed) ?methods) ?emits
  case mixins => exact fun _ => printsFilled_mixins width t.mixins
  case props =>
    exact fun _ => printsFilled_braces (by decide) (by simp)
      (.flatMap t.props fun p => p.isFilled_render.isEntry)
  case data =>
    have returned : PrintsFilled width 2
        [.write "return ", .block (t.data.flatMap DataField.render), .newLine]
        (framed width 2 "return \x7b" (entries width 3 DataField.render t.data) "\x7d") :=
      .framed (by decide) (by simp) (.flatMap t.data fun f => f.isEntry_render)
    exact fun _ => printsFilled_braces (by decide) (by simp) returned.prints
  case hooks =>
    intro present
    have ne : t.hooks ≠ [] := by simpa using present
    exact .flatMap ne fun h _ => (isFilled_functionEntry _ _).prints
  case watch =>
    exact fun _ => printsFilled_braces (by decide) (by simp)
      (.flatMap t.watchers fun w => w.isFilled_render.isEntry)
  case computed =>
    exact fun _ => printsFilled_braces (by decide) (by simp)
      ((Prints.flatMap t.getters fun g => (isFilled_functionEntry _ _).isEntry).append
        (.flatMap t.refs fun r => r.isFilled_render.isEntry))
  case methods =>
    intro _
    refine printsFilled_braces (by decide) (by simp) ?_
    rw [methodEntries, List.flatten_append, List.flatten_append]
    exact ((Prints.flatMap t.methods fun m => (isFilled_functionEntry _ _).isEntry).append
      (.flatMap t.emits fun e => (isFilled_functionEntry _ _).isEntry)).append
        (.flatMap t.watchers fun w => (isFilled_functionEntry _ _).isEntry)
  case emits =>
    exact fun _ => printsFilled_braces (by decide) (by simp)
      (.flatMap t.emits fun e => (isFilled_functionEntry _ _).isEntry)

private theorem printsFilled_statement {text : String} (width : Nat) (stays : StaysInLine text) :
    PrintsFilled width 0 (Action.line text) (ended text) :=
  ⟨_, .line 0 text, Line.endsFilled_ofText stays.1 stays.2, printLines_ofText width text.toList⟩

private theorem lays_imports (d : Dialect) {m : Module} (t : Table)
    (stays : ∀ i ∈ m.imports, StaysInLine i.2) :
    Lays d.indentWidth 0 (renderImports d m t)
      ([textLine d.indentWidth 0 "import \x7b defineComponent \x7d from 'vue'"
          ++ if t.props.isEmpty then []
            else textLine d.indentWidth 0 "import type \x7b PropType \x7d from 'vue'"]
        ++ blockWhen (!(keptImports d m).isEmpty) ((keptImports d m).flatMap ended)) := by
  have vue : PrintsFilled d.indentWidth 0 (Action.line "import \x7b defineComponent \x7d from 'vue'")
      (textLine d.indentWidth 0 "import \x7b defineComponent \x7d from 'vue'") :=
    .line (by decide) (by decide)
  rw [keptImports, List.isEmpty_map, List.flatMap_map]
  refine lays_sectionWhen (.singleton ?_) ?_
  · split
    · simpa using vue
    · exact vue.prints.append_filled (.line (by decide) (by decide))
  · intro present
    refine .flatMap (by simpa using present) fun i mem => ?_
    exact printsFilled_statement d.indentWidth (stays i (List.mem_filter.mp mem).1)

private theorem lays_statements {width : Nat} {as : List Action} {blocks : List (List Char)}
    (texts : List String) (stays : ∀ text ∈ texts, StaysInLine text) (first : Lays width 0 as blocks) :
    Lays width 0 (as ++ texts.flatMap fun text => .blankLine :: Action.line text)
      (blocks ++ texts.map ended) := by
  induction texts generalizing as blocks with
  | nil => simpa using first
  | cons text texts ih =>
    -- A statement never ends its last line, so the blank line behind it is written.
    have next := first.blankLine (printsFilled_statement width (stays text List.mem_cons_self))
    have rest := ih (fun u mem => stays u (List.mem_cons_of_mem text mem)) next
    rw [List.append_assoc, List.append_assoc] at rest
    exact rest

private theorem lays_module {script : String} {d : Dialect} {m : Module} {c : Component} {t : Table}
    (parsed : Module.parse? script = some m) (component : t.component = some c) :
    Lays d.indentWidth 0 (renderModule d m t) (moduleBlocks d m c t) := by
  have carried : carriedInOrder m =
      carriedOf .typeAlias m ++ carriedOf .interface m ++ carriedOf .other m := by
    simp [carriedInOrder, carriedOf]
  have stays : ∀ text ∈ carriedInOrder m, StaysInLine text := by
    intro text mem
    obtain ⟨kind, -, hkind⟩ := List.mem_flatMap.mp mem
    obtain ⟨i, hi, rfl⟩ := List.mem_map.mp hkind
    exact staysInLine_carried parsed (List.mem_filter.mp hi).1
  have component : PrintsFilled d.indentWidth 0
      [.write "export default defineComponent(", .block t.renderOptions, .write ")", .newLine]
      (framed d.indentWidth 0 "export default defineComponent(\x7b"
        (joinLines (sections d.indentWidth c t)) "\x7d)") :=
    .framedWith (by decide) (by simp) (by simp) (by decide)
      (lays_sections d.indentWidth component).prints.prints
  unfold moduleBlocks
  rw [← carried]
  refine Lays.blankLine (lays_sectionWhen (lays_statements _ stays
    (lays_imports d t fun i mem => staysInLine_import parsed mem)) fun _ => ?_) component
  exact .framed (by decide) (by simp) (.flatMap t.data fun f => f.isEntry_renderType)

theorem print_renderModule {script : String} {d : Dialect} {m : Module} {c : Component} {t : Table}
    (parsed : Module.parse? script = some m) (component : t.component = some c) :
    Writer.print d.indentWidth (renderModule d m t) = joinLines (moduleBlocks d m c t) :=
  (lays_module parsed component).prints.standAlone_eq

/-- The text that house style is applied to is that of the blocks of the module with one blank line
between each two, for every table with a component; the methods are one entry for each method, each
emit and each watcher. -/
theorem output_text_is_blocks {script : String} {d : Dialect} {m : Module} {c : Component} {t : Table}
    (parsed : Module.parse? script = some m) (component : t.component = some c) :
    Writer.print d.indentWidth (renderModule d m t) = joinLines (moduleBlocks d m c t) ∧
      generate d m t = String.ofList (normalize (joinLines (moduleBlocks d m c t)) d.indentWidth) ∧
      (methodEntries d.indentWidth t).length =
        t.methods.length + t.emits.length + t.watchers.length := by
  have printed := print_renderModule (d := d) parsed component
  refine ⟨printed, by rw [generate, printed], ?_⟩
  simp only [methodEntries, List.length_append, List.length_map]

/-- A script with an import, a component, an export of both, text of several lines, and a type. -/
def pageScript : String :=
  "import x from './x'\n@Component class Page \x7b\x7d\nexport \x7b Page, x \x7d\nf(`a\n"
    ++ " b`)\ntype T = X\n"

/-- A table with entries of every kind, some with several lines or none. -/
def crowdedTable : Table where
  component := some ⟨"Page", ["Base", "Row: () => \x7b\n\x7d"]⟩
  mixins := [⟨"First"⟩, ⟨"\n"⟩]
  props := [⟨"size", false, true, some "Number", "number", none, some "v => \x7b\n  v\n\x7d"⟩]
  data := [⟨"id", some "`a\n\n  b`", some "Id", true⟩, ⟨"", none, none, false⟩]
  refs := [⟨"box", none, false⟩]
  hooks := [⟨"created", [], "void", ["", "load()"], true⟩]
  methods := [⟨"run", [], none, some ["a()\n", "b()"], false⟩, ⟨"stop", [], some "void", none, false⟩]
  getters := [⟨"shown", none, []⟩]
  emits := [⟨"tell", .name "told", [], "void", ["$emit"], false⟩]
  watchers := [⟨"id.of", ⟨"changed", [], none, none, false⟩, some true, none⟩]

/-- The text of that table behind the statements of that script is made of its blocks, and four entries
stand in the methods. -/
theorem crowded_page_text_is_blocks :
    ∃ m c, Module.parse? pageScript = some m ∧ crowdedTable.component = some c ∧
      Writer.print 4 (renderModule {} m crowdedTable) = joinLines (moduleBlocks {} m c crowdedTable) ∧
      generate {} m crowdedTable =
        String.ofList (normalize (joinLines (moduleBlocks {} m c crowdedTable)) 4) ∧
      (methodEntries 4 crowdedTable).length = 4 := by
  obtain ⟨m, parsed⟩ : ∃ m, Module.parse? pageScript = some m :=
    Option.isSome_iff_exists.mp (by decide +kernel)
  obtain ⟨printed, generated, count⟩ := output_text_is_blocks (d := {}) (t := crowdedTable) parsed rfl
  exact ⟨m, _, parsed, rfl, printed, generated, count⟩

end VueOptions.Options
