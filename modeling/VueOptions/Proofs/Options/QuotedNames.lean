import VueOptions.Proofs.Options.EmitTrigger
import VueOptions.Proofs.Options.EventNames
import VueOptions.Proofs.Options.MemberFidelity
import VueOptions.Proofs.Options.WatchOptions
import VueOptions.Proofs.Script.StringLiterals
import VueOptions.Proofs.Options.SpelledScripts

/-!
Names in quotes. The name of the component, the watched paths, the names of their handlers and the names of events are
written in single quotes, each on a line that says what it is (`NameLine.Names`). In quotes a name is one string literal
that stands for its characters, exactly if it holds no line end. Words hold none, and neither do the events that are
called like them; the value of a string may.
-/

set_option autoImplicit false

namespace VueOptions.Options

open Layout Source Text Script
open Script.Literal (IsLiteral OneLine Paired joinPairs textOfUnits)

theorem oneLine_of_isWord {w : List Char} (word : Name.IsWord w) : OneLine w := by
  intro c mem
  have solid := Name.solid_isPart.isBlank_eq_false (word.isPart c mem)
  constructor <;> rintro rfl <;> exact absurd solid (by decide)

private theorem toLower_ne {c : Char} (inLine : c ≠ '\n' ∧ c ≠ '\r') : c.toLower ≠ '\n' ∧ c.toLower ≠ '\r' := by
  cases upper : c.isUpper with
  | false => rwa [toLower_eq_self upper]
  | true =>
    have lower := isLower_toLower upper
    constructor <;> intro same <;> rw [same] at lower <;> exact absurd lower (by decide)

private theorem oneLine_hyphenate {name : String} (inLine : OneLine name.toList) : OneLine (hyphenate name).toList := by
  have tail {cs : List Char} (inLine : OneLine cs) : OneLine (hyphenateTail cs) := by
    induction cs with
    | nil => exact inLine
    | cons c cs ih =>
      obtain ⟨first, more⟩ := List.forall_mem_cons.mp inLine
      rw [hyphenateTail]
      split
      · exact List.forall_mem_cons.mpr ⟨by decide, List.forall_mem_cons.mpr ⟨toLower_ne first, ih more⟩⟩
      · exact List.forall_mem_cons.mpr ⟨first, ih more⟩
  rw [hyphenate, String.toList_ofList]
  cases chars : name.toList with
  | nil => exact fun c mem => absurd mem List.not_mem_nil
  | cons c cs =>
    rw [chars] at inLine
    obtain ⟨first, more⟩ := List.forall_mem_cons.mp inLine
    exact List.forall_mem_cons.mpr ⟨toLower_ne first, tail more⟩

private theorem oneLine_label (source : List Char) (parts : List Tree) :
    OneLine (ClassHeader.ofParts source parts).label.toList := by
  rw [ClassHeader.label, ClassHeader.ofParts]
  dsimp only
  cases found : parts.findSome? _ with
  | none => decide
  | some name =>
    obtain ⟨t, -, named⟩ := List.exists_of_findSome?_eq_some found
    split at named
    · next word _ =>
      obtain rfl := Option.some.inj named
      exact oneLine_of_isWord word.isWord
    · cases named

section

variable {script : String} {m : Module} (parsed : Module.parse? script = some m)

include parsed

theorem oneLine_of_header {h : ClassHeader} (mem : .header h ∈ m.nodes) : OneLine h.label.toList := by
  obtain ⟨c, candidate, isNode⟩ := List.mem_flatMap.mp mem
  rcases List.mem_cons.mp isNode with same | isMember
  · obtain ⟨u, rfl⟩ := exists_tree_of_candidate parsed candidate
    obtain rfl := Node.header.inj same
    exact oneLine_label script.toList u.children
  · exact (isMember_of_mem_candidates parsed candidate isMember).elim

private theorem oneLine_of_word {f : Method} {word : String} {isComputed : Bool} (mem : .method f ∈ m.nodes)
    (key : f.key = .word word isComputed) : OneLine f.key.label.toList := by
  obtain ⟨c, candidate, isNode⟩ := List.mem_flatMap.mp mem
  rcases List.mem_cons.mp isNode with same | isMember
  · cases same
  · obtain ⟨t, shows⟩ := exists_tree_of_mem_candidates parsed candidate isMember
    have spelled := spelled_keyOf script.toList t.children
    rw [← key_of_ofMember? shows, key] at spelled
    rw [key]
    exact oneLine_of_isWord spelled

end

/-- A line that holds a name: how deep it stands, and what comes before and behind the name. -/
structure NameLine where
  depth : Nat
  lead : String
  tail : String

namespace NameLine

def print (width : Nat) (l : NameLine) (name : List Char) : List Char :=
  List.replicate (width * l.depth) ' ' ++ (l.lead.toList ++ (name ++ l.tail.toList))

def ofEvent : List NameLine := [⟨2, "", " ("⟩, ⟨3, "this.$emit(", ""⟩]

/-- The names that the classes of a module give, with the lines they are written on. -/
inductive Names (d : Dialect) (nodes : List Node) : NameLine → String → Prop
  | component {h : ClassHeader} {x : Decorator} (mem : .header h ∈ nodes) (one : h.decorators = [x]) :
    Names d nodes ⟨1, "name: ", ","⟩ h.label
  | path {m : Method} {x : Decorator} {raw path : String} (mem : .method m ∈ nodes) (one : m.decorators = [x])
    (watches : x.name = d.watchDecorator) (first : x.values[0]? = some (.string raw path)) :
    Names d nodes ⟨2, "", ": "⟩ path
  | handler {m : Method} {x : Decorator} (mem : .method m ∈ nodes) (one : m.decorators = [x])
    (watches : x.name = d.watchDecorator) : Names d nodes ⟨3, "handler: ", ","⟩ m.key.label
  | event {m : Method} {x : Decorator} {raw name : String} {l : NameLine} (mem : .method m ∈ nodes)
    (one : m.decorators = [x]) (other : x.name ≠ d.watchDecorator) (first : x.values.head? = some (.string raw name))
    (line : l ∈ ofEvent) : Names d nodes l name
  | ownEvent {m : Method} {x : Decorator} {l : NameLine} (mem : .method m ∈ nodes) (one : m.decorators = [x])
    (other : x.name ≠ d.watchDecorator) (none : x.values.head? = none) (line : l ∈ ofEvent) :
    Names d nodes l (hyphenate m.key.label)

end NameLine

section

variable {width depth : Nat} {front : List Char} {text : String}

private theorem isInfix_standAlone (rest : List Action) (filled : front ≠ []) (inLine : '\n' ∉ front)
    (starts : front <+: text.toList) :
    List.replicate (width * depth) ' ' ++ front <:+: standAlone width depth (.write text :: rest) := by
  obtain ⟨more, printed⟩ := standAlone_write width depth rest filled inLine starts
  rw [printed, ← List.append_assoc]
  exact (List.prefix_append _ _).isInfix

private theorem isInfix_blockEntry (head : String) {before after : List Action} (filled : front ≠ [])
    (inLine : '\n' ∉ front)
    (starts : front <+: text.toList) (above : WholeLines (depth + 1) before) (below : WholeLines (depth + 1) after) :
    List.replicate (width * (depth + 1)) ' ' ++ front <:+:
      standAlone width depth (blockEntry head (before ++ (Action.line text ++ after))) := by
  obtain ⟨ls, above⟩ := above
  obtain ⟨ms, below⟩ := below
  obtain ⟨c, cs, rfl⟩ := List.exists_cons_of_ne_nil filled
  have line : IsEntry (depth + 1) (Action.line text) := by
    refine .line (starts.subset List.mem_cons_self) ?_
    rintro rfl
    exact inLine List.mem_cons_self
  have inner := Steps.append above ((Writes.line (depth + 1) text).append below)
  have comma : '\n' ∉ ",".toList := by decide
  rw [standAlone_eq (isFilled_blockEntry head ⟨_, inner⟩).isEntry (Writes.block head inner comma), printLines_append,
    printLines_append, printLines_append, printLines_append, ← standAlone_eq line (Writes.line (depth + 1) text)]
  have here : _ <:+: standAlone width (depth + 1) (Action.line text) :=
    isInfix_standAlone [.newLine] filled inLine starts
  have body := (here.trans (List.prefix_append _ (printLines width ms)).isInfix).trans
    (List.suffix_append (printLines width ls) _).isInfix
  exact (body.trans (List.suffix_append _ _).isInfix).trans (List.prefix_append _ _).isInfix

end

private theorem mem_quoteBody {c : Char} {cs : List Char} (mem : c ∈ quoteBody cs) : c = '\\' ∨ c ∈ cs := by
  induction cs with
  | nil => cases mem
  | cons d cs ih =>
    rw [quoteBody] at mem
    split at mem <;> grind

theorem feed_not_mem_quoted {name lead tail : String} (inLine : OneLine name.toList) (left : '\n' ∉ lead.toList)
    (right : '\n' ∉ tail.toList) : '\n' ∉ lead.toList ++ ((singleQuoted name).toList ++ tail.toList) := by
  have quoted : '\n' ∉ (singleQuoted name).toList := by
    rw [singleQuoted, String.toList_ofList]
    intro mem
    have body : '\n' ∈ quoteBody name.toList := by simpa using mem
    rcases mem_quoteBody body with slash | inside
    · cases slash
    · exact (inLine _ inside).1 rfl
  simp [left, right, quoted]

private theorem quoted_ne_nil {name lead tail : String} :
    lead.toList ++ ((singleQuoted name).toList ++ tail.toList) ≠ [] := by
  simp [singleQuoted]

private theorem argument_prefix_trigger (event : Event) (payload : Option String) (parameters : List Parameter) :
    "this.$emit(".toList ++ event.argument.toList <+: (trigger event payload parameters).toList := by
  rw [trigger, String.toList_append, String.toList_append, String.toList_intercalate, List.cons_append, List.map_cons]
  cases List.map String.toList (payload.toList ++ parameters.map argument) with
  | nil => simp [List.intercalate]
  | cons first others =>
    rw [List.intercalate_cons_cons]
    simp

private theorem exists_statements_eq (m : Method) (x : Decorator) : ∃ before payload,
    (Emit.ofMethod m x).statements =
      before ++ [trigger (Event.ofDecorator m.key.label x) payload m.parameters] := by
  have merged : (Emit.ofMethod m x).statements = mergeTrigger ((m.body.map Body.statements).getD [])
      (m.body.bind fun b => b.trailing) (Event.ofDecorator m.key.label x) m.parameters := rfl
  rw [merged]
  unfold mergeTrigger
  split <;> exact ⟨_, _, rfl⟩

private theorem Watcher.exists_render_eq (w : Watcher) (depth : Nat) : ∃ flags, WholeLines depth flags ∧
    w.render = blockEntry (singleQuoted w.path ++ ": ")
      (Action.line ("handler: " ++ singleQuoted w.handler.name ++ ",") ++ flags) := by
  refine ⟨_, .append ?_ ?_, congrArg (blockEntry _) (List.append_assoc _ _ _)⟩
  · cases w.immediate with
    | none => exact .nil _
    | some _ => exact .line _ _
  · cases w.deep with
    | none => exact .nil _
    | some _ => exact .line _ _

/-- Each pass lets each node through, after those before it. -/
def AllAdmitted (d : Dialect) (nodes : List Node) : Prop :=
  ∀ before n after, nodes = before ++ n :: after → ∀ p, Pass.Admits d (before.findSome? (Component.ofNode? d)) p n

section

variable {d : Dialect} {nodes : List Node} {m : Method} {x : Decorator}

private theorem AllAdmitted.component_eq (admits : AllAdmitted d nodes) {h : ClassHeader} (mem : .header h ∈ nodes)
    (one : h.decorators = [x]) : (Table.reading d nodes).component = some (Component.ofClass h x) := by
  obtain ⟨before, after, rfl⟩ := List.append_of_mem mem
  rcases admits before _ after rfl .component with bare | ⟨y, same, marks, fresh⟩
  · rw [bare] at one
    cases one
  · obtain rfl := List.singleton_inj.mp (same.symm.trans one)
    have own : Component.ofNode? d (.header h) = some (Component.ofClass h y) := by
      simp only [Component.ofNode?, one, marks, if_pos]
    rw [Table.reading, List.findSome?_append, fresh, List.findSome?_cons, own]
    rfl

theorem AllAdmitted.decorated (admits : AllAdmitted d nodes) (mem : .method m ∈ nodes) (one : m.decorators = [x]) :
    m.role = .method ∧ (x.name = d.watchDecorator ∧ (∃ w, Watcher.ofMethod m x = .ok w) ∨
      x.name ≠ d.watchDecorator ∧ x.name = d.emitDecorator) := by
  obtain ⟨before, after, rfl⟩ := List.append_of_mem mem
  rcases admits before _ after rfl .decoratedMethod with bare | ⟨y, same, isMethod, marks⟩
  · rw [bare] at one
    cases one
  · obtain rfl := List.singleton_inj.mp (same.symm.trans one)
    exact ⟨isMethod, marks⟩

private theorem AllAdmitted.exists_watcher (admits : AllAdmitted d nodes) (mem : .method m ∈ nodes)
    (one : m.decorators = [x]) (watches : x.name = d.watchDecorator) :
    ∃ w, Watcher.ofMethod m x = .ok w ∧ Placed (Table.reading d nodes) 2 w.render := by
  obtain ⟨isMethod, ⟨-, w, read⟩ | ⟨other, -⟩⟩ := admits.decorated mem one
  · have shown := Watcher.ofNode?_eq_some_iff.mpr ⟨m, x, rfl, one, ⟨isMethod, watches⟩, read⟩
    exact ⟨w, read, .inr ⟨.watch, _, rfl, List.mem_map.mpr ⟨w, List.mem_filterMap.mpr ⟨_, mem, shown⟩, rfl⟩⟩⟩
  · exact absurd watches other

private theorem AllAdmitted.emit_mem (admits : AllAdmitted d nodes) (mem : .method m ∈ nodes) (one : m.decorators = [x])
    (other : x.name ≠ d.watchDecorator) : Emit.ofMethod m x ∈ (Table.reading d nodes).emits := by
  obtain ⟨isMethod, ⟨watches, -⟩ | ⟨-, emits⟩⟩ := admits.decorated mem one
  · exact absurd watches other
  · exact List.mem_filterMap.mpr ⟨_, mem, Emit.ofNode?_eq_some_iff.mpr ⟨m, x, rfl, one, ⟨isMethod, other, emits⟩, rfl⟩⟩

end

private theorem isInfix_ofEvent {table : Table} {m : Method} {x : Decorator} {name : String} {l : NameLine}
    {width : Nat}
    (named : Event.ofDecorator m.key.label x = .name name) (inLine : OneLine name.toList) (line : l ∈ NameLine.ofEvent)
    (mem : Emit.ofMethod m x ∈ table.emits) :
    ∃ actions, Placed table 2 actions ∧ l.print width (singleQuoted name).toList <:+: standAlone width 2 actions := by
  simp only [NameLine.ofEvent, List.mem_cons, List.not_mem_nil, or_false] at line
  rcases line with rfl | rfl
  · refine ⟨_, .inr ⟨.emits, _, rfl, List.mem_map.mpr ⟨_, mem, rfl⟩⟩, ?_⟩
    obtain ⟨tail, rest, written⟩ := renderValidator_eq (Emit.ofMethod m x)
    have key : (Emit.ofMethod m x).event.key = singleQuoted name := congrArg Event.key named
    rw [written, key]
    exact isInfix_standAlone rest quoted_ne_nil (feed_not_mem_quoted inLine (by decide) (by decide))
      (by simp [← List.append_assoc])
  · refine ⟨_, .inr ⟨.methods, _, rfl, List.mem_append_left _ (List.mem_append_right _
      (List.mem_map.mpr ⟨_, mem, rfl⟩))⟩, ?_⟩
    obtain ⟨before, payload, statements⟩ := exists_statements_eq m x
    have starts := argument_prefix_trigger (.name name) payload m.parameters
    rw [named] at statements
    rw [Emit.render, functionEntry, statements, List.flatMap_append, List.flatMap_singleton,
      ← List.append_nil (Action.line _)]
    refine isInfix_blockEntry _ quoted_ne_nil (feed_not_mem_quoted inLine (by decide) (by decide)) ?_
      (.flatMap _ fun _ => .line _ _) (.nil _)
    simpa [Event.argument] using starts

theorem NameLine.Names.isInfix_text {d : Dialect} {nodes : List Node} {module : Module} {c : Component} {l : NameLine}
    {name : String} (admits : AllAdmitted d nodes) (component : (Table.reading d nodes).component = some c)
    (names : l.Names d nodes name) (inLine : OneLine name.toList) :
    l.print d.indentWidth (singleQuoted name).toList <:+:
      joinLines (moduleBlocks d module c (Table.reading d nodes)) := by
  cases names with
  | @component h x mem one =>
    obtain rfl := Option.some.inj ((admits.component_eq mem one).symm.trans component)
    have head : standAlone d.indentWidth 1 (Component.ofClass h x).render ∈
        sections d.indentWidth (Component.ofClass h x) (Table.reading d nodes) := by
      simp [sections]
    refine List.IsInfix.trans ?_ (isInfix_text_of_mem_sections head)
    exact isInfix_standAlone _ quoted_ne_nil (feed_not_mem_quoted inLine (by decide) (by decide))
      (by simp [Component.ofClass])
  | @path m x raw path mem one watches first =>
    obtain ⟨w, read, placed⟩ := admits.exists_watcher mem one watches
    obtain ⟨path', flags, ⟨⟨raw', first'⟩, -⟩, rfl⟩ := Watcher.ofMethod_eq_ok_iff.mp read
    obtain ⟨-, rfl⟩ := Expression.string.inj (Option.some.inj (first.symm.trans first'))
    refine List.IsInfix.trans ?_ placed.isInfix_text
    exact isInfix_standAlone _ quoted_ne_nil (feed_not_mem_quoted inLine (by decide) (by decide)) (by simp)
  | @handler m x mem one watches =>
    obtain ⟨w, read, placed⟩ := admits.exists_watcher mem one watches
    refine List.IsInfix.trans ?_ placed.isInfix_text
    have handler : w.handler.name = m.key.label := congrArg PlainMethod.name (Watcher.handler_of_ofMethod read)
    obtain ⟨flags, below, rendered⟩ := w.exists_render_eq 3
    rw [rendered, handler, ← List.nil_append (Action.line _ ++ flags)]
    exact isInfix_blockEntry _ quoted_ne_nil (feed_not_mem_quoted inLine (by decide) (by decide)) (by simp)
      (.nil _) below
  | event mem one other first line =>
    obtain ⟨actions, placed, stands⟩ := isInfix_ofEvent (by rw [Event.ofDecorator, first]) inLine line
      (admits.emit_mem mem one other)
    exact stands.trans placed.isInfix_text
  | ownEvent mem one other none line =>
    obtain ⟨actions, placed, stands⟩ := isInfix_ofEvent (by rw [Event.ofDecorator, none]) inLine line
      (admits.emit_mem mem one other)
    exact stands.trans placed.isInfix_text

/-- In single quotes a string is one literal that stands for its characters, wherever it is written, exactly if it holds
no line end; otherwise no token is read there. Written again in this way, a string of a script is the same string
exactly if it holds no line end and no half of a pair that stands alone. If the script is compiled, the names of the
component, its watchers and its events that hold no line end are written so, each in its line; those that are words
hold none. -/
theorem quoted_names_denote_values (s : String) (d : Dialect) (script : String) :
    (((∃ units, IsLiteral '\'' units (singleQuoted s).toList) ↔ OneLine s.toList) ∧
      (OneLine s.toList → IsLiteral '\'' (s.toList.map Char.toNat) (singleQuoted s).toList ∧
        ∀ rest, Lexeme.cut ((singleQuoted s).toList ++ rest) = ⟨.string s, (singleQuoted s).toList, rest, false⟩) ∧
      (¬OneLine s.toList → ∀ rest, (Lexeme.cut ((singleQuoted s).toList ++ rest)).lexeme = .malformed)) ∧
    (∀ r, Reading.ofModule? script.toList = some r → ∀ p ∈ r.passed, ∀ value, p.token.lexeme = .string value →
      ∃ quote units, IsLiteral quote units p.taken ∧ value.toList = textOfUnits units ∧
        ((∃ units', IsLiteral '\'' units' (singleQuoted value).toList ∧ joinPairs units' = joinPairs units) ↔
          OneLine value.toList ∧ Paired units)) ∧
    ∀ out, compileScript d script = .ok out →
      ∃ m t text, Module.parse? script = some m ∧ Table.ofModule d m = .ok t ∧
        text = Writer.print d.indentWidth (renderModule d m t) ∧
        out = String.ofList (normalize text d.indentWidth) ∧
        (∀ (l : NameLine) name, l.Names d m.nodes name → OneLine name.toList →
          l.print d.indentWidth (singleQuoted name).toList <:+: text) ∧
        (∀ h, .header h ∈ m.nodes → OneLine h.label.toList) ∧
        ∀ f word isComputed, .method f ∈ m.nodes → f.key = .word word isComputed →
          OneLine f.key.label.toList ∧ OneLine (hyphenate f.key.label).toList := by
  refine ⟨⟨Literal.exists_isLiteral_singleQuoted_iff s, fun inLine => ?_, Literal.cut_singleQuoted_malformed⟩,
    fun r read p mem value lexeme => ?_, fun out compiled => ?_⟩
  · exact ⟨Literal.isLiteral_singleQuoted inLine, Lexeme.cut_singleQuoted inLine⟩
  · have spelled := Reading.spells_of_mem read mem
    rw [lexeme] at spelled
    obtain ⟨quote, units, -, literal, text⟩ := Literal.exists_isLiteral_of_spells spelled
    exact ⟨quote, units, literal, text, literal.written_again_iff text⟩
  · obtain ⟨m, table, parsed, accepted, rfl⟩ := compileScript_eq_ok_iff.mp compiled
    obtain ⟨run, found⟩ := Table.ofModule_eq_ok_iff.mp accepted
    obtain ⟨admits, rfl⟩ := Table.ofNodes_eq_ok_iff.mp run
    obtain ⟨c, component⟩ := Option.ne_none_iff_exists'.mp found
    have printed := print_renderModule (d := d) parsed component
    refine ⟨m, _, _, parsed, accepted, rfl, rfl, fun l name names inLine => ?_, fun h mem => ?_,
      fun f word isComputed mem key => ?_⟩
    · rw [printed]
      exact names.isInfix_text admits component inLine
    · exact oneLine_of_header parsed mem
    · have inLine := oneLine_of_word parsed mem key
      exact ⟨inLine, oneLine_hyphenate inLine⟩

def quotedPathScript : String := "@Component class A \x7b @Watch(\"it's \\\\\") go() \x7b\x7d \x7d"

theorem quoted_path_denotes_value :
    IsLiteral '\'' ("it's \\".toList.map Char.toNat) "'it\\'s \\\\'".toList ∧
    (Lexeme.cut ("'a\nb'".toList ++ ": \x7b".toList)).lexeme = .malformed ∧
    (∃ quote units, IsLiteral quote units "\"it's \\\\\"".toList ∧ ∃ units',
      IsLiteral '\'' units' "'it\\'s \\\\'".toList ∧ joinPairs units' = joinPairs units) ∧
    ∃ m t, Module.parse? quotedPathScript = some m ∧ Table.ofModule {} m = .ok t ∧
      "        'it\\'s \\\\': ".toList <:+: Writer.print 4 (renderModule {} m t) ∧
      "            handler: 'go',".toList <:+: Writer.print 4 (renderModule {} m t) := by
  obtain ⟨⟨-, quoted, -⟩, again, written⟩ := quoted_names_denote_values "it's \\" {} quotedPathScript
  have checked : ((Reading.ofModule? quotedPathScript.toList).map fun r => r.passed.any fun p =>
      decide (p.token.lexeme = .string "it's \\" ∧ p.taken = "\"it's \\\\\"".toList),
      (Module.parse? quotedPathScript).map fun m => m.nodes.filterMap fun n =>
        (Watcher.ofNode? {} n).map fun w => (w.path, w.handler.name),
      (compileScript {} quotedPathScript).isOk) = (some true, some [("it's \\", "go")], true) := by
    decide +kernel
  obtain ⟨strings, checked⟩ := Prod.mk.inj checked
  obtain ⟨watched, compiles⟩ := Prod.mk.inj checked
  refine ⟨(quoted (by decide)).1, (quoted_names_denote_values "a\nb" {} "").1.2.2 (by decide) _, ?_, ?_⟩
  · obtain ⟨r, read, found⟩ := Option.map_eq_some_iff.mp strings
    obtain ⟨p, mem, holds⟩ := List.any_eq_true.mp found
    obtain ⟨lexeme, taken⟩ := of_decide_eq_true holds
    obtain ⟨quote, units, literal, -, same⟩ := again r read p mem _ lexeme
    rw [taken] at literal
    have known : IsLiteral '"' [105, 116, 39, 115, 32, 92] "\"it's \\\\\"".toList :=
      ⟨"it's \\\\".toList, rfl, rfl, rfl⟩
    obtain ⟨-, rfl⟩ := literal.unique known
    exact ⟨quote, _, literal, same.mpr ⟨by decide, by decide⟩⟩
  · cases compiled : compileScript {} quotedPathScript with
    | error fault =>
      rw [compiled] at compiles
      cases compiles
    | ok out =>
      obtain ⟨m, t, text, parsed, accepted, rfl, -, stand, -⟩ := written out compiled
      rw [parsed] at watched
      obtain ⟨n, mem, shown⟩ := List.mem_filterMap.mp (Option.some.inj watched ▸ List.mem_singleton.mpr rfl)
      obtain ⟨w, read, names⟩ := Option.map_eq_some_iff.mp shown
      obtain ⟨f, x, rfl, one, ⟨-, watches⟩, given⟩ := Watcher.ofNode?_eq_some_iff.mp read
      have label : f.key.label = "go" :=
        (congrArg PlainMethod.name (Watcher.handler_of_ofMethod given)).symm.trans (congrArg Prod.snd names)
      obtain ⟨path, flags, ⟨⟨raw, first⟩, -⟩, rfl⟩ := Watcher.ofMethod_eq_ok_iff.mp given
      obtain rfl : path = "it's \\" := congrArg Prod.fst names
      have handler := NameLine.Names.handler mem one watches
      rw [label] at handler
      exact ⟨m, t, parsed, accepted, stand _ _ (.path mem one watches first) (by decide), stand _ _ handler (by decide)⟩

/-- The text of a path is put between the quotes as it is, though the value of a string may hold a line end. -/
def brokenPathScript : String := "@Component class A \x7b @Watch('a\\nb') m() \x7b\x7d \x7d"

def brokenPathOutput : String :=
  "import \x7b defineComponent \x7d from 'vue'\n\nexport default defineComponent(\x7b\n    name: 'A',\n\n"
    ++ "    watch: \x7b\n        'a\n        b': \x7b\n            handler: 'm',\n        \x7d,\n    \x7d,\n\n"
    ++ "    methods: \x7b\n        m () \x7b\n        \x7d,\n    \x7d,\n\x7d)\n"

/-- The value of a string may also be half of a pair. -/
def lonePathScript : String := "@Component class A \x7b @Watch('\\ud800') m() \x7b\x7d \x7d"

/-- A line end breaks the literal off, so that the output is no module; and half of a pair becomes another string. -/
theorem quoted_path_may_break_or_change :
    (¬∃ units, IsLiteral '\'' units (singleQuoted "a\nb").toList) ∧
    compileScript {} brokenPathScript = .ok brokenPathOutput ∧
    stringValues brokenPathScript = some ["a\nb"] ∧ stringValues brokenPathOutput = none ∧
    stringValues lonePathScript = some ["\ufffdd800"] ∧
    IsLiteral '\'' [0xd800] "'\\ud800'".toList ∧
    IsLiteral '\'' [0xfffd, 100, 56, 48, 48] (singleQuoted "\ufffdd800").toList := by
  have broken : Spelled brokenPathScript _ := .literal rfl
  have brokenOut : Spelled brokenPathOutput _ := .append (.append (.literal rfl) (.literal rfl)) (.literal rfl)
  have lone : Spelled lonePathScript _ := .literal rfl
  unfold stringValues
  rw [broken.toList_eq, brokenOut.toList_eq, lone.toList_eq]
  refine ⟨?_, compileScript_of_spelled broken brokenOut (by decide +kernel), by decide +kernel, by decide +kernel,
    by decide +kernel, ⟨"\\ud800".toList, rfl, rfl, rfl⟩, ⟨"\ufffdd800".toList, rfl, rfl, rfl⟩⟩
  rw [Literal.exists_isLiteral_singleQuoted_iff]
  decide

end VueOptions.Options
