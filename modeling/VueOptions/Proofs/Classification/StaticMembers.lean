import Mathlib.Data.List.Basic
import VueOptions.Proofs.Classification.Ownership
import VueOptions.Proofs.Options.SpelledScripts

/-!
Members that belong to no instance: static ones, and signatures, which have no body. Without a decorator
they declare nothing, so they can be deleted from a script and its table stays the same. A decorated
member is read whether it is static or not. Main statement:
`members_of_no_instance_count_only_if_decorated`.
-/

set_option autoImplicit false

namespace VueOptions.Source

def Node.decorators : Node → List Decorator
  | .header h => h.decorators
  | .field f => f.decorators
  | .method m => m.decorators

/-- Whether a member is of an instance and implemented: it is not static, and a method has a body.
Headers count as such. -/
def Node.isOfInstance : Node → Bool
  | .header _ => true
  | .field f => !f.isStatic
  | .method m => !m.isStatic && m.body.isSome

def ClassDeclaration.keeping (keep : Node → Bool) (c : ClassDeclaration) : ClassDeclaration :=
  { c with members := c.members.filter keep }

def Statement.keeping (keep : Node → Bool) (s : Statement) : Statement :=
  { s with form := match s.form with
      | .classLike c => .classLike (c.keeping keep)
      | form => form }

def Module.keeping (keep : Node → Bool) (m : Module) : Module :=
  ⟨m.statements.map (Statement.keeping keep)⟩

variable {keep : Node → Bool}

theorem Statement.candidate?_keeping (s : Statement) :
    (s.keeping keep).candidate? = s.candidate?.map (ClassDeclaration.keeping keep) := by
  obtain ⟨text, form⟩ := s
  cases form with
  | classLike c =>
    by_cases candidate : c.header.isCandidate = true <;>
      simp [Statement.keeping, Statement.candidate?, ClassDeclaration.keeping, candidate]
  | _ => rfl

theorem Module.candidates_keeping (m : Module) :
    (m.keeping keep).candidates = m.candidates.map (ClassDeclaration.keeping keep) := by
  simp [Module.candidates, Module.keeping, List.filterMap_map, List.map_filterMap,
    Statement.candidate?_keeping]

theorem Module.nodes_keeping (keep : Node → Bool) (headers : ∀ h, keep (.header h) = true) (m : Module) :
    (m.keeping keep).nodes = m.nodes.filter keep := by
  rw [Module.nodes, Module.nodes, Module.candidates_keeping, List.flatMap_map, List.filter_flatMap]
  refine List.flatMap_congr fun c _ => ?_
  rw [ClassDeclaration.nodes, ClassDeclaration.nodes, List.filter_cons_of_pos (headers c.header)]
  rfl

end VueOptions.Source

namespace VueOptions.Options

open Source
open Text (Spelled)

/-- The entries that are read without a decorator at a member. -/
def Table.plain (t : Table) : Table := { t with props := [], refs := [], emits := [], watchers := [] }

theorem Table.plain_append (t u : Table) : (t ++ u).plain = t.plain ++ u.plain := rfl

section

variable {d : Dialect} {n : Node} {c : Option Component}

theorem component_of_no_instance (other : n.isOfInstance = false) : Component.ofNode? d n = none := by
  cases n with
  | header h => cases other
  | _ => rfl

theorem plain_reading_of_no_instance (other : n.isOfInstance = false) :
    (Table.reading d [n]).plain = Table.empty := by
  cases n with
  | header h => cases other
  | field f =>
    have static : f.isStatic = true := by simpa [Node.isOfInstance] using other
    simp [Table.reading, Table.plain, Table.empty, Component.ofNode?, Mixin.ofNode, DataField.ofNode?,
      Hook.ofNode?, PlainMethod.ofNode?, Getter.ofNode?, static]
  | method m =>
    have bare : ∀ role, ¬IsPlain role m := by
      rintro role ⟨-, -, instanced, body⟩
      simp [Node.isOfInstance, instanced, body] at other
    simp [Table.reading, Table.plain, Table.empty, Component.ofNode?, Mixin.ofNode, DataField.ofNode?,
      Hook.ofNode?, PlainMethod.ofNode?, Getter.ofNode?, bare]

theorem reading_of_no_instance_eq_empty_iff (other : n.isOfInstance = false)
    (admits : ∀ p, Pass.Admits d c p n) : Table.reading d [n] = Table.empty ↔ n.decorators = [] := by
  have plain := plain_reading_of_no_instance (d := d) other
  cases n with
  | header h => cases other
  | field f =>
    rcases admits .decoratedField with bare | ⟨x, one, marks⟩
    · refine ⟨fun _ => bare, fun _ => ?_⟩
      rw [← plain]
      simp [Table.reading, Table.plain, PropField.ofNode?, RefField.ofNode?, Emit.ofNode?, Watcher.ofNode?, bare]
    · refine ⟨fun none => ?_, fun none => by simp [Node.decorators, one] at none⟩
      have refs : (Table.reading d [.field f]).refs = [] := by rw [none]; rfl
      have props : (Table.reading d [.field f]).props = [] := by rw [none]; rfl
      by_cases ref : x.name = d.refDecorator
      · simp [Table.reading, RefField.ofNode?, one, ref] at refs
      · have prop : x.name = d.propDecorator := marks.resolve_left ref
        have apart : d.propDecorator ≠ d.refDecorator := prop ▸ ref
        simp [Table.reading, PropField.ofNode?, one, prop, apart] at props
  | method m =>
    rcases admits .decoratedMethod with bare | ⟨x, one, role, marks⟩
    · refine ⟨fun _ => bare, fun _ => ?_⟩
      rw [← plain]
      simp [Table.reading, Table.plain, PropField.ofNode?, RefField.ofNode?, Emit.ofNode?, Watcher.ofNode?, bare]
    · refine ⟨fun none => ?_, fun none => by simp [Node.decorators, one] at none⟩
      have emits : (Table.reading d [.method m]).emits = [] := by rw [none]; rfl
      have watchers : (Table.reading d [.method m]).watchers = [] := by rw [none]; rfl
      rcases marks with ⟨watch, w, read⟩ | ⟨watch, emit⟩
      · simp [Table.reading, Watcher.ofNode?, one, role, watch, read, Except.toOption] at watchers
      · have apart : d.emitDecorator ≠ d.watchDecorator := emit ▸ watch
        simp [Table.reading, Emit.ofNode?, one, role, emit, apart] at emits

end

section

variable {d : Dialect} {keep : Node → Bool} {nodes : List Node}

theorem Table.reading_cons (n : Node) (nodes : List Node) :
    Table.reading d (n :: nodes) = Table.reading d [n] ++ Table.reading d nodes :=
  Table.reading_append d [n] nodes

theorem map_reading_filter (φ : Table → Table) (append : ∀ t u, φ (t ++ u) = φ t ++ φ u)
    (nothing : ∀ n ∈ nodes, keep n = false → φ (Table.reading d [n]) = Table.empty) :
    φ (Table.reading d (nodes.filter keep)) = φ (Table.reading d nodes) := by
  induction nodes with
  | nil => rfl
  | cons n nodes ih =>
    rw [List.forall_mem_cons] at nothing
    have rest := ih nothing.2
    rw [Table.reading_cons n nodes, append]
    cases kept : keep n with
    | true => rw [List.filter_cons_of_pos kept, Table.reading_cons n (nodes.filter keep), append, rest]
    | false =>
      rw [List.filter_cons_of_neg (by simp [kept]), rest, nothing.1 kept, Table.empty_append]

theorem size_reading_filter (d : Dialect) (keep : Node → Bool) (nodes : List Node) :
    (Table.reading d nodes).size =
      (Table.reading d (nodes.filter keep)).size + (Table.reading d (nodes.filter (!keep ·))).size := by
  induction nodes with
  | nil => rfl
  | cons n nodes ih =>
    rw [Table.reading_cons n nodes, Table.size_append, ih]
    cases kept : keep n with
    | true =>
      rw [List.filter_cons_of_pos kept, List.filter_cons_of_neg (by simp [kept]),
        Table.reading_cons n (nodes.filter keep), Table.size_append]
      omega
    | false =>
      rw [List.filter_cons_of_neg (by simp [kept]), List.filter_cons_of_pos (by simp [kept]),
        Table.reading_cons n (nodes.filter (!keep ·)), Table.size_append]
      omega

theorem Table.reading_eq_empty_iff :
    Table.reading d nodes = Table.empty ↔ ∀ n ∈ nodes, Table.reading d [n] = Table.empty := by
  induction nodes with
  | nil => exact ⟨fun _ n mem => absurd mem List.not_mem_nil, fun _ => rfl⟩
  | cons n nodes ih => rw [Table.reading_cons, Table.append_eq_empty_iff, ih, List.forall_mem_cons]

variable (keeps : ∀ n : Node, n.isOfInstance = true → keep n = true)

include keeps

theorem isOfInstance_eq_false {n : Node} (out : keep n = false) : n.isOfInstance = false := by
  cases ofInstance : n.isOfInstance with
  | false => rfl
  | true => exact absurd (keeps n ofInstance) (by simp [out])

theorem findSome?_filter :
    (nodes.filter keep).findSome? (Component.ofNode? d) = nodes.findSome? (Component.ofNode? d) := by
  induction nodes with
  | nil => rfl
  | cons n nodes ih =>
    cases kept : keep n with
    | true => rw [List.filter_cons_of_pos kept, List.findSome?_cons, List.findSome?_cons, ih]
    | false =>
      rw [List.filter_cons_of_neg (by simp [kept]), List.findSome?_cons,
        component_of_no_instance (isOfInstance_eq_false keeps kept), ih]

theorem admits_filter
    (admits : ∀ before n after, nodes = before ++ n :: after →
      ∀ p, Pass.Admits d (before.findSome? (Component.ofNode? d)) p n) :
    ∀ before n after, nodes.filter keep = before ++ n :: after →
      ∀ p, Pass.Admits d (before.findSome? (Component.ofNode? d)) p n := by
  intro before n after split p
  obtain ⟨front, rest, rfl, rfl, hrest⟩ := List.filter_eq_append_iff.mp split
  obtain ⟨skipped, tail, rfl, out, -, -⟩ := List.filter_eq_cons_iff.mp hrest
  have found := admits (front ++ skipped) n tail (List.append_assoc front skipped (n :: tail)).symm p
  rw [← findSome?_filter keeps, List.filter_append, List.filter_eq_nil_iff.mpr out, List.append_nil] at found
  exact found

theorem reading_filter_eq_iff :
    Table.reading d (nodes.filter keep) = Table.reading d nodes ↔
      ∀ n ∈ nodes, keep n = false → Table.reading d [n] = Table.empty := by
  constructor
  · intro same n mem out
    have sizes := size_reading_filter d keep nodes
    rw [same] at sizes
    have components : (Table.reading d (nodes.filter (!keep ·))).component = none := by
      refine List.findSome?_eq_none_iff.mpr fun o left => ?_
      have out : keep o = false := by simpa using (List.mem_filter.mp left).2
      exact component_of_no_instance (isOfInstance_eq_false keeps out)
    have nothing := Table.eq_empty_iff.mpr ⟨components, by omega⟩
    exact Table.reading_eq_empty_iff.mp nothing n (List.mem_filter.mpr ⟨mem, by simp [out]⟩)
  · intro nothing
    exact map_reading_filter id (fun _ _ => rfl) nothing

end

theorem ofModule_keeping {d : Dialect} {keep : Node → Bool} {m : Module} {t : Table}
    (keeps : ∀ n : Node, n.isOfInstance = true → keep n = true) (accepted : Table.ofModule d m = .ok t) :
    ∃ t', Table.ofModule d (m.keeping keep) = .ok t' ∧ t'.plain = t.plain ∧
      (t' = t ↔ ∀ n ∈ m.nodes, keep n = false → n.decorators = []) := by
  obtain ⟨run, component⟩ := Table.ofModule_eq_ok_iff.mp accepted
  obtain ⟨admits, rfl⟩ := Table.ofNodes_eq_ok_iff.mp run
  have nodes := Module.nodes_keeping keep (fun h => keeps (.header h) rfl) m
  refine ⟨Table.reading d (m.nodes.filter keep), ?_, ?_, ?_⟩
  · rw [Table.ofModule_eq_ok_iff, Table.ofNodes_eq_ok_iff, nodes]
    refine ⟨⟨admits_filter keeps admits, rfl⟩, ?_⟩
    rw [Table.reading, findSome?_filter keeps]
    exact component
  · apply map_reading_filter Table.plain Table.plain_append
    intro n _ out
    exact plain_reading_of_no_instance (isOfInstance_eq_false keeps out)
  · rw [reading_filter_eq_iff keeps]
    refine forall₂_congr fun n mem => imp_congr_right fun out => ?_
    obtain ⟨before, after, split⟩ := List.append_of_mem mem
    exact reading_of_no_instance_eq_empty_iff (isOfInstance_eq_false keeps out) (admits before n after split)

/-- From an accepted script any static members and any methods without a body can be deleted, and what is
left is accepted. Its table has the same entries except for those of decorated members, and is the same
exactly if none of the deleted members is decorated. -/
theorem members_of_no_instance_count_only_if_decorated {d : Dialect} (keep : Node → Bool) {script : String}
    {m : Module} {t : Table} (keeps : ∀ n : Node, n.isOfInstance = true → keep n = true)
    (parsed : Module.parse? script = some m) (accepted : Table.ofScript d script = .ok t) :
    ∃ t', Table.ofModule d (m.keeping keep) = .ok t' ∧ t'.plain = t.plain ∧
      (t' = t ↔ ∀ n ∈ m.nodes, keep n = false → n.decorators = []) ∧
      ∀ script' m', Module.parse? script' = some m' →
        m'.candidates = (m.keeping keep).candidates → Table.ofScript d script' = .ok t' := by
  have ofModule : Table.ofModule d m = .ok t := (ofScript_of_parse? parsed).symm.trans accepted
  obtain ⟨t', accepted', plain, same⟩ := ofModule_keeping keeps ofModule
  refine ⟨t', accepted', plain, same, fun script' m' parsed' candidates => ?_⟩
  rw [ofScript_of_parse? parsed', ← accepted']
  simp only [Table.ofModule, Module.nodes, candidates]

/-- A static field, a signature and a decorated static field beside a field and a method. -/
def staticPropScript : String :=
  "@Component class A \x7b static v = 1; x = 2; f(): void; f() \x7b\x7d @Prop() static p: string \x7d"

/-- Its table: the static field and the signature are not in it, the decorated static field is. -/
def staticPropTable : Table :=
  { component := some ⟨"A", []⟩
    props := [⟨"p", false, false, none, "string", none, none⟩]
    data := [⟨"x", some "2", none, false⟩]
    methods := [⟨"f", [], none, some [], false⟩] }

private theorem tables_staticProp :
    (Module.parse? staticPropScript).map (fun m =>
        (Table.ofModule {} m, Table.ofModule {} (m.keeping Node.isOfInstance))) =
      some (.ok staticPropTable, .ok { staticPropTable with props := [] }) := by
  have spelled : Spelled staticPropScript _ := .literal rfl
  rw [parse?_of_spelled spelled]
  decide +kernel

private theorem parse?_staticProp : ∃ m, Module.parse? staticPropScript = some m ∧
    Table.ofScript {} staticPropScript = .ok staticPropTable ∧
    Table.ofModule {} (m.keeping Node.isOfInstance) = .ok { staticPropTable with props := [] } := by
  obtain ⟨m, parsed, tables⟩ := Option.map_eq_some_iff.mp tables_staticProp
  obtain ⟨whole, kept⟩ := Prod.mk.inj tables
  exact ⟨m, parsed, (ofScript_of_parse? parsed).trans whole, kept⟩

/-- The prop of a decorated static field is lost with the field. -/
theorem static_prop_enters_table :
    ∃ m, Module.parse? staticPropScript = some m ∧ Table.ofScript {} staticPropScript = .ok staticPropTable ∧
      Table.ofModule {} (m.keeping Node.isOfInstance) = .ok { staticPropTable with props := [] } ∧
      Table.ofScript {} "@Component class A \x7b x = 2; f() \x7b\x7d \x7d" =
        .ok { staticPropTable with props := [] } := by
  obtain ⟨m, parsed, whole, kept⟩ := parse?_staticProp
  exact ⟨m, parsed, whole, kept, by decide +kernel⟩

/-- The members of no instance that are not decorated can be deleted from that script, and its table stays
the same. -/
theorem static_field_and_signature_count_for_nothing :
    ∃ m t', Module.parse? staticPropScript = some m ∧
      Table.ofModule {} (m.keeping fun n => n.isOfInstance || !n.decorators.isEmpty) = .ok t' ∧
      t' = staticPropTable := by
  obtain ⟨m, parsed, accepted, -⟩ := parse?_staticProp
  obtain ⟨t', kept, -, same, -⟩ := members_of_no_instance_count_only_if_decorated
    (fun n => n.isOfInstance || !n.decorators.isEmpty) (by intro n kept; simp [kept]) parsed accepted
  refine ⟨m, t', parsed, kept, same.mpr ?_⟩
  intro n _ out
  simpa using (Bool.or_eq_false_iff.mp out).2

end VueOptions.Options
