import VueOptions.Proofs.Classification.FirstFault
import VueOptions.Proofs.Classification.Ownership

/-!
What compiling a script gives is a matter of how it reads: it is refused as unreadable when it is no module, and as
being without a component exactly when its candidates are there for their mixins only and none of their nodes is
rejected; else it is compiled or a node is at fault.
-/

set_option autoImplicit false

namespace VueOptions.Options

open Source

theorem isNodeFault_of_ofNodes {d : Dialect} {passes : List Pass} {nodes : List Node} {e : Fault}
    (h : Table.ofNodes d passes nodes = .error e) : Pass.IsNodeFault e := by
  obtain ⟨i, k, p, n, first⟩ := Table.ofNodes_eq_error_iff.mp h
  obtain ⟨t, -, refused⟩ := first.refused
  exact Pass.isNodeFault_of_step (Pass.step_eq_error_iff.mpr refused)

private theorem Table.ofModule_ne_unreadable (d : Dialect) (m : Module) :
    Table.ofModule d m ≠ .error .unreadable := by
  cases hn : Table.ofNodes d Pass.all m.nodes with
  | error e =>
    rw [Table.ofModule_of_error hn]
    intro h
    obtain rfl := Except.error.inj h
    exact isNodeFault_of_ofNodes hn
  | ok t =>
    rw [Table.ofModule_of_ok hn]
    split <;> exact nofun

private theorem Table.ofModule_eq_noComponent_iff {d : Dialect} {m : Module} :
    Table.ofModule d m = .error .noComponent ↔
      ∃ t, Table.ofNodes d Pass.all m.nodes = .ok t ∧ t.component = none := by
  cases hn : Table.ofNodes d Pass.all m.nodes with
  | error e =>
    rw [Table.ofModule_of_error hn]
    constructor
    · intro h
      obtain rfl := Except.error.inj h
      exact absurd (isNodeFault_of_ofNodes hn) id
    · rintro ⟨t, h, -⟩
      cases h
  | ok t =>
    rw [Table.ofModule_of_ok hn]
    constructor
    · intro h
      split at h
      · next bare => exact ⟨t, rfl, bare⟩
      · cases h
    · rintro ⟨u, hu, bare⟩
      obtain rfl := Except.ok.inj hu
      rw [if_pos bare]

def NoneRejected (d : Dialect) (nodes : List Node) : Prop :=
  ∀ before n after, nodes = before ++ n :: after → ¬Rejected d before n

private theorem Accepted.findSome?_headed?_eq_none_iff {d : Dialect} {cs : List ClassDeclaration}
    (accepted : Accepted d cs) :
    cs.findSome? (headed? d) = none ↔ ∀ c ∈ cs, c.header.decorators = [] := by
  rw [List.findSome?_eq_none_iff]
  constructor
  · intro h c mem
    obtain ⟨before, after, split⟩ := List.append_of_mem mem
    rcases accepted.decorated split with bare | ⟨x, -, headed, -⟩
    · exact bare
    · rw [h c mem] at headed
      cases headed
  · intro h c mem
    simp [headed?, Component.ofNode?, h c mem]

private theorem component_eq_none_iff {d : Dialect} {script : String} {m : Module}
    (parsed : Module.parse? script = some m) (stand : NoneRejected d m.nodes) :
    (Table.reading d m.nodes).component = none ↔ ∀ c ∈ m.candidates, c.header.decorators = [] := by
  have accepted := accepted_of_admits parsed (admits_iff_not_rejected.mpr stand)
  rw [← accepted.findSome?_headed?_eq_none_iff, ← Accepted.findSome?_nodes accepted.members]
  rfl

theorem compileScript_eq_ok_iff {d : Dialect} {script out : String} :
    compileScript d script = .ok out ↔
      ∃ m t, Module.parse? script = some m ∧ Table.ofModule d m = .ok t ∧ out = generate d m t := by
  unfold compileScript
  cases parsed : Module.parse? script with
  | none => exact ⟨fun h => (nomatch h), fun ⟨_, _, h, _⟩ => (nomatch h)⟩
  | some m =>
    simp only [Option.some.injEq, exists_and_left, exists_eq_left']
    cases Table.ofModule d m with
    | error e => exact ⟨fun h => (nomatch h), fun ⟨_, h, _⟩ => (nomatch h)⟩
    | ok t => simp [Except.map, eq_comm]

private theorem compileScript_eq_error_iff {d : Dialect} {script : String} {e : Fault} :
    compileScript d script = .error e ↔
      Module.parse? script = none ∧ e = .unreadable ∨
        ∃ m, Module.parse? script = some m ∧ Table.ofModule d m = .error e := by
  unfold compileScript
  cases parsed : Module.parse? script with
  | none => simp [eq_comm]
  | some m => cases table : Table.ofModule d m <;> simp [Except.map, table]

theorem compileScript_eq_unreadable_iff {d : Dialect} {script : String} :
    compileScript d script = .error .unreadable ↔ Module.parse? script = none := by
  rw [compileScript_eq_error_iff]
  constructor
  · rintro (⟨unparsed, -⟩ | ⟨m, -, h⟩)
    · exact unparsed
    · exact absurd h (Table.ofModule_ne_unreadable d m)
  · exact fun unparsed => .inl ⟨unparsed, rfl⟩

theorem compileScript_eq_noComponent_iff {d : Dialect} {script : String} :
    compileScript d script = .error .noComponent ↔
      ∃ m, Module.parse? script = some m ∧ (∀ c ∈ m.candidates, ListsMixins d c) ∧
        NoneRejected d m.nodes := by
  rw [compileScript_eq_error_iff]
  constructor
  · rintro (⟨-, h⟩ | ⟨m, parsed, h⟩)
    · cases h
    · obtain ⟨t, run, component⟩ := Table.ofModule_eq_noComponent_iff.mp h
      obtain ⟨admits, rfl⟩ := Table.ofNodes_eq_ok_iff.mp run
      have stand : NoneRejected d m.nodes := admits_iff_not_rejected.mp admits
      have bare := (component_eq_none_iff parsed stand).mp component
      refine ⟨m, parsed, fun c mem => ?_, stand⟩
      obtain ⟨before, after, split⟩ := List.append_of_mem mem
      exact (accepted_of_admits parsed admits).listsMixins split (bare c mem)
  · rintro ⟨m, parsed, mixins, stand⟩
    have run := Table.ofNodes_eq_ok_iff.mpr ⟨admits_iff_not_rejected.mpr stand, rfl⟩
    refine .inr ⟨m, parsed, Table.ofModule_eq_noComponent_iff.mpr ⟨_, run, ?_⟩⟩
    exact (component_eq_none_iff parsed stand).mpr fun c mem => (mixins c mem).1

theorem exists_compileScript_eq_ok_iff {d : Dialect} {script : String} :
    (∃ out, compileScript d script = .ok out) ↔
      ∃ m, Module.parse? script = some m ∧ (∃ c ∈ m.candidates, c.header.decorators ≠ []) ∧
        NoneRejected d m.nodes := by
  constructor
  · rintro ⟨out, h⟩
    obtain ⟨m, t, parsed, table, -⟩ := compileScript_eq_ok_iff.mp h
    obtain ⟨run, component⟩ := Table.ofModule_eq_ok_iff.mp table
    obtain ⟨admits, rfl⟩ := Table.ofNodes_eq_ok_iff.mp run
    have stand : NoneRejected d m.nodes := admits_iff_not_rejected.mp admits
    rw [Ne, component_eq_none_iff parsed stand] at component
    push Not at component
    exact ⟨m, parsed, component, stand⟩
  · rintro ⟨m, parsed, ⟨c, mem, decorated⟩, stand⟩
    have run := Table.ofNodes_eq_ok_iff.mpr ⟨admits_iff_not_rejected.mpr stand, rfl⟩
    have component : (Table.reading d m.nodes).component ≠ none := fun none =>
      decorated ((component_eq_none_iff parsed stand).mp none c mem)
    exact ⟨_, compileScript_eq_ok_iff.mpr
      ⟨m, _, parsed, Table.ofModule_eq_ok_iff.mpr ⟨run, component⟩, rfl⟩⟩

end VueOptions.Options
