import VueOptions.Proofs.Classification.Reading
import VueOptions.Proofs.Options.SpelledScripts

/-!
Which class an entry of the table comes from. The nodes of all candidates are read together, so the
table of a module is made of the readings of its candidates one behind another. Exactly one candidate
is decorated, the component; the others are there for a call of a mixins helper in their heritage.
-/

set_option autoImplicit false

namespace VueOptions.Options

open Source
open Text (Spelled)

namespace Table

theorem reading_append (d : Dialect) (xs ys : List Node) :
    reading d (xs ++ ys) = reading d xs ++ reading d ys := by
  simp [reading, append_def, append, List.findSome?_append]

theorem reading_flatMap {α : Type} (d : Dialect) (f : α → List Node) (xs : List α) :
    reading d (xs.flatMap f) = concat (xs.map fun x => reading d (f x)) := by
  induction xs with
  | nil => rfl
  | cons x xs ih => rw [List.flatMap_cons, reading_append, ih, List.map_cons, concat]

def size (t : Table) : Nat :=
  t.mixins.length + t.props.length + t.data.length + t.refs.length + t.hooks.length
    + t.methods.length + t.getters.length + t.emits.length + t.watchers.length

theorem size_append (t u : Table) : (t ++ u).size = t.size + u.size := by
  simp only [append_def, append, size, List.length_append]
  omega

theorem eq_empty_iff {t : Table} : t = empty ↔ t.component = none ∧ t.size = 0 := by
  constructor
  · rintro rfl
    exact ⟨rfl, rfl⟩
  · rintro ⟨component, size⟩
    obtain ⟨c, mixins, props, data, refs, hooks, methods, getters, emits, watchers⟩ := t
    simp only [Table.size, Nat.add_eq_zero_iff, List.length_eq_zero_iff] at size
    obtain ⟨⟨⟨⟨⟨⟨⟨⟨rfl, rfl⟩, rfl⟩, rfl⟩, rfl⟩, rfl⟩, rfl⟩, rfl⟩, rfl⟩ := size
    obtain rfl : c = none := component
    rfl

theorem append_eq_empty_iff {t u : Table} : t ++ u = empty ↔ t = empty ∧ u = empty := by
  simp only [eq_empty_iff, append_component, size_append, Option.or_eq_none_iff, Nat.add_eq_zero_iff]
  exact and_and_and_comm

theorem concat_eq_empty_iff {ts : List Table} : concat ts = empty ↔ ∀ t ∈ ts, t = empty := by
  induction ts with
  | nil => simp [concat]
  | cons t ts ih => rw [concat, append_eq_empty_iff, ih, List.forall_mem_cons]

theorem around_eq_iff {t u v : Table} (before : t.component = none) (after : v.component = none) :
    t ++ u ++ v = u ↔ t = empty ∧ v = empty := by
  constructor
  · intro same
    have sizes := congrArg size same
    rw [size_append, size_append] at sizes
    exact ⟨eq_empty_iff.mpr ⟨before, by omega⟩, eq_empty_iff.mpr ⟨after, by omega⟩⟩
  · rintro ⟨rfl, rfl⟩
    rw [empty_append, append_empty]

end Table

/-- The nodes of a class besides its header are fields and methods. -/
def IsMember : Node → Prop
  | .header _ => False
  | _ => True

private theorem exists_tree_of_classLike {source : List Char} {t : Script.Tree} {c : ClassDeclaration}
    (h : StatementForm.ofTree source t = .classLike c) :
    ∃ u, c = ClassDeclaration.ofTree source u := by
  have declared : ∀ {u : Script.Tree}, StatementForm.ofDeclaration source u = .classLike c →
      ∃ u, c = ClassDeclaration.ofTree source u := by
    intro u hu
    unfold StatementForm.ofDeclaration at hu
    split at hu <;> cases hu
    exact ⟨u, rfl⟩
  unfold StatementForm.ofTree at h
  split at h
  · cases h
  · exact declared h
  · cases h
    exact ⟨_, rfl⟩
  · cases h
  · cases h
  · exact declared h

theorem exists_tree_of_candidate {script : String} {m : Module} {c : ClassDeclaration}
    (parsed : Module.parse? script = some m) (candidate : c ∈ m.candidates) :
    ∃ u, c = ClassDeclaration.ofTree script.toList u := by
  obtain ⟨tree, -, rfl⟩ := Option.map_eq_some_iff.mp parsed
  obtain ⟨statement, hstatement, hc⟩ := List.mem_filterMap.mp candidate
  obtain ⟨t, -, rfl⟩ := List.mem_map.mp hstatement
  unfold Statement.candidate? at hc
  split at hc
  · next class_ hform =>
    obtain ⟨u, rfl⟩ := exists_tree_of_classLike hform
    split at hc
    · obtain rfl := Option.some.inj hc
      exact ⟨u, rfl⟩
    · cases hc
  · cases hc

theorem exists_tree_of_mem_candidates {script : String} {m : Module} {c : ClassDeclaration} {n : Node}
    (parsed : Module.parse? script = some m) (candidate : c ∈ m.candidates) (mem : n ∈ c.members) :
    ∃ t, Node.ofMember? script.toList t = some n := by
  obtain ⟨u, rfl⟩ := exists_tree_of_candidate parsed candidate
  simp only [ClassDeclaration.ofTree] at mem
  split at mem
  · obtain ⟨child, -, hchild⟩ := List.mem_filterMap.mp mem
    exact ⟨child, hchild⟩
  · cases mem

theorem isMember_of_mem_candidates {script : String} {m : Module} {c : ClassDeclaration} {n : Node}
    (parsed : Module.parse? script = some m) (candidate : c ∈ m.candidates) (mem : n ∈ c.members) :
    IsMember n := by
  obtain ⟨t, h⟩ := exists_tree_of_mem_candidates parsed candidate mem
  unfold Node.ofMember? at h
  split at h
  · obtain rfl := Option.some.inj h
    trivial
  · obtain rfl := Option.some.inj h
    trivial
  · cases h

def headed? (d : Dialect) (c : ClassDeclaration) : Option Component :=
  Component.ofNode? d (.header c.header)

def ListsMixins (d : Dialect) (c : ClassDeclaration) : Prop :=
  c.header.decorators = [] ∧ ∃ text callee arguments,
    c.header.superClass = some (.call text callee arguments) ∧ callee ∈ d.mixinsHelpers

/-- Classes whose members are fields and methods, and whose nodes every pass lets through. -/
structure Accepted (d : Dialect) (cs : List ClassDeclaration) : Prop where
  candidate : ∀ c ∈ cs, c.header.isCandidate = true
  members : ∀ c ∈ cs, ∀ n ∈ c.members, IsMember n
  admits : ∀ before n after, cs.flatMap ClassDeclaration.nodes = before ++ n :: after →
    ∀ p, Pass.Admits d (before.findSome? (Component.ofNode? d)) p n

namespace Accepted

variable {d : Dialect} {cs before after : List ClassDeclaration} {c : ClassDeclaration}

theorem findSome?_nodes (members : ∀ c ∈ cs, ∀ n ∈ c.members, IsMember n) :
    (cs.flatMap ClassDeclaration.nodes).findSome? (Component.ofNode? d) = cs.findSome? (headed? d) := by
  have bare : ∀ c ∈ cs, c.members.findSome? (Component.ofNode? d) = none := by
    intro c mem
    rw [List.findSome?_eq_none_iff]
    intro n hn
    have member := members c mem n hn
    cases n with
    | header h => exact absurd member id
    | field f => rfl
    | method m => rfl
  induction cs with
  | nil => rfl
  | cons c cs ih =>
    rw [List.flatMap_cons, List.findSome?_append, ClassDeclaration.nodes, List.findSome?_cons,
      bare c List.mem_cons_self, List.findSome?_cons,
      ih (fun o mem => members o (List.mem_cons_of_mem c mem))
        (fun o mem => bare o (List.mem_cons_of_mem c mem)), headed?]
    cases Component.ofNode? d (.header c.header) <;> rfl

private theorem admits_header (accepted : Accepted d cs) (split : cs = before ++ c :: after)
    (p : Pass) : Pass.Admits d (before.findSome? (headed? d)) p (.header c.header) := by
  have members : ∀ o ∈ before, ∀ n ∈ o.members, IsMember n := fun o mem =>
    accepted.members o (split ▸ List.mem_append_left _ mem)
  rw [← findSome?_nodes members]
  apply accepted.admits _ _ (c.members ++ after.flatMap ClassDeclaration.nodes)
  rw [split, List.flatMap_append, List.flatMap_cons]
  rfl

theorem decorated (accepted : Accepted d cs) (split : cs = before ++ c :: after) :
    c.header.decorators = [] ∨ ∃ x, c.header.decorators = [x] ∧
      headed? d c = some (Component.ofClass c.header x) ∧ ∀ o ∈ before, headed? d o = none := by
  rcases accepted.admits_header split .component with bare | ⟨x, one, marks, none_before⟩
  · exact .inl bare
  · refine .inr ⟨x, one, ?_, List.findSome?_eq_none_iff.mp none_before⟩
    simp [headed?, Component.ofNode?, one, marks]

theorem listsMixins (accepted : Accepted d cs) (split : cs = before ++ c :: after)
    (bare : c.header.decorators = []) : ListsMixins d c := by
  have candidate := accepted.candidate c (split ▸ List.mem_append_right _ List.mem_cons_self)
  have calls := accepted.admits_header split .mixins
  refine ⟨bare, ?_⟩
  simp only [ClassHeader.isCandidate, bare, List.isEmpty_nil, Bool.not_true, Bool.false_or] at candidate
  split at candidate
  · next text callee arguments call => exact ⟨text, callee, arguments, call, calls _ _ _ call⟩
  · cases candidate

theorem others_listMixins (accepted : Accepted d cs) (split : cs = before ++ c :: after)
    (heads : headed? d c ≠ none) : ∀ o ∈ before ++ after, ListsMixins d o := by
  have bare : c.header.decorators ≠ [] := by
    intro bare
    simp [headed?, Component.ofNode?, bare] at heads
  obtain ⟨x, -, -, unheaded⟩ := (accepted.decorated split).resolve_left bare
  intro o mem
  -- A decorated class before `c` would refuse `c`, and `c` would refuse one behind it.
  rcases List.mem_append.mp mem with mem | mem
  · obtain ⟨first, second, hbefore⟩ := List.append_of_mem mem
    have split' : cs = first ++ o :: (second ++ c :: after) := by
      rw [split, hbefore, List.append_assoc, List.cons_append]
    refine accepted.listsMixins split' ?_
    rcases accepted.decorated split' with bare' | ⟨y, -, headed, -⟩
    · exact bare'
    · rw [unheaded o mem] at headed
      cases headed
  · obtain ⟨first, second, hafter⟩ := List.append_of_mem mem
    have split' : cs = (before ++ c :: first) ++ o :: second := by
      rw [split, hafter, List.append_assoc, List.cons_append]
    refine accepted.listsMixins split' ?_
    rcases accepted.decorated split' with bare' | ⟨y, -, -, none_before⟩
    · exact bare'
    · exact absurd (none_before c (List.mem_append_right _ List.mem_cons_self)) heads

private theorem component_eq_none {os : List ClassDeclaration} (accepted : Accepted d cs)
    (subset : ∀ o ∈ os, o ∈ cs) (mixins : ∀ o ∈ os, ListsMixins d o) :
    (Table.concat (os.map fun o => Table.reading d o.nodes)).component = none := by
  rw [← Table.reading_flatMap, Table.reading,
    findSome?_nodes fun o mem => accepted.members o (subset o mem), List.findSome?_eq_none_iff]
  intro o mem
  simp [headed?, Component.ofNode?, (mixins o mem).1]

theorem reading_eq_iff (accepted : Accepted d cs) (split : cs = before ++ c :: after)
    (mixins : ∀ o ∈ before ++ after, ListsMixins d o) :
    Table.concat (cs.map fun o => Table.reading d o.nodes) = Table.reading d c.nodes ↔
      ∀ o ∈ before ++ after, Table.reading d o.nodes = Table.empty := by
  have first := accepted.component_eq_none
    (fun o mem => split ▸ List.mem_append_left _ mem)
    (fun o mem => mixins o (List.mem_append_left after mem))
  have last := accepted.component_eq_none
    (fun o mem => split ▸ List.mem_append_right _ (List.mem_cons_of_mem c mem))
    (fun o mem => mixins o (List.mem_append_right before mem))
  rw [split, List.map_append, List.map_cons, Table.concat_append, Table.concat, ← Table.append_assoc,
    Table.around_eq_iff first last, Table.concat_eq_empty_iff, Table.concat_eq_empty_iff,
    List.forall_mem_map, List.forall_mem_map, List.forall_mem_append]

end Accepted

theorem Table.ofModule_of_ok {d : Dialect} {m : Module} {t : Table}
    (h : Table.ofNodes d Pass.all m.nodes = .ok t) :
    Table.ofModule d m = if t.component = none then .error .noComponent else .ok t := by
  rw [Table.ofModule, h]
  cases hc : t.component with
  | none => simp [bind, Except.bind, Table.isEmpty, hc]
  | some c => simp [bind, Except.bind, Table.isEmpty, hc]

theorem Table.ofModule_of_error {d : Dialect} {m : Module} {e : Fault}
    (h : Table.ofNodes d Pass.all m.nodes = .error e) : Table.ofModule d m = .error e := by
  rw [Table.ofModule, h]
  rfl

theorem Table.ofModule_eq_ok_iff {d : Dialect} {m : Module} {t : Table} :
    Table.ofModule d m = .ok t ↔ Table.ofNodes d Pass.all m.nodes = .ok t ∧ t.component ≠ none := by
  cases hn : Table.ofNodes d Pass.all m.nodes with
  | error e =>
    rw [Table.ofModule_of_error hn]
    exact ⟨fun h => (nomatch h), fun h => (nomatch h.1)⟩
  | ok u =>
    rw [Table.ofModule_of_ok hn]
    split
    · next bare => exact ⟨fun h => (nomatch h), fun h => absurd (Except.ok.inj h.1 ▸ bare) h.2⟩
    · next component => exact ⟨fun h => ⟨h, Except.ok.inj h ▸ component⟩, fun h => h.1⟩

theorem accepted_of_admits {d : Dialect} {script : String} {m : Module}
    (parsed : Module.parse? script = some m) (admits : ∀ before n after, m.nodes = before ++ n :: after →
      ∀ p, Pass.Admits d (before.findSome? (Component.ofNode? d)) p n) : Accepted d m.candidates := by
  refine ⟨?_, fun c mem n hn => isMember_of_mem_candidates parsed mem hn, admits⟩
  intro c mem
  obtain ⟨statement, -, hc⟩ := List.mem_filterMap.mp mem
  unfold Statement.candidate? at hc
  split at hc
  · split at hc
    · next isCandidate =>
      obtain rfl := Option.some.inj hc
      exact isCandidate
    · cases hc
  · cases hc

theorem ofScript_of_parse? {d : Dialect} {script : String} {m : Module} (parsed : Module.parse? script = some m) :
    Table.ofScript d script = Table.ofModule d m := by
  unfold Table.ofScript
  rw [parsed]

theorem accepted_of_ofScript {d : Dialect} {script : String} {t : Table}
    (h : Table.ofScript d script = .ok t) :
    ∃ m, Module.parse? script = some m ∧ Accepted d m.candidates ∧
      t = Table.reading d m.nodes ∧ t.component ≠ none := by
  unfold Table.ofScript at h
  split at h
  · cases h
  · next m parsed =>
    obtain ⟨run, component⟩ := Table.ofModule_eq_ok_iff.mp h
    obtain ⟨admits, read⟩ := Table.ofNodes_eq_ok_iff.mp run
    exact ⟨m, parsed, accepted_of_admits parsed admits, read, component⟩

/-- The table of a script is made of the readings of its candidates: the one class that declares the
component, and undecorated classes whose heritage lists mixins. It is the reading of the component's
class alone exactly when none of the others declares anything. -/
theorem table_comes_from_component_and_mixin_classes {d : Dialect} {script : String} {t : Table}
    (h : Table.ofScript d script = .ok t) :
    ∃ m before c after x, Module.parse? script = some m ∧ m.candidates = before ++ c :: after ∧
      c.header.decorators = [x] ∧ t.component = some (Component.ofClass c.header x) ∧
      (∀ o ∈ before ++ after, ListsMixins d o) ∧
      t = Table.concat (m.candidates.map fun o => Table.reading d o.nodes) ∧
      (t = Table.reading d c.nodes ↔
        ∀ o ∈ before ++ after, Table.reading d o.nodes = Table.empty) := by
  obtain ⟨m, parsed, accepted, read, component⟩ := accepted_of_ofScript h
  have found : t.component = m.candidates.findSome? (headed? d) := by
    rw [read]
    exact Accepted.findSome?_nodes accepted.members
  obtain ⟨first, hfirst⟩ := Option.ne_none_iff_exists'.mp component
  obtain ⟨before, c, after, split, heads, -⟩ := List.findSome?_eq_some_iff.mp (found ▸ hfirst)
  have mixins := accepted.others_listMixins split (by rw [heads]; exact Option.some_ne_none first)
  have joined : t = Table.concat (m.candidates.map fun o => Table.reading d o.nodes) := by
    rw [read, Module.nodes, Table.reading_flatMap]
  rcases accepted.decorated split with bare | ⟨x, one, headed, -⟩
  · simp [headed?, Component.ofNode?, bare] at heads
  · refine ⟨m, before, c, after, x, parsed, split, one, ?_, mixins, joined, ?_⟩
    · rw [hfirst, ← heads, headed]
    · rw [joined]
      exact accepted.reading_eq_iff split mixins

instance decidableEqExcept {ε α : Type} [DecidableEq ε] [DecidableEq α] : DecidableEq (Except ε α)
  | .ok a, .ok b => decidable_of_iff (a = b) ⟨congrArg _, Except.ok.inj⟩
  | .error e, .error f => decidable_of_iff (e = f) ⟨congrArg _, Except.error.inj⟩
  | .ok _, .error _ => .isFalse nofun
  | .error _, .ok _ => .isFalse nofun

/-- A component without members beside a class that lists a mixin and has a field. -/
def mixinClassBesideComponent : String :=
  "@Component class A \x7b\x7d class B extends Mixins(M) \x7b x = 1 \x7d"

/-- The component's name together with what the class with the mixin declares. -/
def mixinClassTable : Table :=
  { component := some ⟨"A", []⟩
    mixins := [⟨"M"⟩]
    data := [⟨"x", some "1", none, false⟩] }

private theorem ofScript_mixinClass :
    Table.ofScript {} mixinClassBesideComponent = .ok mixinClassTable := by
  have spelled : Spelled mixinClassBesideComponent _ := .literal rfl
  rw [ofScript_of_spelled spelled]
  decide +kernel

/-- A field and a mixin that the component's class does not have are in the table. -/
theorem mixin_class_members_enter_table :
    Table.ofScript {} mixinClassBesideComponent = .ok mixinClassTable ∧
      (Module.parse? mixinClassBesideComponent).map (fun m => m.candidates.map fun c =>
        (c.header.name, c.header.decorators.map Decorator.name, (Table.reading {} c.nodes).size)) =
      some [(some "A", ["Component"], 0), (some "B", [], 2)] := by
  have spelled : Spelled mixinClassBesideComponent _ := .literal rfl
  refine ⟨ofScript_mixinClass, ?_⟩
  rw [parse?_of_spelled spelled]
  decide +kernel

/-- The table of that script is made of the readings of both classes. -/
theorem mixin_class_table_is_made_of_both_classes :
    ∃ m before c after x, Module.parse? mixinClassBesideComponent = some m ∧
      m.candidates = before ++ c :: after ∧ c.header.decorators = [x] ∧
      mixinClassTable.component = some (Component.ofClass c.header x) ∧
      (∀ o ∈ before ++ after, ListsMixins {} o) ∧
      mixinClassTable = Table.concat (m.candidates.map fun o => Table.reading {} o.nodes) ∧
      (mixinClassTable = Table.reading {} c.nodes ↔
        ∀ o ∈ before ++ after, Table.reading {} o.nodes = Table.empty) :=
  table_comes_from_component_and_mixin_classes ofScript_mixinClass

end VueOptions.Options
