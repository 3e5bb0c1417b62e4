import Mathlib.Tactic.ByContra
import VueOptions.Proofs.Classification.Contribution

/-!
Classification as a declarative reading. `Rejected` lists the nodes that no component may have, and
`Table.reading` says which entries nodes declare, kind by kind in source order. Main statement: the
seven passes succeed exactly when no node is rejected, and then they give the reading.
-/

set_option autoImplicit false

namespace VueOptions.Options

open Source

/-- The entries that nodes declare, each kind in source order. -/
def Table.reading (d : Dialect) (nodes : List Node) : Table :=
  { component := nodes.findSome? (Component.ofNode? d)
    mixins := nodes.flatMap Mixin.ofNode
    props := nodes.filterMap (PropField.ofNode? d)
    data := nodes.filterMap DataField.ofNode?
    refs := nodes.filterMap (RefField.ofNode? d)
    hooks := nodes.filterMap (Hook.ofNode? d)
    methods := nodes.filterMap (PlainMethod.ofNode? d)
    getters := nodes.filterMap Getter.ofNode?
    emits := nodes.filterMap (Emit.ofNode? d)
    watchers := nodes.filterMap (Watcher.ofNode? d) }

inductive Rejected (d : Dialect) (before : List Node) : Node → Prop
  /-- A class with more than one decorator. -/
  | severalOnClass {h : ClassHeader} (several : 1 < h.decorators.length) :
      Rejected d before (.header h)
  /-- A class whose decorator does not mark components. -/
  | unknownOnClass {h : ClassHeader} {x : Decorator} (one : h.decorators = [x])
      (unknown : x.name ≠ d.componentDecorator) : Rejected d before (.header h)
  /-- A second component. -/
  | secondComponent {h : ClassHeader} {x : Decorator} (one : h.decorators = [x])
      (marks : x.name = d.componentDecorator) {first : Node} (mem : first ∈ before)
      (found : (Component.ofNode? d first).isSome) : Rejected d before (.header h)
  /-- A class whose heritage calls something that lists no mixins. -/
  | unknownHeritage {h : ClassHeader} {text callee : String} {arguments : List Argument}
      (call : h.superClass = some (.call text callee arguments))
      (unknown : callee ∉ d.mixinsHelpers) : Rejected d before (.header h)
  /-- A field with more than one decorator. -/
  | severalOnField {f : Field} (several : 1 < f.decorators.length) : Rejected d before (.field f)
  /-- A field whose decorator marks neither references nor props. -/
  | unknownOnField {f : Field} {x : Decorator} (one : f.decorators = [x])
      (noRef : x.name ≠ d.refDecorator) (noProp : x.name ≠ d.propDecorator) :
      Rejected d before (.field f)
  /-- A method, accessor or constructor with more than one decorator. -/
  | severalOnMethod {m : Method} (several : 1 < m.decorators.length) : Rejected d before (.method m)
  /-- A decorated accessor or constructor. -/
  | decoratedRole {m : Method} {x : Decorator} (one : m.decorators = [x])
      (role : m.role ≠ .method) : Rejected d before (.method m)
  /-- A method whose decorator marks neither watchers nor emits. -/
  | unknownOnMethod {m : Method} {x : Decorator} (one : m.decorators = [x])
      (noWatch : x.name ≠ d.watchDecorator) (noEmit : x.name ≠ d.emitDecorator) :
      Rejected d before (.method m)
  /-- A method whose decorator marks watchers but gives no path or no proper flags. -/
  | watchOptions {m : Method} {x : Decorator} (one : m.decorators = [x]) (role : m.role = .method)
      (marks : x.name = d.watchDecorator) {fault : Fault}
      (fails : Watcher.ofMethod m x = .error fault) : Rejected d before (.method m)

namespace Pass

private theorem gathered_eq (d : Dialect) (nodes : List Node) (p : Pass) :
    gathered d nodes p =
      match p with
      | .component => { component := nodes.findSome? (Component.ofNode? d) }
      | .mixins => { mixins := nodes.flatMap Mixin.ofNode }
      | .data => { data := nodes.filterMap DataField.ofNode? }
      | .decoratedField =>
        { props := nodes.filterMap (PropField.ofNode? d)
          refs := nodes.filterMap (RefField.ofNode? d) }
      | .decoratedMethod =>
        { emits := nodes.filterMap (Emit.ofNode? d)
          watchers := nodes.filterMap (Watcher.ofNode? d) }
      | .method =>
        { hooks := nodes.filterMap (Hook.ofNode? d)
          methods := nodes.filterMap (PlainMethod.ofNode? d) }
      | .computed => { getters := nodes.filterMap Getter.ofNode? } := by
  induction nodes with
  | nil => cases p <;> rfl
  | cons n nodes ih =>
    have hcons : gathered d (n :: nodes) p = contribution d n p ++ gathered d nodes p := rfl
    rw [hcons, ih]
    cases p with
    | component =>
      cases hc : Component.ofNode? d n <;>
        simp [contribution, hc, Table.append_def, Table.append]
    | mixins => simp [contribution, Table.append_def, Table.append]
    | data =>
      cases hf : DataField.ofNode? n <;> simp [contribution, hf, Table.append_def, Table.append]
    | decoratedField =>
      cases hp : PropField.ofNode? d n <;> cases hr : RefField.ofNode? d n <;>
        simp [contribution, hp, hr, Table.append_def, Table.append]
    | decoratedMethod =>
      cases he : Emit.ofNode? d n <;> cases hw : Watcher.ofNode? d n <;>
        simp [contribution, he, hw, Table.append_def, Table.append]
    | method =>
      cases hh : Hook.ofNode? d n <;> cases hm : PlainMethod.ofNode? d n <;>
        simp [contribution, hh, hm, Table.append_def, Table.append]
    | computed =>
      cases hg : Getter.ofNode? n <;> simp [contribution, hg, Table.append_def, Table.append]

theorem gatheredAll_all (d : Dialect) (nodes : List Node) :
    gatheredAll d nodes all = Table.reading d nodes := by
  simp [gatheredAll, all, gathered_eq, Table.concat, Table.append_def, Table.append, Table.empty,
    Table.reading]

private theorem earlier_of_component {earlier later : List Pass}
    (h : all = earlier ++ .component :: later) : earlier = [] := by
  cases earlier with
  | nil => rfl
  | cons p earlier =>
    obtain ⟨-, htail⟩ := List.cons.inj h
    have hmem : Pass.component ∈ [mixins, data, decoratedField, decoratedMethod, method, computed] := by
      rw [htail]
      exact List.mem_append_right _ List.mem_cons_self
    simp at hmem

theorem admits_congr {d : Dialect} {c c' : Option Component} {p : Pass} {n : Node}
    (hp : p ≠ .component) : Admits d c p n ↔ Admits d c' p n := by
  cases p with
  | component => exact absurd rfl hp
  | _ => cases n <;> exact Iff.rfl

theorem mem_all (p : Pass) : p ∈ all := by cases p <;> decide

theorem admits_all_iff {d : Dialect} {nodes before : List Node} {n : Node} :
    (∀ earlier p later, all = earlier ++ p :: later →
        Admits d (Table.empty ++ gatheredAll d nodes earlier ++ gathered d before p).component p n) ↔
      ∀ p, Admits d (before.findSome? (Component.ofNode? d)) p n := by
  constructor
  · intro h p
    obtain ⟨earlier, later, hsplit⟩ := List.append_of_mem (mem_all p)
    have hadmits := h earlier p later hsplit
    by_cases hp : p = .component
    · subst hp
      rw [earlier_of_component hsplit] at hadmits
      simpa [gatheredAll, Table.concat, gathered_eq] using hadmits
    · exact (admits_congr hp).mp hadmits
  · intro h earlier p later hsplit
    by_cases hp : p = .component
    · subst hp
      rw [earlier_of_component hsplit]
      simpa [gatheredAll, Table.concat, gathered_eq] using h .component
    · exact (admits_congr hp).mp (h p)

end Pass

private theorem several_of_ne {ds : List Decorator} (hnil : ds ≠ []) (hone : ∀ x, ds ≠ [x]) :
    1 < ds.length := by
  match ds with
  | [] => exact absurd rfl hnil
  | [x] => exact absurd rfl (hone x)
  | _ :: _ :: _ => simp

private theorem ne_of_several {ds : List Decorator} (h : 1 < ds.length) :
    ds ≠ [] ∧ ∀ x, ds ≠ [x] := by
  constructor
  · rintro rfl
    simp at h
  · rintro x rfl
    simp at h

private theorem not_admits_of_rejected {d : Dialect} {before : List Node} {n : Node}
    (h : Rejected d before n) :
    ∃ p, ¬Pass.Admits d (before.findSome? (Component.ofNode? d)) p n := by
  cases h with
  | severalOnClass several =>
    obtain ⟨hnil, hone⟩ := ne_of_several several
    refine ⟨.component, ?_⟩
    rintro (h | ⟨x, h, -⟩)
    · exact hnil h
    · exact hone x h
  | unknownOnClass one unknown =>
    refine ⟨.component, ?_⟩
    rintro (h | ⟨y, h, hy, -⟩)
    · simp [one] at h
    · rw [one] at h
      obtain ⟨rfl, -⟩ := List.cons.inj h
      exact unknown hy
  | secondComponent one marks mem found =>
    refine ⟨.component, ?_⟩
    rintro (h | ⟨-, -, -, hnone⟩)
    · simp [one] at h
    · rw [List.findSome?_eq_none_iff.mp hnone _ mem] at found
      cases found
  | unknownHeritage call unknown => exact ⟨.mixins, fun h => unknown (h _ _ _ call)⟩
  | severalOnField several =>
    obtain ⟨hnil, hone⟩ := ne_of_several several
    refine ⟨.decoratedField, ?_⟩
    rintro (h | ⟨x, h, -⟩)
    · exact hnil h
    · exact hone x h
  | unknownOnField one noRef noProp =>
    refine ⟨.decoratedField, ?_⟩
    rintro (h | ⟨y, h, hy⟩)
    · simp [one] at h
    · rw [one] at h
      obtain ⟨rfl, -⟩ := List.cons.inj h
      exact hy.elim noRef noProp
  | severalOnMethod several =>
    obtain ⟨hnil, hone⟩ := ne_of_several several
    refine ⟨.decoratedMethod, ?_⟩
    rintro (h | ⟨x, h, -⟩)
    · exact hnil h
    · exact hone x h
  | decoratedRole one role =>
    refine ⟨.decoratedMethod, ?_⟩
    rintro (h | ⟨-, -, hrole, -⟩)
    · simp [one] at h
    · exact role hrole
  | unknownOnMethod one noWatch noEmit =>
    refine ⟨.decoratedMethod, ?_⟩
    rintro (h | ⟨y, h, -, hy⟩)
    · simp [one] at h
    · rw [one] at h
      obtain ⟨rfl, -⟩ := List.cons.inj h
      exact hy.elim (fun hw => noWatch hw.1) (fun he => noEmit he.2)
  | watchOptions one role marks fails =>
    refine ⟨.decoratedMethod, ?_⟩
    rintro (h | ⟨y, h, -, hy⟩)
    · simp [one] at h
    · rw [one] at h
      obtain ⟨rfl, -⟩ := List.cons.inj h
      rcases hy with ⟨-, w, hw⟩ | ⟨hw, -⟩
      · rw [fails] at hw
        cases hw
      · exact hw marks

private theorem rejected_of_not_admits {d : Dialect} {before : List Node} {n : Node} {p : Pass}
    (h : ¬Pass.Admits d (before.findSome? (Component.ofNode? d)) p n) : Rejected d before n := by
  cases n with
  | header c =>
    cases p with
    | component =>
      rw [Pass.Admits, not_or] at h
      by_cases hone : ∃ x, c.decorators = [x]
      · obtain ⟨x, hx⟩ := hone
        by_cases hname : x.name = d.componentDecorator
        · have hsome : ¬before.findSome? (Component.ofNode? d) = none :=
            fun hnone => h.2 ⟨x, hx, hname, hnone⟩
          simp only [List.findSome?_eq_none_iff, not_forall] at hsome
          obtain ⟨first, mem, hfirst⟩ := hsome
          exact .secondComponent hx hname mem (Option.isSome_iff_ne_none.mpr hfirst)
        · exact .unknownOnClass hx hname
      · exact .severalOnClass (several_of_ne h.1 fun x hx => hone ⟨x, hx⟩)
    | mixins =>
      simp only [Pass.Admits, not_forall] at h
      obtain ⟨text, callee, arguments, hcall, hunknown⟩ := h
      exact .unknownHeritage hcall hunknown
    | _ => exact absurd trivial h
  | field f =>
    cases p with
    | decoratedField =>
      rw [Pass.Admits, not_or] at h
      by_cases hone : ∃ x, f.decorators = [x]
      · obtain ⟨x, hx⟩ := hone
        exact .unknownOnField hx (fun hr => h.2 ⟨x, hx, .inl hr⟩) (fun hp => h.2 ⟨x, hx, .inr hp⟩)
      · exact .severalOnField (several_of_ne h.1 fun x hx => hone ⟨x, hx⟩)
    | _ => exact absurd trivial h
  | method m =>
    cases p with
    | decoratedMethod =>
      rw [Pass.Admits, not_or] at h
      by_cases hone : ∃ x, m.decorators = [x]
      · obtain ⟨x, hx⟩ := hone
        by_cases hrole : m.role = .method
        · by_cases hw : x.name = d.watchDecorator
          · cases hok : Watcher.ofMethod m x with
            | ok w => exact absurd ⟨x, hx, hrole, .inl ⟨hw, w, hok⟩⟩ h.2
            | error fault => exact .watchOptions hx hrole hw hok
          · exact .unknownOnMethod hx hw fun he => h.2 ⟨x, hx, hrole, .inr ⟨hw, he⟩⟩
        · exact .decoratedRole hx hrole
      · exact .severalOnMethod (several_of_ne h.1 fun x hx => hone ⟨x, hx⟩)
    | _ => exact absurd trivial h

theorem rejected_iff {d : Dialect} {before : List Node} {n : Node} :
    Rejected d before n ↔ ∃ p, ¬Pass.Admits d (before.findSome? (Component.ofNode? d)) p n :=
  ⟨not_admits_of_rejected, fun ⟨_, h⟩ => rejected_of_not_admits h⟩

theorem admits_iff_not_rejected {d : Dialect} {nodes : List Node} :
    (∀ before n after, nodes = before ++ n :: after →
      ∀ p, Pass.Admits d (before.findSome? (Component.ofNode? d)) p n) ↔
    ∀ before n after, nodes = before ++ n :: after → ¬Rejected d before n := by
  constructor
  · intro h before n after split rejected
    obtain ⟨p, hp⟩ := rejected_iff.mp rejected
    exact hp (h before n after split p)
  · intro h before n after split p
    by_contra hp
    exact h before n after split (rejected_iff.mpr ⟨p, hp⟩)

theorem Table.ofNodes_eq_ok_iff {d : Dialect} {nodes : List Node} {t : Table} :
    Table.ofNodes d Pass.all nodes = .ok t ↔
      (∀ before n after, nodes = before ++ n :: after →
        ∀ p, Pass.Admits d (before.findSome? (Component.ofNode? d)) p n) ∧
      t = Table.reading d nodes := by
  rw [Table.ofNodes, Pass.run_eq_ok_iff, Table.empty_append, Pass.gatheredAll_all]
  refine and_congr_left fun _ => ?_
  constructor
  · intro h before n after split
    exact Pass.admits_all_iff.mp fun earlier q later hpass =>
      h earlier q later hpass before n after split
  · intro h earlier p later hpass before n after split
    exact Pass.admits_all_iff.mpr (h before n after split) earlier p later hpass

/-- Classification succeeds exactly when no node is rejected behind those before it, and the table is
then what the nodes declare. -/
theorem classification_succeeds_iff_no_node_rejected (d : Dialect) (nodes : List Node) (t : Table) :
    Table.ofNodes d Pass.all nodes = .ok t ↔
      (∀ before n after, nodes = before ++ n :: after → ¬Rejected d before n) ∧
      t = Table.reading d nodes := by
  rw [Table.ofNodes_eq_ok_iff, admits_iff_not_rejected]

end VueOptions.Options
