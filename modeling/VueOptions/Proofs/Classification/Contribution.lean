import Mathlib.Logic.Basic
import VueOptions.Options.Classify

/-!
What a pass adds to the table. Tables can be put behind one another, entry list by entry list, and
every step of a pass that is not refused puts a table of its own, the contribution of the node,
behind what is there already. A whole run is then a concatenation of contributions, and whether it is
refused depends on the table only through its component.
-/

set_option autoImplicit false

namespace VueOptions.Options

open Source

namespace Table

/-- The entries of two tables, those of the first before those of the second. -/
def append (t u : Table) : Table :=
  { component := t.component.or u.component
    mixins := t.mixins ++ u.mixins
    props := t.props ++ u.props
    data := t.data ++ u.data
    refs := t.refs ++ u.refs
    hooks := t.hooks ++ u.hooks
    methods := t.methods ++ u.methods
    getters := t.getters ++ u.getters
    emits := t.emits ++ u.emits
    watchers := t.watchers ++ u.watchers }

instance : Append Table := ⟨append⟩

theorem append_def (t u : Table) : t ++ u = t.append u := rfl

@[simp] theorem append_component (t u : Table) :
    (t ++ u).component = t.component.or u.component := rfl

@[simp] theorem append_empty (t : Table) : t ++ empty = t := by
  simp [append_def, append, empty]

@[simp] theorem empty_append (t : Table) : empty ++ t = t := by
  simp [append_def, append, empty]

theorem append_assoc (t u v : Table) : t ++ u ++ v = t ++ (u ++ v) := by
  simp [append_def, append, Option.or_assoc]

theorem withComponent_eq {t : Table} (h : t.component = none) (c : Component) :
    t.withComponent c = t ++ { component := some c } := by
  simp [withComponent, append_def, append, h]

theorem withMixins_eq (t : Table) (ms : List Mixin) : t.withMixins ms = t ++ { mixins := ms } := by
  simp [withMixins, append_def, append]

theorem withProp_eq (t : Table) (p : PropField) : t.withProp p = t ++ { props := [p] } := by
  simp [withProp, append_def, append]

theorem withData_eq (t : Table) (f : DataField) : t.withData f = t ++ { data := [f] } := by
  simp [withData, append_def, append]

theorem withRef_eq (t : Table) (r : RefField) : t.withRef r = t ++ { refs := [r] } := by
  simp [withRef, append_def, append]

theorem withHook_eq (t : Table) (h : Hook) : t.withHook h = t ++ { hooks := [h] } := by
  simp [withHook, append_def, append]

theorem withMethod_eq (t : Table) (m : PlainMethod) : t.withMethod m = t ++ { methods := [m] } := by
  simp [withMethod, append_def, append]

theorem withGetter_eq (t : Table) (g : Getter) : t.withGetter g = t ++ { getters := [g] } := by
  simp [withGetter, append_def, append]

theorem withEmit_eq (t : Table) (e : Emit) : t.withEmit e = t ++ { emits := [e] } := by
  simp [withEmit, append_def, append]

theorem withWatcher_eq (t : Table) (w : Watcher) : t.withWatcher w = t ++ { watchers := [w] } := by
  simp [withWatcher, append_def, append]

def concat : List Table → Table
  | [] => empty
  | t :: ts => t ++ concat ts

theorem concat_append (ts us : List Table) : concat (ts ++ us) = concat ts ++ concat us := by
  induction ts with
  | nil => simp [concat]
  | cons t ts ih => rw [List.cons_append, concat, concat, ih, append_assoc]

end Table

def Component.ofNode? (d : Dialect) : Node → Option Component
  | .header h =>
    match h.decorators with
    | [x] => if x.name = d.componentDecorator then some (Component.ofClass h x) else none
    | _ => none
  | _ => none

/-- The arguments of a call in the heritage of a class, those that are spread left out. -/
def Mixin.ofNode : Node → List Mixin
  | .header h =>
    match h.superClass with
    | some (.call _ _ arguments) => (arguments.filterMap Argument.value?).map fun e => ⟨e.text⟩
    | _ => []
  | _ => []

def DataField.ofNode? : Node → Option DataField
  | .field f => if f.decorators = [] ∧ f.isStatic = false then some (DataField.ofField f) else none
  | _ => none

def RefField.ofNode? (d : Dialect) : Node → Option RefField
  | .field f =>
    match f.decorators with
    | [x] => if x.name = d.refDecorator then some (RefField.ofField f) else none
    | _ => none
  | _ => none

/-- A field whose one decorator marks props; a mark of both kinds counts for references. -/
def PropField.ofNode? (d : Dialect) : Node → Option PropField
  | .field f =>
    match f.decorators with
    | [x] =>
      if x.name ≠ d.refDecorator ∧ x.name = d.propDecorator then some (PropField.ofField f x)
      else none
    | _ => none
  | _ => none

/-- A method whose one decorator marks watchers and gives a path and flags. -/
def Watcher.ofNode? (d : Dialect) : Node → Option Watcher
  | .method m =>
    match m.decorators with
    | [x] =>
      if m.role = .method ∧ x.name = d.watchDecorator then (Watcher.ofMethod m x).toOption else none
    | _ => none
  | _ => none

/-- A method whose one decorator marks emits; a mark of both kinds counts for watchers. -/
def Emit.ofNode? (d : Dialect) : Node → Option Emit
  | .method m =>
    match m.decorators with
    | [x] =>
      if m.role = .method ∧ x.name ≠ d.watchDecorator ∧ x.name = d.emitDecorator then
        some (Emit.ofMethod m x)
      else none
    | _ => none
  | _ => none

def IsPlain (role : Script.MemberRole) (m : Method) : Prop :=
  m.decorators = [] ∧ m.role = role ∧ m.isStatic = false ∧ m.body.isSome = true

instance (role : Script.MemberRole) (m : Method) : Decidable (IsPlain role m) :=
  inferInstanceAs (Decidable (_ ∧ _ ∧ _ ∧ _))

def Hook.ofNode? (d : Dialect) : Node → Option Hook
  | .method m =>
    if IsPlain .method m ∧ m.key.label ∈ d.target.hooks then some (Hook.ofMethod m) else none
  | _ => none

def PlainMethod.ofNode? (d : Dialect) : Node → Option PlainMethod
  | .method m =>
    if IsPlain .method m ∧ m.key.label ∉ d.target.hooks then some (PlainMethod.ofMethod m) else none
  | _ => none

def Getter.ofNode? : Node → Option Getter
  | .method m => if IsPlain .get m then some (Getter.ofMethod m) else none
  | _ => none

section

variable {d : Dialect} {n : Node}

theorem DataField.ofNode?_eq_some_iff {e : DataField} :
    DataField.ofNode? n = some e ↔
      ∃ f, n = .field f ∧ (f.decorators = [] ∧ f.isStatic = false) ∧ DataField.ofField f = e := by
  cases n <;> simp [DataField.ofNode?]

theorem RefField.ofNode?_eq_some_iff {e : RefField} :
    RefField.ofNode? d n = some e ↔
      ∃ f x, n = .field f ∧ f.decorators = [x] ∧ x.name = d.refDecorator ∧ RefField.ofField f = e := by
  cases n with
  | field f =>
    simp only [RefField.ofNode?]
    split
    · next x one => simp [one]
    · next several =>
      refine ⟨nofun, ?_⟩
      rintro ⟨_, x, ⟨⟩, one, -⟩
      exact absurd one (several x)
  | _ => simp [RefField.ofNode?]

theorem PropField.ofNode?_eq_some_iff {e : PropField} :
    PropField.ofNode? d n = some e ↔
      ∃ f x, n = .field f ∧ f.decorators = [x] ∧ (x.name ≠ d.refDecorator ∧ x.name = d.propDecorator) ∧
        PropField.ofField f x = e := by
  cases n with
  | field f =>
    simp only [PropField.ofNode?]
    split
    · next x one => simp [one]
    · next several =>
      refine ⟨nofun, ?_⟩
      rintro ⟨_, x, ⟨⟩, one, -⟩
      exact absurd one (several x)
  | _ => simp [PropField.ofNode?]

theorem Watcher.ofNode?_eq_some_iff {e : Watcher} :
    Watcher.ofNode? d n = some e ↔
      ∃ m x, n = .method m ∧ m.decorators = [x] ∧ (m.role = .method ∧ x.name = d.watchDecorator) ∧
        Watcher.ofMethod m x = .ok e := by
  cases n with
  | method m =>
    simp only [Watcher.ofNode?]
    split
    · next x one => cases read : Watcher.ofMethod m x <;> simp [one, read, Except.toOption]
    · next several =>
      refine ⟨nofun, ?_⟩
      rintro ⟨_, x, ⟨⟩, one, -⟩
      exact absurd one (several x)
  | _ => simp [Watcher.ofNode?]

theorem Emit.ofNode?_eq_some_iff {e : Emit} :
    Emit.ofNode? d n = some e ↔
      ∃ m x, n = .method m ∧ m.decorators = [x] ∧
        (m.role = .method ∧ x.name ≠ d.watchDecorator ∧ x.name = d.emitDecorator) ∧
        Emit.ofMethod m x = e := by
  cases n with
  | method m =>
    simp only [Emit.ofNode?]
    split
    · next x one => simp [one]
    · next several =>
      refine ⟨nofun, ?_⟩
      rintro ⟨_, x, ⟨⟩, one, -⟩
      exact absurd one (several x)
  | _ => simp [Emit.ofNode?]

theorem Hook.ofNode?_eq_some_iff {e : Hook} :
    Hook.ofNode? d n = some e ↔
      ∃ m, n = .method m ∧ (IsPlain .method m ∧ m.key.label ∈ d.target.hooks) ∧ Hook.ofMethod m = e := by
  cases n <;> simp [Hook.ofNode?]

theorem PlainMethod.ofNode?_eq_some_iff {e : PlainMethod} :
    PlainMethod.ofNode? d n = some e ↔
      ∃ m, n = .method m ∧ (IsPlain .method m ∧ m.key.label ∉ d.target.hooks) ∧
        PlainMethod.ofMethod m = e := by
  cases n <;> simp [PlainMethod.ofNode?]

theorem Getter.ofNode?_eq_some_iff {e : Getter} :
    Getter.ofNode? n = some e ↔ ∃ m, n = .method m ∧ IsPlain .get m ∧ Getter.ofMethod m = e := by
  cases n <;> simp [Getter.ofNode?]

theorem Watcher.handler_of_ofMethod {m : Method} {x : Decorator} {w : Watcher}
    (read : Watcher.ofMethod m x = .ok w) : w.handler = PlainMethod.ofMethod m := by
  unfold Watcher.ofMethod at read
  cases given : Watcher.ofDecorator x with
  | error fault => simp [given] at read
  | ok r =>
    rw [given] at read
    obtain rfl := Except.ok.inj read
    rfl

end

namespace Pass

def contribution (d : Dialect) (n : Node) : Pass → Table
  | .component => { component := Component.ofNode? d n }
  | .mixins => { mixins := Mixin.ofNode n }
  | .data => { data := (DataField.ofNode? n).toList }
  | .decoratedField =>
    { props := (PropField.ofNode? d n).toList, refs := (RefField.ofNode? d n).toList }
  | .decoratedMethod =>
    { emits := (Emit.ofNode? d n).toList, watchers := (Watcher.ofNode? d n).toList }
  | .method => { hooks := (Hook.ofNode? d n).toList, methods := (PlainMethod.ofNode? d n).toList }
  | .computed => { getters := (Getter.ofNode? n).toList }

/-- Which nodes a pass lets through, given the component that has been found before. -/
def Admits (d : Dialect) (found : Option Component) : Pass → Node → Prop
  | .component, .header h =>
    h.decorators = [] ∨ ∃ x, h.decorators = [x] ∧ x.name = d.componentDecorator ∧ found = none
  | .mixins, .header h =>
    ∀ text callee arguments,
      h.superClass = some (.call text callee arguments) → callee ∈ d.mixinsHelpers
  | .decoratedField, .field f =>
    f.decorators = [] ∨
      ∃ x, f.decorators = [x] ∧ (x.name = d.refDecorator ∨ x.name = d.propDecorator)
  | .decoratedMethod, .method m =>
    m.decorators = [] ∨ ∃ x, m.decorators = [x] ∧ m.role = .method ∧
      (x.name = d.watchDecorator ∧ (∃ w, Watcher.ofMethod m x = .ok w) ∨
        x.name ≠ d.watchDecorator ∧ x.name = d.emitDecorator)
  | _, _ => True

def IsNodeFault : Fault → Prop
  | .noScript | .noComponent | .unreadable => False
  | _ => True

variable {d : Dialect} {t : Table} {n : Node}

private theorem step_of_same {p : Pass} (h : apply d p t n = same)
    (hc : contribution d n p = Table.empty) : step d p t n = .ok (t ++ contribution d n p) := by
  rw [step, h, hc, Table.append_empty]
  rfl

private theorem step_of_updated {p : Pass} (h : apply d p t n = updated (t ++ contribution d n p)) :
    step d p t n = .ok (t ++ contribution d n p) := by
  rw [step, h]
  rfl

private theorem step_of_error {p : Pass} {e : Fault} (atNode : IsNodeFault e)
    (h : apply d p t n = .error e) : ∃ e, step d p t n = .error e ∧ IsNodeFault e := by
  refine ⟨e, ?_, atNode⟩
  rw [step, h]
  rfl

private theorem component_of_admits (h : Admits d t.component .component n) :
    step d .component t n = .ok (t ++ contribution d n .component) := by
  cases n with
  | header c =>
    rcases h with hd | ⟨x, hd, hx, hf⟩
    · exact step_of_same (by simp [apply, classifyComponent, hd])
        (by simp [contribution, Component.ofNode?, hd, Table.empty])
    · apply step_of_updated
      simp [apply, classifyComponent, contribution, Component.ofNode?, hd, hx, hf,
        Table.withComponent_eq hf]
  | field f => exact step_of_same rfl rfl
  | method m => exact step_of_same rfl rfl

private theorem component_of_not_admits (h : ¬Admits d t.component .component n) :
    ∃ e, step d .component t n = .error e ∧ IsNodeFault e := by
  cases n with
  | header c =>
    rw [Admits, not_or] at h
    obtain ⟨hne, hx⟩ := h
    rcases hd : c.decorators with _ | ⟨x, _ | ⟨y, ys⟩⟩
    · exact absurd hd hne
    · by_cases hname : x.name = d.componentDecorator
      · cases hf : t.component with
        | none => exact absurd ⟨x, hd, hname, hf⟩ hx
        | some first =>
          refine step_of_error (e := .severalComponents first.name c.label) trivial ?_
          simp [apply, classifyComponent, hd, hname, hf]
      · refine step_of_error (e := .unknownDecorator .header c.label x.name) trivial ?_
        simp [apply, classifyComponent, hd, hname]
    · refine step_of_error
        (e := .severalDecorators .header c.label ((x :: y :: ys).map Decorator.name)) trivial ?_
      simp only [apply, classifyComponent, hd]
  | field f => exact absurd trivial h
  | method m => exact absurd trivial h

private theorem mixins_of_admits (h : Admits d t.component .mixins n) :
    step d .mixins t n = .ok (t ++ contribution d n .mixins) := by
  cases n with
  | header c =>
    cases hs : c.superClass with
    | none =>
      exact step_of_same (by simp [apply, classifyMixins, hs])
        (by simp [contribution, Mixin.ofNode, hs, Table.empty])
    | some e =>
      cases e with
      | call text callee arguments =>
        have hm : d.isMixinsHelper callee = true := by
          simpa [Dialect.isMixinsHelper] using h text callee arguments hs
        apply step_of_updated
        simp [apply, classifyMixins, contribution, Mixin.ofNode, hs, hm, Table.withMixins_eq]
      | _ =>
        exact step_of_same (by simp [apply, classifyMixins, hs])
          (by simp [contribution, Mixin.ofNode, hs, Table.empty])
  | field f => exact step_of_same rfl rfl
  | method m => exact step_of_same rfl rfl

private theorem mixins_of_not_admits (h : ¬Admits d t.component .mixins n) :
    ∃ e, step d .mixins t n = .error e ∧ IsNodeFault e := by
  cases n with
  | header c =>
    simp only [Admits, not_forall] at h
    obtain ⟨text, callee, arguments, hs, hm⟩ := h
    refine step_of_error (e := .unknownHeritage c.label callee) trivial ?_
    simp [apply, classifyMixins, hs, Dialect.isMixinsHelper, hm]
  | field f => exact absurd trivial h
  | method m => exact absurd trivial h

private theorem data_step : step d .data t n = .ok (t ++ contribution d n .data) := by
  cases n with
  | header c => exact step_of_same rfl rfl
  | field f =>
    by_cases hf : f.decorators = [] ∧ f.isStatic = false
    · apply step_of_updated
      simp [apply, classifyData, contribution, DataField.ofNode?, hf, Table.withData_eq]
    · refine step_of_same ?_ (by simp [contribution, DataField.ofNode?, hf, Table.empty])
      simpa [apply, classifyData, same, updated] using hf
  | method m => exact step_of_same rfl rfl

private theorem decoratedField_of_admits (h : Admits d t.component .decoratedField n) :
    step d .decoratedField t n = .ok (t ++ contribution d n .decoratedField) := by
  cases n with
  | header c => exact step_of_same rfl rfl
  | field f =>
    rcases h with hd | ⟨x, hd, hx⟩
    · exact step_of_same (by simp [apply, classifyDecoratedField, hd])
        (by simp [contribution, PropField.ofNode?, RefField.ofNode?, hd, Table.empty])
    · apply step_of_updated
      by_cases hr : x.name = d.refDecorator
      · simp [apply, classifyDecoratedField, contribution, PropField.ofNode?, RefField.ofNode?, hd, hr,
          Table.withRef_eq]
      · have hp : x.name = d.propDecorator := hx.resolve_left hr
        have hne : d.propDecorator ≠ d.refDecorator := hp ▸ hr
        simp [apply, classifyDecoratedField, contribution, PropField.ofNode?, RefField.ofNode?, hd, hp,
          hne, Table.withProp_eq]
  | method m => exact step_of_same rfl rfl

private theorem decoratedField_of_not_admits (h : ¬Admits d t.component .decoratedField n) :
    ∃ e, step d .decoratedField t n = .error e ∧ IsNodeFault e := by
  cases n with
  | header c => exact absurd trivial h
  | field f =>
    rw [Admits, not_or] at h
    obtain ⟨hne, hx⟩ := h
    rcases hd : f.decorators with _ | ⟨x, _ | ⟨y, ys⟩⟩
    · exact absurd hd hne
    · have hr : x.name ≠ d.refDecorator := fun hr => hx ⟨x, hd, .inl hr⟩
      have hp : x.name ≠ d.propDecorator := fun hp => hx ⟨x, hd, .inr hp⟩
      refine step_of_error (e := .unsupportedDecorator .field f.key.label x.name) trivial ?_
      simp [apply, classifyDecoratedField, hd, hr, hp]
    · refine step_of_error
        (e := .severalDecorators .field f.key.label ((x :: y :: ys).map Decorator.name)) trivial ?_
      simp only [apply, classifyDecoratedField, hd]
  | method m => exact absurd trivial h

private theorem decoratedMethod_of_admits (h : Admits d t.component .decoratedMethod n) :
    step d .decoratedMethod t n = .ok (t ++ contribution d n .decoratedMethod) := by
  cases n with
  | header c => exact step_of_same rfl rfl
  | field f => exact step_of_same rfl rfl
  | method m =>
    rcases h with hd | ⟨x, hd, hrole, ⟨hw, w, hok⟩ | ⟨hw, he⟩⟩
    · exact step_of_same (by simp [apply, classifyDecoratedMethod, hd])
        (by simp [contribution, Emit.ofNode?, Watcher.ofNode?, hd, Table.empty])
    · apply step_of_updated
      simp [apply, classifyDecoratedMethod, contribution, Emit.ofNode?, Watcher.ofNode?, hd, hrole, hw,
        hok, Except.toOption, Table.withWatcher_eq]
    · have hne : d.emitDecorator ≠ d.watchDecorator := he ▸ hw
      apply step_of_updated
      simp [apply, classifyDecoratedMethod, contribution, Emit.ofNode?, Watcher.ofNode?, hd, hrole, he,
        hne, Table.withEmit_eq]

private theorem isNodeFault_of_ofMethod {m : Method} {x : Decorator} {e : Fault}
    (h : Watcher.ofMethod m x = .error e) : IsNodeFault e := by
  unfold Watcher.ofMethod at h
  cases hx : Watcher.ofDecorator x with
  | ok found =>
    rw [hx] at h
    cases h
  | error fault =>
    rw [hx] at h
    cases h
    trivial

private theorem decoratedMethod_of_not_admits (h : ¬Admits d t.component .decoratedMethod n) :
    ∃ e, step d .decoratedMethod t n = .error e ∧ IsNodeFault e := by
  cases n with
  | header c => exact absurd trivial h
  | field f => exact absurd trivial h
  | method m =>
    rw [Admits, not_or] at h
    obtain ⟨hne, hx⟩ := h
    rcases hd : m.decorators with _ | ⟨x, _ | ⟨y, ys⟩⟩
    · exact absurd hd hne
    · by_cases hrole : m.role = .method
      · by_cases hw : x.name = d.watchDecorator
        · cases hok : Watcher.ofMethod m x with
          | ok w => exact absurd ⟨x, hd, hrole, .inl ⟨hw, w, hok⟩⟩ hx
          | error fault =>
            refine step_of_error (e := fault) (isNodeFault_of_ofMethod hok) ?_
            simp [apply, classifyDecoratedMethod, hd, hrole, hw, hok]
        · have he : x.name ≠ d.emitDecorator := fun he => hx ⟨x, hd, hrole, .inr ⟨hw, he⟩⟩
          refine step_of_error (e := .unsupportedDecorator .method m.key.label x.name) trivial ?_
          simp [apply, classifyDecoratedMethod, hd, hrole, hw, he]
      · refine step_of_error (e := .unsupportedDecorator .method m.key.label x.name) trivial ?_
        simp [apply, classifyDecoratedMethod, hd, hrole]
    · refine step_of_error
        (e := .severalDecorators .method m.key.label ((x :: y :: ys).map Decorator.name)) trivial ?_
      simp only [apply, classifyDecoratedMethod, hd]

private theorem isPlain_iff (role : Script.MemberRole) (m : Method) :
    (m.decorators.isEmpty && m.role == role && isInstance m) = true ↔ IsPlain role m := by
  simp [IsPlain, isInstance, and_assoc]

private theorem method_step : step d .method t n = .ok (t ++ contribution d n .method) := by
  cases n with
  | header c => exact step_of_same rfl rfl
  | field f => exact step_of_same rfl rfl
  | method m =>
    by_cases hm : IsPlain .method m
    · apply step_of_updated
      have htest := (isPlain_iff .method m).mpr hm
      by_cases hh : m.key.label ∈ d.target.hooks
      · simp [apply, classifyMethod, htest, contribution, Hook.ofNode?, PlainMethod.ofNode?, hm, hh,
          Target.isHook, Table.withHook_eq]
      · simp [apply, classifyMethod, htest, contribution, Hook.ofNode?, PlainMethod.ofNode?, hm, hh,
          Target.isHook, Table.withMethod_eq]
    · have htest := mt (isPlain_iff .method m).mp hm
      exact step_of_same (by simp only [apply, classifyMethod, if_neg htest])
        (by simp [contribution, Hook.ofNode?, PlainMethod.ofNode?, hm, Table.empty])

private theorem computed_step : step d .computed t n = .ok (t ++ contribution d n .computed) := by
  cases n with
  | header c => exact step_of_same rfl rfl
  | field f => exact step_of_same rfl rfl
  | method m =>
    by_cases hm : IsPlain .get m
    · have htest := (isPlain_iff .get m).mpr hm
      apply step_of_updated
      simp [apply, classifyComputed, htest, contribution, Getter.ofNode?, hm, Table.withGetter_eq]
    · have htest := mt (isPlain_iff .get m).mp hm
      exact step_of_same (by simp only [apply, classifyComputed, if_neg htest])
        (by simp [contribution, Getter.ofNode?, hm, Table.empty])

theorem step_of_admits {p : Pass} (h : Admits d t.component p n) :
    step d p t n = .ok (t ++ contribution d n p) := by
  cases p with
  | component => exact component_of_admits h
  | mixins => exact mixins_of_admits h
  | data => exact data_step
  | decoratedField => exact decoratedField_of_admits h
  | decoratedMethod => exact decoratedMethod_of_admits h
  | method => exact method_step
  | computed => exact computed_step

theorem step_of_not_admits {p : Pass} (h : ¬Admits d t.component p n) :
    ∃ e, step d p t n = .error e ∧ IsNodeFault e := by
  cases p with
  | component => exact component_of_not_admits h
  | mixins => exact mixins_of_not_admits h
  | data => exact absurd trivial h
  | decoratedField => exact decoratedField_of_not_admits h
  | decoratedMethod => exact decoratedMethod_of_not_admits h
  | method => exact absurd trivial h
  | computed => exact absurd trivial h

theorem step_eq_ok_iff {p : Pass} {u : Table} :
    step d p t n = .ok u ↔ Admits d t.component p n ∧ u = t ++ contribution d n p := by
  by_cases h : Admits d t.component p n
  · rw [step_of_admits h, Except.ok.injEq]
    exact ⟨fun hu => ⟨h, hu.symm⟩, fun hu => hu.2.symm⟩
  · obtain ⟨e, he, -⟩ := step_of_not_admits h
    rw [he]
    exact ⟨fun hu => (nomatch hu), fun hu => absurd hu.1 h⟩

theorem isNodeFault_of_step {p : Pass} {e : Fault} (h : step d p t n = .error e) : IsNodeFault e := by
  by_cases hn : Admits d t.component p n
  · rw [step_of_admits hn] at h
    cases h
  · obtain ⟨e', he, atNode⟩ := step_of_not_admits hn
    rw [he] at h
    exact Except.error.inj h ▸ atNode

def gathered (d : Dialect) (nodes : List Node) (p : Pass) : Table :=
  Table.concat (nodes.map fun n => contribution d n p)

private theorem forall_split_cons {α : Type} {P : List α → α → Prop} {a : α} {as : List α} :
    (∀ before b after, a :: as = before ++ b :: after → P before b) ↔
      P [] a ∧ ∀ before b after, as = before ++ b :: after → P (a :: before) b := by
  constructor
  · intro h
    exact ⟨h [] a as rfl, fun before b after heq => h (a :: before) b after (by rw [heq]; rfl)⟩
  · rintro ⟨hhead, htail⟩ before b after heq
    cases before with
    | nil =>
      obtain ⟨rfl, -⟩ := List.cons.inj heq
      exact hhead
    | cons c before =>
      obtain ⟨rfl, hrest⟩ := List.cons.inj heq
      exact htail before b after hrest

theorem bind_eq_ok_iff {α β : Type} {x : Except Fault α} {f : α → Except Fault β} {b : β} :
    (x >>= f) = .ok b ↔ ∃ a, x = .ok a ∧ f a = .ok b := by
  cases x with
  | error e => exact ⟨fun h => (nomatch h), fun ⟨_, h, _⟩ => (nomatch h)⟩
  | ok a => exact ⟨fun h => ⟨a, rfl, h⟩, fun ⟨_, ha, h⟩ => by cases ha; exact h⟩

theorem sweep_eq_ok_iff {p : Pass} {nodes : List Node} {u : Table} :
    sweep d nodes t p = .ok u ↔
      (∀ before n after, nodes = before ++ n :: after →
        Admits d (t ++ gathered d before p).component p n) ∧ u = t ++ gathered d nodes p := by
  -- Each step puts a contribution behind the table, so `t` varies along the nodes.
  induction nodes generalizing t with
  | nil =>
    have hu : (Except.ok t : Except Fault Table) = .ok u ↔ u = t := by
      rw [Except.ok.injEq, eq_comm]
    simpa [sweep, gathered, Table.concat, pure, Except.pure] using hu
  | cons n nodes ih =>
    have hstep : sweep d (n :: nodes) t p = (step d p t n >>= fun v => sweep d nodes v p) := rfl
    have hcons : ∀ before, t ++ gathered d (n :: before) p =
        t ++ contribution d n p ++ gathered d before p := by
      intro before
      rw [gathered, List.map_cons, Table.concat, Table.append_assoc]
      rfl
    rw [hstep, bind_eq_ok_iff, forall_split_cons, hcons]
    constructor
    · rintro ⟨v, hv, hrest⟩
      obtain ⟨hn, rfl⟩ := step_eq_ok_iff.mp hv
      obtain ⟨hadmits, hu⟩ := ih.mp hrest
      refine ⟨⟨by simpa [gathered, Table.concat] using hn, ?_⟩, hu⟩
      intro before m after heq
      rw [hcons]
      exact hadmits before m after heq
    · rintro ⟨⟨hn, hadmits⟩, hu⟩
      refine ⟨t ++ contribution d n p, step_eq_ok_iff.mpr ⟨?_, rfl⟩, ih.mpr ⟨?_, hu⟩⟩
      · simpa [gathered, Table.concat] using hn
      · intro before m after heq
        rw [← hcons]
        exact hadmits before m after heq

def gatheredAll (d : Dialect) (nodes : List Node) (passes : List Pass) : Table :=
  Table.concat (passes.map (gathered d nodes))

theorem run_eq_ok_iff {passes : List Pass} {nodes : List Node} {u : Table} :
    passes.foldlM (sweep d nodes) t = .ok u ↔
      (∀ earlier p later, passes = earlier ++ p :: later →
        ∀ before n after, nodes = before ++ n :: after →
          Admits d (t ++ gatheredAll d nodes earlier ++ gathered d before p).component p n) ∧
      u = t ++ gatheredAll d nodes passes := by
  induction passes generalizing t with
  | nil =>
    have hu : (Except.ok t : Except Fault Table) = .ok u ↔ u = t := by
      rw [Except.ok.injEq, eq_comm]
    simpa [gatheredAll, Table.concat, pure, Except.pure] using hu
  | cons p passes ih =>
    have hcons : ∀ earlier, t ++ gatheredAll d nodes (p :: earlier) =
        t ++ gathered d nodes p ++ gatheredAll d nodes earlier := by
      intro earlier
      rw [gatheredAll, List.map_cons, Table.concat, Table.append_assoc]
      rfl
    rw [List.foldlM_cons, bind_eq_ok_iff, forall_split_cons, hcons]
    constructor
    · rintro ⟨v, hv, hrest⟩
      obtain ⟨hp, rfl⟩ := sweep_eq_ok_iff.mp hv
      obtain ⟨hadmits, hu⟩ := ih.mp hrest
      refine ⟨⟨by simpa [gatheredAll, Table.concat] using hp, ?_⟩, hu⟩
      intro earlier q later heq
      rw [hcons]
      exact hadmits earlier q later heq
    · rintro ⟨⟨hp, hadmits⟩, hu⟩
      refine ⟨t ++ gathered d nodes p, sweep_eq_ok_iff.mpr ⟨?_, rfl⟩, ih.mpr ⟨?_, hu⟩⟩
      · simpa [gatheredAll, Table.concat] using hp
      · intro earlier q later heq
        rw [← hcons]
        exact hadmits earlier q later heq

end Pass

end VueOptions.Options
