import VueOptions.Proofs.Classification.FirstFault
import VueOptions.Proofs.Classification.Ownership

/-!
What the framework version decides. Two dialects with the same decorators and helpers may name two
versions, drop the imports of different modules and indent differently. The passes ask a dialect for
its version at one place only: to tell hooks from other methods. Main statement:
`version_decides_hooks_only`.
-/

set_option autoImplicit false

namespace VueOptions.Options

open Source

/-- The dialect with the same decorators and helpers for another version and another layout. -/
def Dialect.retarget (d : Dialect) (target : Target) (sources : List String) (width : Nat) : Dialect :=
  { d with target := target, decoratorSources := sources, indentWidth := width }

/-- Two folds whose steps show the same of what they give, whenever they are shown the same before,
show the same at their ends; if one is refused, so is the other, and for the same reason. -/
theorem map_foldlM_congr {α β σ ε : Type} {f g : σ → α → Except ε σ} (view : σ → β)
    (steps : ∀ s t x, view s = view t → (f s x).map view = (g t x).map view) (xs : List α) {s t : σ}
    (start : view s = view t) : (xs.foldlM f s).map view = (xs.foldlM g t).map view := by
  induction xs generalizing s t with
  | nil => exact congrArg Except.ok start
  | cons x xs ih =>
    have first := steps s t x start
    rw [List.foldlM_cons, List.foldlM_cons]
    cases left : f s x with
    | error e =>
      cases right : g t x with
      | error e' =>
        rw [left, right] at first
        obtain rfl : e = e' := Except.error.inj first
        rfl
      | ok v =>
        rw [left, right] at first
        cases first
    | ok u =>
      cases right : g t x with
      | error e' =>
        rw [left, right] at first
        cases first
      | ok v =>
        rw [left, right] at first
        exact ih (Except.ok.inj first)

namespace Pass

variable {d : Dialect} (target : Target) (sources : List String) (width : Nat)

theorem apply_retarget {p : Pass} (other : p ≠ .method) (t : Table) (n : Node) :
    apply (d.retarget target sources width) p t n = apply d p t n := by
  cases p with
  | method => exact absurd rfl other
  | _ => rfl

theorem admits_retarget {found : Option Component} {p : Pass} {n : Node} :
    Admits (d.retarget target sources width) found p n ↔ Admits d found p n := by
  cases p <;> cases n <;> exact Iff.rfl

theorem component_contribution_retarget (p : Pass) (n : Node) :
    (contribution (d.retarget target sources width) n p).component = (contribution d n p).component := by
  cases p <;> rfl

theorem refused_retarget {p : Pass} {t u : Table} {n : Node} {e : Fault}
    (same : t.component = u.component) (refused : step d p t n = .error e) :
    step (d.retarget target sources width) p u n = .error e := by
  rw [step_eq_error_iff] at refused ⊢
  rcases refusal_cases refused with ⟨rfl, h, x, c, rfl, one, marks, found, rfl⟩ | ⟨-, alone⟩
  · have there : u.component = some c := same ▸ found
    rw [apply_retarget target sources width (by decide)]
    simp [apply, classifyComponent, one, marks, there]
  · have other : p ≠ .method := by
      rintro rfl
      have went : step d .method t n = .ok (t ++ contribution d n .method) :=
        step_eq_ok_iff.mpr ⟨trivial, rfl⟩
      rw [step_eq_error_iff.mpr refused] at went
      cases went
    rw [apply_retarget target sources width other]
    exact alone u

theorem step_retarget (p : Pass) (t u : Table) (n : Node) (same : t.component = u.component) :
    (step d p t n).map Table.component =
      (step (d.retarget target sources width) p u n).map Table.component := by
  cases went : step d p t n with
  | error e => rw [refused_retarget target sources width same went]
  | ok v =>
    obtain ⟨admits, rfl⟩ := step_eq_ok_iff.mp went
    have admits' : Admits (d.retarget target sources width) u.component p n :=
      (admits_retarget target sources width).mpr (same ▸ admits)
    rw [step_eq_ok_iff.mpr ⟨admits', rfl⟩]
    simp [Except.map, same, component_contribution_retarget]

end Pass

theorem Table.ofNodes_retarget (d : Dialect) (target : Target) (sources : List String) (width : Nat)
    (passes : List Pass) (nodes : List Node) :
    (Table.ofNodes d passes nodes).map Table.component =
      (Table.ofNodes (d.retarget target sources width) passes nodes).map Table.component := by
  refine map_foldlM_congr Table.component ?_ passes rfl
  intro t u p same
  exact map_foldlM_congr Table.component (fun t u n => Pass.step_retarget target sources width p t u n)
    nodes same

def PlainMethod.ofPlain? : Node → Option PlainMethod
  | .method m => if IsPlain .method m then some (PlainMethod.ofMethod m) else none
  | _ => none

/-- The hook that a plain method becomes: it returns nothing unless it says otherwise. -/
def Hook.ofPlain (p : PlainMethod) : Hook :=
  { name := p.name
    parameters := p.parameters
    returnType := p.returnType.getD "void"
    statements := p.statements.getD []
    isAsync := p.isAsync }

/-- The members that are called like a hook of a version are its hooks, all others are methods. -/
structure Table.Routes (target : Target) (members : List PlainMethod) (t : Table) : Prop where
  hooks : t.hooks = (members.filter fun p => target.isHook p.name).map Hook.ofPlain
  methods : t.methods = members.filter fun p => !target.isHook p.name

structure Table.SameBesidesRoutes (t u : Table) : Prop where
  component : t.component = u.component
  mixins : t.mixins = u.mixins
  props : t.props = u.props
  data : t.data = u.data
  refs : t.refs = u.refs
  getters : t.getters = u.getters
  emits : t.emits = u.emits
  watchers : t.watchers = u.watchers

theorem Hook.ofNode?_eq (d : Dialect) (n : Node) :
    Hook.ofNode? d n =
      ((PlainMethod.ofPlain? n).filter fun p => d.target.isHook p.name).map Hook.ofPlain := by
  cases n with
  | method m =>
    by_cases plain : IsPlain .method m <;> by_cases called : m.key.label ∈ d.target.hooks <;>
      simp [Hook.ofNode?, PlainMethod.ofPlain?, PlainMethod.ofMethod, Hook.ofMethod, Hook.ofPlain,
        Option.filter_some, Target.isHook, plain, called]
  | _ => rfl

theorem PlainMethod.ofNode?_eq (d : Dialect) (n : Node) :
    PlainMethod.ofNode? d n = (PlainMethod.ofPlain? n).filter fun p => !d.target.isHook p.name := by
  cases n with
  | method m =>
    by_cases plain : IsPlain .method m <;> by_cases called : m.key.label ∈ d.target.hooks <;>
      simp [PlainMethod.ofNode?, PlainMethod.ofPlain?, PlainMethod.ofMethod, Option.filter_some,
        Target.isHook, plain, called]
  | _ => rfl

theorem Table.routes_reading (d : Dialect) (nodes : List Node) :
    (Table.reading d nodes).Routes d.target (nodes.filterMap PlainMethod.ofPlain?) where
  hooks := by
    rw [List.filter_filterMap, List.map_filterMap, Table.reading, funext (Hook.ofNode?_eq d)]
  methods := by
    rw [List.filter_filterMap, Table.reading, funext (PlainMethod.ofNode?_eq d)]

theorem Table.sameBesidesRoutes_reading (d : Dialect) (target : Target) (sources : List String)
    (width : Nat) (nodes : List Node) :
    (Table.reading d nodes).SameBesidesRoutes
      (Table.reading (d.retarget target sources width) nodes) :=
  ⟨rfl, rfl, rfl, rfl, rfl, rfl, rfl, rfl⟩

/-- For two dialects that differ in the version, in the modules whose imports are dropped and in the
indentation, a script has a table for both or is refused for the same reason by both. The tables have
the same entries but for the plain methods, which both sort, in source order, into hooks of their
version and other methods. -/
theorem version_decides_hooks_only (d : Dialect) (target : Target) (sources : List String)
    (width : Nat) (script : String) :
    (∃ e, Table.ofScript d script = .error e ∧
      Table.ofScript (d.retarget target sources width) script = .error e) ∨
    ∃ m t u, Module.parse? script = some m ∧ Table.ofScript d script = .ok t ∧
      Table.ofScript (d.retarget target sources width) script = .ok u ∧ t.SameBesidesRoutes u ∧
      t.Routes d.target (m.nodes.filterMap PlainMethod.ofPlain?) ∧
      u.Routes target (m.nodes.filterMap PlainMethod.ofPlain?) := by
  unfold Table.ofScript
  cases Module.parse? script with
  | none => exact .inl ⟨.unreadable, rfl, rfl⟩
  | some m =>
    have runs := Table.ofNodes_retarget d target sources width Pass.all m.nodes
    cases left : Table.ofNodes d Pass.all m.nodes with
    | error e =>
      rw [left] at runs
      cases right : Table.ofNodes (d.retarget target sources width) Pass.all m.nodes with
      | error e' =>
        rw [right] at runs
        obtain rfl : e = e' := Except.error.inj runs
        exact .inl ⟨e, Table.ofModule_of_error left, Table.ofModule_of_error right⟩
      | ok u =>
        rw [right] at runs
        cases runs
    | ok t =>
      rw [left] at runs
      cases right : Table.ofNodes (d.retarget target sources width) Pass.all m.nodes with
      | error e =>
        rw [right] at runs
        cases runs
      | ok u =>
        rw [right] at runs
        have found : t.component = u.component := Except.ok.inj runs
        obtain ⟨-, readLeft⟩ := Table.ofNodes_eq_ok_iff.mp left
        obtain ⟨-, readRight⟩ := Table.ofNodes_eq_ok_iff.mp right
        dsimp only
        rw [Table.ofModule_of_ok left, Table.ofModule_of_ok right, ← found]
        by_cases bare : t.component = none
        · rw [if_pos bare, if_pos bare]
          exact .inl ⟨.noComponent, rfl, rfl⟩
        · rw [if_neg bare, if_neg bare]
          refine .inr ⟨m, t, u, rfl, rfl, rfl, ?_, ?_, ?_⟩
          · rw [readLeft, readRight]
            exact Table.sameBesidesRoutes_reading d target sources width m.nodes
          · exact readLeft ▸ Table.routes_reading d m.nodes
          · exact readRight ▸ Table.routes_reading (d.retarget target sources width) m.nodes

end VueOptions.Options
