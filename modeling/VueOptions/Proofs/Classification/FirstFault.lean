import VueOptions.Proofs.Classification.Reading

/-!
Which fault is reported. The passes are shown the nodes one after another, and the first node that a
pass refuses ends the classification with the fault that is found there. What was built before has no
say in it but for a second component, whose fault names the first two classes that are marked. Main
statement: `fault_is_that_of_first_refusal`.
-/

set_option autoImplicit false

namespace VueOptions.Options

open Source

theorem foldlM_eq_error_iff {α σ ε : Type} {f : σ → α → Except ε σ} {xs : List α} {s : σ} {e : ε} :
    xs.foldlM f s = .error e ↔
      ∃ before x after t, xs = before ++ x :: after ∧ before.foldlM f s = .ok t ∧ f t x = .error e := by
  constructor
  · intro refused
    induction xs generalizing s with
    | nil => cases refused
    | cons x xs ih =>
      rw [List.foldlM_cons] at refused
      cases first : f s x with
      | error e' =>
        rw [first] at refused
        obtain rfl : e' = e := Except.error.inj refused
        exact ⟨[], x, xs, s, rfl, rfl, first⟩
      | ok u =>
        rw [first] at refused
        obtain ⟨before, y, after, t, rfl, went, last⟩ := ih refused
        refine ⟨x :: before, y, after, t, rfl, ?_, last⟩
        rw [List.foldlM_cons, first]
        exact went
  · rintro ⟨before, x, after, t, rfl, went, last⟩
    rw [List.foldlM_append, went]
    change ((x :: after).foldlM f t) = .error e
    rw [List.foldlM_cons, last]
    rfl

theorem exists_of_foldlM_eq_ok {α σ ε : Type} {f : σ → α → Except ε σ} {xs : List α} {s u : σ}
    (went : xs.foldlM f s = .ok u) {k : Nat} {x : α} (there : xs[k]? = some x) :
    ∃ t v, (xs.take k).foldlM f s = .ok t ∧ f t x = .ok v := by
  induction xs generalizing s k with
  | nil => cases there
  | cons y xs ih =>
    rw [List.foldlM_cons] at went
    cases first : f s y with
    | error e =>
      rw [first] at went
      cases went
    | ok v =>
      rw [first] at went
      cases k with
      | zero =>
        obtain rfl : y = x := Option.some.inj there
        exact ⟨s, v, rfl, first⟩
      | succ k =>
        obtain ⟨t, w, before, last⟩ := ih went there
        refine ⟨t, w, ?_, last⟩
        rw [List.take_succ_cons, List.foldlM_cons, first]
        exact before

namespace Pass

variable {d : Dialect} {p : Pass} {t : Table} {n : Node} {e : Fault}

theorem step_eq_error_iff : step d p t n = .error e ↔ apply d p t n = .error e := by
  unfold step
  cases apply d p t n <;> simp [Except.map]

theorem exists_apply_of_step {u : Table} (went : step d p t n = .ok u) : ∃ r, apply d p t n = .ok r := by
  unfold step at went
  cases found : apply d p t n with
  | error e =>
    rw [found] at went
    cases went
  | ok r => exact ⟨r, rfl⟩

def FoundAlone (d : Dialect) (p : Pass) (n : Node) (e : Fault) : Prop :=
  (∀ first second, e ≠ .severalComponents first second) ∧ ∀ u, apply d p u n = .error e

/-- A marked class behind a component that was found before. -/
structure SecondComponent (d : Dialect) (p : Pass) (t : Table) (n : Node) (e : Fault) : Prop where
  pass : p = .component
  found : ∃ h x c, n = .header h ∧ h.decorators = [x] ∧ x.name = d.componentDecorator ∧
    t.component = some c ∧ e = .severalComponents c.name h.label

private theorem component_refusal (refused : apply d .component t n = .error e) :
    SecondComponent d .component t n e ∨ FoundAlone d .component n e := by
  cases n with
  | field f => cases refused
  | method m => cases refused
  | header h =>
    simp only [apply, classifyComponent] at refused
    rcases decorators : h.decorators with _ | ⟨x, _ | ⟨y, ys⟩⟩
    · rw [decorators] at refused
      cases refused
    · rw [decorators] at refused
      dsimp only at refused
      by_cases marks : x.name = d.componentDecorator
      · left
        rw [if_neg (by simp [marks])] at refused
        cases found : t.component with
        | none =>
          rw [found] at refused
          cases refused
        | some c =>
          rw [found] at refused
          exact ⟨rfl, h, x, c, rfl, decorators, marks, found, (Except.error.inj refused).symm⟩
      · right
        rw [if_pos (by simp [marks])] at refused
        obtain rfl := Except.error.inj refused
        exact ⟨by simp, fun u => by simp [apply, classifyComponent, decorators, marks]⟩
    · right
      rw [decorators] at refused
      obtain rfl := Except.error.inj refused
      exact ⟨by simp, fun u => by simp only [apply, classifyComponent, decorators]⟩

private theorem mixins_refusal (refused : apply d .mixins t n = .error e) : FoundAlone d .mixins n e := by
  cases n with
  | field f => cases refused
  | method m => cases refused
  | header h =>
    simp only [apply, classifyMixins] at refused
    split at refused
    · next text callee arguments call =>
      by_cases lists : d.isMixinsHelper callee = true
      · rw [if_pos lists] at refused
        cases refused
      · rw [if_neg lists] at refused
        obtain rfl := Except.error.inj refused
        exact ⟨by simp, fun u => by simp [apply, classifyMixins, call, lists]⟩
    · cases refused

private theorem decoratedField_refusal (refused : apply d .decoratedField t n = .error e) :
    FoundAlone d .decoratedField n e := by
  cases n with
  | header h => cases refused
  | method m => cases refused
  | field f =>
    simp only [apply, classifyDecoratedField] at refused
    rcases decorators : f.decorators with _ | ⟨x, _ | ⟨y, ys⟩⟩
    · rw [decorators] at refused
      cases refused
    · rw [decorators] at refused
      dsimp only at refused
      by_cases ref : x.name = d.refDecorator
      · rw [if_pos (by simp [ref])] at refused
        cases refused
      by_cases prop : x.name = d.propDecorator
      · rw [if_neg (by simp [ref]), if_pos (by simp [prop])] at refused
        cases refused
      rw [if_neg (by simp [ref]), if_neg (by simp [prop])] at refused
      obtain rfl := Except.error.inj refused
      exact ⟨by simp, fun u => by simp [apply, classifyDecoratedField, decorators, ref, prop]⟩
    · rw [decorators] at refused
      obtain rfl := Except.error.inj refused
      exact ⟨by simp, fun u => by simp only [apply, classifyDecoratedField, decorators]⟩

private theorem watch_fault {m : Method} {x : Decorator} (refused : Watcher.ofMethod m x = .error e)
    (first second : String) : e ≠ .severalComponents first second := by
  unfold Watcher.ofMethod at refused
  cases given : Watcher.ofDecorator x with
  | ok r =>
    rw [given] at refused
    cases refused
  | error fault =>
    rw [given] at refused
    obtain rfl := Except.error.inj refused
    simp

private theorem decoratedMethod_refusal (refused : apply d .decoratedMethod t n = .error e) :
    FoundAlone d .decoratedMethod n e := by
  cases n with
  | header h => cases refused
  | field f => cases refused
  | method m =>
    simp only [apply, classifyDecoratedMethod] at refused
    rcases decorators : m.decorators with _ | ⟨x, _ | ⟨y, ys⟩⟩
    · rw [decorators] at refused
      cases refused
    · rw [decorators] at refused
      dsimp only at refused
      by_cases watch : (m.role == .method && x.name == d.watchDecorator) = true
      · rw [if_pos watch] at refused
        cases read : Watcher.ofMethod m x with
        | ok w =>
          rw [read] at refused
          cases refused
        | error fault =>
          rw [read] at refused
          obtain rfl := Except.error.inj refused
          exact ⟨watch_fault read,
            fun u => by simp only [apply, classifyDecoratedMethod, decorators, watch, if_true, read]⟩
      by_cases emit : (m.role == .method && x.name == d.emitDecorator) = true
      · rw [if_neg watch, if_pos emit] at refused
        cases refused
      rw [if_neg watch, if_neg emit] at refused
      obtain rfl := Except.error.inj refused
      exact ⟨by simp,
        fun u => by simp only [apply, classifyDecoratedMethod, decorators, if_neg watch, if_neg emit]⟩
    · rw [decorators] at refused
      obtain rfl := Except.error.inj refused
      exact ⟨by simp, fun u => by simp only [apply, classifyDecoratedMethod, decorators]⟩

private theorem not_admits_of_refusal (refused : apply d p t n = .error e) :
    ¬Admits d t.component p n := by
  intro admits
  have went := step_of_admits admits
  rw [step_eq_error_iff.mpr refused] at went
  cases went

theorem refusal_cases (refused : apply d p t n = .error e) :
    SecondComponent d p t n e ∨ FoundAlone d p n e := by
  cases p with
  | component => exact component_refusal refused
  | mixins => exact .inr (mixins_refusal refused)
  | data => exact absurd trivial (not_admits_of_refusal refused)
  | decoratedField => exact .inr (decoratedField_refusal refused)
  | decoratedMethod => exact .inr (decoratedMethod_refusal refused)
  | method => exact absurd trivial (not_admits_of_refusal refused)
  | computed => exact absurd trivial (not_admits_of_refusal refused)

end Pass

def markedClass? (d : Dialect) : Node → Option ClassHeader
  | .header h => if h.decorators.map Decorator.name = [d.componentDecorator] then some h else none
  | _ => none

def markedClasses (d : Dialect) (nodes : List Node) : List ClassHeader := nodes.filterMap (markedClass? d)

namespace Pass

variable {d : Dialect} {t u : Table} {n : Node}

theorem labels_step_component (went : step d .component t n = .ok u) :
    (t.component.map Component.name).toList ++ (markedClass? d n).toList.map ClassHeader.label =
      (u.component.map Component.name).toList := by
  obtain ⟨admits, rfl⟩ := step_eq_ok_iff.mp went
  rw [Table.append_component]
  cases n with
  | field f => simp [contribution, Component.ofNode?, markedClass?]
  | method m => simp [contribution, Component.ofNode?, markedClass?]
  | header h =>
    rcases admits with bare | ⟨x, one, marks, fresh⟩
    · simp [contribution, Component.ofNode?, markedClass?, bare]
    · simp [contribution, Component.ofNode?, markedClass?, one, marks, fresh, Component.ofClass]

theorem labels_sweep_component {nodes : List Node} (went : sweep d nodes t .component = .ok u) :
    (t.component.map Component.name).toList ++ (markedClasses d nodes).map ClassHeader.label =
      (u.component.map Component.name).toList := by
  induction nodes generalizing t with
  | nil =>
    obtain rfl : t = u := Except.ok.inj went
    simp [markedClasses]
  | cons n nodes ih =>
    have cons : sweep d (n :: nodes) t .component = (step d .component t n >>= fun v => sweep d nodes v .component) :=
      rfl
    rw [cons] at went
    obtain ⟨v, first, rest⟩ := bind_eq_ok_iff.mp went
    rw [← ih rest, ← labels_step_component first, List.append_assoc, ← List.map_append]
    congr 2
    cases marked : markedClass? d n <;> simp [markedClasses, marked]

end Pass

/-- The table that is built before a pass, which comes behind `i` others, is shown a node that comes
behind `k` others. -/
def Table.builtBefore (d : Dialect) (passes : List Pass) (nodes : List Node) (i k : Nat) (p : Pass) :
    Except Fault Table := do
  let t ← Table.ofNodes d (passes.take i) nodes
  Pass.sweep d (nodes.take k) t p

/-- The pass at a position refuses the node at a position, and whatever was shown before was not
refused. Positions are compared by the pass first. -/
structure IsFirstRefusal (d : Dialect) (passes : List Pass) (nodes : List Node) (i k : Nat) (p : Pass)
    (n : Node) (e : Fault) : Prop where
  pass : passes[i]? = some p
  node : nodes[k]? = some n
  refused : ∃ t, Table.builtBefore d passes nodes i k p = .ok t ∧ p.apply d t n = .error e
  earlier : ∀ i' k' p' n', i' < i ∨ i' = i ∧ k' < k → passes[i']? = some p' → nodes[k']? = some n' →
    ∃ t r, Table.builtBefore d passes nodes i' k' p' = .ok t ∧ p'.apply d t n' = .ok r

section

variable {d : Dialect} {passes : List Pass} {nodes : List Node} {i k : Nat} {p : Pass} {n : Node} {e : Fault}

theorem Table.builtBefore_eq_ok_iff {t : Table} :
    Table.builtBefore d passes nodes i k p = .ok t ↔
      ∃ u, Table.ofNodes d (passes.take i) nodes = .ok u ∧ Pass.sweep d (nodes.take k) u p = .ok t :=
  Pass.bind_eq_ok_iff

private theorem exists_apply_of_sweep {u v : Table} (went : Pass.sweep d nodes u p = .ok v)
    (node : nodes[k]? = some n) :
    ∃ t r, Pass.sweep d (nodes.take k) u p = .ok t ∧ p.apply d t n = .ok r := by
  obtain ⟨t, w, before, step⟩ := exists_of_foldlM_eq_ok went node
  obtain ⟨r, applied⟩ := Pass.exists_apply_of_step step
  exact ⟨t, r, before, applied⟩

private theorem earlier_of_builtBefore {t : Table} (built : Table.builtBefore d passes nodes i k p = .ok t)
    (pass : passes[i]? = some p) {i' k' : Nat} {p' : Pass} {n' : Node}
    (before : i' < i ∨ i' = i ∧ k' < k) (pass' : passes[i']? = some p') (node' : nodes[k']? = some n') :
    ∃ t r, Table.builtBefore d passes nodes i' k' p' = .ok t ∧ p'.apply d t n' = .ok r := by
  obtain ⟨u, passed, swept⟩ := Table.builtBefore_eq_ok_iff.mp built
  rcases before with before | ⟨rfl, before⟩
  · have there : (passes.take i)[i']? = some p' := by rw [List.getElem?_take_of_lt before, pass']
    obtain ⟨v, w, passed', swept'⟩ := exists_of_foldlM_eq_ok passed there
    rw [List.take_take, Nat.min_eq_left (Nat.le_of_lt before)] at passed'
    obtain ⟨t', r, swept'', applied⟩ := exists_apply_of_sweep swept' node'
    exact ⟨t', r, Table.builtBefore_eq_ok_iff.mpr ⟨v, passed', swept''⟩, applied⟩
  · obtain rfl : p = p' := Option.some.inj (pass.symm.trans pass')
    have there : (nodes.take k)[k']? = some n' := by rw [List.getElem?_take_of_lt before, node']
    obtain ⟨t', r, swept', applied⟩ := exists_apply_of_sweep swept there
    rw [List.take_take, Nat.min_eq_left (Nat.le_of_lt before)] at swept'
    exact ⟨t', r, Table.builtBefore_eq_ok_iff.mpr ⟨u, passed, swept'⟩, applied⟩

private theorem split_at {α : Type} {xs : List α} {j : Nat} {x : α} (there : xs[j]? = some x) :
    xs = xs.take j ++ x :: xs.drop (j + 1) := by
  obtain ⟨lt, rfl⟩ := List.getElem?_eq_some_iff.mp there
  rw [List.getElem_cons_drop, List.take_append_drop]

theorem Table.ofNodes_eq_error_iff :
    Table.ofNodes d passes nodes = .error e ↔ ∃ i k p n, IsFirstRefusal d passes nodes i k p n e := by
  constructor
  · intro refused
    obtain ⟨earlier, p, later, u, rfl, passed, sweep⟩ := foldlM_eq_error_iff.mp refused
    obtain ⟨before, n, after, t, rfl, swept, step⟩ := foldlM_eq_error_iff.mp sweep
    have built : Table.builtBefore d (earlier ++ p :: later) (before ++ n :: after) earlier.length before.length p =
        .ok t := by
      rw [Table.builtBefore_eq_ok_iff, List.take_left, List.take_left]
      exact ⟨u, passed, swept⟩
    have pass : (earlier ++ p :: later)[earlier.length]? = some p := by simp
    exact ⟨earlier.length, before.length, p, n, pass, by simp, ⟨t, built, Pass.step_eq_error_iff.mp step⟩,
      fun i' k' p' n' less => earlier_of_builtBefore built pass less⟩
  · rintro ⟨i, k, p, n, pass, node, ⟨t, built, applied⟩, -⟩
    obtain ⟨u, passed, swept⟩ := Table.builtBefore_eq_ok_iff.mp built
    refine foldlM_eq_error_iff.mpr ⟨_, p, _, u, split_at pass, passed, ?_⟩
    exact foldlM_eq_error_iff.mpr ⟨_, n, _, t, split_at node, swept, Pass.step_eq_error_iff.mpr applied⟩

theorem IsFirstRefusal.apply_empty (first : IsFirstRefusal d passes nodes i k p n e)
    (other : ∀ a b, e ≠ .severalComponents a b) : p.apply d .empty n = .error e := by
  obtain ⟨t, -, applied⟩ := first.refused
  rcases Pass.refusal_cases applied with ⟨-, h, x, c, -, -, -, -, rfl⟩ | alone
  · exact absurd rfl (other _ _)
  · exact alone.2 _

private theorem position_of_component (pass : Pass.all[i]? = some .component) : i = 0 := by
  match i with
  | 0 => rfl
  | 1 | 2 | 3 | 4 | 5 | 6 => cases pass
  | i + 7 => cases pass

theorem markedClasses_of_severalComponents {first second : String}
    (refused : Table.ofNodes d Pass.all nodes = .error (.severalComponents first second)) :
    ∃ h h' rest, markedClasses d nodes = h :: h' :: rest ∧ h.label = first ∧ h'.label = second := by
  obtain ⟨i, k, p, n, pass, node, ⟨t, built, applied⟩, -⟩ := Table.ofNodes_eq_error_iff.mp refused
  rcases Pass.refusal_cases applied with ⟨rfl, h, x, c, rfl, one, marks, found, named⟩ | ⟨other, -⟩
  · obtain ⟨rfl, rfl⟩ := Fault.severalComponents.inj named
    obtain rfl := position_of_component pass
    obtain ⟨u, passed, swept⟩ := Table.builtBefore_eq_ok_iff.mp built
    obtain rfl : Table.empty = u := Except.ok.inj passed
    have labels := Pass.labels_sweep_component swept
    rw [found] at labels
    have marked : markedClass? d (.header h) = some h := by simp [markedClass?, one, marks]
    have split := congrArg (markedClasses d) (split_at node)
    rw [markedClasses, markedClasses, List.filterMap_append, List.filterMap_cons_some marked] at split
    obtain ⟨g, rest, front, label, none⟩ := List.map_eq_cons_iff.mp labels
    rw [List.map_eq_nil_iff.mp none] at front
    refine ⟨g, h, markedClasses d (nodes.drop (k + 1)), ?_, label, rfl⟩
    exact split.trans (congrArg (· ++ _) front)
  · exact absurd rfl (other _ _)

end

/-- Classification is refused for the fault at the first pair of a pass and a node, by the position of
the pass and then of the node, at which the pass refuses the node, after all pairs before went through
on the table built so far. Unless it is a second component, the pass finds the same fault with an empty
table; and a second component is reported by the names of the first two classes whose only decorator
marks components. -/
theorem fault_is_that_of_first_refusal (d : Dialect) (passes : List Pass) (nodes : List Node) (e : Fault) :
    (Table.ofNodes d passes nodes = .error e ↔
      ∃ i k p n, IsFirstRefusal d passes nodes i k p n e) ∧
    (∀ i k p n, IsFirstRefusal d passes nodes i k p n e →
      (∀ first second, e ≠ .severalComponents first second) → p.apply d .empty n = .error e) ∧
    ∀ first second, Table.ofNodes d Pass.all nodes = .error (.severalComponents first second) →
      ∃ h h' rest, markedClasses d nodes = h :: h' :: rest ∧ h.label = first ∧ h'.label = second :=
  ⟨Table.ofNodes_eq_error_iff, fun _ _ _ _ => IsFirstRefusal.apply_empty,
    fun _ _ => markedClasses_of_severalComponents⟩

-- The component pass, run twice, takes the one marked class for a second one.
example : Table.ofNodes {} [.component, .component] [.header ⟨some "A", [⟨"Component", []⟩], none⟩] =
    .error (.severalComponents "A" "A") := rfl

end VueOptions.Options
