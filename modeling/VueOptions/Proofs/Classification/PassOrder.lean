import Mathlib.Data.List.Induction
import Mathlib.Data.List.Nodup
import VueOptions.Proofs.Classification.Ownership

/-!
The order in which passes look at nodes. An offer shows one node to one pass, and a classification is a
list of offers. What it gives depends only on which nodes each pass is shown, and in which order: passes
write different entries, and the one entry that a pass asks for, the component, is its own.
-/

set_option autoImplicit false

namespace VueOptions.Options

open Source

structure Offer where
  pass : Pass
  node : Node

namespace Offer

def shown (p : Pass) (offers : List Offer) : List Node :=
  offers.filterMap fun o => if o.pass = p then some o.node else none

def passByPass (passes : List Pass) (nodes : List Node) : List Offer :=
  passes.flatMap fun p => nodes.map fun n => ⟨p, n⟩

def nodeByNode (passes : List Pass) (nodes : List Node) : List Offer :=
  nodes.flatMap fun n => passes.map fun p => ⟨p, n⟩

theorem shown_concat_self (offers : List Offer) (p : Pass) (n : Node) :
    shown p (offers ++ [⟨p, n⟩]) = shown p offers ++ [n] := by
  simp [shown]

theorem shown_concat_of_ne (offers : List Offer) {p q : Pass} (n : Node) (ne : p ≠ q) :
    shown q (offers ++ [⟨p, n⟩]) = shown q offers := by
  simp [shown, ne]

end Offer

namespace Table

def ofOffers (d : Dialect) (offers : List Offer) : Except Fault Table :=
  offers.foldlM (fun t o => Pass.step d o.pass t o.node) empty

/-- The table that passes make of nodes, each node being shown to all passes before the next one is. -/
def ofNodesByNode (d : Dialect) (passes : List Pass) (nodes : List Node) : Except Fault Table :=
  nodes.foldlM (fun t n => passes.foldlM (fun t p => Pass.step d p t n) t) empty

private theorem foldlM_flatMap {α β σ : Type} (f : σ → β → Except Fault σ) (g : α → List β)
    (xs : List α) (s : σ) :
    (xs.flatMap g).foldlM f s = xs.foldlM (fun s x => (g x).foldlM f s) s := by
  induction xs generalizing s with
  | nil => rfl
  | cons x xs ih =>
    rw [List.flatMap_cons, List.foldlM_append, List.foldlM_cons]
    exact congrArg _ (funext ih)

theorem ofNodes_eq_ofOffers (d : Dialect) (passes : List Pass) (nodes : List Node) :
    ofNodes d passes nodes = ofOffers d (Offer.passByPass passes nodes) := by
  rw [ofOffers, Offer.passByPass, foldlM_flatMap]
  simp only [List.foldlM_map]
  rfl

theorem ofNodesByNode_eq_ofOffers (d : Dialect) (passes : List Pass) (nodes : List Node) :
    ofNodesByNode d passes nodes = ofOffers d (Offer.nodeByNode passes nodes) := by
  rw [ofOffers, Offer.nodeByNode, foldlM_flatMap]
  simp only [List.foldlM_map]
  rfl

end Table

/-- The entries that nodes declare where each pass looks at nodes of its own. -/
def Table.assembled (d : Dialect) (shown : Pass → List Node) : Table :=
  { component := (shown .component).findSome? (Component.ofNode? d)
    mixins := (shown .mixins).flatMap Mixin.ofNode
    props := (shown .decoratedField).filterMap (PropField.ofNode? d)
    data := (shown .data).filterMap DataField.ofNode?
    refs := (shown .decoratedField).filterMap (RefField.ofNode? d)
    hooks := (shown .method).filterMap (Hook.ofNode? d)
    methods := (shown .method).filterMap (PlainMethod.ofNode? d)
    getters := (shown .computed).filterMap Getter.ofNode?
    emits := (shown .decoratedMethod).filterMap (Emit.ofNode? d)
    watchers := (shown .decoratedMethod).filterMap (Watcher.ofNode? d) }

def Pass.AdmitsAll (d : Dialect) (p : Pass) (nodes : List Node) : Prop :=
  ∀ before n after, nodes = before ++ n :: after →
    Pass.Admits d (before.findSome? (Component.ofNode? d)) p n

theorem Pass.admitsAll_concat {d : Dialect} {p : Pass} {nodes : List Node} {n : Node} :
    Pass.AdmitsAll d p (nodes ++ [n]) ↔
      Pass.AdmitsAll d p nodes ∧ Pass.Admits d (nodes.findSome? (Component.ofNode? d)) p n := by
  constructor
  · intro h
    refine ⟨fun before m after split => h before m (after ++ [n]) ?_, h nodes n [] rfl⟩
    rw [split, List.append_assoc, List.cons_append]
  · rintro ⟨hnodes, hn⟩ before m after split
    -- The node in question is the last one, or it stands among those before.
    rcases List.eq_nil_or_concat' after with rfl | ⟨rest, last, rfl⟩
    · obtain ⟨rfl, same⟩ := List.append_inj' split rfl
      obtain rfl := List.singleton_inj.mp same
      exact hn
    · have split' : nodes ++ [n] = (before ++ m :: rest) ++ [last] := by
        rw [split, List.append_assoc, List.cons_append]
      exact hnodes before m rest (List.append_inj' split' rfl).1

private theorem filterMap_singleton {α β : Type} (f : α → Option β) (a : α) :
    [a].filterMap f = (f a).toList := by
  cases h : f a <;> simp [h]

theorem Table.assembled_concat (d : Dialect) (offers : List Offer) (p : Pass) (n : Node) :
    Table.assembled d (fun q => Offer.shown q (offers ++ [⟨p, n⟩])) =
      Table.assembled d (fun q => Offer.shown q offers) ++ Pass.contribution d n p := by
  cases p <;>
    simp [Table.assembled, Pass.contribution, Offer.shown, filterMap_singleton, Table.append_def,
      Table.append]

theorem Pass.admitsAll_shown_concat {d : Dialect} {offers : List Offer} {p : Pass} {n : Node} :
    (∀ q, Pass.AdmitsAll d q (Offer.shown q (offers ++ [⟨p, n⟩]))) ↔
      (∀ q, Pass.AdmitsAll d q (Offer.shown q offers)) ∧
        Pass.Admits d ((Offer.shown p offers).findSome? (Component.ofNode? d)) p n := by
  constructor
  · intro h
    have own := h p
    rw [Offer.shown_concat_self, Pass.admitsAll_concat] at own
    refine ⟨fun q => ?_, own.2⟩
    by_cases same : p = q
    · exact same ▸ own.1
    · rw [← Offer.shown_concat_of_ne offers n same]
      exact h q
  · rintro ⟨h, hn⟩ q
    by_cases same : p = q
    · subst same
      rw [Offer.shown_concat_self, Pass.admitsAll_concat]
      exact ⟨h p, hn⟩
    · rw [Offer.shown_concat_of_ne offers n same]
      exact h q

private theorem admits_assembled_iff {d : Dialect} {shown : Pass → List Node} {p : Pass} {n : Node} :
    Pass.Admits d (Table.assembled d shown).component p n ↔
      Pass.Admits d ((shown p).findSome? (Component.ofNode? d)) p n := by
  by_cases component : p = .component
  · subst component
    rfl
  · exact Pass.admits_congr component

theorem Table.ofOffers_eq_ok_iff {d : Dialect} {offers : List Offer} {t : Table} :
    Table.ofOffers d offers = .ok t ↔
      (∀ p, Pass.AdmitsAll d p (Offer.shown p offers)) ∧
      t = Table.assembled d fun p => Offer.shown p offers := by
  -- On the last offer: what was offered before decides what it is put behind.
  induction offers using List.reverseRecOn generalizing t with
  | nil =>
    have taken : Table.ofOffers d [] = .ok Table.empty := rfl
    rw [taken, Except.ok.injEq, eq_comm]
    exact ⟨fun h => ⟨fun p before n after split => by simp [Offer.shown] at split, h⟩, fun h => h.2⟩
  | append_singleton offers o ih =>
    obtain ⟨p, n⟩ := o
    have last : Table.ofOffers d (offers ++ [⟨p, n⟩]) =
        (Table.ofOffers d offers >>= fun t => Pass.step d p t n) := by
      rw [Table.ofOffers, List.foldlM_append]
      simp only [List.foldlM_cons, List.foldlM_nil, bind_pure]
      rfl
    rw [last, Pass.bind_eq_ok_iff, Table.assembled_concat, Pass.admitsAll_shown_concat]
    constructor
    · rintro ⟨u, hu, hstep⟩
      obtain ⟨admits, rfl⟩ := ih.mp hu
      obtain ⟨hn, rfl⟩ := Pass.step_eq_ok_iff.mp hstep
      exact ⟨⟨admits, admits_assembled_iff.mp hn⟩, rfl⟩
    · rintro ⟨⟨admits, hn⟩, rfl⟩
      exact ⟨_, ih.mpr ⟨admits, rfl⟩, Pass.step_eq_ok_iff.mpr ⟨admits_assembled_iff.mpr hn, rfl⟩⟩

theorem Table.ofOffers_congr {d : Dialect} {offers offers' : List Offer} {t : Table}
    (same : ∀ p, Offer.shown p offers = Offer.shown p offers') :
    Table.ofOffers d offers = .ok t ↔ Table.ofOffers d offers' = .ok t := by
  rw [Table.ofOffers_eq_ok_iff, Table.ofOffers_eq_ok_iff]
  simp only [same]

namespace Offer

private theorem flatMap_of_not_mem {α : Type} {passes : List Pass} {p : Pass} (absent : p ∉ passes)
    (xs : List α) : (passes.flatMap fun q => if q = p then xs else []) = [] := by
  rw [List.flatMap_eq_nil_iff]
  intro q mem
  rw [if_neg]
  rintro rfl
  exact absent mem

private theorem flatMap_of_nodup {α : Type} {passes : List Pass} {p : Pass} (nodup : passes.Nodup)
    (mem : p ∈ passes) (xs : List α) : (passes.flatMap fun q => if q = p then xs else []) = xs := by
  obtain ⟨before, after, rfl⟩ := List.append_of_mem mem
  have apart := List.nodup_middle.mp nodup
  rw [List.nodup_cons, List.mem_append, not_or] at apart
  rw [List.flatMap_append, List.flatMap_cons, if_pos rfl, flatMap_of_not_mem apart.1.1,
    flatMap_of_not_mem apart.1.2, List.nil_append, List.append_nil]

theorem shown_passByPass {passes : List Pass} {p : Pass} (nodup : passes.Nodup) (mem : p ∈ passes)
    (nodes : List Node) : shown p (passByPass passes nodes) = nodes := by
  have shows : ∀ q, (nodes.map fun n => Offer.mk q n).filterMap
      (fun o => if o.pass = p then some o.node else none) = if q = p then nodes else [] := by
    intro q
    by_cases same : q = p <;> simp [List.filterMap_map, same]
  rw [shown, passByPass, List.filterMap_flatMap]
  simp only [shows]
  exact flatMap_of_nodup nodup mem nodes

theorem shown_nodeByNode {passes : List Pass} {p : Pass} (nodup : passes.Nodup) (mem : p ∈ passes)
    (nodes : List Node) : shown p (nodeByNode passes nodes) = nodes := by
  have shows : ∀ n, (passes.map fun q => Offer.mk q n).filterMap
      (fun o => if o.pass = p then some o.node else none) = [n] := by
    intro n
    rw [List.filterMap_map, List.filterMap_eq_flatMap_toList]
    rw [← flatMap_of_nodup nodup mem [n]]
    refine List.flatMap_congr fun q _ => ?_
    by_cases same : q = p <;> simp [same]
  rw [shown, nodeByNode, List.filterMap_flatMap]
  simp only [shows]
  exact List.flatMap_singleton' nodes

end Offer

private theorem exists_error_iff {x y : Except Fault Table} (h : ∀ t, x = .ok t ↔ y = .ok t) :
    (∃ e, x = .error e) ↔ ∃ e, y = .error e := by
  cases x with
  | ok t => simp [(h t).mp rfl]
  | error e =>
    cases y with
    | ok t => exact absurd ((h t).mpr rfl) nofun
    | error e' => simp

section

variable {passes : List Pass} (order : passes.Perm Pass.all)

include order

private theorem nodup_of_order : passes.Nodup := order.nodup_iff.mpr (by decide)

private theorem mem_of_order (p : Pass) : p ∈ passes := order.mem_iff.mpr (Pass.mem_all p)

theorem Table.ofNodes_order_iff {d : Dialect} {nodes : List Node} {t : Table} :
    Table.ofNodes d passes nodes = .ok t ↔ Table.ofNodes d Pass.all nodes = .ok t := by
  rw [Table.ofNodes_eq_ofOffers, Table.ofNodes_eq_ofOffers]
  refine Table.ofOffers_congr fun p => ?_
  rw [Offer.shown_passByPass (nodup_of_order order) (mem_of_order order p),
    Offer.shown_passByPass (by decide) (Pass.mem_all p)]

theorem Table.ofNodesByNode_order_iff {d : Dialect} {nodes : List Node} {t : Table} :
    Table.ofNodesByNode d passes nodes = .ok t ↔ Table.ofNodes d Pass.all nodes = .ok t := by
  rw [Table.ofNodesByNode_eq_ofOffers, Table.ofNodes_eq_ofOffers]
  refine Table.ofOffers_congr fun p => ?_
  rw [Offer.shown_nodeByNode (nodup_of_order order) (mem_of_order order p),
    Offer.shown_passByPass (by decide) (Pass.mem_all p)]

end

/-- Every order of the passes makes the same table of nodes, whether all nodes are shown to one pass
before the next one begins or each node is shown to all passes before the next node comes; where one
order refuses the nodes, every order does. -/
theorem pass_order_is_immaterial (d : Dialect) (nodes : List Node) {passes : List Pass}
    (order : passes.Perm Pass.all) :
    (∀ t, Table.ofNodes d passes nodes = .ok t ↔ Table.ofNodes d Pass.all nodes = .ok t) ∧
    (∀ t, Table.ofNodesByNode d passes nodes = .ok t ↔ Table.ofNodes d Pass.all nodes = .ok t) ∧
    ((∃ e, Table.ofNodes d passes nodes = .error e) ↔
      ∃ e, Table.ofNodes d Pass.all nodes = .error e) ∧
    ((∃ e, Table.ofNodesByNode d passes nodes = .error e) ↔
      ∃ e, Table.ofNodes d Pass.all nodes = .error e) :=
  ⟨fun _ => Table.ofNodes_order_iff order, fun _ => Table.ofNodesByNode_order_iff order,
    exists_error_iff fun _ => Table.ofNodes_order_iff order,
    exists_error_iff fun _ => Table.ofNodesByNode_order_iff order⟩

/-- A component that lists a mixin, with a field, a prop and a getter. -/
def mixedNodes : List Node :=
  [.header ⟨some "Page", [⟨"Component", []⟩],
      some (.call "Mixins(M)" "Mixins" [.value (.word "M" "M")])⟩,
    .method ⟨.word "shown" false, .get, [], false, false, false, [], none, some ⟨[], none⟩⟩,
    .field ⟨.word "size" false, [⟨"Prop", []⟩], false, false, none, none⟩,
    .field ⟨.word "id" false, [], false, true, some "Id", none⟩]

def mixedTable : Table where
  component := some ⟨"Page", []⟩
  mixins := [⟨"M"⟩]
  props := [⟨"size", false, false, none, "any", none, none⟩]
  data := [⟨"id", none, some "Id", true⟩]
  getters := [⟨"shown", none, []⟩]

def faultyNodes : List Node :=
  [.header ⟨some "Page", [⟨"Widget", []⟩], none⟩,
    .field ⟨.word "id" false, [⟨"Id", []⟩], false, false, none, none⟩]

/-- The passes in reverse give the same table node by node, and refuse the same nodes, but for another
fault. -/
theorem reversed_passes_agree :
    Pass.all.reverse.Perm Pass.all ∧
      Table.ofNodesByNode {} Pass.all.reverse mixedNodes = .ok mixedTable ∧
      Table.ofNodes {} Pass.all faultyNodes = .error (.unknownDecorator .header "Page" "Widget") ∧
      Table.ofNodes {} Pass.all.reverse faultyNodes =
        .error (.unsupportedDecorator .field "id" "Id") ∧
      ∃ e, Table.ofNodesByNode {} Pass.all.reverse faultyNodes = .error e := by
  have order : Pass.all.reverse.Perm Pass.all := List.reverse_perm _
  have accepted : Table.ofNodes {} Pass.all mixedNodes = .ok mixedTable := by decide
  have refused : Table.ofNodes {} Pass.all faultyNodes =
      .error (.unknownDecorator .header "Page" "Widget") := by decide
  exact ⟨order, ((pass_order_is_immaterial {} mixedNodes order).2.1 _).mpr accepted, refused,
    by decide, (pass_order_is_immaterial {} faultyNodes order).2.2.2.mpr ⟨_, refused⟩⟩

end VueOptions.Options
