import Mathlib.Data.List.Pairwise
import VueOptions.Proofs.Options.OutputModule
import VueOptions.Proofs.Source.StatementGroups

/-!
What the output does with the statements of a module: nothing is lost but the imports that only feed
decorators, the classes that may be components, and their exports, and nothing is doubled. An exported
name is taken by its spelling; an export that is spelled with an escape outlives the class it exports.
-/

set_option autoImplicit false

namespace VueOptions.Options

open Layout Script Source Text

def kindRank : CarriedKind → Nat
  | .typeAlias => 0
  | .interface => 1
  | .other => 2

structure StablyOrdered (carried ordered : List (CarriedKind × String)) : Prop where
  perm : ordered.Perm carried
  sorted : ordered.Pairwise fun a b => kindRank a.1 ≤ kindRank b.1
  stable : ∀ kind, (ordered.filter fun c => c.1 == kind) = carried.filter fun c => c.1 == kind

def byKind (carried : List (CarriedKind × String)) : List (CarriedKind × String) :=
  [CarriedKind.typeAlias, .interface, .other].flatMap fun kind => carried.filter fun c => c.1 == kind

private theorem filter_byKind (carried : List (CarriedKind × String)) (kind : CarriedKind) :
    ((byKind carried).filter fun c => c.1 == kind) = carried.filter fun c => c.1 == kind := by
  have twice (k : CarriedKind) : (carried.filter fun c => c.1 == k).filter (fun c => c.1 == kind) =
      if k = kind then carried.filter fun c => c.1 == kind else [] := by
    split
    · next same => simp [same, List.filter_filter]
    · next ne =>
      rw [List.filter_filter, List.filter_eq_nil_iff]
      rintro c - both
      simp only [Bool.and_eq_true, beq_iff_eq] at both
      exact ne (both.2.symm.trans both.1)
  rw [byKind, List.filter_flatMap]
  cases kind <;> simp [twice]

private theorem stablyOrdered_byKind (carried : List (CarriedKind × String)) :
    StablyOrdered carried (byKind carried) := by
  refine ⟨?perm, ?sorted, filter_byKind carried⟩
  case perm =>
    refine List.perm_iff_count.mpr fun c => ?_
    have ofKind (l : List (CarriedKind × String)) :
        (l.filter fun x => x.1 == c.1).count c = l.count c :=
      List.count_filter (beq_self_eq_true c.1)
    rw [← ofKind, filter_byKind, ofKind]
  case sorted =>
    have rank {k : CarriedKind} {c : CarriedKind × String}
        (mem : c ∈ carried.filter fun c => c.1 == k) : kindRank c.1 = kindRank k := by
      rw [beq_iff_eq.mp (List.mem_filter.mp mem).2]
    have within (k : CarriedKind) : (carried.filter fun c => c.1 == k).Pairwise fun a b =>
        kindRank a.1 ≤ kindRank b.1 :=
      List.pairwise_of_forall_mem_list fun a ha b hb => Nat.le_of_eq ((rank ha).trans (rank hb).symm)
    simp only [byKind, List.flatMap_cons, List.flatMap_nil, List.append_nil]
    refine List.pairwise_append.mpr ⟨within _, List.pairwise_append.mpr ⟨within _, within _, ?_⟩, ?_⟩
    · intro a ha b hb
      rw [rank ha, rank hb]
      decide
    · intro a ha b _
      rw [rank ha]
      exact Nat.zero_le _

def openingBlock (d : Dialect) (t : Table) : List Char :=
  textLine d.indentWidth 0 "import \x7b defineComponent \x7d from 'vue'"
    ++ if t.props.isEmpty then []
      else textLine d.indentWidth 0 "import type \x7b PropType \x7d from 'vue'"

def closingBlocks (d : Dialect) (c : Component) (t : Table) : List (List Char) :=
  blockWhen (!t.data.isEmpty)
      (framed d.indentWidth 0 "type Data = \x7b"
        (entries d.indentWidth 1 DataField.renderType t.data) "\x7d")
    ++ [framed d.indentWidth 0 "export default defineComponent(\x7b"
      (joinLines (sections d.indentWidth c t)) "\x7d)"]

def importTexts (d : Dialect) (source : List Char) (ts : List Tree) : List String :=
  (ts.filter fun t => ∃ path ∈ importSource? t, ¬d.isDecoratorSource path = true).map fun t =>
    t.span.text source

theorem keptImports_eq (d : Dialect) (source : List Char) (tree : Tree) :
    keptImports d (Module.ofTree source tree) = importTexts d source (statementsOf tree) := by
  rw [keptImports, Module.imports_ofTree, importTexts]
  induction statementsOf tree with
  | nil => rfl
  | cons t ts ih =>
    cases imports : importSource? t with
    | none => simpa [imports] using ih
    | some path =>
      by_cases fed : d.isDecoratorSource path = true
      · simpa [imports, fed] using ih
      · simpa [imports, fed] using ih

theorem moduleBlocks_eq (d : Dialect) (m : Module) (c : Component) (t : Table) :
    moduleBlocks d m c t =
      [openingBlock d t]
        ++ blockWhen (!(keptImports d m).isEmpty) ((keptImports d m).flatMap ended)
        ++ (byKind m.carried).map (fun s => ended s.2)
        ++ closingBlocks d c t := by
  have carried : carriedOf .typeAlias m ++ carriedOf .interface m ++ carriedOf .other m =
      (byKind m.carried).map Prod.snd := by
    simp [carriedOf, byKind]
  rw [moduleBlocks, carried, List.map_map, closingBlocks, ← List.append_assoc]
  rfl

/-- What a module carries over of its statements is what the groups leave, for a way to tell the names
that specifiers stand for. -/
structure Conserves (naming : Naming) (source : List Char) (ts : List Tree) (m : Module) : Prop where
  groups : ∀ t ∈ ts, ∃! g : Group, g.Holds naming source (componentNames source ts) t
  carried : m.carried = carriedStatements naming source ts

private theorem conserves_spelling (source : List Char) (tree : Tree) :
    Conserves (.spelling source) source (statementsOf tree) (Module.ofTree source tree) :=
  ⟨fun t _ => existsUnique_group _ _ _ t, Module.carried_ofTree source tree⟩

/-- Each statement of a module is an import, declares a class that may be a component, exports nothing
but such classes by their spelling, or is one of the rest; the module carries over the rest in order,
word for word or without the names of such classes. If no exported name is spelled with an escape, the
same holds by the bindings. The output has the imports that do not only feed decorators in order, and
what is carried over in a stable order by kind. -/
theorem statements_conserved {script : String} {m : Module} (parsed : Module.parse? script = some m) :
    ∃ tree ordered, Tree.ofModule? script.toList = some tree ∧
      Conserves (.spelling script.toList) script.toList (statementsOf tree) m ∧
      ((∀ t ∈ statementsOf tree, Naming.binding.Agree (.spelling script.toList) t) →
        Conserves .binding script.toList (statementsOf tree) m) ∧
      StablyOrdered m.carried ordered ∧
      ∀ (d : Dialect) (c : Component) (t : Table), t.component = some c →
        Writer.print d.indentWidth (renderModule d m t) =
          joinLines ([openingBlock d t]
            ++ blockWhen (!(importTexts d script.toList (statementsOf tree)).isEmpty)
              ((importTexts d script.toList (statementsOf tree)).flatMap ended)
            ++ ordered.map (fun s => ended s.2)
            ++ closingBlocks d c t) := by
  obtain ⟨tree, read, rfl⟩ := Option.map_eq_some_iff.mp parsed
  have conserves := conserves_spelling script.toList tree
  refine ⟨tree, byKind (Module.ofTree script.toList tree).carried, read, conserves, fun agree => ?_,
    stablyOrdered_byKind _, fun d c t component => ?_⟩
  · refine ⟨fun t _ => existsUnique_group _ _ _ t, ?_⟩
    rw [conserves.carried, carriedStatements_congr agree]
  · rw [print_renderModule parsed component, moduleBlocks_eq, keptImports_eq]

/-- What becomes of the statements of the page: its component goes, and its export list keeps the other
name. -/
theorem page_statements_conserved :
    ∃ m tree ordered, Module.parse? pageScript = some m ∧
      Tree.ofModule? pageScript.toList = some tree ∧
      Conserves (.spelling pageScript.toList) pageScript.toList (statementsOf tree) m ∧
      Conserves .binding pageScript.toList (statementsOf tree) m ∧
      m.carried = [(.other, "export \x7b x \x7d"), (.other, "f(`a\n b`)"), (.typeAlias, "type T = X")] ∧
      StablyOrdered m.carried ordered ∧
      Writer.print 4 (renderModule {} m crowdedTable) =
        joinLines ([openingBlock {} crowdedTable]
          ++ blockWhen (!(importTexts {} pageScript.toList (statementsOf tree)).isEmpty)
            ((importTexts {} pageScript.toList (statementsOf tree)).flatMap ended)
          ++ ordered.map (fun s => ended s.2)
          ++ closingBlocks {} ⟨"Page", ["Base", "Row: () => \x7b\n\x7d"]⟩ crowdedTable) := by
  have shown : (Tree.ofModule? pageScript.toList).map (fun tree =>
      ((Module.ofTree pageScript.toList tree).carried,
        decide (∀ t ∈ statementsOf tree, Naming.binding.Agree (.spelling pageScript.toList) t))) =
      some ([(.other, "export \x7b x \x7d"), (.other, "f(`a\n b`)"), (.typeAlias, "type T = X")],
        true) := by
    decide +kernel
  obtain ⟨tree, read, eq⟩ := Option.map_eq_some_iff.mp shown
  obtain ⟨carried, agree⟩ := Prod.mk.inj eq
  have parsed : Module.parse? pageScript = some (Module.ofTree pageScript.toList tree) := by
    rw [Module.parse?, read, Option.map_some]
  obtain ⟨tree', ordered, read', spelled, bound, stable, printed⟩ := statements_conserved parsed
  obtain rfl := Option.some.inj (read.symm.trans read')
  exact ⟨_, tree, ordered, parsed, read, spelled, bound (of_decide_eq_true agree), carried, stable,
    printed {} _ crowdedTable rfl⟩

/-- A script that spells the name of its component with an escape where it exports it. -/
def escapedScript : String := "@Component class Foo \x7b\x7d\nexport \x7b \\u0046oo \x7d\n"

/-- The class goes, but its export is carried over: by the binding that it stands for it is withdrawn, by
its spelling it is not. -/
theorem escaped_export_outlives_class :
    ∃ m tree, Module.parse? escapedScript = some m ∧
      Tree.ofModule? escapedScript.toList = some tree ∧
      m.candidateNames = ["Foo"] ∧
      m.carried = [(.other, "export \x7b \\u0046oo \x7d")] ∧
      carriedStatements .binding escapedScript.toList (statementsOf tree) = [] ∧
      ¬Conserves .binding escapedScript.toList (statementsOf tree) m := by
  have shown : (Tree.ofModule? escapedScript.toList).map (fun tree =>
      ((Module.ofTree escapedScript.toList tree).candidateNames,
        (Module.ofTree escapedScript.toList tree).carried,
        carriedStatements .binding escapedScript.toList (statementsOf tree))) =
      some (["Foo"], [(.other, "export \x7b \\u0046oo \x7d")], []) := by
    decide +kernel
  obtain ⟨tree, read, eq⟩ := Option.map_eq_some_iff.mp shown
  obtain ⟨names, eq⟩ := Prod.mk.inj eq
  obtain ⟨carried, left⟩ := Prod.mk.inj eq
  have parsed : Module.parse? escapedScript = some (Module.ofTree escapedScript.toList tree) := by
    rw [Module.parse?, read, Option.map_some]
  refine ⟨_, tree, parsed, read, names, carried, left, fun conserves => ?_⟩
  rw [conserves.carried, left] at carried
  cases carried

end VueOptions.Options
