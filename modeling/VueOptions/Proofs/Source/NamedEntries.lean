import Mathlib.Data.List.Induction
import VueOptions.Source.Expression

/-!
Object literals that give options. Of the entries only those with a name count, and of several with one
name the last one does, which can be found among the trees of the properties. Folding over the pairs of an
object literal leaves a slot that only one name writes to with the last value given for that name.
-/

set_option autoImplicit false

namespace VueOptions.Source

open Script

structure NamedEntry where
  text : String
  key : Key
  form : EntryForm
  value : Expression

namespace NamedEntry

def named? : Entry → Option NamedEntry
  | .named text key form value => some ⟨text, key, form, value⟩
  | .spread _ => none

def all (entries : List Entry) : List NamedEntry := entries.filterMap named?

def last? (label : String) (entries : List Entry) : Option NamedEntry :=
  (all entries).reverse.find? fun e => e.key.label == label

theorem pairs_eq_map (entries : List Entry) :
    Entry.pairs entries = (all entries).map fun e => (e.key.label, e.value) := by
  rw [all, List.map_filterMap, Entry.pairs]
  refine congrArg (List.filterMap · entries) (funext fun e => ?_)
  cases e <;> rfl

def ofTree? (source : List Char) : Tree → Option NamedEntry
  | .node (.entry form) s (key :: value :: _) =>
    some ⟨s.text source, Key.ofTree source key, form, Expression.ofTree source value⟩
  | .node (.entry form) s [key] =>
    let shown := Key.ofTree source key
    some ⟨s.text source, shown, form, .word (s.text source) shown.label⟩
  | _ => none

/-- The value of the entry that a tree shows; a name that stands alone is its own value. -/
def valueTree : Tree → Tree
  | .node _ _ (_ :: value :: _) => value
  | t => t

def label? (source : List Char) : Tree → Option String
  | .node (.entry _) _ (key :: _) => some (Key.ofTree source key).label
  | _ => none

theorem all_ofTrees (source : List Char) (ts : List Tree) :
    all (Entry.ofTrees source ts) = ts.filterMap (ofTree? source) := by
  induction ts with
  | nil => rfl
  | cons t ts ih =>
    rw [List.filterMap_cons, ← ih]
    fun_cases ofTree? source t with
    | case1 form s key value more => simp only [Entry.ofTrees, all, List.filterMap_cons, named?]
    | case2 form s key shown => simp only [Entry.ofTrees, all, List.filterMap_cons, named?, shown]
    | case3 t noValue noName => simp only [Entry.ofTrees, all, List.filterMap_cons, named?]

theorem map_label_ofTree? (source : List Char) (t : Tree) :
    (ofTree? source t).map (fun n => n.key.label) = label? source t := by
  fun_cases ofTree? source t with
  | case1 => rfl
  | case2 => rfl
  | case3 t noValue noName =>
    fun_cases label? source t with
    | case1 form s key values =>
      cases values with
      | nil => exact (noName form s key rfl).elim
      | cons value more => exact (noValue form s key value more rfl).elim
    | case2 => rfl

theorem last?_ofTrees (label : String) (source : List Char) (ts : List Tree) :
    last? label (Entry.ofTrees source ts) =
      (ts.reverse.find? fun t => label? source t == some label).bind (ofTree? source) := by
  have called (t : Tree) :
      (ofTree? source t).any (fun n => n.key.label == label) = (label? source t == some label) := by
    rw [← map_label_ofTree?]
    cases ofTree? source t <;> simp
  rw [last?, all_ofTrees, ← List.filterMap_reverse, List.find?_filterMap]
  simp only [called]

end NamedEntry

theorem foldl_pairs_slot {σ β : Type} {step : σ → String × Expression → σ} (slot : σ → β)
    {label : String} (put : Expression → β) (writes : ∀ s e, slot (step s (label, e)) = put e)
    (keeps : ∀ s name e, name ≠ label → slot (step s (name, e)) = slot s) (entries : List Entry) (s : σ) :
    slot ((Entry.pairs entries).foldl step s) =
      ((NamedEntry.last? label entries).map fun n => put n.value).getD (slot s) := by
  rw [NamedEntry.pairs_eq_map, NamedEntry.last?]
  induction NamedEntry.all entries using List.reverseRecOn with
  | nil => rfl
  | append_singleton ns n ih =>
    rw [List.map_append, List.foldl_append, List.reverse_append]
    by_cases called : n.key.label = label
    · simp [called, writes]
    · simp [called, keeps, ih]

end VueOptions.Source
