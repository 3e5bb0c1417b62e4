/-!
Sorting by a number. Insertion keeps the order of items with equal keys; the result is ordered
(`pairwise_sortBy`) and a permutation of the input (`perm_sortBy`); where all keys differ, this
determines it (`sortBy_eq`).
-/

set_option autoImplicit false

namespace VueOptions.Text

variable {α : Type}

/-- Put an item before the first one with a key that is no smaller. -/
def insertBy (key : α → Nat) (x : α) : List α → List α
  | [] => [x]
  | y :: ys => if key x ≤ key y then x :: y :: ys else y :: insertBy key x ys

def sortBy (key : α → Nat) : List α → List α
  | [] => []
  | x :: xs => insertBy key x (sortBy key xs)

theorem perm_insertBy (key : α → Nat) (x : α) (ys : List α) : (insertBy key x ys).Perm (x :: ys) := by
  induction ys with
  | nil => exact List.Perm.refl _
  | cons y ys ih =>
    simp only [insertBy]
    split
    · exact List.Perm.refl _
    · exact (List.Perm.cons y ih).trans (List.Perm.swap x y ys)

theorem perm_sortBy (key : α → Nat) (xs : List α) : (sortBy key xs).Perm xs := by
  induction xs with
  | nil => exact List.Perm.refl _
  | cons x xs ih => exact (perm_insertBy key x _).trans (List.Perm.cons x ih)

theorem mem_sortBy (key : α → Nat) {a : α} {xs : List α} : a ∈ sortBy key xs ↔ a ∈ xs :=
  (perm_sortBy key xs).mem_iff

theorem pairwise_insertBy (key : α → Nat) (x : α) {ys : List α}
    (h : ys.Pairwise fun a b => key a ≤ key b) :
    (insertBy key x ys).Pairwise fun a b => key a ≤ key b := by
  induction ys with
  | nil => simp [insertBy]
  | cons y ys ih =>
    have hy := List.pairwise_cons.1 h
    simp only [insertBy]
    split
    · next hxy =>
      refine List.pairwise_cons.2 ⟨fun b hb => ?_, h⟩
      rcases List.mem_cons.1 hb with rfl | hb
      · exact hxy
      · exact Nat.le_trans hxy (hy.1 b hb)
    · next hxy =>
      refine List.pairwise_cons.2 ⟨fun b hb => ?_, ih hy.2⟩
      rcases List.mem_cons.1 ((perm_insertBy key x ys).mem_iff.1 hb) with rfl | hb
      · omega
      · exact hy.1 b hb

theorem pairwise_sortBy (key : α → Nat) (xs : List α) :
    (sortBy key xs).Pairwise fun a b => key a ≤ key b := by
  induction xs with
  | nil => exact List.Pairwise.nil
  | cons x xs ih => exact pairwise_insertBy key x ih

private theorem eq_of_key_eq {key : α → Nat} {xs : List α} {a b : α}
    (sorted : xs.Pairwise fun a b => key a < key b) (ha : a ∈ xs) (hb : b ∈ xs) (same : key a = key b) :
    a = b := by
  induction sorted with
  | nil => cases ha
  | cons first _ ih =>
    rcases List.mem_cons.1 ha with rfl | ha' <;> rcases List.mem_cons.1 hb with rfl | hb'
    · rfl
    · exact absurd (first b hb') (by omega)
    · exact absurd (first a ha') (by omega)
    · exact ih ha' hb'

theorem sortBy_eq {key : α → Nat} {xs ys : List α} (perm : xs.Perm ys)
    (sorted : ys.Pairwise fun a b => key a < key b) : sortBy key xs = ys := by
  have perm' := (perm_sortBy key xs).trans perm
  refine List.Perm.eq_of_pairwise ?_ (pairwise_sortBy key xs) (sorted.imp Nat.le_of_lt) perm'
  exact fun a b ha hb le ge => eq_of_key_eq sorted (perm'.mem_iff.1 ha) hb (Nat.le_antisymm le ge)

end VueOptions.Text
