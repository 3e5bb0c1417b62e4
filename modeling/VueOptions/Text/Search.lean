/-!
Searching for a piece of text. Main statement: a text is what stands before the first occurrence, the
piece itself, and what stands after it (`append_of_splitAt?`); it stays the first one when what stands
after it changes (`splitAt?_append`).
-/

set_option autoImplicit false

namespace VueOptions.Text

def dropLead? (piece cs : List Char) : Option (List Char) :=
  if piece.isPrefixOf cs then some (cs.drop piece.length) else none

/-- The text before and after the first occurrence of a piece. -/
def splitAt? (piece : List Char) : List Char → Option (List Char × List Char)
  | [] => if piece.isEmpty then some ([], []) else none
  | c :: cs =>
    match dropLead? piece (c :: cs) with
    | some after => some ([], after)
    | none => (splitAt? piece cs).map fun r => (c :: r.1, r.2)

theorem append_of_dropLead? {piece cs after : List Char} (h : dropLead? piece cs = some after) :
    piece ++ after = cs := by
  simp only [dropLead?] at h
  split at h
  · next hp =>
    obtain ⟨t, rfl⟩ := List.isPrefixOf_iff_prefix.1 hp
    simp only [List.drop_left, Option.some.injEq] at h
    rw [h]
  · exact absurd h (by simp)

theorem append_of_splitAt? {piece cs before after : List Char}
    (h : splitAt? piece cs = some (before, after)) : before ++ piece ++ after = cs := by
  induction cs generalizing before after with
  | nil =>
    simp only [splitAt?] at h
    split at h
    · next hp =>
      simp only [Option.some.injEq, Prod.mk.injEq] at h
      obtain ⟨rfl, rfl⟩ := h
      simpa using hp
    · exact absurd h (by simp)
  | cons c cs ih =>
    simp only [splitAt?] at h
    split at h
    · next hd =>
      simp only [Option.some.injEq, Prod.mk.injEq] at h
      obtain ⟨rfl, rfl⟩ := h
      exact append_of_dropLead? hd
    · obtain ⟨⟨b, a⟩, hr, he⟩ := Option.map_eq_some_iff.1 h
      simp only [Prod.mk.injEq] at he
      obtain ⟨rfl, rfl⟩ := he
      simp [ih hr]

theorem splitAt?_self_append (piece rest : List Char) : splitAt? piece (piece ++ rest) = some ([], rest) := by
  have found : dropLead? piece (piece ++ rest) = some rest := by
    simp [dropLead?]
  cases h : piece ++ rest with
  | nil =>
    obtain ⟨rfl, rfl⟩ := List.append_eq_nil_iff.mp h
    rfl
  | cons c cs => rw [splitAt?, ← h, found]

theorem dropLead?_append {piece cs : List Char} (le : piece.length ≤ cs.length) (rest : List Char) :
    dropLead? piece (cs ++ rest) = (dropLead? piece cs).map (· ++ rest) := by
  have same : piece.isPrefixOf (cs ++ rest) = piece.isPrefixOf cs := by
    rw [Bool.eq_iff_iff, List.isPrefixOf_iff_prefix, List.isPrefixOf_iff_prefix]
    exact ⟨fun h => List.prefix_of_prefix_length_le h (List.prefix_append cs rest) le,
      fun h => h.trans (List.prefix_append cs rest)⟩
  rw [dropLead?, dropLead?, same]
  split
  · rw [Option.map_some, List.drop_append_of_le_length le]
  · rfl

theorem splitAt?_append {piece cs before after : List Char} (h : splitAt? piece cs = some (before, after))
    (rest : List Char) : splitAt? piece (before ++ (piece ++ rest)) = some (before, rest) := by
  induction cs generalizing before with
  | nil =>
    rw [splitAt?] at h
    split at h
    · obtain ⟨rfl, -⟩ := Prod.mk.inj (Option.some.inj h)
      exact splitAt?_self_append piece rest
    · cases h
  | cons c cs ih =>
    rw [splitAt?] at h
    split at h
    · obtain ⟨rfl, -⟩ := Prod.mk.inj (Option.some.inj h)
      exact splitAt?_self_append piece rest
    · next none =>
      obtain ⟨⟨b, a⟩, found, eq⟩ := Option.map_eq_some_iff.mp h
      obtain ⟨rfl, rfl⟩ := Prod.mk.inj eq
      have whole := append_of_splitAt? found
      have le : piece.length ≤ (c :: b ++ piece).length := by simp; omega
      have absent : dropLead? piece (c :: b ++ piece) = Option.none := by
        rw [← whole, ← List.cons_append, ← List.cons_append, dropLead?_append le,
          Option.map_eq_none_iff] at none
        exact none
      have absent' : dropLead? piece (c :: (b ++ (piece ++ rest))) = Option.none := by
        have := dropLead?_append le rest
        rw [absent, Option.map_none] at this
        simpa using this
      rw [List.cons_append, splitAt?, absent']
      simp [ih found]

theorem exists_splitAt?_of_infix {piece cs : List Char} (holds : piece <:+: cs) :
    ∃ before after, splitAt? piece cs = some (before, after) := by
  obtain ⟨before, after, rfl⟩ := holds
  induction before with
  | nil => exact ⟨[], after, by simpa using splitAt?_self_append piece after⟩
  | cons c before ih =>
    obtain ⟨b, a, found⟩ := ih
    simp only [List.cons_append] at found ⊢
    rw [splitAt?]
    split
    · next rest _ => exact ⟨[], rest, rfl⟩
    · exact ⟨c :: b, a, by rw [found]; rfl⟩

theorem splitAt?_of_not_infix {c : Char} {cs content : List Char} (once : c ∉ cs)
    (absent : ¬c :: cs <:+: content) (rest : List Char) :
    splitAt? (c :: cs) (content ++ (c :: cs ++ rest)) = some (content, rest) := by
  induction content with
  | nil => exact splitAt?_self_append (c :: cs) rest
  | cons x content ih =>
    have later : ¬c :: cs <:+: content := fun h => absent (List.infix_cons h)
    have none : dropLead? (c :: cs) (x :: (content ++ (c :: cs ++ rest))) = none := by
      cases found : dropLead? (c :: cs) (x :: (content ++ (c :: cs ++ rest))) with
      | none => rfl
      | some after =>
        have whole := append_of_dropLead? found
        rw [← List.cons_append, List.append_eq_append_iff] at whole
        rcases whole with ⟨more, within, -⟩ | ⟨more, reaches, follows⟩
        · exact absurd ⟨[], more, by rw [within]; simp⟩ absent
        · cases more with
          | nil =>
            rw [List.append_nil] at reaches
            exact absurd ⟨[], [], by rw [reaches]; simp⟩ absent
          | cons y more =>
            obtain ⟨rfl, tail⟩ := List.cons.inj reaches
            obtain ⟨rfl, -⟩ := List.cons.inj follows
            exact absurd (by rw [tail]; simp) once
    rw [List.cons_append, splitAt?, none, ih later]
    rfl

end VueOptions.Text
