/-!
Cutting a text at a character, and lines. A text has one piece more than it has cuts; joining the
pieces gives the text back (`join_split`). Lines are the pieces between line feeds.
-/

set_option autoImplicit false

namespace VueOptions.Text

/-- The pieces of a text between the occurrences of a character. -/
def split (sep : Char) : List Char → List (List Char)
  | [] => [[]]
  | c :: cs =>
    if c = sep then [] :: split sep cs
    else match split sep cs with
      | [] => [[c]]
      | l :: ls => (c :: l) :: ls

def join (sep : Char) : List (List Char) → List Char
  | [] => []
  | [l] => l
  | l :: ls => l ++ sep :: join sep ls

theorem split_ne_nil (sep : Char) (cs : List Char) : split sep cs ≠ [] := by
  cases cs with
  | nil => simp [split]
  | cons c cs =>
    simp only [split]
    split
    · simp
    · split <;> simp

theorem join_cons {sep : Char} {l : List Char} {ls : List (List Char)} (h : ls ≠ []) :
    join sep (l :: ls) = l ++ sep :: join sep ls := by
  cases ls with
  | nil => exact absurd rfl h
  | cons m ms => rfl

theorem join_split (sep : Char) (cs : List Char) : join sep (split sep cs) = cs := by
  induction cs with
  | nil => rfl
  | cons c cs ih =>
    simp only [split]
    split
    · next h => rw [join_cons (split_ne_nil sep cs), ih, h]; rfl
    · cases hs : split sep cs with
      | nil => exact absurd hs (split_ne_nil sep cs)
      | cons l ls =>
        cases ls with
        | nil => simp only [join]; rw [hs] at ih; simp only [join] at ih; rw [ih]
        | cons m ms =>
          rw [hs] at ih
          simp only [join, List.cons_append] at ih ⊢
          rw [ih]

theorem length_split (sep : Char) (cs : List Char) :
    (split sep cs).length = cs.count sep + 1 := by
  induction cs with
  | nil => rfl
  | cons c cs ih =>
    by_cases h : c = sep
    · simp [split, h, ih]
    · simp only [split, h, if_false]
      cases hs : split sep cs with
      | nil => exact absurd hs (split_ne_nil sep cs)
      | cons l ls => rw [hs] at ih; simp [h] at ih ⊢; omega

theorem mem_join {sep c : Char} {ls : List (List Char)} (h : c ∈ join sep ls) :
    c = sep ∨ ∃ l ∈ ls, c ∈ l := by
  fun_induction join sep ls with
  | case1 => cases h
  | case2 l => exact .inr ⟨l, List.mem_cons_self, h⟩
  | case3 l ls _ ih =>
    rcases List.mem_append.mp h with mem | mem
    · exact .inr ⟨l, List.mem_cons_self, mem⟩
    · rcases List.mem_cons.mp mem with same | mem
      · exact .inl same
      · rcases ih mem with same | ⟨m, hm, hc⟩
        · exact .inl same
        · exact .inr ⟨m, List.mem_cons_of_mem l hm, hc⟩

theorem mem_join_of_mem {sep c : Char} {ls : List (List Char)} {l : List Char} (mem : l ∈ ls) (h : c ∈ l) :
    c ∈ join sep ls := by
  fun_induction join sep ls with
  | case1 => cases mem
  | case2 m => rwa [← List.mem_singleton.mp mem]
  | case3 m ms _ ih =>
    rw [List.mem_append, List.mem_cons]
    rcases List.mem_cons.mp mem with rfl | later
    · exact .inl h
    · exact .inr (.inr (ih later))

theorem join_ne_nil {sep : Char} {ls : List (List Char)} {l : List Char} (mem : l ∈ ls) (ne : l ≠ []) :
    join sep ls ≠ [] := by
  fun_induction join sep ls with
  | case1 => cases mem
  | case2 m => rwa [← List.mem_singleton.mp mem]
  | case3 m ms _ _ => simp

theorem join_concat {sep : Char} {ls : List (List Char)} (ne : ls ≠ []) (l : List Char) :
    join sep (ls ++ [l]) = join sep ls ++ sep :: l := by
  fun_induction join sep ls with
  | case1 => exact absurd rfl ne
  | case2 m => rfl
  | case3 m ms hms ih =>
    rw [List.cons_append, join_cons (by simp), ih hms, List.append_assoc, List.cons_append]

theorem join_append_sep {sep : Char} {ls : List (List Char)} (ne : ls ≠ []) :
    join sep ls ++ [sep] = ls.flatMap (· ++ [sep]) := by
  fun_induction join sep ls with
  | case1 => exact absurd rfl ne
  | case2 l => simp
  | case3 l ls hls ih =>
    rw [List.append_assoc, List.cons_append, ih hls, List.flatMap_cons, List.append_assoc]
    rfl

theorem getLast?_split_eq_nil {sep : Char} {cs : List Char} (h : (split sep cs).getLast? = some []) :
    cs = [] ∨ cs.getLast? = some sep := by
  induction cs with
  | nil => exact .inl rfl
  | cons c cs ih =>
    right
    rw [split] at h
    have ne := split_ne_nil sep cs
    cases hs : split sep cs with
    | nil => exact absurd hs ne
    | cons l ls =>
      rw [hs] at h ih
      split at h
      · next same =>
        rw [List.getLast?_cons_cons] at h
        rcases ih h with rfl | last
        · rw [same]; rfl
        · rw [List.getLast?_cons, last]; rfl
      · cases ls with
        | nil => simp at h
        | cons m ms =>
          simp only [List.getLast?_cons_cons] at h ih
          rcases ih h with rfl | last
          · simp [split] at hs
          · rw [List.getLast?_cons, last]; rfl

theorem split_of_not_mem {sep : Char} {cs : List Char} (h : sep ∉ cs) : split sep cs = [cs] := by
  induction cs with
  | nil => rfl
  | cons c cs ih =>
    rw [List.mem_cons, not_or] at h
    rw [split, if_neg (Ne.symm h.1), ih h.2]

theorem split_append {sep : Char} {cs : List Char} (h : sep ∉ cs) (rest : List Char) :
    split sep (cs ++ sep :: rest) = cs :: split sep rest := by
  induction cs with
  | nil => simp [split]
  | cons c cs ih =>
    rw [List.mem_cons, not_or] at h
    rw [List.cons_append, split, if_neg (Ne.symm h.1), ih h.2]

theorem split_append_sep (sep : Char) (cs rest : List Char) :
    split sep (cs ++ sep :: rest) = split sep cs ++ split sep rest := by
  induction cs with
  | nil => simp [split]
  | cons c cs ih =>
    rw [List.cons_append, split, split, ih]
    split
    · rfl
    · cases pieces : split sep cs with
      | nil => exact absurd pieces (split_ne_nil sep cs)
      | cons piece pieces => rfl

theorem not_mem_of_mem_split {sep : Char} {piece cs : List Char} (mem : piece ∈ split sep cs) :
    sep ∉ piece := by
  induction cs generalizing piece with
  | nil =>
    obtain rfl := List.mem_singleton.mp mem
    exact List.not_mem_nil
  | cons c cs ih =>
    rw [split] at mem
    split at mem
    · rcases List.mem_cons.mp mem with rfl | mem
      · exact List.not_mem_nil
      · exact ih mem
    · next other =>
      cases pieces : split sep cs with
      | nil => exact absurd pieces (split_ne_nil sep cs)
      | cons first rest =>
        rw [pieces] at mem ih
        rcases List.mem_cons.mp mem with rfl | mem
        · rw [List.mem_cons, not_or]
          exact ⟨Ne.symm other, ih List.mem_cons_self⟩
        · exact ih (List.mem_cons_of_mem first mem)

theorem split_join {sep : Char} {pieces : List (List Char)} (ne : pieces ≠ [])
    (absent : ∀ piece ∈ pieces, sep ∉ piece) : split sep (join sep pieces) = pieces := by
  induction pieces with
  | nil => exact absurd rfl ne
  | cons piece rest ih =>
    have here := absent piece List.mem_cons_self
    cases rest with
    | nil => exact split_of_not_mem here
    | cons next rest =>
      have later := ih (by simp) fun other mem => absent other (List.mem_cons_of_mem piece mem)
      rw [join_cons (by simp), split_append here, later]

/-- The pieces of a text between its line feeds. -/
abbrev splitLines (cs : List Char) : List (List Char) := split '\n' cs

abbrev joinLines (ls : List (List Char)) : List Char := join '\n' ls

end VueOptions.Text
