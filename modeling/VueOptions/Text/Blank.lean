/-!
Blank characters and trimming. A character is blank when it has the white space property; trimming
works on the character list, so that nothing but blanks at the ends is lost. What is read without a
blank is cut off in front of a text (`CutSolid`).
-/

set_option autoImplicit false

namespace VueOptions.Text

def isBlank (c : Char) : Bool :=
  let n := c.toNat
  (9 ≤ n && n ≤ 13) || n == 32 || n == 0x85 || n == 0xa0 || n == 0x1680
    || (0x2000 ≤ n && n ≤ 0x200a) || n == 0x2028 || n == 0x2029 || n == 0x202f
    || n == 0x205f || n == 0x3000

def dropEndWhile {α : Type} (p : α → Bool) (xs : List α) : List α := (xs.reverse.dropWhile p).reverse

theorem dropEndWhile_spec {α : Type} (p : α → Bool) (xs : List α) :
    ∃ ends, dropEndWhile p xs ++ ends = xs ∧ (∀ x ∈ ends, p x = true) ∧
      ∀ x ∈ (dropEndWhile p xs).getLast?, p x = false := by
  refine ⟨(xs.reverse.takeWhile p).reverse, ?_, ?_, ?_⟩
  · rw [dropEndWhile, ← List.reverse_append, List.takeWhile_append_dropWhile, List.reverse_reverse]
  · intro x mem
    exact List.all_eq_true.mp List.all_takeWhile x (List.mem_reverse.mp mem)
  · intro x last
    rw [dropEndWhile, List.getLast?_reverse] at last
    have first := List.head?_dropWhile_not p xs.reverse
    rw [Option.mem_def.mp last] at first
    simpa using first

theorem dropEndWhile_of_all {α : Type} {p : α → Bool} {xs : List α} (all : ∀ x ∈ xs, p x = true) :
    dropEndWhile p xs = [] := by
  rw [dropEndWhile, List.reverse_eq_nil_iff, ← List.append_nil xs.reverse,
    List.dropWhile_append_of_pos fun x mem => all x (List.mem_reverse.mp mem), List.dropWhile_nil]

theorem dropEndWhile_append {α : Type} {p : α → Bool} {front : List α}
    (last : ∀ x ∈ front.getLast?, p x = false) (back : List α) :
    dropEndWhile p (front ++ back) = front ++ dropEndWhile p back := by
  have stays : front.reverse.dropWhile p = front.reverse := by
    rw [← List.head?_reverse] at last
    cases turned : front.reverse with
    | nil => rfl
    | cons x xs =>
      rw [turned] at last
      exact List.dropWhile_cons_of_neg (by simp [last x rfl])
  rw [dropEndWhile, dropEndWhile, List.reverse_append, List.dropWhile_append, stays]
  split
  · next none => simp [List.isEmpty_iff.mp none]
  · simp

theorem dropEndWhile_eq_self {α : Type} {p : α → Bool} {xs : List α} (last : ∀ x ∈ xs.getLast?, p x = false) :
    dropEndWhile p xs = xs := by
  have whole := dropEndWhile_append last []
  have nothing : dropEndWhile p [] = [] := rfl
  rwa [nothing, List.append_nil] at whole

def trimStart (cs : List Char) : List Char := cs.dropWhile isBlank

def trimEnd (cs : List Char) : List Char := dropEndWhile isBlank cs

/-- The text without the blanks at both ends. -/
def trim (cs : List Char) : List Char := trimEnd (trimStart cs)

def isIndent (c : Char) : Bool := c = ' ' || c = '\t'

def blanks : List Char :=
  [9, 10, 11, 12, 13, 32, 0x85, 0xa0, 0x1680, 0x2000, 0x2001, 0x2002, 0x2003, 0x2004, 0x2005, 0x2006,
    0x2007, 0x2008, 0x2009, 0x200a, 0x2028, 0x2029, 0x202f, 0x205f, 0x3000].map Char.ofNat

theorem mem_blanks_of_isBlank {c : Char} (h : isBlank c = true) : c ∈ blanks := by
  refine List.mem_map.mpr ⟨c.toNat, ?_, Char.ofNat_toNat c⟩
  simp only [isBlank, Bool.or_eq_true, Bool.and_eq_true, decide_eq_true_eq, beq_iff_eq] at h
  simp only [List.mem_cons, List.not_mem_nil, or_false]
  omega

def Solid (p : Char → Bool) : Prop := ∀ c, isBlank c = true → p c = false

theorem solid_of_blanks {p : Char → Bool} (h : blanks.any p = false) : Solid p :=
  fun c blank => by simpa using List.any_eq_false.mp h c (mem_blanks_of_isBlank blank)

theorem Solid.isBlank_eq_false {p : Char → Bool} (solid : Solid p) {c : Char} (h : p c = true) :
    isBlank c = false := by
  cases blank : isBlank c with
  | false => rfl
  | true => exact absurd (solid c blank) (by simp [h])

theorem isBlank_of_isIndent {c : Char} (h : isIndent c = true) : isBlank c = true := by
  simp only [isIndent, Bool.or_eq_true, decide_eq_true_eq] at h
  rcases h with rfl | rfl <;> decide

/-- A text cut in two, with no blank in the first part. -/
structure CutSolid (taken rest cs : List Char) : Prop where
  whole : taken ++ rest = cs
  solid : ∀ c ∈ taken, isBlank c = false

namespace CutSolid

variable {taken taken' rest rest' cs : List Char} {c : Char}

theorem nil (cs : List Char) : CutSolid [] cs cs := ⟨rfl, by simp⟩

theorem cons (solid : isBlank c = false) (h : CutSolid taken rest cs) :
    CutSolid (c :: taken) rest (c :: cs) :=
  ⟨by rw [List.cons_append, h.whole], List.forall_mem_cons.mpr ⟨solid, h.solid⟩⟩

theorem append (first : CutSolid taken rest cs) (second : CutSolid taken' rest' rest) :
    CutSolid (taken ++ taken') rest' cs :=
  ⟨by rw [List.append_assoc, second.whole, first.whole],
    List.forall_mem_append.mpr ⟨first.solid, second.solid⟩⟩

theorem takeWhile {p : Char → Bool} (solid : Solid p) (cs : List Char) :
    CutSolid (cs.takeWhile p) (cs.dropWhile p) cs :=
  ⟨List.takeWhile_append_dropWhile, fun _ mem =>
    solid.isBlank_eq_false (List.all_eq_true.mp List.all_takeWhile _ mem)⟩

theorem feed_not_mem (h : CutSolid taken rest cs) : '\n' ∉ taken :=
  fun mem => absurd (h.solid _ mem) (by decide)

theorem getLast?_solid (h : CutSolid taken rest cs) : ∀ c ∈ taken.getLast?, isBlank c = false :=
  fun c last => h.solid c (List.mem_of_getLast? last)

end CutSolid

end VueOptions.Text
