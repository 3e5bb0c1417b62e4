/-!
Byte offsets. Positions in a text count the bytes of its UTF-8 form; a slice is cut from the list of
characters. A `Place` is an offset together with the text after it, and comes with the proof that it
cuts its text between two characters. Main statements: cutting at an offset loses nothing
(`takeBytes_append_dropBytes`), and the slice between two places is what stands between them
(`slice_between`).
-/

set_option autoImplicit false

namespace VueOptions.Text

/-- The number of bytes that the characters take in UTF-8. -/
def byteLength : List Char → Nat
  | [] => 0
  | c :: cs => c.utf8Size + byteLength cs

/-- The text from the first character that starts at or after an offset. -/
def dropBytes : Nat → List Char → List Char
  | _, [] => []
  | n, c :: cs => if n = 0 then c :: cs else dropBytes (n - c.utf8Size) cs

def takeBytes : Nat → List Char → List Char
  | _, [] => []
  | n, c :: cs => if n = 0 then [] else c :: takeBytes (n - c.utf8Size) cs

def slice (cs : List Char) (start stop : Nat) : List Char :=
  takeBytes (stop - start) (dropBytes start cs)

def charAt? : Nat → List Char → Option Char
  | _, [] => none
  | n, c :: cs =>
    if n = 0 then some c else if n < c.utf8Size then none else charAt? (n - c.utf8Size) cs

@[simp] theorem byteLength_nil : byteLength [] = 0 := rfl

@[simp] theorem byteLength_cons (c : Char) (cs : List Char) :
    byteLength (c :: cs) = c.utf8Size + byteLength cs := rfl

@[simp] theorem byteLength_append (xs ys : List Char) :
    byteLength (xs ++ ys) = byteLength xs + byteLength ys := by
  induction xs with
  | nil => simp
  | cons c cs ih => simp [ih, Nat.add_assoc]

theorem byteLength_pos {cs : List Char} (ne : cs ≠ []) : 0 < byteLength cs := by
  cases cs with
  | nil => exact absurd rfl ne
  | cons c cs => exact Nat.lt_of_lt_of_le c.utf8Size_pos (Nat.le_add_right _ _)

theorem takeBytes_append_dropBytes (n : Nat) (cs : List Char) :
    takeBytes n cs ++ dropBytes n cs = cs := by
  induction cs generalizing n with
  | nil => rfl
  | cons c cs ih => by_cases h : n = 0 <;> simp [takeBytes, dropBytes, h, ih]

theorem dropBytes_byteLength (xs ys : List Char) : dropBytes (byteLength xs) (xs ++ ys) = ys := by
  induction xs with
  | nil => cases ys <;> simp [dropBytes]
  | cons c cs ih =>
    have h := c.utf8Size_pos
    have hne : ¬(c.utf8Size + byteLength cs = 0) := by omega
    rw [byteLength_cons, List.cons_append, dropBytes, if_neg hne, Nat.add_sub_cancel_left, ih]

theorem takeBytes_byteLength (xs ys : List Char) : takeBytes (byteLength xs) (xs ++ ys) = xs := by
  induction xs with
  | nil => cases ys <;> simp [takeBytes]
  | cons c cs ih =>
    have h := c.utf8Size_pos
    have hne : ¬(c.utf8Size + byteLength cs = 0) := by omega
    rw [byteLength_cons, List.cons_append, takeBytes, if_neg hne, Nat.add_sub_cancel_left, ih]

theorem slice_between (xs ys zs : List Char) :
    slice (xs ++ (ys ++ zs)) (byteLength xs) (byteLength (xs ++ ys)) = ys := by
  rw [slice, dropBytes_byteLength, byteLength_append, Nat.add_sub_cancel_left, takeBytes_byteLength]

theorem takeBytes_zero (cs : List Char) : takeBytes 0 cs = [] := by
  cases cs <;> simp [takeBytes]

theorem takeBytes_of_le {n : Nat} {cs : List Char} (le : byteLength cs ≤ n) : takeBytes n cs = cs := by
  induction cs generalizing n with
  | nil => rfl
  | cons c cs ih =>
    have size := c.utf8Size_pos
    rw [byteLength_cons] at le
    rw [takeBytes, if_neg (by omega), ih (by omega)]

theorem takeBytes_append (n : Nat) (xs ys : List Char) :
    takeBytes n (xs ++ ys) = takeBytes n xs ++ takeBytes (n - byteLength xs) ys := by
  induction xs generalizing n with
  | nil => simp [takeBytes]
  | cons c xs ih =>
    by_cases h : n = 0
    · simp [takeBytes, takeBytes_zero, h]
    · simp [takeBytes, h, ih, Nat.sub_sub]

theorem dropBytes_append (n : Nat) (xs ys : List Char) :
    dropBytes n (xs ++ ys) = dropBytes n xs ++ dropBytes (n - byteLength xs) ys := by
  induction xs generalizing n with
  | nil => simp [dropBytes]
  | cons c xs ih =>
    by_cases h : n = 0
    · cases ys <;> simp [dropBytes, h]
    · simp [dropBytes, h, ih, Nat.sub_sub]

theorem byteLength_dropBytes_le (n : Nat) (cs : List Char) :
    byteLength (dropBytes n cs) ≤ byteLength cs - n := by
  induction cs generalizing n with
  | nil => simp [dropBytes]
  | cons c cs ih =>
    by_cases h : n = 0
    · simp [dropBytes, h]
    · have rest := ih (n - c.utf8Size)
      have size := c.utf8Size_pos
      simp only [dropBytes, h, if_false, byteLength_cons]
      omega

theorem takeBytes_isPrefix {n m : Nat} (le : n ≤ m) (cs : List Char) :
    takeBytes n cs <+: takeBytes m cs := by
  induction cs generalizing n m with
  | nil => exact List.prefix_refl _
  | cons c cs ih =>
    by_cases h : n = 0
    · rw [h, takeBytes_zero]
      exact List.nil_prefix
    · have h' : ¬m = 0 := by omega
      rw [takeBytes, takeBytes, if_neg h, if_neg h']
      exact List.prefix_cons_inj c |>.mpr (ih (by omega))

theorem slice_append {stop : Nat} {xs : List Char} (le : byteLength xs ≤ stop) (ys : List Char) :
    slice (xs ++ ys) 0 stop = xs ++ slice ys 0 (stop - byteLength xs) := by
  have all (cs : List Char) : dropBytes 0 cs = cs := by cases cs <;> simp [dropBytes]
  rw [slice, slice, all, all, takeBytes_append, Nat.sub_zero, Nat.sub_zero, takeBytes_of_le le]

structure Place (text : List Char) where
  offset : Nat
  after : List Char
  cuts : ∃ before, before ++ after = text ∧ byteLength before = offset

namespace Place

variable {text : List Char}

def first (text : List Char) : Place text := ⟨0, text, [], rfl, rfl⟩

def past (p : Place text) (bytes : Nat) (rest : List Char)
    (taken : ∃ cs, cs ++ rest = p.after ∧ byteLength cs = bytes) : Place text where
  offset := p.offset + bytes
  after := rest
  cuts := by
    obtain ⟨before, whole, hoffset⟩ := p.cuts
    obtain ⟨cs, hcs, rfl⟩ := taken
    exact ⟨before ++ cs, by rw [List.append_assoc, hcs, whole], by rw [byteLength_append, hoffset]⟩

end Place

def EndsInLine (text : List Char) (offset : Nat) : Prop :=
  ∃ before after, before ++ after = text ∧ byteLength before = offset ∧ before.getLast? ≠ some '\n'

theorem endsInLine_zero (text : List Char) : EndsInLine text 0 :=
  ⟨[], text, rfl, rfl, by simp⟩

private theorem getLast?_append_of_ne {xs ys : List Char} (ne : ys ≠ []) :
    (xs ++ ys).getLast? = ys.getLast? := by
  rw [List.getLast?_append, List.getLast?_eq_some_getLast ne, Option.some_or]

theorem Place.endsInLine_past {text cs rest : List Char} (p : Place text) (taken : cs ++ rest = p.after)
    (ne : cs ≠ []) (inLine : cs.getLast? ≠ some '\n') : EndsInLine text (p.offset + byteLength cs) := by
  obtain ⟨before, whole, hoffset⟩ := p.cuts
  refine ⟨before ++ cs, rest, by rw [List.append_assoc, taken, whole],
    by rw [byteLength_append, hoffset], ?_⟩
  rwa [getLast?_append_of_ne ne]

theorem Place.slice_inLine {text : List Char} {stop : Nat} (p : Place text)
    (ends : EndsInLine text stop) (lt : p.offset < stop) :
    slice text p.offset stop ≠ [] ∧ (slice text p.offset stop).getLast? ≠ some '\n' := by
  obtain ⟨before, whole, hoffset⟩ := p.cuts
  obtain ⟨before', after', whole', rfl, inLine⟩ := ends
  rcases List.append_eq_append_iff.mp (whole.trans whole'.symm) with ⟨cs, rfl, hafter⟩ | ⟨cs, rfl, -⟩
  · have ne : cs ≠ [] := by
      rintro rfl
      rw [List.append_nil] at lt
      omega
    rw [getLast?_append_of_ne ne] at inLine
    have between : slice text p.offset (byteLength (before ++ cs)) = cs := by
      rw [← hoffset, ← whole', List.append_assoc, slice_between]
    rw [between]
    exact ⟨ne, inLine⟩
  · rw [byteLength_append] at hoffset
    omega

end VueOptions.Text
