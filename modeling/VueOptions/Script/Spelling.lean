import VueOptions.Script.Literal

/-!
Words and numerals on their own. A name without escapes is read off the front of every text that does not
go on with it, and so is a number; what a reading of a name stands for is such a word, and what is scanned
as a number is such a numeral. So a word or a numeral can be moved to another place in another text.
-/

set_option autoImplicit false

namespace VueOptions.Script

open Text

namespace Name

def IsWord : List Char → Prop
  | [] => False
  | c :: cs => isStart c = true ∧ ∀ d ∈ cs, isPart d = true

instance decidableIsWord (cs : List Char) : Decidable (IsWord cs) :=
  match cs with
  | [] => inferInstanceAs (Decidable False)
  | c :: cs => decidable_of_iff ((isStart c && cs.all isPart) = true) (by simp [IsWord])

structure Word where
  text : String
  isWord : IsWord text.toList
  deriving DecidableEq, Repr

instance : Coe Word String := ⟨Word.text⟩

def EndsName (rest : List Char) : Prop := ∀ c ∈ rest.head?, isPart c = false ∧ c ≠ '\\'

theorem read_part {cs rest : List Char} (parts : ∀ c ∈ cs, isPart c = true) (ends : EndsName rest) :
    read .plain false (cs ++ rest) = some ⟨cs, cs, rest, false⟩ := by
  induction cs with
  | nil =>
    cases rest with
    | nil => rfl
    | cons d rest =>
      obtain ⟨stops, plain⟩ := ends d rfl
      simp [read, stops, plain]
  | cons c cs ih =>
    have tail := ih fun d mem => parts d (List.mem_cons_of_mem c mem)
    have first := parts c List.mem_cons_self
    simp [read, first, tail, Reading.push]

theorem read_word {w rest : List Char} (word : IsWord w) (ends : EndsName rest) :
    read .plain true (w ++ rest) = some ⟨w, w, rest, false⟩ := by
  cases w with
  | nil => cases word
  | cons c cs =>
    have tail := read_part word.2 ends
    simp [read, word.1, tail, Reading.push]

/-- Whether a name may go on with a character, at its front or behind. -/
def admits (isFirst : Bool) (c : Char) : Bool := if isFirst then isStart c else isPart c

def Decoded (isFirst : Bool) : List Char → Prop
  | [] => True
  | c :: cs => admits isFirst c = true ∧ ∀ d ∈ cs, isPart d = true

theorem Decoded.isPart {cs : List Char} (decoded : Decoded false cs) : ∀ d ∈ cs, isPart d = true := by
  cases cs with
  | nil => simp
  | cons c cs => exact List.forall_mem_cons.mpr decoded

private theorem decoded_of_map {found : Option Reading} {f : Reading → Reading} {r : Reading}
    {isFirst : Bool} (h : found.map f = some r) (same : ∀ s, (f s).decoded = s.decoded)
    (ih : ∀ {s}, found = some s → Decoded isFirst s.decoded) : Decoded isFirst r.decoded := by
  obtain ⟨s, hs, rfl⟩ := Option.map_eq_some_iff.mp h
  rw [same]
  exact ih hs

private theorem decoded_of_map_cons {found : Option Reading} {f : Reading → Reading} {r : Reading} {c : Char}
    {isFirst : Bool} (h : found.map f = some r) (admitted : admits isFirst c = true)
    (puts : ∀ s, (f s).decoded = c :: s.decoded) (ih : ∀ {s}, found = some s → Decoded false s.decoded) :
    Decoded isFirst r.decoded := by
  obtain ⟨s, hs, rfl⟩ := Option.map_eq_some_iff.mp h
  rw [puts]
  exact ⟨admitted, (ih hs).isPart⟩

theorem admits_of_escapeValue? {isFirst : Bool} {value : Nat} {e : Char}
    (h : escapeValue? isFirst value = some e) : admits isFirst e = true := by
  obtain ⟨c, -, found⟩ := Option.bind_eq_some_iff.mp h
  change (if admits isFirst c = true then some c else none) = some e at found
  by_cases admitted : admits isFirst c = true
  · rw [if_pos admitted] at found
    obtain rfl := Option.some.inj found
    exact admitted
  · rw [if_neg admitted] at found
    cases found

theorem decoded_of_read {mode : Mode} {isFirst : Bool} {cs : List Char} {r : Reading}
    (h : read mode isFirst cs = some r) : Decoded isFirst r.decoded := by
  fun_induction read mode isFirst cs generalizing r with
  | case1 | case4 => cases h; trivial
  | case6 | case9 | case10 | case12 | case15 | case17 | case18 => cases h
  | case2 isFirst c cs part ih => exact decoded_of_map_cons h part (fun _ => rfl) ih
  | case3 isFirst cs _ ih => exact decoded_of_map h (fun _ => rfl) ih
  | case5 isFirst cs ih => exact decoded_of_map h (fun _ => rfl) ih
  | case7 isFirst cs ih => exact decoded_of_map h (fun _ => rfl) ih
  | case8 isFirst c cs _ v digit ih => exact decoded_of_map h (fun _ => rfl) ih
  | case11 value isFirst c cs v digit e found ih =>
    exact decoded_of_map_cons h (admits_of_escapeValue? found) (fun _ => rfl) ih
  | case13 left value isFirst c cs v digit _ ih => exact decoded_of_map h (fun _ => rfl) ih
  | case14 value isFirst cs e found ih =>
    exact decoded_of_map_cons h (admits_of_escapeValue? found) (fun _ => rfl) ih
  | case16 value isFirst c cs _ v digit ih => exact decoded_of_map h (fun _ => rfl) ih

theorem isWord_of_read {cs : List Char} {r : Reading} (h : read .plain true cs = some r)
    (ne : r.decoded ≠ []) : IsWord r.decoded := by
  have decoded := decoded_of_read h
  cases chars : r.decoded with
  | nil => exact absurd chars ne
  | cons c cs =>
    rw [chars] at decoded
    exact decoded

end Name

namespace Literal

def EndsNumber (rest : List Char) : Prop :=
  ∀ c ∈ rest.head?, c.isDigit = false ∧ Name.isStart c = false ∧ c ≠ '.' ∧ c ≠ '\\'

/-- A text with neither a digit nor a low line at its front. -/
def EndsDigits (rest : List Char) : Prop := ∀ c ∈ rest.head?, isDigitOrLow c = false

theorem EndsNumber.ne_letter {rest : List Char} (ends : EndsNumber rest) {c : Char} (head : c ∈ rest.head?)
    (letter : Char) (start : Name.isStart letter = true) : c ≠ letter := by
  rintro rfl
  have := (ends _ head).2.1
  rw [start] at this
  cases this

theorem EndsNumber.endsDigits {rest : List Char} (ends : EndsNumber rest) : EndsDigits rest := by
  intro c head
  have low : c ≠ '_' := ends.ne_letter head _ (by decide)
  simp [isDigitOrLow, (ends c head).1, low]

def EndsWhole (rest : List Char) : Prop :=
  ∀ c ∈ rest.head?, isDigitOrLow c = false ∧ (c ∈ ['.', 'e', 'E'] ∨ Name.isStart c = false)

theorem EndsNumber.endsWhole {rest : List Char} (ends : EndsNumber rest) : EndsWhole rest :=
  fun c head => ⟨ends.endsDigits c head, .inr (ends c head).2.1⟩

theorem EndsWhole.ne_letter {rest : List Char} (ends : EndsWhole rest) {c : Char} (head : c ∈ rest.head?)
    (letter : Char) (start : Name.isStart letter = true) (other : letter ∉ ['.', 'e', 'E']) : c ≠ letter := by
  rintro rfl
  rcases (ends c head).2 with mem | stop
  · exact other mem
  · rw [start] at stop
    cases stop

theorem EndsWhole.not_isDigit {rest : List Char} (ends : EndsWhole rest) {c : Char} (head : c ∈ rest.head?) :
    c.isDigit = false := by
  have part := (ends c head).1
  simp only [isDigitOrLow, Bool.or_eq_false_iff] at part
  exact part.1

theorem takeWhile_digits {p : Char → Bool} {digits : List Char} (all : ∀ c ∈ digits, p c = true)
    (rest : List Char) (stops : ∀ c ∈ rest.head?, p c = false) :
    (digits ++ rest).takeWhile p = digits ∧ (digits ++ rest).dropWhile p = rest := by
  have tail : rest.takeWhile p = [] ∧ rest.dropWhile p = rest := by
    cases rest with
    | nil => exact ⟨rfl, rfl⟩
    | cons c rest =>
      have stop := stops c rfl
      simp [stop]
  rw [List.takeWhile_append_of_pos all, List.dropWhile_append_of_pos all, tail.1, tail.2, List.append_nil]
  exact ⟨rfl, rfl⟩

theorem all_takeWhile (p : Char → Bool) (cs : List Char) : ∀ c ∈ cs.takeWhile p, p c = true :=
  List.all_eq_true.mp List.all_takeWhile

theorem head_of_digitsValid {digits : List Char} {isDigit : Char → Bool}
    (valid : digitsValid digits isDigit = true) : ∃ d ds, digits = d :: ds ∧ isDigit d = true := by
  cases digits with
  | nil => cases valid
  | cons d ds =>
    simp only [digitsValid, Bool.and_eq_true] at valid
    exact ⟨d, ds, rfl, valid.1⟩

variable {cs rest : List Char} {r : List Char × List Char}

private theorem scanExponent_signed {e : Char} {sign digits : List Char} (exponent : (e = 'e' || e = 'E') = true)
    (signs : sign = ['+'] ∨ sign = ['-'] ∨ sign = []) (all : ∀ c ∈ digits, isDigitOrLow c = true)
    (valid : digitsValid digits Char.isDigit = true) (ends : EndsDigits rest) :
    scanExponent (e :: sign ++ digits ++ rest) = some (e :: sign ++ digits, rest) := by
  obtain ⟨d, ds, rfl, digit⟩ := head_of_digitsValid valid
  have taken := takeWhile_digits all _ ends
  have plus : ∀ more, d :: ds ++ rest = '+' :: more → False := by
    rintro _ ⟨⟩
    cases digit
  have minus : ∀ more, d :: ds ++ rest = '-' :: more → False := by
    rintro _ ⟨⟩
    cases digit
  unfold scanExponent
  rcases signs with rfl | rfl | rfl
  · simp only [List.cons_append, List.nil_append, if_pos exponent] at taken ⊢
    simp only [taken, valid, if_true]
  · simp only [List.cons_append, List.nil_append, if_pos exponent] at taken ⊢
    simp only [taken, valid, if_true]
  · simp only [List.nil_append, List.cons_append, if_pos exponent] at taken plus minus ⊢
    simp only [taken, valid, if_true]

theorem scanExponent_append (h : scanExponent cs = some r) (ends : EndsNumber rest) :
    scanExponent (r.1 ++ rest) = some (r.1, rest) ∧ EndsWhole (r.1 ++ rest) ∧
      ∀ c ∈ (r.1 ++ rest).head?, c ≠ '.' := by
  have none : scanExponent rest = some ([], rest) := by
    cases rest with
    | nil => rfl
    | cons c rest =>
      have small : c ≠ 'e' := ends.ne_letter rfl _ (by decide)
      have large : c ≠ 'E' := ends.ne_letter rfl _ (by decide)
      simp [scanExponent, small, large]
  have bare : EndsWhole rest ∧ ∀ c ∈ rest.head?, c ≠ '.' :=
    ⟨ends.endsWhole, fun c head => (ends c head).2.2.1⟩
  unfold scanExponent at h
  split at h
  · cases h
    exact ⟨none, bare⟩
  · next e tail =>
    split at h
    · next exponent =>
      split at h
      next sign after signed =>
      dsimp only at h
      split at h
      · next valid =>
        cases h
        have signs : sign = ['+'] ∨ sign = ['-'] ∨ sign = [] := by
          split at signed <;> cases signed <;> simp
        have letter : e = 'e' ∨ e = 'E' := by simpa using exponent
        refine ⟨scanExponent_signed exponent signs (all_takeWhile isDigitOrLow after) valid ends.endsDigits, ?_, ?_⟩
        · rcases letter with rfl | rfl <;> rintro _ ⟨⟩ <;> decide
        · rcases letter with rfl | rfl <;> rintro _ ⟨⟩ <;> decide
      · cases h
    · cases h
      exact ⟨none, bare⟩

theorem scanFraction_append (h : scanFraction cs = some r) (ends : EndsNumber rest) :
    scanFraction (r.1 ++ rest) = some (r.1, rest) ∧ EndsWhole (r.1 ++ rest) := by
  unfold scanFraction at h
  split at h
  · next tail =>
    dsimp only at h
    split at h
    · next valid =>
      obtain ⟨s, exponent, rfl⟩ := Option.map_eq_some_iff.mp h
      obtain ⟨again, whole, -⟩ := scanExponent_append exponent ends
      have taken := takeWhile_digits (all_takeWhile isDigitOrLow tail) _ fun c head => (whole c head).1
      refine ⟨?_, ?_⟩
      · simp only [List.cons_append, List.append_assoc, scanFraction, taken, valid, if_true, again, Option.map_some]
      · rintro _ ⟨⟩
        exact ⟨by decide, .inl (by simp)⟩
    · cases h
  · obtain ⟨again, whole, noDot⟩ := scanExponent_append h ends
    refine ⟨?_, whole⟩
    unfold scanFraction
    split
    · next tail eq => exact absurd rfl (noDot '.' (by rw [eq]; rfl))
    · exact again

theorem scanRadix_append {isDigit : Char → Bool} {lead : List Char} (h : scanRadix isDigit lead cs = some r)
    (stops : ∀ c ∈ rest.head?, isDigit c = false) (ends : EndsNumber rest) :
    ∃ body, r.1 = lead ++ body ∧ scanRadix isDigit lead (body ++ rest) = some (r.1, rest) := by
  simp only [scanRadix] at h
  split at h
  · next valid =>
    have low : ∀ c ∈ rest.head?, (isDigit c || c = '_') = false := by
      intro c head
      have ne : c ≠ '_' := ends.ne_letter head _ (by decide)
      simp [stops c head, ne]
    have all := all_takeWhile (fun c => isDigit c || c = '_') cs
    split at h
    · next after big =>
      cases h
      have letter : (isDigit 'n' || 'n' = '_') = false := by
        have head := List.head?_dropWhile_not (fun c => isDigit c || c = '_') cs
        rw [big] at head
        simpa using head
      have taken := takeWhile_digits all ('n' :: rest) (by rintro _ ⟨⟩; exact letter)
      refine ⟨_ ++ ['n'], List.append_assoc _ _ _, ?_⟩
      simp only [scanRadix, List.append_assoc, List.cons_append, List.nil_append, taken, valid, if_true]
    · next small =>
      cases h
      have taken := takeWhile_digits all _ low
      refine ⟨_, rfl, ?_⟩
      simp only [scanRadix, taken, valid, if_true]
      split
      · exact absurd rfl (ends.ne_letter rfl 'n' (by decide))
      · rfl
  · cases h

private theorem scanNumberBody_zero {fraction : List Char} (whole : EndsWhole (fraction ++ rest))
    (again : scanFraction (fraction ++ rest) = some (fraction, rest)) :
    scanNumberBody ('0' :: (fraction ++ rest)) = some ('0' :: fraction, rest) := by
  cases shape : fraction ++ rest with
  | nil =>
    obtain ⟨rfl, rfl⟩ := List.append_eq_nil_iff.mp shape
    rfl
  | cons c tail =>
    rw [shape] at whole again
    have other (letter : Char) (start : Name.isStart letter = true) (apart : letter ∉ ['.', 'e', 'E']) :
        c ≠ letter := whole.ne_letter rfl letter start apart
    have digit : c.isDigit = false := whole.not_isDigit rfl
    simp [scanNumberBody, other 'x' (by decide) (by decide), other 'X' (by decide) (by decide),
      other 'o' (by decide) (by decide), other 'O' (by decide) (by decide),
      other 'b' (by decide) (by decide), other 'B' (by decide) (by decide),
      other 'n' (by decide) (by decide), digit, again]

private theorem stops_hex {c : Char} (digit : c.isDigit = false) (start : Name.isStart c = false) :
    (Name.hexValue? c).isSome = false := by
  have alpha {low high : Char} (range : (low ≤ c && c ≤ high) = true) (upper : high.toNat < 0x80)
      (letter : low ≤ c ∧ c ≤ high → c.isAlpha = true) : False := by
    simp only [Bool.and_eq_true, decide_eq_true_eq] at range
    have ascii : c.toNat < 0x80 := Nat.lt_of_le_of_lt (UInt32.le_iff_toNat_le.mp range.2) upper
    rw [Name.isStart, if_pos ascii, letter range] at start
    cases start
  have small : ('a' ≤ c && c ≤ 'f') = false := by
    refine Bool.eq_false_iff.mpr fun range => alpha range (by decide) fun bounds => ?_
    have lower : c.isLower = true := Bool.and_eq_true_iff.mpr
      ⟨decide_eq_true bounds.1, decide_eq_true (UInt32.le_trans bounds.2 (by decide))⟩
    exact Bool.or_eq_true_iff.mpr (.inr lower)
  have large : ('A' ≤ c && c ≤ 'F') = false := by
    refine Bool.eq_false_iff.mpr fun range => alpha range (by decide) fun bounds => ?_
    have upper : c.isUpper = true := decide_eq_true ⟨bounds.1, UInt32.le_trans bounds.2 (by decide)⟩
    exact Bool.or_eq_true_iff.mpr (.inl upper)
  simp [Name.hexValue?, digit, small, large]

private theorem stops_octal {c : Char} (digit : c.isDigit = false) : isOctal c = false := by
  cases octal : isOctal c with
  | false => rfl
  | true =>
    simp only [isOctal, Bool.and_eq_true, decide_eq_true_eq] at octal
    have digit' : c.isDigit = true := by
      simp only [Char.isDigit, Bool.and_eq_true, decide_eq_true_eq]
      exact ⟨octal.1, UInt32.le_trans octal.2 (by decide)⟩
    rw [digit] at digit'
    cases digit'

private theorem stops_binary {c : Char} (digit : c.isDigit = false) : (c = '0' || c = '1') = false := by
  have zero : c ≠ '0' := by rintro rfl; cases digit
  have one : c ≠ '1' := by rintro rfl; cases digit
  simp [zero, one]

private theorem scanNumberBody_decimal {d : Char} (ds : List Char) (zero : d ≠ '0') (dot : d ≠ '.') :
    scanNumberBody (d :: ds) =
      if digitsValid ((d :: ds).takeWhile isDigitOrLow) Char.isDigit then
        match (d :: ds).dropWhile isDigitOrLow with
        | 'n' :: r => some ((d :: ds).takeWhile isDigitOrLow ++ ['n'], r)
        | _ => (scanFraction ((d :: ds).dropWhile isDigitOrLow)).map fun r =>
          ((d :: ds).takeWhile isDigitOrLow ++ r.1, r.2)
      else none := by
  unfold scanNumberBody
  split
  · next same => exact absurd (List.cons.inj same).1 zero
  · next same => exact absurd (List.cons.inj same).1 dot
  · rfl

private theorem scanNumberBody_decimal_append {d : Char} {ds : List Char} (zero : d ≠ '0') (dot : d ≠ '.')
    (h : scanNumberBody (d :: ds) = some r) (ends : EndsNumber rest) :
    scanNumberBody (r.1 ++ rest) = some (r.1, rest) := by
  rw [scanNumberBody_decimal ds zero dot] at h
  have all := all_takeWhile isDigitOrLow (d :: ds)
  split at h
  · next valid =>
    obtain ⟨e, es, shape, -⟩ := head_of_digitsValid valid
    have first : e = d := by
      have same := List.takeWhile_append_dropWhile (p := isDigitOrLow) (l := d :: ds)
      rw [shape] at same
      exact (List.cons.inj same).1
    subst first
    have arm (more : List Char) := scanNumberBody_decimal (es ++ more) zero dot
    rw [shape] at h all valid
    split at h
    · next after big =>
      cases h
      have taken := takeWhile_digits all ('n' :: rest) (by rintro _ ⟨⟩; decide)
      rw [List.cons_append] at taken
      rw [List.append_assoc]
      refine (arm ('n' :: rest)).trans ?_
      simp only [taken, valid, if_true]
    · next small =>
      obtain ⟨s, fraction, rfl⟩ := Option.map_eq_some_iff.mp h
      obtain ⟨again, whole⟩ := scanFraction_append fraction ends
      have taken := takeWhile_digits all _ fun c head => (whole c head).1
      rw [List.cons_append] at taken
      rw [List.append_assoc, List.cons_append, arm, taken.1, taken.2, if_pos valid]
      split
      · next more same =>
        have head : 'n' ∈ (s.1 ++ rest).head? := by rw [same]; rfl
        exact absurd rfl (whole.ne_letter head 'n' (by decide) (by decide))
      · rw [again]
        rfl
  · cases h

private theorem scanNumberBody_zeroDigit {x : Char} (tail : List Char) (digit : x.isDigit = true) :
    scanNumberBody ('0' :: x :: tail) =
      if ((x :: tail).takeWhile Char.isDigit).all isOctal then
        some ('0' :: (x :: tail).takeWhile Char.isDigit, (x :: tail).dropWhile Char.isDigit)
      else (scanFraction ((x :: tail).dropWhile Char.isDigit)).map fun r =>
        ('0' :: (x :: tail).takeWhile Char.isDigit ++ r.1, r.2) := by
  have other (letter : Char) (notDigit : letter.isDigit = false) : x ≠ letter := by
    rintro rfl
    rw [digit] at notDigit
    cases notDigit
  simp only [scanNumberBody, digit, other 'x' (by decide), other 'X' (by decide), other 'o' (by decide),
    other 'O' (by decide), other 'b' (by decide), other 'B' (by decide), other 'n' (by decide), decide_false,
    Bool.or_false, Bool.false_eq_true, if_false, if_true]

private theorem scanNumberBody_zeroDigit_append {x : Char} {tail : List Char} (digit : x.isDigit = true)
    (h : scanNumberBody ('0' :: x :: tail) = some r) (ends : EndsNumber rest) :
    scanNumberBody (r.1 ++ rest) = some (r.1, rest) := by
  rw [scanNumberBody_zeroDigit tail digit] at h
  have all := all_takeWhile Char.isDigit (x :: tail)
  obtain ⟨ds, shape⟩ : ∃ ds, (x :: tail).takeWhile Char.isDigit = x :: ds := by simp [digit]
  rw [shape] at h all
  have arm (more : List Char) := scanNumberBody_zeroDigit (ds ++ more) digit
  split at h
  · next octals =>
    cases h
    have taken := takeWhile_digits all _ fun c head => (ends c head).1
    rw [List.cons_append] at taken
    rw [List.cons_append, List.cons_append, arm, taken.1, taken.2, if_pos octals]
  · next octals =>
    obtain ⟨s, fraction, rfl⟩ := Option.map_eq_some_iff.mp h
    obtain ⟨again, whole⟩ := scanFraction_append fraction ends
    have taken := takeWhile_digits all _ fun c head => whole.not_isDigit head
    rw [List.cons_append] at taken
    simp only [List.cons_append, List.append_assoc]
    rw [arm, taken.1, taken.2, if_neg octals, again]
    rfl

private theorem scanNumberBody_radix_append {isDigit : Char → Bool} {x : Char} {tail : List Char}
    (arm : ∀ more, scanNumberBody ('0' :: x :: more) = scanRadix isDigit ['0', x] more)
    (h : scanNumberBody ('0' :: x :: tail) = some r) (stops : ∀ c ∈ rest.head?, isDigit c = false)
    (ends : EndsNumber rest) : scanNumberBody (r.1 ++ rest) = some (r.1, rest) := by
  rw [arm] at h
  obtain ⟨body, shape, again⟩ := scanRadix_append h stops ends
  rw [shape] at again ⊢
  exact (arm (body ++ rest)).trans again

private theorem scanNumberBody_dot_append {tail : List Char} (h : scanNumberBody ('.' :: tail) = some r)
    (ends : EndsNumber rest) : scanNumberBody (r.1 ++ rest) = some (r.1, rest) := by
  have fraction : scanFraction ('.' :: tail) = some r := h
  obtain ⟨again, -⟩ := scanFraction_append fraction ends
  obtain ⟨more, shape⟩ : ∃ more, r.1 = '.' :: more := by
    simp only [scanFraction] at fraction
    split at fraction
    · obtain ⟨s, -, rfl⟩ := Option.map_eq_some_iff.mp fraction
      exact ⟨_, rfl⟩
    · cases fraction
  rw [shape] at again ⊢
  exact again

theorem scanNumberBody_append (h : scanNumberBody cs = some r) (ends : EndsNumber rest) :
    scanNumberBody (r.1 ++ rest) = some (r.1, rest) := by
  cases cs with
  | nil => cases h
  | cons d ds =>
    by_cases dot : d = '.'
    · subst dot
      exact scanNumberBody_dot_append h ends
    by_cases zero : d = '0'
    · subst zero
      cases ds with
      | nil =>
        cases h
        obtain ⟨again, whole⟩ := scanFraction_append (show scanFraction [] = some ([], []) from rfl) ends
        exact scanNumberBody_zero whole again
      | cons x tail =>
        by_cases hex : (x = 'x' || x = 'X') = true
        · exact scanNumberBody_radix_append (fun more => by simp only [scanNumberBody, hex, if_true]) h
            (fun c head => stops_hex (ends c head).1 (ends c head).2.1) ends
        by_cases octal : (x = 'o' || x = 'O') = true
        · exact scanNumberBody_radix_append
            (fun more => by simp only [scanNumberBody, hex, octal, if_true, if_false, Bool.false_eq_true]) h
            (fun c head => stops_octal (ends c head).1) ends
        by_cases binary : (x = 'b' || x = 'B') = true
        · exact scanNumberBody_radix_append
            (fun more => by simp only [scanNumberBody, hex, octal, binary, if_true, if_false, Bool.false_eq_true]) h
            (fun c head => stops_binary (ends c head).1) ends
        by_cases big : x = 'n'
        · subst big
          cases h
          rfl
        by_cases digit : x.isDigit = true
        · exact scanNumberBody_zeroDigit_append digit h ends
        · simp only [scanNumberBody, hex, octal, binary, big, digit, if_false, Bool.false_eq_true] at h
          obtain ⟨s, fraction, rfl⟩ := Option.map_eq_some_iff.mp h
          obtain ⟨again, whole⟩ := scanFraction_append fraction ends
          exact scanNumberBody_zero whole again
    · exact scanNumberBody_decimal_append zero dot h ends

theorem scanNumberBody_of_scanNumber (h : scanNumber cs = some r) : scanNumberBody cs = some r := by
  obtain ⟨s, body, checked⟩ := Option.bind_eq_some_iff.mp h
  have same : s = r := by
    split at checked
    · split at checked
      · cases checked
      · exact Option.some.inj checked
    · exact Option.some.inj checked
  rw [← same]
  exact body

theorem scanNumber_append (h : scanNumber cs = some r) (ends : EndsNumber rest) :
    scanNumber (r.1 ++ rest) = some (r.1, rest) := by
  rw [scanNumber, scanNumberBody_append (scanNumberBody_of_scanNumber h) ends]
  cases rest with
  | nil => rfl
  | cons c rest =>
    obtain ⟨digit, start, -, slash⟩ := ends c rfl
    simp [digit, start, slash]

/-- A text that a number is looked for in: it starts with a digit, or with a dot before one. -/
def StartsNumber : List Char → Prop
  | [] => False
  | c :: cs => c.isDigit = true ∨ c = '.' ∧ cs.head?.any Char.isDigit = true

structure IsNumeral (cs : List Char) : Prop where
  starts : StartsNumber cs
  scanned : scanNumber cs = some (cs, [])

structure Numeral where
  text : String
  isNumeral : IsNumeral text.toList
  deriving DecidableEq, Repr

instance : Coe Numeral String := ⟨Numeral.text⟩

theorem startsNumber_of_scanNumber (h : scanNumber cs = some r) (starts : StartsNumber cs) :
    StartsNumber r.1 := by
  obtain ⟨cut, ne⟩ := scanNumber_cutSolid h
  cases taken : r.1 with
  | nil => exact absurd taken ne
  | cons c front =>
    have whole := cut.whole
    rw [taken, List.cons_append] at whole
    rw [← whole] at starts
    rcases starts with digit | ⟨rfl, digit⟩
    · exact .inl digit
    · -- behind a dot all digits are taken, so the first one is
      refine .inr ⟨rfl, ?_⟩
      have body := scanNumberBody_of_scanNumber h
      rw [← whole, scanNumberBody, scanFraction] at body
      split at body
      · obtain ⟨e, -, shape⟩ := Option.map_eq_some_iff.mp body
        rw [← shape, List.cons_append, List.cons.injEq] at taken
        cases tail : front ++ r.2 with
        | nil => rw [tail] at digit; cases digit
        | cons d more =>
          have first : d.isDigit = true := by rw [tail] at digit; exact digit
          have part : isDigitOrLow d = true := by simp [isDigitOrLow, first]
          rw [← taken.2, tail, List.takeWhile_cons_of_pos part]
          exact first
      · cases body

theorem isNumeral_of_scanNumber (h : scanNumber cs = some r) (starts : StartsNumber cs) : IsNumeral r.1 := by
  have bare : EndsNumber [] := by rintro _ ⟨⟩
  have again := scanNumber_append h bare
  rw [List.append_nil] at again
  exact ⟨startsNumber_of_scanNumber h starts, again⟩

end Literal

end VueOptions.Script
