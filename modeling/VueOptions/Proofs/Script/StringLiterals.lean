import VueOptions.Proofs.Script.Operands

/-!
String literals and what they stand for. A literal is a body between two quotes of one kind, and its escapes
give code units (`IsLiteral`). A text in single quotes is a literal exactly if it holds no line end
(`exists_isLiteral_singleQuoted_iff`); then it stands for its own characters. Written again in quotes, the text
of a literal is the same string exactly if it holds no line end and no half of a pair stands alone
(`IsLiteral.written_again_iff`).
-/

set_option autoImplicit false

namespace VueOptions.Script.Literal

open Name (hexValue?)
open Text

def IsLiteral (quote : Char) (units : List Nat) (literal : List Char) : Prop :=
  ∃ body, literal = quote :: body ++ [quote] ∧ IsBody quote body ∧ cook true .plain body = some units

def OneLine (cs : List Char) : Prop := ∀ c ∈ cs, c ≠ '\n' ∧ c ≠ '\r'

instance OneLine.decidable (cs : List Char) : Decidable (OneLine cs) :=
  decidable_of_iff (cs.all (fun c => c != '\n' && c != '\r') = true) (by simp [OneLine])

namespace IsLiteral

variable {quote : Char} {units : List Nat} {literal : List Char}

theorem unique {quote' : Char} {units' : List Nat} (h : IsLiteral quote units literal)
    (h' : IsLiteral quote' units' literal) : quote = quote' ∧ units = units' := by
  obtain ⟨body, whole, -, cooked⟩ := h
  obtain ⟨body', whole', -, cooked'⟩ := h'
  obtain ⟨rfl, same⟩ := List.cons.inj (whole.symm.trans whole')
  obtain rfl := List.append_cancel_right same
  exact ⟨rfl, Option.some.inj (cooked.symm.trans cooked')⟩

theorem cut (h : IsLiteral quote units literal) (mark : quote = '"' ∨ quote = '\'') (rest : List Char) :
    Lexeme.cut (literal ++ rest) = ⟨.string (String.ofList (textOfUnits units)), literal, rest, false⟩ := by
  obtain ⟨body, rfl, isBody, cooked⟩ := h
  have scanned : scanString quote false (body ++ quote :: rest) = some (body, rest) := scanString_body isBody rest
  have value : value? body = some (textOfUnits units) := by rw [value?, cooked, Option.map_some]
  have known : Lexeme.cutKnown? quote (body ++ quote :: rest)
      = some ⟨.string (String.ofList (textOfUnits units)), quote :: body ++ [quote], rest, false⟩ := by
    rw [Lexeme.cutKnown?, if_pos (by simpa using mark), Lexeme.cutString, scanned, Option.bind_some, value]
    rfl
  rw [List.append_assoc, List.cons_append, List.singleton_append, Lexeme.cut, known, Option.getD_some]

end IsLiteral

theorem exists_isLiteral_of_spells {value : String} {cs : List Char} (h : (Lexeme.string value).Spells cs) :
    ∃ quote units, (quote = '"' ∨ quote = '\'') ∧ IsLiteral quote units cs ∧ value.toList = textOfUnits units := by
  obtain ⟨quote, body, mark, whole, isBody, hvalue⟩ := h
  obtain ⟨units, cooked, text⟩ := Option.map_eq_some_iff.mp hvalue
  exact ⟨quote, units, mark, ⟨body, whole, isBody, cooked⟩, text.symm⟩

theorem isLiteral_singleQuoted {s : String} (inLine : OneLine s.toList) :
    IsLiteral '\'' (s.toList.map Char.toNat) (singleQuoted s).toList :=
  ⟨quoteBody s.toList, by simp [singleQuoted], scanString_quoteBody inLine [], cook_quoteBody s.toList⟩

theorem scanString_quoteBody_eq_none {cs : List Char} (broken : ¬OneLine cs) (rest : List Char) :
    scanString '\'' false (quoteBody cs ++ rest) = none := by
  induction cs with
  | nil => exact absurd (fun c mem => absurd mem List.not_mem_nil) broken
  | cons c cs ih =>
    rw [quoteBody]
    split
    · next mark =>
      simp only [Bool.or_eq_true, decide_eq_true_eq] at mark
      have back : c ≠ '\r' := by rcases mark with rfl | rfl <;> decide
      have feed : c ≠ '\n' := by rcases mark with rfl | rfl <;> decide
      have tail := ih fun inLine => broken (List.forall_mem_cons.mpr ⟨⟨feed, back⟩, inLine⟩)
      rw [List.cons_append, List.cons_append, scanString, if_neg (by decide), if_pos rfl,
        scanString.eq_3 _ _ _ (fun _ same => absurd same back), tail]
      rfl
    · next plain =>
      simp only [Bool.or_eq_true, decide_eq_true_eq, not_or] at plain
      rw [List.cons_append, scanString, if_neg plain.2, if_neg plain.1]
      split
      · rfl
      · next solid =>
        simp only [Bool.or_eq_true, decide_eq_true_eq, not_or] at solid
        rw [ih fun inLine => broken (List.forall_mem_cons.mpr ⟨solid, inLine⟩)]
        rfl

theorem exists_isLiteral_singleQuoted_iff (s : String) :
    (∃ units, IsLiteral '\'' units (singleQuoted s).toList) ↔ OneLine s.toList := by
  constructor
  · rintro ⟨units, body, whole, isBody, -⟩
    refine Decidable.byContradiction fun broken => ?_
    have same : quoteBody s.toList = body := by simpa [singleQuoted] using whole
    rw [IsBody, ← same, scanString_quoteBody_eq_none broken] at isBody
    cases isBody
  · intro inLine
    exact ⟨_, isLiteral_singleQuoted inLine⟩

theorem cut_singleQuoted_malformed {s : String} (broken : ¬OneLine s.toList) (rest : List Char) :
    (Lexeme.cut ((singleQuoted s).toList ++ rest)).lexeme = .malformed := by
  have whole : (singleQuoted s).toList ++ rest = '\'' :: (quoteBody s.toList ++ '\'' :: rest) := by
    simp [singleQuoted]
  have known : Lexeme.cutKnown? '\'' (quoteBody s.toList ++ '\'' :: rest) = none := by
    rw [Lexeme.cutKnown?, if_pos (by decide), Lexeme.cutString, scanString_quoteBody_eq_none broken]
    rfl
  rw [whole, Lexeme.cut, known]
  rfl

theorem toNat_le_lastCodePoint (c : Char) : c.toNat ≤ lastCodePoint := by
  have valid : c.toNat < 55296 ∨ 57343 < c.toNat ∧ c.toNat < 1114112 := c.valid
  rw [lastCodePoint]
  omega

private theorem toNat_le_toNat {c d : Char} (h : c ≤ d) : c.toNat ≤ d.toNat := h

theorem hexValue?_lt {c : Char} {v : Nat} (h : hexValue? c = some v) : v < 16 := by
  unfold hexValue? at h
  split at h
  · next digit =>
    simp only [Char.isDigit, Bool.and_eq_true, decide_eq_true_eq] at digit
    have le : c.toNat ≤ 57 := digit.2
    obtain rfl := Option.some.inj h
    omega
  · split at h
    · next lower =>
      simp only [Bool.and_eq_true, decide_eq_true_eq] at lower
      have le : c.toNat ≤ 102 := toNat_le_toNat lower.2
      obtain rfl := Option.some.inj h
      omega
    · split at h
      · next upper =>
        simp only [Bool.and_eq_true, decide_eq_true_eq] at upper
        have le : c.toNat ≤ 70 := toNat_le_toNat upper.2
        obtain rfl := Option.some.inj h
        omega
      · cases h

theorem octal_lt {c : Char} (h : isOctal c = true) : c.toNat - 48 < 8 := by
  simp only [isOctal, Bool.and_eq_true, decide_eq_true_eq] at h
  have le : c.toNat ≤ 55 := toNat_le_toNat h.2
  omega

/-- A number read so far, such that the digits that may still come keep it below a bound. -/
def Below (bound base left value : Nat) : Prop := (value + 1) * Nat.pow base left ≤ bound

namespace Below

variable {bound base left value digit : Nat}

theorem lt (h : Below bound base left value) (pos : 0 < base) : value < bound :=
  Nat.lt_of_succ_le (Nat.le_trans (Nat.le_mul_of_pos_right _ (Nat.pow_pos pos)) h)

theorem push (h : Below bound base (left + 1) value) (lt : digit < base) :
    Below bound base left (value * base + digit) := by
  have room : value * base + digit + 1 ≤ (value + 1) * base := by
    rw [Nat.succ_mul]
    omega
  calc (value * base + digit + 1) * Nat.pow base left
      ≤ (value + 1) * base * Nat.pow base left := Nat.mul_le_mul_right _ room
    _ = (value + 1) * (Nat.pow base left * base) := by rw [Nat.mul_assoc, Nat.mul_comm base]
    _ ≤ bound := h

end Below

def Mode.InRange : Mode → Prop
  | .octal left value => Below 512 8 left value
  | .digits left value => Below 65536 16 (left + 1) value
  | _ => True

private theorem le_of_map_cons {found : Option (List Nat)} {u : Nat} {units : List Nat}
    (le : u ≤ lastCodePoint) (h : found.map (u :: ·) = some units)
    (ih : ∀ {us}, found = some us → ∀ v ∈ us, v ≤ lastCodePoint) : ∀ v ∈ units, v ≤ lastCodePoint := by
  obtain ⟨us, hus, rfl⟩ := Option.map_eq_some_iff.mp h
  exact List.forall_mem_cons.mpr ⟨le, ih hus⟩

theorem cook_le_lastCodePoint {octal : Bool} {mode : Mode} {cs : List Char} {units : List Nat}
    (inRange : mode.InRange) (h : cook octal mode cs = some units) : ∀ u ∈ units, u ≤ lastCodePoint := by
  have small {n : Nat} (lt : n < 65536) : n ≤ lastCodePoint := by
    rw [lastCodePoint]
    omega
  fun_induction cook octal mode cs generalizing units with
  | case1 => cases h; exact fun u mem => absurd mem List.not_mem_nil
  | case2 | case4 | case12 | case13 | case19 | case31 => next ih => exact ih trivial h
  | case3 | case15 | case18 => next ih => exact le_of_map_cons (toNat_le_lastCodePoint _) h (ih trivial)
  | case5 | case6 | case7 | case8 | case9 | case10 | case16 =>
    next ih => exact le_of_map_cons (small (by decide)) h (ih trivial)
  | case11 cs _ _ _ _ _ _ _ ih => exact ih (by simp [Mode.InRange, Below]) h
  | case14 c cs _ _ _ _ _ _ _ _ _ _ _ _ digit ih =>
    have lt := octal_lt digit
    refine ih ?_ h
    split <;> simp only [Mode.InRange, Below, Nat.pow_eq] <;> omega
  | case17 | case21 | case26 | case30 | case32 | case33 => cases h
  | case20 c cs _ v hex ih =>
    have lt := hexValue?_lt hex
    refine ih ?_ h
    simp only [Mode.InRange, Below, Nat.pow_eq]
    omega
  | case22 left value =>
    cases h
    have lt := Below.lt inRange (by decide)
    exact List.forall_mem_singleton.mpr (small (by omega))
  | case23 left value c cs more ih =>
    simp only [Bool.and_eq_true, decide_eq_true_eq] at more
    obtain ⟨k, rfl⟩ := Nat.exists_eq_succ_of_ne_zero (Nat.pos_iff_ne_zero.mp more.1)
    exact ih (Below.push inRange (octal_lt more.2)) h
  | case24 left value cs _ ih =>
    have lt := Below.lt inRange (by decide)
    exact le_of_map_cons (small (by omega)) h (ih trivial)
  | case25 left value c cs _ _ ih =>
    have lt := Below.lt inRange (by decide)
    obtain ⟨us, hus, rfl⟩ := Option.map_eq_some_iff.mp h
    exact List.forall_mem_cons.mpr ⟨small (by omega),
      List.forall_mem_cons.mpr ⟨toNat_le_lastCodePoint c, ih trivial hus⟩⟩
  | case27 value c cs v hex ih =>
    have lt := (Below.push inRange (hexValue?_lt hex)).lt (by decide)
    exact le_of_map_cons (small lt) h (ih trivial)
  | case28 left value c cs v hex more ih =>
    obtain ⟨k, rfl⟩ := Nat.exists_eq_succ_of_ne_zero more
    exact ih (Below.push inRange (hexValue?_lt hex)) h
  | case29 isOpen value cs closed ih =>
    simp only [Bool.and_eq_true, decide_eq_true_eq] at closed
    exact le_of_map_cons closed.2 h (ih trivial)

theorem joinPairs_le_lastCodePoint {units : List Nat} (le : ∀ u ∈ units, u ≤ lastCodePoint) :
    ∀ u ∈ joinPairs units, u ≤ lastCodePoint := by
  fun_induction joinPairs units with
  | case1 | case2 => exact le
  | case3 u v us pair ih =>
    simp only [isHigh, isLow, Bool.and_eq_true, decide_eq_true_eq] at pair
    obtain ⟨-, -, more⟩ := List.forall_mem_cons.mp le |>.imp_right List.forall_mem_cons.mp
    refine List.forall_mem_cons.mpr ⟨?_, ih more⟩
    rw [lastCodePoint]
    omega
  | case4 u v us _ ih =>
    obtain ⟨first, more⟩ := List.forall_mem_cons.mp le
    exact List.forall_mem_cons.mpr ⟨first, ih more⟩

/-- Code points without a half of a pair that stands alone. -/
def Paired (units : List Nat) : Prop := ∀ u ∈ joinPairs units, (isHigh u || isLow u) = false

instance Paired.decidable (units : List Nat) : Decidable (Paired units) :=
  decidable_of_iff ((joinPairs units).all (fun u => !(isHigh u || isLow u)) = true) (by simp [Paired])

theorem Paired.map_textOfUnits {units : List Nat} (paired : Paired units)
    (le : ∀ u ∈ units, u ≤ lastCodePoint) : (textOfUnits units).map Char.toNat = joinPairs units := by
  have none : (joinPairs units).any (fun u => isHigh u || isLow u) = false := by
    rw [List.any_eq_false]
    exact fun u mem => by simp [paired u mem]
  have points := joinPairs_le_lastCodePoint le
  unfold textOfUnits
  simp only [none, Bool.false_and, Bool.or_false]
  unfold Paired at paired
  clear none
  generalize joinPairs units = shown at paired points ⊢
  induction shown with
  | nil => rfl
  | cons u us ih =>
    obtain ⟨alone, more⟩ := List.forall_mem_cons.mp paired
    obtain ⟨last, few⟩ := List.forall_mem_cons.mp points
    have valid : u.isValidChar := by
      simp only [isHigh, isLow, Bool.or_eq_false_iff, Bool.and_eq_false_iff, decide_eq_false_iff_not] at alone
      rw [lastCodePoint] at last
      rw [Nat.isValidChar]
      omega
    have back : (Char.ofNat u).toNat = u := by
      rw [Char.ofNat, dif_pos valid]
      rfl
    rw [List.flatMap_cons, if_neg (by simp [alone]), List.map_append, ih more few, List.map_singleton, back,
      List.singleton_append]

namespace IsLiteral

variable {quote : Char} {units : List Nat} {literal : List Char}

theorem le_lastCodePoint (h : IsLiteral quote units literal) : ∀ u ∈ units, u ≤ lastCodePoint := by
  obtain ⟨body, -, -, cooked⟩ := h
  have starts : Mode.plain.InRange := trivial
  exact cook_le_lastCodePoint starts cooked

/-- Written again in single quotes, the text of a literal is the same string exactly if it holds no line end and
no half of a pair stands alone. -/
theorem written_again_iff {value : String} (h : IsLiteral quote units literal)
    (text : value.toList = textOfUnits units) :
    (∃ units', IsLiteral '\'' units' (singleQuoted value).toList ∧ joinPairs units' = joinPairs units) ↔
      OneLine value.toList ∧ Paired units := by
  constructor
  · rintro ⟨units', again, same⟩
    have inLine := (exists_isLiteral_singleQuoted_iff value).mp ⟨units', again⟩
    obtain ⟨-, rfl⟩ := again.unique (isLiteral_singleQuoted inLine)
    refine ⟨inLine, fun u mem => ?_⟩
    rw [← same, joinPairs_map_toNat] at mem
    obtain ⟨c, -, rfl⟩ := List.mem_map.mp mem
    simp [not_half c]
  · rintro ⟨inLine, paired⟩
    refine ⟨_, isLiteral_singleQuoted inLine, ?_⟩
    rw [joinPairs_map_toNat, text, paired.map_textOfUnits h.le_lastCodePoint]

end IsLiteral

end VueOptions.Script.Literal
