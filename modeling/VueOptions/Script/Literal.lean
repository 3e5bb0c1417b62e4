import VueOptions.Script.Name

/-!
Literals: how far a string, template, regular expression or number goes, and which characters a
quoted body stands for. Scanning finds the end of a literal and never looks into escapes; cooking
reads the escapes of a body that has been cut out.
-/

set_option autoImplicit false

namespace VueOptions.Script.Literal

open Name (hexValue?)
open Text (CutSolid Solid isBlank solid_of_blanks)

/-- Put a character before the first part of a scan. -/
def cons (c : Char) (r : List Char × List Char) : List Char × List Char := (c :: r.1, r.2)

/-- The body of a string up to its closing quote, and the text after the quote. A line may end
inside only after a backslash. -/
def scanString (quote : Char) : Bool → List Char → Option (List Char × List Char)
  | _, [] => none
  | true, '\r' :: '\n' :: cs => (scanString quote false cs).map fun r => cons '\r' (cons '\n' r)
  | true, c :: cs => (scanString quote false cs).map (cons c)
  | false, c :: cs =>
    if c = quote then some ([], cs)
    else if c = '\\' then (scanString quote true cs).map (cons c)
    else if c = '\n' || c = '\r' then none
    else (scanString quote false cs).map (cons c)

/-- A chunk of a template up to its end: the body, the mark that ends it (a backquote, or a dollar
sign with an opening brace), and the text after that mark. -/
structure Chunk where
  body : List Char
  isLast : Bool
  rest : List Char
  deriving Repr

def Chunk.closing (k : Chunk) : List Char := if k.isLast then ['\x60'] else ['$', '\x7b']

def Chunk.push (c : Char) (k : Chunk) : Chunk := { k with body := c :: k.body }

def scanChunk : Bool → List Char → Option Chunk
  | _, [] => none
  | true, c :: cs => (scanChunk false cs).map (·.push c)
  | false, c :: cs =>
    if c = '\x60' then some ⟨[], true, cs⟩
    else if c = '\\' then (scanChunk true cs).map (·.push c)
    else match c, cs with
      | '$', '\x7b' :: rest => some ⟨[], false, rest⟩
      | _, _ => (scanChunk false cs).map (·.push c)

/-- The body of a regular expression up to its closing slash, and the text after the slash. A slash
inside a bracketed class does not close it. -/
def scanPattern (inClass : Bool) : Bool → List Char → Option (List Char × List Char)
  | _, [] => none
  | isEscaped, c :: cs =>
    if c = '\n' || c = '\r' || c.toNat = 0x2028 || c.toNat = 0x2029 then none
    else if isEscaped then (scanPattern inClass false cs).map (cons c)
    else if c = '\\' then (scanPattern inClass true cs).map (cons c)
    else if c = '/' && !inClass then some ([], cs)
    else if c = '[' then (scanPattern true false cs).map (cons c)
    else if c = ']' then (scanPattern false false cs).map (cons c)
    else (scanPattern inClass false cs).map (cons c)

/-- The flags after a regular expression are known letters, each at most once, and not both of the
two set modes. -/
def flagsValid (flags : List Char) : Bool :=
  flags.all (fun c => ['d', 'g', 'i', 'm', 's', 'u', 'v', 'y'].contains c) && decide flags.Nodup
    && !(flags.contains 'u' && flags.contains 'v')

/-- Digits of a class with single low lines between them. -/
def digitsValid (digits : List Char) (isDigit : Char → Bool) : Bool :=
  match digits with
  | [] => false
  | c :: cs => isDigit c && go cs
where
  /-- The digits after the first. -/
  go : List Char → Bool
    | [] => true
    | '_' :: d :: cs => isDigit d && go cs
    | d :: cs => isDigit d && go cs

def isOctal (c : Char) : Bool := '0' ≤ c && c ≤ '7'

def isDigitOrLow (c : Char) : Bool := c.isDigit || c = '_'

/-- The exponent at the front of a text, if a well-formed one stands there. -/
def scanExponent (cs : List Char) : Option (List Char × List Char) :=
  match cs with
  | [] => some ([], [])
  | e :: rest =>
    if e = 'e' || e = 'E' then
      let (sign, rest) := match rest with
        | '+' :: r => (['+'], r)
        | '-' :: r => (['-'], r)
        | r => ([], r)
      let digits := rest.takeWhile isDigitOrLow
      if digitsValid digits Char.isDigit then
        some (e :: sign ++ digits, rest.dropWhile isDigitOrLow)
      else none
    else some ([], cs)

/-- The fraction and exponent after the whole part of a decimal number. -/
def scanFraction (cs : List Char) : Option (List Char × List Char) :=
  match cs with
  | '.' :: rest =>
    let digits := rest.takeWhile isDigitOrLow
    if digits.isEmpty || digitsValid digits Char.isDigit then
      (scanExponent (rest.dropWhile isDigitOrLow)).map fun r => ('.' :: digits ++ r.1, r.2)
    else none
  | _ => scanExponent cs

/-- Digits in a base given by a letter, with an optional `n` after them. -/
def scanRadix (isDigit : Char → Bool) (lead : List Char) (cs : List Char) :
    Option (List Char × List Char) :=
  let isPart := fun c => isDigit c || c = '_'
  let digits := cs.takeWhile isPart
  let rest := cs.dropWhile isPart
  if digitsValid digits isDigit then
    match rest with
    | 'n' :: r => some (lead ++ digits ++ ['n'], r)
    | r => some (lead ++ digits, r)
  else none

def scanNumberBody (cs : List Char) : Option (List Char × List Char) :=
  match cs with
  | '0' :: x :: rest =>
    if x = 'x' || x = 'X' then scanRadix (fun c => (hexValue? c).isSome) ['0', x] rest
    else if x = 'o' || x = 'O' then scanRadix isOctal ['0', x] rest
    else if x = 'b' || x = 'B' then scanRadix (fun c => c = '0' || c = '1') ['0', x] rest
    else if x = 'n' then some (['0', 'n'], rest)
    else if x.isDigit then
      let digits := (x :: rest).takeWhile Char.isDigit
      let after := (x :: rest).dropWhile Char.isDigit
      if digits.all isOctal then some ('0' :: digits, after)
      else (scanFraction after).map fun r => ('0' :: digits ++ r.1, r.2)
    else (scanFraction (x :: rest)).map fun r => ('0' :: r.1, r.2)
  | '.' :: _ => scanFraction cs
  | _ =>
    let digits := cs.takeWhile isDigitOrLow
    let rest := cs.dropWhile isDigitOrLow
    if digitsValid digits Char.isDigit then
      match rest with
      | 'n' :: r => some (digits ++ ['n'], r)
      | _ => (scanFraction rest).map fun r => (digits ++ r.1, r.2)
    else none

/-- The number at the front of a text; neither a name nor a digit may follow it directly. -/
def scanNumber (cs : List Char) : Option (List Char × List Char) :=
  (scanNumberBody cs).bind fun r =>
    match r.2 with
    | c :: _ => if c.isDigit || Name.isStart c || c = '\\' then none else some r
    | [] => some r

private theorem append_of_map_cons {found : Option (List Char × List Char)}
    {close : List Char → List Char} {c : Char} {cs : List Char} {r : List Char × List Char}
    (h : found.map (cons c) = some r) (ih : ∀ {s}, found = some s → s.1 ++ close s.2 = cs) :
    r.1 ++ close r.2 = c :: cs := by
  obtain ⟨s, hs, rfl⟩ := Option.map_eq_some_iff.mp h
  rw [cons, List.cons_append, ih hs]

theorem scanString_append {quote : Char} {isEscaped : Bool} {cs : List Char}
    {r : List Char × List Char} (h : scanString quote isEscaped cs = some r) :
    r.1 ++ quote :: r.2 = cs := by
  fun_induction scanString quote isEscaped cs generalizing r with
  | case1 | case6 => cases h
  | case2 cs ih =>
    obtain ⟨s, hs, rfl⟩ := Option.map_eq_some_iff.mp h
    simp only [cons, List.cons_append, ih hs]
  | case4 cs => cases h; rfl
  | case3 c cs _ ih | case7 c cs _ _ _ ih => exact append_of_map_cons h ih
  | case5 cs _ ih => exact append_of_map_cons h ih

def IsBody (quote : Char) (body : List Char) : Prop :=
  scanString quote false (body ++ [quote]) = some (body, [])

theorem scanString_body {quote : Char} {isEscaped : Bool} {cs : List Char} {r : List Char × List Char}
    (h : scanString quote isEscaped cs = some r) (rest : List Char) :
    scanString quote isEscaped (r.1 ++ quote :: rest) = some (r.1, rest) := by
  fun_induction scanString quote isEscaped cs generalizing r with
  | case1 | case6 => cases h
  | case2 cs ih =>
    obtain ⟨s, hs, rfl⟩ := Option.map_eq_some_iff.mp h
    simp [cons, scanString, ih hs]
  | case3 c cs ne ih =>
    obtain ⟨s, hs, rfl⟩ := Option.map_eq_some_iff.mp h
    -- What stands behind the escaped character begins as before, so it is no second half of a line end.
    have ne' : ∀ more, c = '\r' → s.1 ++ quote :: rest = '\n' :: more → False := by
      intro more hc eq
      have whole := scanString_append hs
      cases hb : s.1 with
      | nil =>
        rw [hb] at eq whole
        obtain ⟨rfl, -⟩ := List.cons.inj eq
        exact ne s.2 hc whole.symm
      | cons d body =>
        rw [hb] at eq whole
        obtain ⟨rfl, -⟩ := List.cons.inj eq
        exact ne _ hc whole.symm
    rw [cons, List.cons_append, scanString.eq_3 _ _ _ ne', ih hs]
    rfl
  | case4 cs => cases h; simp [scanString]
  | case5 cs ne ih =>
    obtain ⟨s, hs, rfl⟩ := Option.map_eq_some_iff.mp h
    simp [cons, scanString, ne, ih hs]
  | case7 c cs ne slash feed ih =>
    obtain ⟨s, hs, rfl⟩ := Option.map_eq_some_iff.mp h
    simp [cons, scanString, ne, slash, feed, ih hs]

private theorem append_of_map_push {found : Option Chunk} {c : Char} {cs : List Char} {k : Chunk}
    (h : found.map (·.push c) = some k) (ih : ∀ {j}, found = some j → j.body ++ j.closing ++ j.rest = cs) :
    k.body ++ k.closing ++ k.rest = c :: cs := by
  obtain ⟨j, hj, rfl⟩ := Option.map_eq_some_iff.mp h
  exact congrArg (c :: ·) (ih hj)

theorem scanChunk_append {isEscaped : Bool} {cs : List Char} {k : Chunk}
    (h : scanChunk isEscaped cs = some k) : k.body ++ k.closing ++ k.rest = cs := by
  fun_induction scanChunk isEscaped cs generalizing k with
  | case1 => cases h
  | case2 c cs ih => exact append_of_map_push h ih
  | case3 cs => cases h; rfl
  | case4 cs _ ih => exact append_of_map_push h ih
  | case5 rest => cases h; rfl
  | case6 c cs _ _ _ ih => exact append_of_map_push h ih

theorem scanPattern_append {inClass isEscaped : Bool} {cs : List Char} {r : List Char × List Char}
    (h : scanPattern inClass isEscaped cs = some r) : r.1 ++ '/' :: r.2 = cs := by
  fun_induction scanPattern inClass isEscaped cs generalizing r with
  | case1 | case2 => cases h
  | case3 inClass c cs _ ih => exact append_of_map_cons h ih
  | case4 inClass isEscaped cs _ _ ih => exact append_of_map_cons h ih
  | case5 inClass isEscaped c cs _ _ _ closes =>
    cases h
    simp only [Bool.and_eq_true, decide_eq_true_eq] at closes
    rw [closes.1]
    rfl
  | case6 inClass isEscaped cs _ _ _ _ ih | case7 inClass isEscaped cs _ _ _ _ _ ih =>
    exact append_of_map_cons h ih
  | case8 inClass isEscaped c cs _ _ _ _ _ _ ih => exact append_of_map_cons h ih

private theorem feed_not_mem_of_map_cons {found : Option (List Char × List Char)} {c : Char}
    {r : List Char × List Char} (inLine : ¬(c = '\n' || c = '\r' || c.toNat = 0x2028 || c.toNat = 0x2029) = true)
    (h : found.map (cons c) = some r) (ih : ∀ {s}, found = some s → '\n' ∉ s.1) : '\n' ∉ r.1 := by
  obtain ⟨s, hs, rfl⟩ := Option.map_eq_some_iff.mp h
  refine List.not_mem_cons_of_ne_of_not_mem ?_ (ih hs)
  rintro rfl
  exact inLine rfl

theorem feed_not_mem_of_scanPattern {inClass isEscaped : Bool} {cs : List Char}
    {r : List Char × List Char} (h : scanPattern inClass isEscaped cs = some r) : '\n' ∉ r.1 := by
  fun_induction scanPattern inClass isEscaped cs generalizing r with
  | case1 | case2 => cases h
  | case5 => cases h; exact List.not_mem_nil
  | case3 inClass c cs inLine ih => exact feed_not_mem_of_map_cons inLine h ih
  | case4 inClass isEscaped cs _ inLine ih => exact feed_not_mem_of_map_cons inLine h ih
  | case6 inClass isEscaped cs _ inLine _ _ ih | case7 inClass isEscaped cs _ inLine _ _ _ ih =>
    exact feed_not_mem_of_map_cons inLine h ih
  | case8 inClass isEscaped c cs inLine _ _ _ _ _ ih => exact feed_not_mem_of_map_cons inLine h ih

theorem solid_isDigitOrLow : Solid isDigitOrLow := solid_of_blanks (by decide)

theorem scanExponent_cutSolid {cs : List Char} {r : List Char × List Char}
    (h : scanExponent cs = some r) : CutSolid r.1 r.2 cs := by
  unfold scanExponent at h
  split at h
  · cases h
    exact .nil []
  · next e rest =>
    split at h
    · next exponent =>
      have solid : isBlank e = false := by
        simp only [Bool.or_eq_true, decide_eq_true_eq] at exponent
        rcases exponent with rfl | rfl <;> decide
      split at h
      next sign after hsign =>
      have signed : CutSolid sign after rest := by
        split at hsign <;> cases hsign
        · exact .cons (by decide) (.nil after)
        · exact .cons (by decide) (.nil after)
        · exact .nil _
      dsimp only at h
      split at h
      · cases h
        exact .cons solid (signed.append (.takeWhile solid_isDigitOrLow after))
      · cases h
    · cases h
      exact .nil _

theorem scanFraction_cutSolid {cs : List Char} {r : List Char × List Char}
    (h : scanFraction cs = some r) : CutSolid r.1 r.2 cs := by
  unfold scanFraction at h
  split at h
  · next rest =>
    dsimp only at h
    split at h
    · obtain ⟨s, hs, rfl⟩ := Option.map_eq_some_iff.mp h
      exact .cons (by decide) ((CutSolid.takeWhile solid_isDigitOrLow rest).append
        (scanExponent_cutSolid hs))
    · cases h
  · exact scanExponent_cutSolid h

theorem scanRadix_cutSolid {isDigit : Char → Bool} {lead cs : List Char} {r : List Char × List Char}
    (digit : Solid isDigit) (leads : ∀ c ∈ lead, isBlank c = false)
    (h : scanRadix isDigit lead cs = some r) :
    CutSolid r.1 r.2 (lead ++ cs) := by
  have part : Solid fun c => isDigit c || c = '_' := by
    intro c blank
    have ne : c ≠ '_' := by
      rintro rfl
      exact absurd blank (by decide)
    simp [digit c blank, ne]
  have taken : CutSolid (lead ++ cs.takeWhile fun c => isDigit c || c = '_')
      (cs.dropWhile fun c => isDigit c || c = '_') (lead ++ cs) :=
    .append ⟨rfl, leads⟩ (.takeWhile part cs)
  simp only [scanRadix] at h
  split at h
  · split at h
    · next r hrest =>
      cases h
      rw [hrest] at taken
      exact taken.append (.cons (by decide) (.nil r))
    · cases h
      exact taken
  · cases h

private theorem solid_lead {x a b : Char} (letter : (x = a || x = b) = true) (ha : isBlank a = false)
    (hb : isBlank b = false) : ∀ c ∈ ['0', x], isBlank c = false := by
  simp only [Bool.or_eq_true, decide_eq_true_eq] at letter
  rcases letter with rfl | rfl
  · simpa using ⟨by decide, ha⟩
  · simpa using ⟨by decide, hb⟩

theorem scanNumberBody_cutSolid {cs : List Char} {r : List Char × List Char}
    (h : scanNumberBody cs = some r) : CutSolid r.1 r.2 cs := by
  unfold scanNumberBody at h
  split at h
  · next x rest =>
    split at h
    · next hex =>
      exact scanRadix_cutSolid Name.solid_hexValue? (solid_lead hex (by decide) (by decide)) h
    split at h
    · next octal =>
      exact scanRadix_cutSolid (solid_of_blanks (by decide)) (solid_lead octal (by decide) (by decide)) h
    split at h
    · next binary =>
      exact scanRadix_cutSolid (solid_of_blanks (by decide)) (solid_lead binary (by decide) (by decide)) h
    split at h
    · next big =>
      cases h
      subst big
      exact .cons (by decide) (.cons (by decide) (.nil rest))
    split at h
    · have digits := CutSolid.takeWhile (solid_of_blanks (p := Char.isDigit) (by decide)) (x :: rest)
      dsimp only at h
      split at h
      · cases h
        exact .cons (by decide) digits
      · obtain ⟨s, hs, rfl⟩ := Option.map_eq_some_iff.mp h
        exact .cons (by decide) (digits.append (scanFraction_cutSolid hs))
    · obtain ⟨s, hs, rfl⟩ := Option.map_eq_some_iff.mp h
      exact .cons (by decide) (scanFraction_cutSolid hs)
  · exact scanFraction_cutSolid h
  · have digits := CutSolid.takeWhile solid_isDigitOrLow cs
    dsimp only at h
    split at h
    · split at h
      · next r hrest =>
        cases h
        rw [hrest] at digits
        exact digits.append (.cons (by decide) (.nil r))
      · obtain ⟨s, hs, rfl⟩ := Option.map_eq_some_iff.mp h
        exact digits.append (scanFraction_cutSolid hs)
    · cases h

private theorem ne_nil_of_scanRadix {isDigit : Char → Bool} {c : Char} {lead cs : List Char}
    {r : List Char × List Char} (h : scanRadix isDigit (c :: lead) cs = some r) : r.1 ≠ [] := by
  simp only [scanRadix] at h
  split at h
  · split at h <;> cases h <;> exact List.cons_ne_nil _ _
  · cases h

theorem ne_nil_of_scanNumberBody {cs : List Char} {r : List Char × List Char}
    (h : scanNumberBody cs = some r) : r.1 ≠ [] := by
  have put : ∀ {found : Option (List Char × List Char)} {c : Char} {lead : List Char},
      found.map (fun s => (c :: lead ++ s.1, s.2)) = some r → r.1 ≠ [] := by
    intro found c lead h
    obtain ⟨s, -, rfl⟩ := Option.map_eq_some_iff.mp h
    exact List.cons_ne_nil _ _
  unfold scanNumberBody at h
  split at h
  · split at h
    · exact ne_nil_of_scanRadix h
    split at h
    · exact ne_nil_of_scanRadix h
    split at h
    · exact ne_nil_of_scanRadix h
    split at h
    · cases h
      exact List.cons_ne_nil _ _
    split at h
    · dsimp only at h
      split at h
      · cases h
        exact List.cons_ne_nil _ _
      · exact put h
    · exact @put _ _ [] h
  · rw [scanFraction] at h
    split at h
    · exact put h
    · cases h
  · dsimp only at h
    split at h
    · next valid =>
      have ne : List.takeWhile isDigitOrLow cs ≠ [] := by
        intro none
        rw [none] at valid
        cases valid
      split at h
      · cases h
        exact List.append_ne_nil_of_left_ne_nil ne _
      · obtain ⟨s, -, rfl⟩ := Option.map_eq_some_iff.mp h
        exact List.append_ne_nil_of_left_ne_nil ne _
    · cases h

theorem scanNumber_cutSolid {cs : List Char} {r : List Char × List Char}
    (h : scanNumber cs = some r) : CutSolid r.1 r.2 cs ∧ r.1 ≠ [] := by
  obtain ⟨s, hs, hr⟩ := Option.bind_eq_some_iff.mp h
  have : s = r := by
    split at hr
    · split at hr
      · cases hr
      · exact Option.some.inj hr
    · exact Option.some.inj hr
  exact this ▸ ⟨scanNumberBody_cutSolid hs, ne_nil_of_scanNumberBody hs⟩


inductive Mode
  | plain
  | escape
  | octal (left value : Nat)
  | unicode
  | digits (left value : Nat)
  | braced (isOpen : Bool) (value : Nat)
  deriving DecidableEq, Repr

def lastCodePoint : Nat := 0x10ffff

/-- The code units that a quoted body stands for; characters above the first plane count as one unit,
and an escape may give half of a pair. With `octal`, a backslash before digits is an octal number,
without it that is malformed (a lone zero apart). -/
def cook (octal : Bool) : Mode → List Char → Option (List Nat)
  | .plain, [] => some []
  | .plain, c :: cs =>
    if c = '\\' then cook octal .escape cs else (cook octal .plain cs).map (c.toNat :: ·)
  | .escape, '\r' :: '\n' :: cs => cook octal .plain cs
  | .escape, c :: cs =>
    if c = 'n' then (cook octal .plain cs).map (10 :: ·)
    else if c = 't' then (cook octal .plain cs).map (9 :: ·)
    else if c = 'r' then (cook octal .plain cs).map (13 :: ·)
    else if c = 'b' then (cook octal .plain cs).map (8 :: ·)
    else if c = 'f' then (cook octal .plain cs).map (12 :: ·)
    else if c = 'v' then (cook octal .plain cs).map (11 :: ·)
    else if c = 'x' then cook octal (.digits 1 0) cs
    else if c = 'u' then cook octal .unicode cs
    else if c = '\n' || c = '\r' || c.toNat = 0x2028 || c.toNat = 0x2029 then cook octal .plain cs
    else if c.isDigit then
      if octal then
        if isOctal c then cook octal (.octal (if c ≤ '3' then 2 else 1) (c.toNat - 48)) cs
        else (cook octal .plain cs).map (c.toNat :: ·)
      else if c = '0' && !cs.head?.any Char.isDigit then (cook octal .plain cs).map (0 :: ·)
      else none
    else (cook octal .plain cs).map (c.toNat :: ·)
  | .unicode, c :: cs =>
    if c = '\x7b' then cook octal (.braced false 0) cs
    else match hexValue? c with
      | some v => cook octal (.digits 2 v) cs
      | none => none
  | .octal _ value, [] => some [value]
  | .octal left value, c :: cs =>
    if 0 < left && isOctal c then cook octal (.octal (left - 1) (value * 8 + (c.toNat - 48))) cs
    else if c = '\\' then (cook octal .escape cs).map (value :: ·)
    else (cook octal .plain cs).map (value :: c.toNat :: ·)
  | .digits left value, c :: cs =>
    match hexValue? c with
    | none => none
    | some v =>
      if left = 0 then (cook octal .plain cs).map ((value * 16 + v) :: ·)
      else cook octal (.digits (left - 1) (value * 16 + v)) cs
  | .braced isOpen value, c :: cs =>
    if c = '\x7d' then
      if isOpen && value ≤ lastCodePoint then (cook octal .plain cs).map (value :: ·) else none
    else match hexValue? c with
      | some v => cook octal (.braced true (value * 16 + v)) cs
      | none => none
  | _, [] => none

def isHigh (u : Nat) : Bool := 0xd800 ≤ u && u ≤ 0xdbff

def isLow (u : Nat) : Bool := 0xdc00 ≤ u && u ≤ 0xdfff

def joinPairs : List Nat → List Nat
  | [] => []
  | [u] => [u]
  | u :: v :: us =>
    if isHigh u && isLow v then (0x10000 + (u - 0xd800) * 0x400 + (v - 0xdc00)) :: joinPairs us
    else u :: joinPairs (v :: us)

/-- The four lower-case hexadecimal digits of a number below 65536. -/
def hexDigits (n : Nat) : List Char :=
  [n / 4096 % 16, n / 256 % 16, n / 16 % 16, n % 16].map fun d =>
    Char.ofNat (if d < 10 then 48 + d else 87 + d)

def replacement : Char := '�'

/-- The text of code points. A half that stands alone is written as the replacement character and
its four digits, and then the replacement character itself is written the same way. -/
def textOfUnits (units : List Nat) : List Char :=
  let points := joinPairs units
  let hasHalf := points.any fun u => isHigh u || isLow u
  points.flatMap fun u =>
    if isHigh u || isLow u || (hasHalf && u == 0xfffd) then replacement :: hexDigits u
    else [Char.ofNat u]

def value? (body : List Char) : Option (List Char) := (cook true .plain body).map textOfUnits

/-- Whether the escapes of a template chunk are all well formed. -/
def chunkValid (body : List Char) : Bool := (cook false .plain body).isSome

end VueOptions.Script.Literal
