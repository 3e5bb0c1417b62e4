import VueOptions.Text.Blank
import VueOptions.Text.Category

/-!
Names: which characters may start and continue one, and how one is read from a text. A name may be
written with `\u` escapes; reading gives its decoded characters.
-/

set_option autoImplicit false

namespace VueOptions.Script.Name

open Text

def isStart (c : Char) : Bool :=
  if c.toNat < 0x80 then c.isAlpha || c = '$' || c = '_'
  else (Category.isLetter c && c.toNat != 0x2e2f)
    || [0x1885, 0x1886, 0x2118, 0x212e, 0x309b, 0x309c].contains c.toNat

def isPart (c : Char) : Bool :=
  if c.toNat < 0x80 then c.isAlphanum || c = '$' || c = '_'
  else isStart c || Category.isMark c || Category.isDecimalDigit c || Category.isConnector c
    || [0xb7, 0x387, 0x19da, 0x200c, 0x200d, 0x30fb, 0xff65].contains c.toNat
    || (0x1369 ≤ c.toNat && c.toNat ≤ 0x1371)

def hexValue? (c : Char) : Option Nat :=
  if c.isDigit then some (c.toNat - 48)
  else if 'a' ≤ c && c ≤ 'f' then some (c.toNat - 87)
  else if 'A' ≤ c && c ≤ 'F' then some (c.toNat - 55)
  else none

def charOf? (n : Nat) : Option Char := if h : n.isValidChar then some (Char.ofNatAux n h) else none

/-- Where a read of a name stands: between characters, or inside an escape. -/
inductive Mode
  | plain
  | backslash
  | unicode
  | digits (left value : Nat)
  | braced (value : Nat)
  deriving DecidableEq, Repr

structure Reading where
  decoded : List Char
  consumed : List Char
  rest : List Char
  escaped : Bool
  deriving Repr

namespace Reading

/-- Put a character that stands for itself before a reading. -/
def push (c : Char) (r : Reading) : Reading :=
  { r with decoded := c :: r.decoded, consumed := c :: r.consumed }

def skip (c : Char) (r : Reading) : Reading :=
  { r with consumed := c :: r.consumed, escaped := true }

/-- Put the last character of an escape and what it stands for before a reading. -/
def close (c value : Char) (r : Reading) : Reading :=
  { r with decoded := value :: r.decoded, consumed := c :: r.consumed, escaped := true }

end Reading

/-- The character of a finished escape, if it may stand at its place in a name. -/
def escapeValue? (isFirst : Bool) (value : Nat) : Option Char :=
  (charOf? value).bind fun c =>
    if (if isFirst then isStart c else isPart c) then some c else none

/-- Read name characters as far as they go; nothing when an escape is malformed. -/
def read : Mode → Bool → List Char → Option Reading
  | .plain, _, [] => some ⟨[], [], [], false⟩
  | .plain, isFirst, c :: cs =>
    if (if isFirst then isStart c else isPart c) then (read .plain false cs).map (·.push c)
    else if c = '\\' then (read .backslash isFirst cs).map (·.skip c)
    else some ⟨[], [], c :: cs, false⟩
  | .backslash, isFirst, c :: cs =>
    if c = 'u' then (read .unicode isFirst cs).map (·.skip c) else none
  | .unicode, isFirst, c :: cs =>
    if c = '\x7b' then (read (.braced 0) isFirst cs).map (·.skip c)
    else match hexValue? c with
      | some v => (read (.digits 2 v) isFirst cs).map (·.skip c)
      | none => none
  | .digits left value, isFirst, c :: cs =>
    match hexValue? c with
    | none => none
    | some v =>
      if left = 0 then
        match escapeValue? isFirst (value * 16 + v) with
        | some e => (read .plain false cs).map (·.close c e)
        | none => none
      else (read (.digits (left - 1) (value * 16 + v)) isFirst cs).map (·.skip c)
  | .braced value, isFirst, c :: cs =>
    if c = '\x7d' then
      match escapeValue? isFirst value with
      | some e => (read .plain false cs).map (·.close c e)
      | none => none
    else match hexValue? c with
      | some v => (read (.braced (value * 16 + v)) isFirst cs).map (·.skip c)
      | none => none
  | _, _, [] => none

theorem solid_isPart : Solid isPart := solid_of_blanks (by decide +kernel)

theorem solid_isStart : Solid isStart := solid_of_blanks (by decide +kernel)

theorem solid_hexValue? : Solid fun c => (hexValue? c).isSome := solid_of_blanks (by decide)

private theorem cutSolid_of_map {found : Option Reading} {f : Reading → Reading} {c : Char}
    {cs : List Char} {r : Reading} (h : found.map f = some r)
    (ih : ∀ {s}, found = some s → CutSolid s.consumed s.rest cs) (solid : isBlank c = false)
    (puts : ∀ s, (f s).consumed = c :: s.consumed ∧ (f s).rest = s.rest) :
    CutSolid r.consumed r.rest (c :: cs) := by
  obtain ⟨s, hs, rfl⟩ := Option.map_eq_some_iff.mp h
  obtain ⟨consumed, rest⟩ := puts s
  rw [consumed, rest]
  exact .cons solid (ih hs)

theorem cutSolid_of_read {mode : Mode} {isFirst : Bool} {cs : List Char} {r : Reading}
    (h : read mode isFirst cs = some r) : CutSolid r.consumed r.rest cs := by
  fun_induction read mode isFirst cs generalizing r with
  | case1 | case4 => cases h; exact .nil _
  | case6 | case9 | case10 | case12 | case15 | case17 | case18 => cases h
  | case2 isFirst c cs part ih =>
    have solid : isBlank c = false := by
      split at part
      · exact solid_isStart.isBlank_eq_false part
      · exact solid_isPart.isBlank_eq_false part
    exact cutSolid_of_map h ih solid fun _ => ⟨rfl, rfl⟩
  | case3 isFirst cs _ ih => exact cutSolid_of_map h ih (by decide) fun _ => ⟨rfl, rfl⟩
  | case5 isFirst cs ih => exact cutSolid_of_map h ih (by decide) fun _ => ⟨rfl, rfl⟩
  | case7 isFirst cs ih => exact cutSolid_of_map h ih (by decide) fun _ => ⟨rfl, rfl⟩
  | case8 isFirst c cs _ v digit ih | case13 left value isFirst c cs v digit _ ih
  | case16 value isFirst c cs _ v digit ih | case11 value isFirst c cs v digit _ _ ih  =>
    exact cutSolid_of_map h ih (solid_hexValue?.isBlank_eq_false (by rw [digit]; rfl))
      fun _ => ⟨rfl, rfl⟩
  | case14 value isFirst cs e _ ih => exact cutSolid_of_map h ih (by decide) fun _ => ⟨rfl, rfl⟩

theorem consumed_ne_nil_of_read {mode : Mode} {isFirst : Bool} {cs : List Char} {r : Reading}
    (h : read mode isFirst cs = some r) (ne : r.decoded ≠ []) : r.consumed ≠ [] := by
  have step : ∀ {found : Option Reading} {f : Reading → Reading} {c : Char},
      (∀ s, (f s).consumed = c :: s.consumed) → found.map f = some r → r.consumed ≠ [] := by
    intro found f c puts h
    obtain ⟨s, -, rfl⟩ := Option.map_eq_some_iff.mp h
    rw [puts]
    exact List.cons_ne_nil _ _
  fun_induction read mode isFirst cs with
  | case1 | case4 => cases h; exact absurd rfl ne
  | case6 | case9 | case10 | case12 | case15 | case17 | case18 => cases h
  | case2 | case3 | case5 | case7 | case8 | case11 | case13 | case14 | case16 =>
    exact step (fun _ => rfl) h

end VueOptions.Script.Name
