import VueOptions.Options.Signature

/-!
The names of default events. A method whose decorator says nothing about its event triggers the one that is called like
the method, in lower case with hyphens. A name that holds no hyphen of its own and begins with no upper-case letter can
be read off its event again.
-/

set_option autoImplicit false

namespace VueOptions.Text

private theorem toNat_toLower {c : Char} (upper : c.isUpper = true) : c.toLower.toNat = c.toNat + 32 := by
  have bounds : 65 ≤ c.toNat ∧ c.toNat ≤ 90 := of_decide_eq_true upper
  have upper : c.val ≥ 'A'.val ∧ c.val ≤ 'Z'.val := bounds
  have lowered : c.toLower.val = c.val + ('a'.val - 'A'.val) := by
    delta Char.toLower
    rw [dif_pos upper]
  have gap : ('a'.val - 'A'.val).toNat = 32 := by decide
  have shown : c.toLower.val.toNat = c.val.toNat + 32 := by
    rw [lowered, UInt32.toNat_add, gap]
    exact Nat.mod_eq_of_lt (by change c.toNat + 32 < _; omega)
  exact shown

theorem toLower_eq_self {c : Char} (other : c.isUpper = false) : c.toLower = c :=
  dif_neg (of_decide_eq_false other)

private theorem isUpper_toLower (c : Char) : c.toLower.isUpper = false := by
  cases upper : c.isUpper with
  | false => rwa [toLower_eq_self upper]
  | true =>
    have bounds : 65 ≤ c.toNat ∧ c.toNat ≤ 90 := of_decide_eq_true upper
    have shown := toNat_toLower upper
    have outside : ¬(65 ≤ c.toLower.toNat ∧ c.toLower.toNat ≤ 90) := by omega
    exact decide_eq_false outside

theorem isLower_toLower {c : Char} (upper : c.isUpper = true) : c.toLower.isLower = true := by
  have bounds : 65 ≤ c.toNat ∧ c.toNat ≤ 90 := of_decide_eq_true upper
  have shown := toNat_toLower upper
  have least : 97 ≤ c.toLower.toNat := by omega
  have most : c.toLower.toNat ≤ 122 := by omega
  exact Bool.and_eq_true_iff.mpr ⟨decide_eq_true least, decide_eq_true most⟩

private theorem toUpper_toLower {c : Char} (upper : c.isUpper = true) : c.toLower.toUpper = c := by
  have lower : c.toLower.val ≥ 'a'.val ∧ c.toLower.val ≤ 'z'.val :=
    (Bool.and_eq_true_iff.mp (isLower_toLower upper)).imp of_decide_eq_true of_decide_eq_true
  have raised : c.toLower.toUpper.val = c.toLower.val + ('A'.val - 'a'.val) := by
    delta Char.toUpper
    rw [dif_pos lower]
  apply Char.ext
  have shown : c.toLower.val.toNat = c.val.toNat + 32 := toNat_toLower upper
  have bounds : 65 ≤ c.val.toNat ∧ c.val.toNat ≤ 90 := of_decide_eq_true upper
  apply UInt32.toNat_inj.mp
  have gap : ('A'.val - 'a'.val).toNat = 2 ^ 32 - 32 := by decide
  rw [raised, UInt32.toNat_add, gap, shown]
  omega

private theorem isUpper_of_mem_hyphenateTail {d : Char} {cs : List Char} (mem : d ∈ hyphenateTail cs) :
    d.isUpper = false := by
  induction cs with
  | nil => cases mem
  | cons c cs ih =>
    rw [hyphenateTail] at mem
    split at mem
    · rcases List.mem_cons.mp mem with rfl | mem
      · rfl
      · rcases List.mem_cons.mp mem with rfl | mem
        · exact isUpper_toLower c
        · exact ih mem
    · next other =>
      rcases List.mem_cons.mp mem with rfl | mem
      · exact Bool.eq_false_iff.mpr other
      · exact ih mem

private theorem isUpper_of_mem_hyphenateChars {d : Char} {cs : List Char} (mem : d ∈ hyphenateChars cs) :
    d.isUpper = false := by
  cases cs with
  | nil => cases mem
  | cons c cs =>
    rcases List.mem_cons.mp mem with rfl | mem
    · exact isUpper_toLower c
    · exact isUpper_of_mem_hyphenateTail mem

private theorem hyphenateTail_eq_self {cs : List Char} (small : ∀ c ∈ cs, c.isUpper = false) :
    hyphenateTail cs = cs := by
  induction cs with
  | nil => rfl
  | cons c cs ih =>
    obtain ⟨first, more⟩ := List.forall_mem_cons.mp small
    rw [hyphenateTail, if_neg (Bool.eq_false_iff.mp first), ih more]

private theorem hyphenateChars_eq_self {cs : List Char} (small : ∀ c ∈ cs, c.isUpper = false) :
    hyphenateChars cs = cs := by
  cases cs with
  | nil => rfl
  | cons c cs =>
    obtain ⟨first, more⟩ := List.forall_mem_cons.mp small
    rw [hyphenateChars, toLower_eq_self first, hyphenateTail_eq_self more]

/-- Characters with each hyphen before a lower-case letter gone and the letter in upper case. -/
def unhyphenateChars : List Char → List Char
  | [] => []
  | '-' :: c :: cs =>
    if c.isLower then c.toUpper :: unhyphenateChars cs else '-' :: unhyphenateChars (c :: cs)
  | c :: cs => c :: unhyphenateChars cs

/-- A name with hyphens as one with upper-case letters, so that `add-to-count` becomes `addToCount`. -/
def unhyphenate (name : String) : String := String.ofList (unhyphenateChars name.toList)

private theorem unhyphenateChars_cons {c : Char} (other : c ≠ '-') (cs : List Char) :
    unhyphenateChars (c :: cs) = c :: unhyphenateChars cs := by
  rw [unhyphenateChars]
  exact fun d ds hyphen => absurd hyphen other

private theorem unhyphenateChars_hyphenateTail {cs : List Char} (absent : '-' ∉ cs) :
    unhyphenateChars (hyphenateTail cs) = cs := by
  induction cs with
  | nil => rfl
  | cons c cs ih =>
    rw [List.mem_cons, not_or] at absent
    rw [hyphenateTail]
    split
    · next upper =>
      rw [unhyphenateChars, if_pos (isLower_toLower upper), toUpper_toLower upper, ih absent.2]
    · rw [unhyphenateChars_cons (Ne.symm absent.1), ih absent.2]

/-- A name without hyphens that begins with no upper-case letter. -/
def IsUnhyphenated (name : String) : Prop :=
  '-' ∉ name.toList ∧ ∀ c ∈ name.toList.head?, c.isUpper = false

private theorem unhyphenate_hyphenate {name : String} (unhyphenated : IsUnhyphenated name) :
    unhyphenate (hyphenate name) = name := by
  obtain ⟨absent, small⟩ := unhyphenated
  rw [unhyphenate, hyphenate, String.toList_ofList]
  cases chars : name.toList with
  | nil => rw [← String.ofList_toList (s := name), chars]; rfl
  | cons c cs =>
    rw [chars] at absent small
    rw [List.mem_cons, not_or] at absent
    rw [hyphenateChars, toLower_eq_self (small c rfl), unhyphenateChars_cons (Ne.symm absent.1),
      unhyphenateChars_hyphenateTail absent.2, ← chars, String.ofList_toList]

end VueOptions.Text

namespace VueOptions.Options

open Text
open Source (Method Decorator)

private theorem event_ofMethod {d : Decorator} (m : Method) (silent : d.values = []) :
    (Emit.ofMethod m d).event = .name (hyphenate m.key.label) := by
  unfold Emit.ofMethod Event.ofDecorator
  rw [silent]
  rfl

/-- The name of a default event holds no upper-case letter and stays as it is in lower case. It shows the name of its
method, unless that holds a hyphen or begins with an upper-case letter; so among all other names, two methods whose
decorators say nothing trigger one event only if they have one name. -/
theorem default_event_shows_name :
    (∀ name : String,
      (∀ c ∈ (hyphenate name).toList, c.isUpper = false) ∧
      hyphenate (hyphenate name) = hyphenate name ∧
      (IsUnhyphenated name → unhyphenate (hyphenate name) = name)) ∧
    ∀ (m m' : Method) (d d' : Decorator), d.values = [] → d'.values = [] →
      IsUnhyphenated m.key.label → IsUnhyphenated m'.key.label →
      ((Emit.ofMethod m d).event = (Emit.ofMethod m' d').event ↔ m.key.label = m'.key.label) := by
  refine ⟨fun name => ?_, fun m m' d d' silent silent' unhyphenated unhyphenated' => ?_⟩
  · have small : ∀ c ∈ (hyphenate name).toList, c.isUpper = false := by
      intro c mem
      rw [hyphenate, String.toList_ofList] at mem
      exact isUpper_of_mem_hyphenateChars mem
    have again : hyphenate (hyphenate name) = hyphenate name := by
      rw [hyphenate, hyphenateChars_eq_self small, String.ofList_toList]
    exact ⟨small, again, unhyphenate_hyphenate⟩
  · rw [event_ofMethod m silent, event_ofMethod m' silent']
    constructor
    · intro same
      rw [← unhyphenate_hyphenate unhyphenated, Event.name.inj same, unhyphenate_hyphenate unhyphenated']
    · exact fun same => congrArg (fun label => Event.name (hyphenate label)) same

/-- A method with a decorator that says nothing about its event. -/
def silentEmit (name : String) : Method :=
  { key := .word name false
    role := .method
    decorators := [⟨"Emit", []⟩]
    isStatic := false
    isAsync := false
    isGenerator := false
    parameters := []
    returnType := none
    body := some ⟨[], none⟩ }

theorem capitals_in_a_row_show_name :
    IsUnhyphenated "$größeXY" ∧ IsUnhyphenated "$größeXy" ∧
    unhyphenate (hyphenate "$größeXY") = "$größeXY" ∧ hyphenate "$größeXY" = "$größe-x-y" ∧
    (Emit.ofMethod (silentEmit "$größeXY") ⟨"Emit", []⟩).event ≠
      (Emit.ofMethod (silentEmit "$größeXy") ⟨"Emit", []⟩).event := by
  have first : IsUnhyphenated "$größeXY" := ⟨by decide, by rintro c ⟨⟩; rfl⟩
  have second : IsUnhyphenated "$größeXy" := ⟨by decide, by rintro c ⟨⟩; rfl⟩
  have events := default_event_shows_name.2 (silentEmit "$größeXY") (silentEmit "$größeXy") ⟨"Emit", []⟩ ⟨"Emit", []⟩
    rfl rfl first second
  exact ⟨first, second, (default_event_shows_name.1 "$größeXY").2.2 first, by decide,
    fun same => absurd (events.mp same) (by decide)⟩

-- Names with hyphens, or with an upper-case letter in front, may share their events.
example : hyphenate "add-to" = hyphenate "addTo" ∧ hyphenate "Reset" = hyphenate "reset" := by decide

end VueOptions.Options
