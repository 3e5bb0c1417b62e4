import VueOptions.Options.Classify
import VueOptions.Proofs.Source.NamedEntries
import VueOptions.Proofs.Options.SpelledScripts

/-!
The options of a watcher. Arguments and entries that are spread are passed over before anything is
checked, and brackets around a key are not looked at; whatever is left has to be a string literal and an
object literal of flags. Where nothing is passed over this is what the documentation asks for. Main
statement: `watcher_read_iff_what_is_left_is_proper`.
-/

set_option autoImplicit false

namespace VueOptions.Source

def Key.isComputed : Key → Bool
  | .word _ isComputed => isComputed
  | .string _ isComputed => isComputed
  | .privateName _ => false
  | .expression _ isComputed => isComputed

def Expression.boolean? : Expression → Option Bool
  | .boolean _ value => some value
  | _ => none

end VueOptions.Source

namespace VueOptions.Options

open Source
open Text (Spelled)

namespace WatchFlags

def names : List String := ["immediate", "deep"]

def IsFlag (label : String) (value : Expression) : Prop := label ∈ names ∧ value.boolean?.isSome

instance (label : String) (value : Expression) : Decidable (IsFlag label value) :=
  inferInstanceAs (Decidable (_ ∧ _))

/-- The flags of an object literal: for each name the last value that is given for it. -/
def lastOf (entries : List Entry) : WatchFlags :=
  { immediate := (NamedEntry.last? "immediate" entries).bind fun e => e.value.boolean?
    deep := (NamedEntry.last? "deep" entries).bind fun e => e.value.boolean? }

/-- The flags after one that is proper; `set` without its checks. -/
def put (flags : WatchFlags) : String × Expression → WatchFlags
  | (label, value) =>
    if label = "immediate" then { flags with immediate := value.boolean? }
    else if label = "deep" then { flags with deep := value.boolean? }
    else flags

private theorem set_eq_ok_iff {flags flags' : WatchFlags} {label : String} {value : Expression} :
    set flags (label, value) = .ok flags' ↔ IsFlag label value ∧ flags' = put flags (label, value) := by
  rw [eq_comm (a := flags')]
  cases value with
  | boolean text b =>
    by_cases immediate : label = "immediate"
    · simp [set, put, IsFlag, names, Expression.boolean?, immediate]
    · by_cases deep : label = "deep" <;>
        simp [set, put, IsFlag, names, Expression.boolean?, immediate, deep]
  | _ => simp [set, IsFlag, Expression.boolean?]

private theorem foldlM_set_eq_ok_iff {pairs : List (String × Expression)} {flags flags' : WatchFlags} :
    pairs.foldlM set flags = .ok flags' ↔
      (∀ p ∈ pairs, IsFlag p.1 p.2) ∧ flags' = pairs.foldl put flags := by
  induction pairs generalizing flags with
  | nil =>
    constructor
    · intro read
      exact ⟨by simp, (Except.ok.inj read).symm⟩
    · rintro ⟨-, rfl⟩
      rfl
  | cons p pairs ih =>
    obtain ⟨label, value⟩ := p
    rw [List.foldlM_cons, List.forall_mem_cons, List.foldl_cons]
    cases first : set flags (label, value) with
    | error fault =>
      have improper : ¬IsFlag label value := by
        intro proper
        rw [set_eq_ok_iff.mpr ⟨proper, rfl⟩] at first
        cases first
      constructor
      · intro read
        cases read
      · intro proper
        exact absurd proper.1.1 improper
    | ok next =>
      obtain ⟨proper, rfl⟩ := set_eq_ok_iff.mp first
      change pairs.foldlM set (put flags (label, value)) = .ok flags' ↔ _
      rw [ih]
      simp [proper]

private theorem foldl_put_eq (entries : List Entry) : (Entry.pairs entries).foldl put {} = lastOf entries := by
  have slots (slot : WatchFlags → Option Bool) (label : String)
      (writes : ∀ s e, slot (put s (label, e)) = e.boolean?)
      (keeps : ∀ s name e, name ≠ label → slot (put s (name, e)) = slot s) (start : slot {} = none) :
      slot ((Entry.pairs entries).foldl put {}) =
        (NamedEntry.last? label entries).bind fun e => e.value.boolean? := by
    rw [foldl_pairs_slot slot _ writes keeps, start]
    cases NamedEntry.last? label entries <;> rfl
  have immediate := slots WatchFlags.immediate "immediate" (by simp [put])
    (by intro s name e other; by_cases deep : name = "deep" <;> simp [put, other, deep]) rfl
  have deep := slots WatchFlags.deep "deep" (by simp [put])
    (by intro s name e other; by_cases immediate : name = "immediate" <;> simp [put, other, immediate]) rfl
  rw [lastOf, ← immediate, ← deep]

/-- The flags that what is left of the options gives: none, or an object literal whose entries, but for
those that are spread, are flags. -/
def Given : Option Expression → WatchFlags → Prop
  | none, flags => flags = {}
  | some (.object _ entries), flags =>
    (∀ e ∈ NamedEntry.all entries, IsFlag e.key.label e.value) ∧ flags = lastOf entries
  | some _, _ => False

private theorem ofArgument_eq_ok_iff {options : Option Expression} {flags : WatchFlags} :
    ofArgument options = .ok flags ↔ Given options flags := by
  cases options with
  | none => simp [ofArgument, Given, eq_comm]
  | some e =>
    cases e with
    | object text entries =>
      rw [ofArgument, foldlM_set_eq_ok_iff, foldl_put_eq, Given, NamedEntry.pairs_eq_map]
      simp only [List.forall_mem_map]
    | _ => simp [ofArgument, Given]

end WatchFlags

namespace Watcher

def Given (values : List Expression) (path : String) (flags : WatchFlags) : Prop :=
  (∃ text, values[0]? = some (.string text path)) ∧ WatchFlags.Given values[1]? flags

private theorem pathOf_eq_ok_iff {argument : Option Expression} {path : String} :
    pathOf argument = .ok path ↔ ∃ text, argument = some (.string text path) := by
  cases argument with
  | none => simp [pathOf]
  | some e => cases e <;> simp [pathOf]

private theorem ofDecorator_eq_ok_iff {x : Decorator} {path : String} {flags : WatchFlags} :
    ofDecorator x = .ok (path, flags) ↔ Given x.values path flags := by
  rw [Given, ← pathOf_eq_ok_iff, ← WatchFlags.ofArgument_eq_ok_iff, ofDecorator]
  cases pathOf x.values[0]? with
  | error fault => simp [bind, Except.bind]
  | ok p => cases WatchFlags.ofArgument x.values[1]? <;> simp [bind, Except.bind, pure, Except.pure]

theorem ofMethod_eq_ok_iff {m : Method} {x : Decorator} {w : Watcher} :
    ofMethod m x = .ok w ↔ ∃ path flags, Given x.values path flags ∧
      w = ⟨path, PlainMethod.ofMethod m, flags.immediate, flags.deep⟩ := by
  rw [ofMethod]
  constructor
  · intro read
    cases given : ofDecorator x with
    | error fault =>
      rw [given] at read
      cases read
    | ok r =>
      rw [given] at read
      exact ⟨r.1, r.2, ofDecorator_eq_ok_iff.mp given, (Except.ok.inj read).symm⟩
  · rintro ⟨path, flags, given, rfl⟩
    rw [ofDecorator_eq_ok_iff.mpr given]

private theorem ofMethod_eq_error {m : Method} {x : Decorator}
    (improper : ∀ path flags, ¬Given x.values path flags) :
    ∃ fault, ofMethod m x = .error (.watchOptions m.key.label fault) := by
  rw [ofMethod]
  cases given : ofDecorator x with
  | error fault => exact ⟨fault, rfl⟩
  | ok r => exact absurd (ofDecorator_eq_ok_iff.mp given) (improper r.1 r.2)

/-- Whether the key of an entry stands without brackets; an entry that is spread has none. -/
def IsBare (e : Entry) : Prop := ∃ n, NamedEntry.named? e = some n ∧ n.key.isComputed = false

/-- What the documentation asks for: a string literal, and then nothing or an object literal of flags,
all of them with keys without brackets. -/
def Documented (arguments : List Argument) (path : String) (flags : WatchFlags) : Prop :=
  (∃ text, arguments[0]? = some (.value (.string text path))) ∧
    (arguments[1]? = none ∧ flags = {} ∨
      ∃ text entries, arguments[1]? = some (.value (.object text entries)) ∧
        (∀ e ∈ entries, IsBare e) ∧
        (∀ e ∈ NamedEntry.all entries, WatchFlags.IsFlag e.key.label e.value) ∧
        flags = WatchFlags.lastOf entries)

/-- Arguments of which nothing is passed over: the first two are not spread, and all entries of an
object literal that comes second have keys without brackets. -/
structure HasAllInView (arguments : List Argument) : Prop where
  first : ∀ text, arguments[0]? ≠ some (.spread text)
  second : ∀ text, arguments[1]? ≠ some (.spread text)
  entries : ∀ text entries, arguments[1]? = some (.value (.object text entries)) → ∀ e ∈ entries, IsBare e

private theorem getElem?_values {arguments : List Argument} {i : Nat}
    (before : ∀ j ≤ i, ∀ text, arguments[j]? ≠ some (.spread text)) :
    (arguments.filterMap Argument.value?)[i]? = arguments[i]?.bind Argument.value? := by
  induction arguments generalizing i with
  | nil => rfl
  | cons a rest ih =>
    cases a with
    | spread text => exact absurd rfl (before 0 i.zero_le text)
    | value e =>
      have kept : Argument.value? (.value e) = some e := rfl
      rw [List.filterMap_cons_some kept]
      cases i with
      | zero => rfl
      | succ i => exact ih fun j early text => before (j + 1) (Nat.succ_le_succ early) text

private theorem Documented.hasAllInView {arguments : List Argument} {path : String} {flags : WatchFlags}
    (documented : Documented arguments path flags) : HasAllInView arguments := by
  obtain ⟨⟨text, path⟩, options⟩ := documented
  refine ⟨by simp [path], ?_, ?_⟩
  · rcases options with ⟨none, -⟩ | ⟨_, entries, object, -⟩
    · simp [none]
    · simp [object]
  · intro other entries' object'
    rcases options with ⟨none, -⟩ | ⟨_, entries, object, bare, -⟩
    · rw [none] at object'
      cases object'
    · rw [object] at object'
      cases object'
      exact bare

private theorem given_iff_documented {x : Decorator} (view : HasAllInView x.arguments) {path : String}
    {flags : WatchFlags} : Given x.values path flags ↔ Documented x.arguments path flags := by
  have first : x.values[0]? = x.arguments[0]?.bind Argument.value? := by
    refine getElem?_values fun j early => ?_
    obtain rfl : j = 0 := by omega
    exact view.first
  have second : x.values[1]? = x.arguments[1]?.bind Argument.value? := by
    refine getElem?_values fun j early => ?_
    obtain rfl | rfl : j = 0 ∨ j = 1 := by omega
    · exact view.first
    · exact view.second
  rw [Given, Documented, first, second]
  refine and_congr ?_ ?_
  · cases x.arguments[0]? with
    | none => simp
    | some a => cases a <;> simp [Argument.value?]
  · cases argument : x.arguments[1]? with
    | none => simp [WatchFlags.Given]
    | some a =>
      cases a with
      | spread text => exact absurd argument (view.second text)
      | value e =>
        cases e with
        | object text entries =>
          have bare := view.entries text entries argument
          simp only [Option.bind_some, Argument.value?, WatchFlags.Given]
          constructor
          · rintro ⟨proper, rfl⟩
            exact .inr ⟨text, entries, rfl, bare, proper, rfl⟩
          · rintro (⟨none, -⟩ | ⟨_, _, object, -, proper, rfl⟩)
            · cases none
            · cases object
              exact ⟨proper, rfl⟩
        | _ => simp [Argument.value?, WatchFlags.Given]

/-- A watcher is read exactly if what is left of the arguments, those that are spread set aside, is a
string literal and then nothing or an object literal whose entries, those that are spread set aside, are
flags with boolean literals; it has the path, and for each flag the last value given. Everything else is
refused, and the refusal names the handler. Arguments that the documentation admits are read as it says,
and of those with all in view no others are. -/
theorem watcher_read_iff_what_is_left_is_proper (m : Method) (x : Decorator) :
    (∀ w, ofMethod m x = .ok w ↔ ∃ path flags, Given x.values path flags ∧
      w = ⟨path, PlainMethod.ofMethod m, flags.immediate, flags.deep⟩) ∧
    ((∀ path flags, ¬Given x.values path flags) →
      ∃ fault, ofMethod m x = .error (.watchOptions m.key.label fault)) ∧
    (∀ path flags, Documented x.arguments path flags ↔
      HasAllInView x.arguments ∧ Given x.values path flags) := by
  refine ⟨fun w => ofMethod_eq_ok_iff, ofMethod_eq_error, fun path flags => ?_⟩
  constructor
  · intro documented
    have view := documented.hasAllInView
    exact ⟨view, (given_iff_documented view).mpr documented⟩
  · rintro ⟨view, given⟩
    exact (given_iff_documented view).mp given

/-- Options that are an argument to be spread, an entry to be spread, and an entry with brackets. -/
def undocumentedScript : String :=
  "@Component class A \x7b @Watch('x', ...o) f() \x7b\x7d @Watch('y', \x7b...o\x7d) g() \x7b\x7d "
    ++ "@Watch('z', \x7b[deep]: true\x7d) h() \x7b\x7d \x7d"

def spreadOptions : Decorator := ⟨"Watch", [.value (.string "'x'" "x"), .spread "...o"]⟩

/-- Options that are spread are not documented, and yet the watcher is read as if there were none. An
entry that is spread and a key in brackets are no hindrance either. -/
theorem spread_options_are_passed_over :
    (∀ path flags, ¬Documented spreadOptions.arguments path flags) ∧
    (∀ m, ofMethod m spreadOptions = .ok ⟨"x", PlainMethod.ofMethod m, none, none⟩) ∧
    Table.ofScript {} undocumentedScript =
      .ok
        { component := some ⟨"A", []⟩
          watchers :=
            [⟨"x", ⟨"f", [], none, some [], false⟩, none, none⟩,
              ⟨"y", ⟨"g", [], none, some [], false⟩, none, none⟩,
              ⟨"z", ⟨"h", [], none, some [], false⟩, none, some true⟩] } := by
  have spelled : Spelled undocumentedScript _ := .append (.literal rfl) (.literal rfl)
  rw [ofScript_of_spelled spelled]
  refine ⟨?_, fun m => rfl, by decide +kernel⟩
  intro path flags documented
  exact documented.hasAllInView.second "...o" rfl

end Watcher

end VueOptions.Options
