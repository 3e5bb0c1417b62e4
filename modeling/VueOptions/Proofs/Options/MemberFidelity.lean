import VueOptions.Proofs.Layout.LineStart
import VueOptions.Proofs.Options.LiteralTexts
import VueOptions.Proofs.Script.EntryHeads
import VueOptions.Proofs.Options.SpelledScripts

/-!
What becomes of the keys and of the kinds of functions when members of a class are written as entries of the
options. An entry starts with the label of its key as it is. So a word or a number is read back as the same
property; a key in brackets and a private name are read back as other ones, and a text in quotes that is no
word as anything or nothing.
-/

set_option autoImplicit false

namespace VueOptions.Source

open Script

namespace Key

/-- Words and private names are words, and numbers are numbers. -/
def Spelled : Key → Prop
  | .word text _ => Name.IsWord text.toList
  | .privateName text => Name.IsWord text.toList
  | .expression text false => Literal.IsNumeral text.toList
  | _ => True

private theorem spelled_ofTree (source : List Char) (t : Tree) : (Key.ofTree source t).Spelled := by
  unfold Key.ofTree
  split
  · next name _ _ => exact name.isWord
  · trivial
  · next name _ _ => exact name.isWord
  · next isComputed _ number _ _ =>
    cases isComputed with
    | false => exact number.isNumeral
    | true => trivial
  · trivial
  · trivial

def bare : BareName → Key
  | .word name => .word name false
  | .numeral number => .expression number false

/-- The key that is left of a key when its label is written out: brackets and hash signs are lost, and so are
the quotes, which leaves a key only if a word stands between them. -/
def written? : Key → Option Key
  | .word text _ => some (.word text false)
  | .privateName text => some (.word text false)
  | .expression text false => some (.expression text false)
  | .string value _ => if Name.IsWord value.toList then some (.word value false) else none
  | .expression _ true => none

inductive Property
  | named (name : String)
  | numbered (number : String)
  deriving DecidableEq, Repr

/-- The property that a key stands for, if that depends on no value and is not private to the class. -/
def property? : Key → Option Property
  | .word text false => some (.named text)
  | .string value _ => some (.named value)
  | .expression text false => some (.numbered text)
  | _ => none

private theorem property?_of_written? {k k' : Key} (written : k.written? = some k') :
    k'.property? = k.property? ↔ k.property?.isSome = true := by
  cases k with
  | word text isComputed =>
    cases written
    cases isComputed <;> simp [property?]
  | privateName text =>
    cases written
    simp [property?]
  | string value isComputed =>
    rw [written?] at written
    split at written
    · cases written
      simp [property?]
    · cases written
  | expression text isComputed =>
    cases isComputed with
    | false =>
      cases written
      simp [property?]
    | true => cases written

private theorem exists_bareName {k k' : Key} (spelled : k.Spelled) (written : k.written? = some k') :
    ∃ b, bare b = k' ∧ b.text = k.label := by
  cases k with
  | word text isComputed =>
    cases written
    exact ⟨.word ⟨text, spelled⟩, rfl, rfl⟩
  | privateName text =>
    cases written
    exact ⟨.word ⟨text, spelled⟩, rfl, rfl⟩
  | string value isComputed =>
    rw [written?] at written
    split at written
    · next word =>
      cases written
      exact ⟨.word ⟨value, word⟩, rfl, rfl⟩
    · cases written
  | expression text isComputed =>
    cases isComputed with
    | false =>
      cases written
      exact ⟨.numeral ⟨text, spelled⟩, rfl, rfl⟩
    | true => cases written

end Key

theorem spelled_keyOf (source : List Char) (parts : List Tree) : (keyOf source parts).Spelled := by
  unfold keyOf
  split
  · exact Key.spelled_ofTree source _
  · trivial

end VueOptions.Source

namespace VueOptions.Options

open Layout Source Text Script
open Script.Grammar (EntryShape ReadsAs)

private theorem opened_suffix {shape : EntryShape} {opening : String} (mem : opening ∈ shape.openings) :
    shape.opened <:+ opening.toList := by
  cases shape with
  | value => exact List.nil_suffix
  | function isAsync =>
    have either : opening = " (" ∨ opening = "(" := by simpa [EntryShape.openings] using mem
    rcases either with rfl | rfl
    · exact ⟨[' '], rfl⟩
    · exact ⟨[], rfl⟩

private theorem readsAs_written {b : BareName} {shape : EntryShape} {opening : String} (mem : opening ∈ shape.openings)
    (tail : String) (rest : List Action) (width depth : Nat) :
    ∃ more, standAlone width depth (.write (shape.lead ++ (b.text ++ (opening ++ tail))) :: rest) =
        List.replicate (width * depth) ' ' ++
          (shape.lead.toList ++ (b.text.toList ++ (opening.toList ++ more))) ∧
      ReadsAs b shape (standAlone width depth (.write (shape.lead ++ (b.text ++ (opening ++ tail))) :: rest))
        (shape.opened ++ more) := by
  have opens : opening ∈ [": ", " (", "("] := by
    cases shape <;> revert mem <;> simp +contextual [EntryShape.openings]
  simp only [List.mem_cons, List.not_mem_nil, or_false] at opens
  have front : (shape.lead ++ (b.text ++ opening)).toList <+:
      (shape.lead ++ (b.text ++ (opening ++ tail))).toList := by
    simp only [String.toList_append, ← List.append_assoc]
    exact List.prefix_append _ _
  have lead : '\n' ∉ shape.lead.toList := by
    unfold EntryShape.lead
    split <;> decide
  have filled : (shape.lead ++ (b.text ++ opening)).toList ≠ [] := by
    rcases opens with rfl | rfl | rfl <;> simp
  have inLine : '\n' ∉ (shape.lead ++ (b.text ++ opening)).toList := by
    simp only [String.toList_append, List.mem_append, not_or]
    refine ⟨lead, b.feed_not_mem, ?_⟩
    rcases opens with rfl | rfl | rfl <;> decide
  obtain ⟨more, printed⟩ := standAlone_write width depth rest filled inLine front
  simp only [String.toList_append, List.append_assoc] at printed
  refine ⟨more, printed, ?_⟩
  rw [printed]
  cases shape with
  | value =>
    obtain rfl : opening = ": " := by simpa [EntryShape.openings] using mem
    exact Grammar.readsAs_value b (width * depth) more
  | function isAsync =>
    have gaps : opening = " (" ∨ opening = "(" := by simpa [EntryShape.openings] using mem
    rcases gaps with rfl | rfl
    · exact Grammar.readsAs_function b isAsync (width * depth) 1 more
    · exact Grammar.readsAs_function b isAsync (width * depth) 0 more

/-- An entry of the options: the key of the member that it is for, where it stands, and how it is written. -/
structure MemberEntry where
  key : Key
  depth : Nat
  shape : EntryShape
  actions : List Action

inductive MemberEntry.IsOf (d : Dialect) : Node → MemberEntry → Prop
  | data (f : Field) {r : DataField} (read : DataField.ofNode? (.field f) = some r) :
      IsOf d (.field f) ⟨f.key, 3, .value, r.render⟩
  | prop (f : Field) {r : PropField} (read : PropField.ofNode? d (.field f) = some r) :
      IsOf d (.field f) ⟨f.key, 2, .value, r.render⟩
  | ref (f : Field) {r : RefField} (read : RefField.ofNode? d (.field f) = some r) :
      IsOf d (.field f) ⟨f.key, 2, .function false, r.render⟩
  | hook (m : Method) {r : Hook} (read : Hook.ofNode? d (.method m) = some r) :
      IsOf d (.method m) ⟨m.key, 1, .function m.isAsync, r.render⟩
  | method (m : Method) {r : PlainMethod} (read : PlainMethod.ofNode? d (.method m) = some r) :
      IsOf d (.method m) ⟨m.key, 2, .function m.isAsync, r.render⟩
  | handler (m : Method) {r : Watcher} (read : Watcher.ofNode? d (.method m) = some r) :
      IsOf d (.method m) ⟨m.key, 2, .function m.isAsync, r.handler.render⟩
  | emit (m : Method) {r : Emit} (read : Emit.ofNode? d (.method m) = some r) :
      IsOf d (.method m) ⟨m.key, 2, .function m.isAsync, r.render⟩
  | getter (m : Method) {r : Getter} (read : Getter.ofNode? (.method m) = some r) :
      IsOf d (.method m) ⟨m.key, 2, .function false, r.render⟩

namespace MemberEntry

def print (width : Nat) (e : MemberEntry) : List Char := standAlone width e.depth e.actions

variable {d : Dialect} {n : Node} {e : MemberEntry}

theorem IsOf.placed (entry : IsOf d n e) {nodes : List Node} (mem : n ∈ nodes) :
    Placed (Table.reading d nodes) e.depth e.actions := by
  have found {α : Type} {read : Node → Option α} {r : α} (shown : read n = some r) : r ∈ nodes.filterMap read :=
    List.mem_filterMap.mpr ⟨n, mem, shown⟩
  cases entry with
  | data f read => exact .inr ⟨.data, _, rfl, List.mem_map.mpr ⟨_, found read, rfl⟩⟩
  | prop f read => exact .inr ⟨.props, _, rfl, List.mem_map.mpr ⟨_, found read, rfl⟩⟩
  | ref f read =>
    exact .inr ⟨.computed, _, rfl, List.mem_append_right _ (List.mem_map.mpr ⟨_, found read, rfl⟩)⟩
  | hook m read => exact .inl ⟨rfl, _, found read, rfl⟩
  | method m read =>
    exact .inr ⟨.methods, _, rfl, List.mem_append_left _ (List.mem_append_left _
      (List.mem_map.mpr ⟨_, found read, rfl⟩))⟩
  | handler m read =>
    exact .inr ⟨.methods, _, rfl, List.mem_append_right _ (List.mem_map.mpr ⟨_, found read, rfl⟩)⟩
  | emit m read =>
    exact .inr ⟨.methods, _, rfl, List.mem_append_left _ (List.mem_append_right _
      (List.mem_map.mpr ⟨_, found read, rfl⟩))⟩
  | getter m read =>
    exact .inr ⟨.computed, _, rfl, List.mem_append_left _ (List.mem_map.mpr ⟨_, found read, rfl⟩)⟩

def Splices (e : MemberEntry) : Prop :=
  ∃ opening ∈ e.shape.openings, ∃ tail rest,
    e.actions = .write (e.shape.lead ++ (e.key.label ++ (opening ++ tail))) :: rest

private theorem splices_of_head {head : String} {rest : List Action} (opening tail : String)
    (mem : opening ∈ e.shape.openings) (written : e.actions = .write head :: rest)
    (shape : head = e.shape.lead ++ (e.key.label ++ (opening ++ tail))) : e.Splices :=
  ⟨opening, mem, tail, rest, by rw [written, shape]⟩

private theorem splices_signature (key : Key) (depth : Nat) (isAsync : Bool) (parameters : List Parameter)
    (returnType : Option String) (statements : List String) :
    Splices ⟨key, depth, .function isAsync,
      functionEntry (signature isAsync key.label parameters returnType) statements⟩ := by
  obtain ⟨tail, shape⟩ : ∃ tail, signature isAsync key.label parameters returnType =
      (if isAsync then "async " else "") ++ (key.label ++ (" (" ++ tail)) := by
    simp only [signature, String.append_assoc]
    exact ⟨_, rfl⟩
  refine splices_of_head " (" tail (by simp [EntryShape.openings]) rfl (shape.trans ?_)
  cases isAsync <;> rfl

private theorem IsOf.splices (entry : IsOf d n e) : e.Splices := by
  cases entry with
  | data f read =>
    obtain ⟨_, ⟨⟩, -, rfl⟩ := DataField.ofNode?_eq_some_iff.mp read
    exact splices_of_head ": " (f.value.getD "undefined" ++ ",") (by simp [EntryShape.openings]) rfl
      (by simp only [DataField.ofField, EntryShape.lead, String.append_assoc, String.empty_append])
  | prop f read =>
    obtain ⟨_, x, ⟨⟩, -, -, rfl⟩ := PropField.ofNode?_eq_some_iff.mp read
    exact splices_of_head ": " "" (by simp [EntryShape.openings]) rfl
      (by simp only [PropField.name_ofField, EntryShape.lead, String.append_empty, String.empty_append])
  | ref f read =>
    obtain ⟨_, x, ⟨⟩, -, -, rfl⟩ := RefField.ofNode?_eq_some_iff.mp read
    unfold RefField.render RefField.ofField
    cases f.type with
    | none => exact splices_of_head " (" ") " (by simp [EntryShape.openings]) rfl (by simp [EntryShape.lead])
    | some type =>
      refine splices_of_head " (" ("): " ++ (type ++ " ")) (by simp [EntryShape.openings]) rfl ?_
      simp only [EntryShape.lead, String.append_assoc, String.empty_append]
      rfl
  | hook m read =>
    obtain ⟨_, ⟨⟩, -, rfl⟩ := Hook.ofNode?_eq_some_iff.mp read
    exact splices_signature _ _ _ _ _ _
  | method m read =>
    obtain ⟨_, ⟨⟩, -, rfl⟩ := PlainMethod.ofNode?_eq_some_iff.mp read
    exact splices_signature _ _ _ _ _ _
  | handler m read =>
    obtain ⟨_, x, ⟨⟩, -, -, given⟩ := Watcher.ofNode?_eq_some_iff.mp read
    rw [Watcher.handler_of_ofMethod given]
    exact splices_signature _ _ _ _ _ _
  | emit m read =>
    obtain ⟨_, x, ⟨⟩, -, -, rfl⟩ := Emit.ofNode?_eq_some_iff.mp read
    exact splices_signature _ _ _ _ _ _
  | getter m read =>
    obtain ⟨_, ⟨⟩, -, rfl⟩ := Getter.ofNode?_eq_some_iff.mp read
    cases given : (Getter.ofMethod m).returnType with
    | none =>
      refine splices_of_head "(" ") " (by simp [EntryShape.openings]) rfl ?_
      simp only [given, EntryShape.lead, String.empty_append]
      rfl
    | some type =>
      refine splices_of_head "(" ("): " ++ (type ++ " ")) (by simp [EntryShape.openings]) rfl ?_
      simp only [given, EntryShape.lead, String.append_assoc, String.empty_append]
      rfl

theorem Splices.reads (splices : e.Splices) {b : BareName} (label : b.text = e.key.label) (width : Nat) :
    ∃ tail, tail <:+ e.print width ∧ ReadsAs b e.shape (e.print width) tail := by
  obtain ⟨opening, mem, tail, rest, written⟩ := splices
  rw [← label] at written
  obtain ⟨more, printed, reads⟩ := readsAs_written mem tail rest width e.depth
  rw [← written] at printed reads
  refine ⟨_, ?_, reads⟩
  have behind : e.shape.opened ++ more <:+ opening.toList ++ more := by
    obtain ⟨gap, front⟩ := opened_suffix mem
    exact ⟨gap, by rw [← front, List.append_assoc]⟩
  rw [print, printed]
  exact ((behind.trans (List.suffix_append _ _)).trans (List.suffix_append _ _)).trans (List.suffix_append _ _)

def ReadsBack (width : Nat) (k : Key) (e : MemberEntry) : Prop :=
  ∃ b tail, Key.bare b = k ∧ tail <:+ e.print width ∧ ReadsAs b e.shape (e.print width) tail

def IsInstanceMember : Node → Prop
  | .header _ => False
  | .field f => f.isStatic = false
  | .method m => m.isStatic = false ∧ m.body.isSome = true ∧ (m.role = .method ∨ m.role = .get)

private theorem exists_isOf {c : Option Component} (member : IsInstanceMember n) (admits : ∀ p, Pass.Admits d c p n) :
    ∃ e, IsOf d n e := by
  cases n with
  | header h => cases member
  | field f =>
    rcases admits .decoratedField with bare | ⟨x, one, marks⟩
    · exact ⟨_, .data f (DataField.ofNode?_eq_some_iff.mpr ⟨f, rfl, ⟨bare, member⟩, rfl⟩)⟩
    · by_cases isRef : x.name = d.refDecorator
      · exact ⟨_, .ref f (RefField.ofNode?_eq_some_iff.mpr ⟨f, x, rfl, one, isRef, rfl⟩)⟩
      · have isProp := marks.resolve_left isRef
        exact ⟨_, .prop f (PropField.ofNode?_eq_some_iff.mpr ⟨f, x, rfl, one, ⟨isRef, isProp⟩, rfl⟩)⟩
  | method m =>
    obtain ⟨instanced, body, role⟩ := member
    rcases admits .decoratedMethod with bare | ⟨x, one, isMethod, ⟨isWatch, w, read⟩ | ⟨noWatch, isEmit⟩⟩
    · rcases role with isMethod | isGetter
      · have plain : IsPlain .method m := ⟨bare, isMethod, instanced, body⟩
        by_cases isHook : m.key.label ∈ d.target.hooks
        · exact ⟨_, .hook m (Hook.ofNode?_eq_some_iff.mpr ⟨m, rfl, ⟨plain, isHook⟩, rfl⟩)⟩
        · exact ⟨_, .method m (PlainMethod.ofNode?_eq_some_iff.mpr ⟨m, rfl, ⟨plain, isHook⟩, rfl⟩)⟩
      · have plain : IsPlain .get m := ⟨bare, isGetter, instanced, body⟩
        exact ⟨_, .getter m (Getter.ofNode?_eq_some_iff.mpr ⟨m, rfl, plain, rfl⟩)⟩
    · exact ⟨_, .handler m (Watcher.ofNode?_eq_some_iff.mpr ⟨m, x, rfl, one, ⟨isMethod, isWatch⟩, read⟩)⟩
    · exact ⟨_, .emit m (Emit.ofNode?_eq_some_iff.mpr ⟨m, x, rfl, one, ⟨isMethod, noWatch, isEmit⟩, rfl⟩)⟩

theorem IsOf.spelled (entry : IsOf d n e) {source : List Char} {t : Tree} (shows : Node.ofMember? source t = some n) :
    e.key.Spelled := by
  have key : e.key = keyOf source t.children := by
    unfold Node.ofMember? at shows
    split at shows
    · cases shows
      cases entry <;> rfl
    · cases shows
      cases entry <;> rfl
    · cases shows
  rw [key]
  exact spelled_keyOf source t.children

private theorem IsOf.spelled_of_mem (entry : IsOf d n e) {script : String} {m : Module}
    (parsed : Module.parse? script = some m) (mem : n ∈ m.nodes) : e.key.Spelled := by
  obtain ⟨cls, candidate, isNode⟩ := List.mem_flatMap.mp mem
  rcases List.mem_cons.mp isNode with rfl | isMember
  · cases entry
  · obtain ⟨t, shows⟩ := exists_tree_of_mem_candidates parsed candidate isMember
    exact entry.spelled shows

private theorem IsOf.kind_eq_iff {m : Method} (entry : IsOf d (.method m) e) (role : m.role = .method) :
    e.shape.kind? = some (.functionNode m.isAsync m.isGenerator) ↔ m.isGenerator = false := by
  cases entry with
  | getter m read =>
    obtain ⟨_, ⟨⟩, plain, -⟩ := Getter.ofNode?_eq_some_iff.mp read
    rw [plain.2.1] at role
    cases role
  | _ => cases m.isGenerator <;> simp [EntryShape.kind?]

/-- What becomes of the members of a script that is compiled. Each field, method and getter of an instance has
an entry, which stands in the text that is put into house style and starts with the label of the key as it is.
The kind of a method is kept exactly if it is no generator. A key of which a word or a number is left without
its brackets, quotes and hash sign is read back as that; it is the same property exactly if the key stands for
one by itself. -/
theorem member_entries_read_back_as_written {script out : String} (compiled : compileScript d script = .ok out) :
    ∃ m t text, Module.parse? script = some m ∧ Table.ofModule d m = .ok t ∧
      text = Writer.print d.indentWidth (renderModule d m t) ∧
      out = String.ofList (normalize text d.indentWidth) ∧
      ∀ n ∈ m.nodes, (IsInstanceMember n → ∃ e, IsOf d n e) ∧
        ∀ e, IsOf d n e → Placed t e.depth e.actions ∧ e.print d.indentWidth <:+: text ∧ e.Splices ∧
          (∀ f, n = .method f → f.role = .method →
            (e.shape.kind? = some (.functionNode f.isAsync f.isGenerator) ↔ f.isGenerator = false)) ∧
          ∀ k, e.key.written? = some k → e.ReadsBack d.indentWidth k ∧
            (k.property? = e.key.property? ↔ e.key.property?.isSome = true) := by
  obtain ⟨m, table, parsed, accepted, rfl⟩ := compileScript_eq_ok_iff.mp compiled
  obtain ⟨run, found⟩ := Table.ofModule_eq_ok_iff.mp accepted
  obtain ⟨admits, rfl⟩ := Table.ofNodes_eq_ok_iff.mp run
  obtain ⟨c, component⟩ := Option.ne_none_iff_exists'.mp found
  have printed := print_renderModule (d := d) parsed component
  refine ⟨m, _, _, parsed, accepted, rfl, rfl, fun n mem => ⟨fun member => ?_, fun e entry => ?_⟩⟩
  · obtain ⟨before, after, split⟩ := List.append_of_mem mem
    exact exists_isOf member (admits before n after split)
  · have placed := entry.placed mem
    refine ⟨placed, printed ▸ placed.isInfix_text, entry.splices, ?_, fun k written => ?_⟩
    · rintro f rfl role
      exact entry.kind_eq_iff role
    · have spelled := entry.spelled_of_mem parsed mem
      obtain ⟨b, key, label⟩ := Key.exists_bareName spelled written
      obtain ⟨tail, suffix, reads⟩ := entry.splices.reads label d.indentWidth
      exact ⟨⟨b, tail, key, suffix, reads⟩, Key.property?_of_written? written⟩

def variedKeysScript : String :=
  "@Component class A \x7b 2 = 3; 'w' = 4; [c] = 5; @Prop() q; async load() \x7b\x7d get g() \x7b\x7d \x7d"

def memberHead? : Node → Option (Key × Option (Bool × Bool))
  | .header _ => none
  | .field f => some (f.key, none)
  | .method m => some (m.key, some (m.isAsync, m.isGenerator))

/-- All members of that component have entries, which are read back under what is written of their keys. -/
theorem varied_keys_read_back :
    ∃ m, Module.parse? variedKeysScript = some m ∧
      (m.nodes.filterMap memberHead?).map (fun h => h.1.written?) =
        [some (.expression "2" false), some (.word "w" false), some (.word "c" false), some (.word "q" false),
          some (.word "load" false), some (.word "g" false)] ∧
      ∀ n ∈ m.nodes, (IsInstanceMember n → ∃ e, IsOf {} n e) ∧
        ∀ e, IsOf {} n e → ∀ k, e.key.written? = some k → e.ReadsBack 4 k := by
  have checked : ((Module.parse? variedKeysScript).map fun m => (m.nodes.filterMap memberHead?).map
      fun h => h.1.written?, (compileScript {} variedKeysScript).isOk) =
      (some [some (.expression "2" false), some (.word "w" false), some (.word "c" false), some (.word "q" false),
        some (.word "load" false), some (.word "g" false)], true) := by
    decide +kernel
  obtain ⟨keys, compiles⟩ := Prod.mk.inj checked
  cases compiled : compileScript {} variedKeysScript with
  | error fault =>
    rw [compiled] at compiles
    cases compiles
  | ok out =>
    obtain ⟨m, t, text, parsed, -, -, -, members⟩ := member_entries_read_back_as_written compiled
    rw [parsed] at keys
    refine ⟨m, parsed, Option.some.inj keys, fun n mem => ⟨(members n mem).1, fun e entry k written => ?_⟩⟩
    obtain ⟨-, -, -, -, back⟩ := (members n mem).2 e entry
    exact (back k written).1

/-- A generator, a key in brackets and a private name. -/
def changedHeadsScript : String := "@Component class A \x7b *gen() \x7b\x7d [c] = 4; #p = 5 \x7d"

def changedHeadsOutput : String :=
  "import \x7b defineComponent \x7d from 'vue'\n\ntype Data = \x7b\n    c: any\n    p: any\n\x7d\n\n"
    ++ "export default defineComponent(\x7b\n    name: 'A',\n\n    data (): Data \x7b\n        return \x7b\n"
    ++ "            c: 4,\n            p: 5,\n        \x7d\n    \x7d,\n\n    methods: \x7b\n        gen () \x7b\n"
    ++ "        \x7d,\n    \x7d,\n\x7d)\n"

def dashedKeyScript : String := "@Component class A \x7b 'a-b' = 1 \x7d"

def dashedKeyOutput : String :=
  "import \x7b defineComponent \x7d from 'vue'\n\ntype Data = \x7b\n    a-b: any\n\x7d\n\n"
    ++ "export default defineComponent(\x7b\n    name: 'A',\n\n    data (): Data \x7b\n        return \x7b\n"
    ++ "            a-b: 1,\n        \x7d\n    \x7d,\n\x7d)\n"

/-- The keys of the entries of all object literals, and what their functions are. -/
def entryHeads (source : List Char) : Option (List (Key × Option (Bool × Bool))) :=
  (Tree.ofModule? source).map fun t => t.nodes.filterMap fun u =>
    match u with
    | .node (.entry _) _ [key, .node (.functionNode isAsync isGenerator) _ _] =>
      some (Key.ofTree source key, some (isAsync, isGenerator))
    | .node (.entry _) _ [key, _] => some (Key.ofTree source key, none)
    | _ => none

/-- A generator becomes a plain method, a key in brackets and a private name become words, and a key in quotes
makes the module unreadable. -/
theorem entries_may_change_key_or_kind :
    compileScript {} changedHeadsScript = .ok changedHeadsOutput ∧
      (Module.parse? changedHeadsScript).map (fun m => m.nodes.filterMap memberHead?) =
        some [(.word "gen" false, some (false, true)), (.word "c" true, none), (.privateName "p", none)] ∧
      entryHeads changedHeadsOutput.toList =
        some [(.word "name" false, none), (.word "data" false, some (false, false)), (.word "c" false, none),
          (.word "p" false, none), (.word "methods" false, none), (.word "gen" false, some (false, false))] ∧
      compileScript {} dashedKeyScript = .ok dashedKeyOutput ∧ entryHeads dashedKeyOutput.toList = none := by
  have changed : Spelled changedHeadsScript _ := .literal rfl
  have changedOut : Spelled changedHeadsOutput _ :=
    .append (.append (.append (.literal rfl) (.literal rfl)) (.literal rfl)) (.literal rfl)
  have dashed : Spelled dashedKeyScript _ := .literal rfl
  have dashedOut : Spelled dashedKeyOutput _ := .append (.append (.literal rfl) (.literal rfl)) (.literal rfl)
  rw [parse?_of_spelled changed, changedOut.toList_eq, dashedOut.toList_eq]
  refine ⟨compileScript_of_spelled changed changedOut ?_, ?_, ?_,
    compileScript_of_spelled dashed dashedOut ?_, ?_⟩ <;> decide +kernel

end MemberEntry

end VueOptions.Options
