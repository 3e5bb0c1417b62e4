import VueOptions.Proofs.Options.MemberFidelity
import VueOptions.Proofs.Source.NamedEntries
import VueOptions.Proofs.Options.SpelledScripts

/-!
Props as they are written. The options of a prop are the values of the last properties with their names, or a
first argument that is no object literal for the type. The entry has a line for each option that is given, with
the source text of the value and nothing of the property before it: of a property that is a method this leaves
out what makes it a function.
-/

set_option autoImplicit false

namespace VueOptions.Source

open Script

private theorem Expression.text_ofTree (source : List Char) (t : Tree) :
    (Expression.ofTree source t).text = t.span.text source := by
  unfold Expression.ofTree
  split <;> rfl

private theorem Expression.ofTree_eq_true_iff {source : List Char} {t : Tree} :
    (∃ text, Expression.ofTree source t = .boolean text true) ↔ t.kind = .boolean true := by
  unfold Expression.ofTree
  split <;> simp_all [Tree.kind]

private theorem Expression.exists_call {source : List Char} {t : Tree} {text callee : String}
    {arguments : List Argument} (shown : Expression.ofTree source t = .call text callee arguments) :
    ∃ k s c ts, t = .node (.call k) s (c :: ts) := by
  unfold Expression.ofTree at shown
  split at shown
  case h_5 k s c ts => exact ⟨k, s, c, ts, rfl⟩
  all_goals cases shown

private theorem Expression.ofTree_ne_object {source : List Char} {t : Tree}
    (noObject : ∀ s ts, t = .node .object s ts → False) (text : String) (entries : List Entry) :
    Expression.ofTree source t ≠ .object text entries := by
  intro shown
  unfold Expression.ofTree at shown
  split at shown
  case h_4 s ts => exact noObject s ts rfl
  all_goals cases shown

/-- An argument of a call that is neither spread nor a list of types. -/
def Argument.isValue : Tree → Bool
  | .node .typeArguments _ _ => false
  | .node .spread _ _ => false
  | _ => true

private theorem Argument.values_ofTrees (source : List Char) (ts : List Tree) :
    (Argument.ofTrees source ts).filterMap Argument.value? =
      (ts.filter Argument.isValue).map (Expression.ofTree source) := by
  induction ts with
  | nil => rfl
  | cons t ts ih =>
    rw [List.filter_cons]
    fun_cases Argument.isValue t with
    | case1 => simpa [Argument.ofTrees] using ih
    | case2 => simpa [Argument.ofTrees, List.filterMap_cons, Argument.value?] using ih
    | case3 t notTypes notSpread => simpa [Argument.ofTrees, List.filterMap_cons, Argument.value?] using ih

namespace Decorator

def argumentTrees (decorator : Tree) : List Tree :=
  match decorator.children with
  | [.node (.call _) _ (_ :: arguments)] => arguments.filter Argument.isValue
  | _ => []

private theorem values_ofTree (source : List Char) (t : Tree) :
    (ofTree source t).values = (argumentTrees t).map (Expression.ofTree source) := by
  fun_cases argumentTrees t with
  | case1 k s callee arguments shape =>
    rw [ofTree, shape]
    exact Argument.values_ofTrees source arguments
  | case2 noCall =>
    unfold ofTree
    split
    · next e shape =>
      cases shown : Expression.ofTree source e with
      | call text callee arguments =>
        obtain ⟨k, s, c, ts, rfl⟩ := Expression.exists_call shown
        exact (noCall k s c ts shape).elim
      | _ => rfl
    · rfl

end Decorator

end VueOptions.Source

namespace VueOptions.Options

open Layout Source Text Script
open Script.Grammar (ReadsAs readsAs_value)

inductive PropOption
  | type
  | required
  | default
  | validator
  deriving DecidableEq, Repr

namespace PropOption

def all : List PropOption := [.type, .required, .default, .validator]

def label : PropOption → String
  | .type => "type"
  | .required => "required"
  | .default => "default"
  | .validator => "validator"

private theorem isWord_label (o : PropOption) : Name.IsWord o.label.toList := by
  cases o <;> decide

def word (o : PropOption) : Name.Word := ⟨o.label, o.isWord_label⟩

/-- What an argument gives for an option: an object literal the value of the last property with the name of
the option, and anything else a type. -/
def ofArgument? (source : List Char) (o : PropOption) : Tree → Option Tree
  | .node .object _ properties =>
    (properties.reverse.find? fun t => NamedEntry.label? source t == some o.label).map NamedEntry.valueTree
  | t => if o = .type then some t else none

def given? (source : List Char) (decorator : Tree) (o : PropOption) : Option Tree :=
  (Decorator.argumentTrees decorator).head?.bind (o.ofArgument? source)

/-- What a prop keeps of what is given for an option: the source text, except that only the literal `true`
makes a prop required. -/
def kept? (source : List Char) : PropOption → Tree → Option String
  | .required, t => if t.kind = .boolean true then some "true" else none
  | _, t => some (t.span.text source)

def written (declared : String) : PropOption → String → String
  | .type, text => text ++ (" as PropType<" ++ (declared ++ ">"))
  | _, text => text

def lines (source : List Char) (declared : String) (decorator : Tree) : List (PropOption × String) :=
  all.filterMap fun o =>
    ((given? source decorator o).bind (o.kept? source)).map fun text => (o, o.written declared text)

def line (l : PropOption × String) : List Action := Action.line (l.1.label ++ ": " ++ (l.2 ++ ","))

private theorem isEntry_line (l : PropOption × String) (depth : Nat) : IsEntry depth (line l) :=
  IsEntry.line (c := ':') (by simp) (by decide)

private theorem map_fst_lines (source : List Char) (declared : String) (decorator : Tree) :
    (lines source declared decorator).map Prod.fst =
      all.filter fun o => ((given? source decorator o).bind (o.kept? source)).isSome := by
  rw [lines, List.map_filterMap]
  induction all with
  | nil => rfl
  | cons o os ih =>
    rw [List.filterMap_cons, List.filter_cons, ih]
    cases (given? source decorator o).bind (o.kept? source) <;> rfl

private theorem exists_of_mem_lines {source : List Char} {declared text : String} {decorator : Tree} {o : PropOption}
    (mem : (o, text) ∈ lines source declared decorator) :
    ∃ u kept, given? source decorator o = some u ∧ o.kept? source u = some kept ∧
      text = o.written declared kept := by
  obtain ⟨o, -, found⟩ := List.mem_filterMap.mp mem
  obtain ⟨kept, keeps, ⟨⟩⟩ := Option.map_eq_some_iff.mp found
  obtain ⟨u, given, keeps⟩ := Option.bind_eq_some_iff.mp keeps
  exact ⟨u, kept, given, keeps, rfl⟩

private theorem exists_readsAs_line (l : PropOption × String) (width depth : Nat) :
    ∃ v, standAlone width depth (line l) = List.replicate (width * depth) ' ' ++
        (l.1.label.toList ++ (": ".toList ++ (v ++ ",\n".toList))) ∧
      Reindents (feedFlags (l.1.label ++ ": " ++ (l.2 ++ ",")).toList) l.2.toList v ∧
      ReadsAs (.word l.1.word) .value (standAlone width depth (line l)) (v ++ ",\n".toList) := by
  obtain ⟨o, text⟩ := l
  have solid : StartsSolid ",".toList := ⟨',', [], rfl, by decide⟩
  obtain ⟨v, printed, moved⟩ := exists_standAlone_line width depth text (by cases o <;> decide)
    (by cases o <;> decide : '\n' ∉ (o.label ++ ": ").toList) (by decide) solid
  rw [String.toList_append, List.append_assoc] at printed
  refine ⟨v, printed, moved, ?_⟩
  rw [line, printed]
  exact readsAs_value (.word o.word) (width * depth) _

def keeps? : PropOption → Expression → Option String
  | .required, .boolean _ true => some "true"
  | .required, _ => none
  | _, e => some e.text

private theorem keeps?_ofTree (source : List Char) (o : PropOption) (t : Tree) :
    o.keeps? (Expression.ofTree source t) = o.kept? source t := by
  cases o with
  | required =>
    rw [kept?]
    split
    · next literal =>
      obtain ⟨text, shown⟩ := Expression.ofTree_eq_true_iff.mpr literal
      rw [shown]
      rfl
    · next other =>
      cases shown : Expression.ofTree source t with
      | boolean text value =>
        cases value with
        | false => rfl
        | true => exact (other (Expression.ofTree_eq_true_iff.mp ⟨text, shown⟩)).elim
      | _ => rfl
  | _ => exact congrArg some (Expression.text_ofTree source t)

private theorem keeps?_value {source : List Char} {t : Tree} {n : NamedEntry}
    (shows : NamedEntry.ofTree? source t = some n) (o : PropOption) :
    o.keeps? n.value = o.kept? source (NamedEntry.valueTree t) := by
  revert shows
  fun_cases NamedEntry.ofTree? source t with
  | case1 form s key value more =>
    rintro ⟨⟩
    exact keeps?_ofTree source o value
  | case2 form s key shown =>
    rintro ⟨⟩
    cases o <;> rfl
  | case3 =>
    intro shows
    cases shows

end PropOption

namespace PropField

open PropOption

private theorem nativeType_ofField (f : Field) (x : Decorator) : (ofField f x).nativeType = f.type.getD "any" := by
  have step (p : PropField) (o : String × Expression) : (withOption p o).nativeType = p.nativeType := by
    simp only [withOption]
    repeat' split
    all_goals rfl
  have run (options : List (String × Expression)) (p : PropField) :
      (options.foldl withOption p).nativeType = p.nativeType := by
    induction options generalizing p with
    | nil => rfl
    | cons o options ih => rw [List.foldl_cons, ih, step]
  unfold ofField
  split
  · exact run _ _
  · rfl
  · rfl

def held? (p : PropField) : PropOption → Option String
  | .type => p.propType
  | .required => if p.isRequired then some "true" else none
  | .default => p.default
  | .validator => p.validator

private theorem held?_withOption (p : PropField) (name : String) (e : Expression) (o : PropOption) :
    (withOption p (name, e)).held? o = if name = o.label then o.keeps? e else p.held? o := by
  by_cases type : name = "type"
  · cases type
    cases o <;> rfl
  by_cases default : name = "default"
  · cases default
    cases o <;> rfl
  by_cases validator : name = "validator"
  · cases validator
    cases o <;> rfl
  by_cases required : name = "required"
  · cases required
    cases o with
    | required => rcases e with _ | ⟨_, _ | _⟩ | _ | _ <;> rfl
    | _ => rfl
  · cases o <;> simp [withOption, held?, label, type, default, validator, required]

private theorem held?_foldl (source : List Char) (ts : List Tree) (p : PropField) (o : PropOption) :
    ((Entry.pairs (Entry.ofTrees source ts)).foldl withOption p).held? o =
      ((ts.reverse.find? fun t => NamedEntry.label? source t == some o.label).map fun t =>
        o.kept? source (NamedEntry.valueTree t)).getD (p.held? o) := by
  have writes (p : PropField) (e : Expression) : (withOption p (o.label, e)).held? o = o.keeps? e := by
    rw [held?_withOption, if_pos rfl]
  have leaves (p : PropField) (name : String) (e : Expression) (other : name ≠ o.label) :
      (withOption p (name, e)).held? o = p.held? o := by
    rw [held?_withOption, if_neg other]
  rw [foldl_pairs_slot (held? · o) o.keeps? writes leaves, NamedEntry.last?_ofTrees]
  cases found : ts.reverse.find? fun t => NamedEntry.label? source t == some o.label with
  | none => rfl
  | some t =>
    have called : (NamedEntry.ofTree? source t).map (fun n => n.key.label) = some o.label := by
      rw [NamedEntry.map_label_ofTree?]
      simpa using List.find?_some found
    obtain ⟨n, shows, -⟩ := Option.map_eq_some_iff.mp called
    rw [Option.bind_some, shows]
    exact keeps?_value shows o

private theorem held?_ofField (source : List Char) (f : Field) (t : Tree) (o : PropOption) :
    (ofField f (Decorator.ofTree source t)).held? o = (given? source t o).bind (o.kept? source) := by
  rw [ofField, Decorator.values_ofTree, List.head?_map, given?]
  cases (Decorator.argumentTrees t).head? with
  | none => cases o <;> rfl
  | some u =>
    rw [Option.map_some, Option.bind_some]
    fun_cases ofArgument? source o u with
    | case1 s properties =>
      refine (held?_foldl source properties _ o).trans ?_
      cases properties.reverse.find? fun t => NamedEntry.label? source t == some o.label with
      | none => cases o <;> rfl
      | some u => rfl
    | case2 u noObject type =>
      cases type
      rw [Option.bind_some, kept?, ← Expression.text_ofTree]
      · cases shown : Expression.ofTree source u with
        | object text entries => exact (Expression.ofTree_ne_object noObject text entries shown).elim
        | _ => rfl
      · nofun
    | case3 u noObject other =>
      cases shown : Expression.ofTree source u with
      | object text entries => exact (Expression.ofTree_ne_object noObject text entries shown).elim
      | _ => cases o <;> first | rfl | exact (other rfl).elim

private theorem render_eq (p : PropField) :
    p.render = blockEntry (p.name ++ ": ")
      ((all.filterMap fun o => (p.held? o).map fun text => (o, o.written p.nativeType text)).flatMap line) := by
  obtain ⟨name, isReadonly, isRequired, propType, nativeType, default, validator⟩ := p
  cases propType <;> cases isRequired <;> cases default <;> cases validator <;>
    simp [render, all, held?, line, label, written, String.append_assoc]

private theorem render_ofField (source : List Char) (f : Field) (t : Tree) :
    (ofField f (Decorator.ofTree source t)).render =
      blockEntry (f.key.label ++ ": ") ((lines source (f.type.getD "any") t).flatMap line) := by
  rw [render_eq, name_ofField]
  simp only [lines, held?_ofField, nativeType_ofField]

/-- The line of an option holds what is kept of the value that is given for it, with other indentation, and is read as
that value under the name of the option wherever it stands. -/
structure IsLineOf (source : List Char) (declared : String) (decorator : Tree) (width depth : Nat) (o : PropOption)
    (text : String) : Prop where
  given : ∃ u kept, given? source decorator o = some u ∧ o.kept? source u = some kept ∧ text = o.written declared kept
  reads : ∃ v, standAlone width depth (line (o, text)) = List.replicate (width * depth) ' ' ++
        (o.label.toList ++ (": ".toList ++ (v ++ ",\n".toList))) ∧
      Reindents (feedFlags (o.label ++ ": " ++ (text ++ ",")).toList) text.toList v ∧
      ReadsAs (.word o.word) .value (standAlone width depth (line (o, text))) (v ++ ",\n".toList)

def body (width depth : Nat) (ls : List (PropOption × String)) : List Char :=
  ls.flatMap fun l => standAlone width depth (line l)

structure ListsGiven (source : List Char) (f : Field) (decorator : Tree) (width depth : Nat) (entry : List Action)
    (ls : List (PropOption × String)) : Prop where
  rendered : entry = blockEntry (f.key.label ++ ": ") (ls.flatMap line)
  printed : ∀ b : BareName, b.text = f.key.label →
    standAlone width depth entry = framed width depth (b.text ++ ": \x7b") (body width (depth + 1) ls) "\x7d,"
  reads : ∀ b : BareName, b.text = f.key.label →
    ReadsAs b .value (standAlone width depth entry)
      ('\x7b' :: '\n' :: (body width (depth + 1) ls ++ textLine width depth "\x7d,"))
  options : ls.map Prod.fst = all.filter fun o => ((given? source decorator o).bind (o.kept? source)).isSome
  lines : ∀ o text, (o, text) ∈ ls → IsLineOf source (f.type.getD "any") decorator width (depth + 1) o text

private theorem standAlone_blockEntry (b : BareName) (width depth : Nat) (ls : List (PropOption × String)) :
    standAlone width depth (blockEntry (b.text ++ ": ") (ls.flatMap line)) =
      framed width depth (b.text ++ ": \x7b") (body width (depth + 1) ls) "\x7d," := by
  refine PrintsFilled.standAlone_eq (.framedWith ?_ ?_ rfl (by decide) (.flatMap ls fun l => isEntry_line l _))
  · simpa using b.feed_not_mem
  · simp [String.append_assoc]

/-- The entry of a prop has a line for each option that the decorator gives, in a fixed order. -/
theorem entry_lists_last_given_options (source : List Char) (f : Field) (decorator : Tree) (width depth : Nat) :
    ListsGiven source f decorator width depth (ofField f (Decorator.ofTree source decorator)).render
      (lines source (f.type.getD "any") decorator) := by
  rw [render_ofField]
  refine ⟨rfl, fun b label => ?_, fun b label => ?_, map_fst_lines source _ decorator, fun o text mem =>
    ⟨exists_of_mem_lines mem, exists_readsAs_line (o, text) width (depth + 1)⟩⟩
  · rw [← label, standAlone_blockEntry]
  · rw [← label, standAlone_blockEntry]
    have reads := readsAs_value b (width * depth) ('\x7b' :: '\n' ::
      (body width (depth + 1) (lines source (f.type.getD "any") decorator) ++ textLine width depth "\x7d,"))
    simpa [framed, textLine] using reads

def methodDefaultScript : String :=
  "@Component class A \x7b @Prop(\x7b default() \x7b return 1 \x7d \x7d) p: number \x7d"

def arrowTypeScript : String := "@Component class A \x7b @Prop(\x7b type: () => X \x7d) p: T \x7d"

def singleLineOutput (text : String) : String :=
  "import \x7b defineComponent \x7d from 'vue'\nimport type \x7b PropType \x7d from 'vue'\n\n"
    ++ "export default defineComponent(\x7b\n    name: 'A',\n\n    props: \x7b\n        p: \x7b\n            "
    ++ text ++ "\n        \x7d,\n    \x7d,\n\x7d)\n"

/-- What the values are that the object literals of a module give for an option. -/
def valueKinds? (script : String) (o : PropOption) : Option (List Kind) :=
  (Tree.ofModule? script.toList).map fun t => t.nodes.filterMap fun u =>
    if NamedEntry.label? script.toList u = some o.label then some (NamedEntry.valueTree u).kind else none

/-- A method becomes parameters with a block, which makes the module unreadable, and an arrow function takes
the cast of the type into its body. -/
theorem entry_may_lose_function_or_cast :
    compileScript {} methodDefaultScript = .ok (singleLineOutput "default: () \x7b return 1 \x7d,") ∧
      valueKinds? methodDefaultScript .default = some [.functionNode false false] ∧
      valueKinds? (singleLineOutput "default: () \x7b return 1 \x7d,") .default = none ∧
      compileScript {} arrowTypeScript = .ok (singleLineOutput "type: () => X as PropType<T>,") ∧
      valueKinds? (singleLineOutput "type: () => X as PropType<T>,") .type = some [.arrow false] := by
  have method : Spelled methodDefaultScript _ := .literal rfl
  have arrow : Spelled arrowTypeScript _ := .literal rfl
  have methodOut : Spelled (singleLineOutput "default: () \x7b return 1 \x7d,") _ :=
    .append (.append (.append (.literal rfl) (.literal rfl)) (.literal rfl)) (.literal rfl)
  have arrowOut : Spelled (singleLineOutput "type: () => X as PropType<T>,") _ :=
    .append (.append (.append (.literal rfl) (.literal rfl)) (.literal rfl)) (.literal rfl)
  unfold valueKinds?
  rw [method.toList_eq, methodOut.toList_eq, arrowOut.toList_eq]
  refine ⟨compileScript_of_spelled method methodOut ?_, ?_, ?_, compileScript_of_spelled arrow arrowOut ?_, ?_⟩ <;>
    decide +kernel

end PropField

end VueOptions.Options
