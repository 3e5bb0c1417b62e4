import VueOptions.Proofs.Layout.Literals
import VueOptions.Proofs.Options.Compilation
import VueOptions.Proofs.Options.OptionMaps
import VueOptions.Proofs.Source.StatementGroups
import VueOptions.Proofs.Options.SpelledScripts

/-!
Literals of members in the output. A member is written as an entry made of fragments: the line of a field, or
the head of a function and its statements. Its literals stand in its entry as they are and in their order, if
they stay within a line; those that go over lines do so where each line that begins inside one is seen to begin
in a template literal. House style then keeps their order and values.
-/

set_option autoImplicit false

namespace VueOptions.Source

open Layout Script Text

/-! ### Where the literals of a member stand -/

def memberTrees (source : List Char) (module : Tree) : List Tree :=
  ((statementsOf module).filterMap declaredClass?).flatMap fun c =>
    if (ClassHeader.ofParts source c.children).isCandidate then
      match c.children.find? fun b => b.kind == .classBody with
      | some body => body.children
      | none => []
    else []

private theorem ofTree_of_declaredClass? (source : List Char) {s c : Tree} (declares : declaredClass? s = some c) :
    StatementForm.ofTree source s = .classLike (ClassDeclaration.ofTree source c) := by
  have shown := shows_ofTree source s
  have profile : (Profile.ofTree s).declares = some c := declares
  generalize StatementForm.ofTree source s = form at shown ⊢
  cases shown with
  | @declares c' same =>
    rw [same] at profile
    obtain rfl := Option.some.inj profile
    rfl
  | imports same | default same | exports same | plain same =>
    rw [same] at profile
    cases profile

private theorem mem_nodes_of_mem_memberTrees {source : List Char} {module t : Tree} {n : Node}
    (mem : t ∈ memberTrees source module) (shows : Node.ofMember? source t = some n) :
    n ∈ (Module.ofTree source module).nodes := by
  obtain ⟨c, declared, mem⟩ := List.mem_flatMap.mp mem
  obtain ⟨s, isStatement, declares⟩ := List.mem_filterMap.mp declared
  split at mem
  · next isCandidate =>
    have candidate : ClassDeclaration.ofTree source c ∈ (Module.ofTree source module).candidates := by
      refine List.mem_filterMap.mpr ⟨_, List.mem_map.mpr ⟨s, isStatement, rfl⟩, ?_⟩
      rw [Statement.candidate?, ofTree_of_declaredClass? source declares]
      exact if_pos isCandidate
    refine List.mem_flatMap.mpr ⟨_, candidate, List.mem_cons_of_mem _ ?_⟩
    unfold ClassDeclaration.ofTree
    dsimp only
    cases found : c.children.find? fun b => b.kind == .classBody with
    | none =>
      rw [found] at mem
      cases mem
    | some body =>
      rw [found] at mem
      exact List.mem_filterMap.mpr ⟨t, mem, shows⟩
  · cases mem

def statementTrees (t : Tree) : List Tree :=
  match t.children.find? fun c => c.kind == .body with
  | some body => body.children.filter fun s => s.kind != .directive
  | none => []

/-- What a parameter shows besides a name: a pattern, or a binding with its default. -/
def bindingSpan? : List Tree → Option Span
  | [] => none
  | .node (.binding _) _ (target :: _) :: _ =>
    match target.kind with
    | .identifier _ => none
    | _ => some target.span
  | .node .defaulted s _ :: _ => some s
  | .node .rest _ (target :: _) :: _ => some target.span
  | _ :: ts => bindingSpan? ts

/-- The bindings among the parameters of a function that are more than a name. -/
def parameterSpans (t : Tree) : List Span :=
  match t.children.find? fun c => c.kind == .parameters with
  | some ps => ps.children.filterMap fun p =>
      match p.kind with
      | .parameter _ => bindingSpan? p.children
      | _ => none
  | none => []

def valueSpans (t : Tree) : List Span :=
  ((t.children.find? fun c =>
    match c.kind with
    | .decorator | .key _ | .typing => false
    | _ => true).map Tree.span).toList

private theorem isInfix_of_bindingSpan? {source : List Char} {ts : List Tree} {span : Span}
    (more : bindingSpan? ts = some span) :
    ∃ p, Parameter.ofParts source ts = some p ∧ span.of source <:+: p.name.toList := by
  fun_induction bindingSpan? ts with
  | case1 => cases more
  | case2 isOptional s target typing ts name kind => cases more
  | case3 isOptional s target typing ts kind =>
    obtain rfl := Option.some.inj more
    refine ⟨_, rfl, ?_⟩
    unfold Parameter.ofBinding
    split
    · next name named => exact absurd named (kind name)
    · simp only [Span.text, String.toList_ofList]
      exact List.infix_refl _
  | case4 s cs ts =>
    obtain rfl := Option.some.inj more
    refine ⟨_, rfl, ?_⟩
    simp only [Span.text, String.toList_ofList]
    exact List.infix_refl _
  | case5 s target typing ts =>
    obtain rfl := Option.some.inj more
    refine ⟨_, rfl, ?_⟩
    exact ⟨"...".toList, [], by simp [Span.text]⟩
  | case6 t ts noBinding noDefault noRest ih =>
    obtain ⟨p, shown, inside⟩ := ih more
    refine ⟨p, ?_, inside⟩
    rw [Parameter.ofParts, shown]
    · exact noBinding
    · exact noDefault
    · exact noRest

private theorem exists_paired {α β γ : Type} {f : α → Option β} {g : α → Option γ} {R : β → γ → Prop}
    {xs : List α} (both : ∀ x ∈ xs, ∀ c, g x = some c → ∃ b, f x = some b ∧ R b c) :
    ∃ items : List (β × Option γ), items.map Prod.fst = xs.filterMap f ∧
      items.filterMap Prod.snd = xs.filterMap g ∧ ∀ i ∈ items, ∀ c, i.2 = some c → R i.1 c := by
  induction xs with
  | nil => exact ⟨[], rfl, rfl, nofun⟩
  | cons x xs ih =>
    obtain ⟨items, first, second, related⟩ := ih fun y mem => both y (List.mem_cons_of_mem x mem)
    have here := both x List.mem_cons_self
    cases found : f x with
    | none =>
      have none : g x = none := by
        refine Option.eq_none_iff_forall_ne_some.mpr fun c bound => ?_
        obtain ⟨b, some, -⟩ := here c bound
        rw [found] at some
        cases some
      exact ⟨items, by simp [found, first], by simp [none, second], related⟩
    | some b =>
      refine ⟨(b, g x) :: items, by simp [found, first], by simp [List.filterMap_cons, second], ?_⟩
      rintro i (_ | ⟨_, mem⟩)
      · intro c bound
        obtain ⟨b', same, holds⟩ := here c bound
        obtain rfl := Option.some.inj (found.symm.trans same)
        exact holds
      · exact related i mem

private theorem exists_bindings (source : List Char) (t : Tree) : ∃ items : List (Parameter × Option Span),
    items.map Prod.fst = Parameter.ofFunction source t.children ∧
      items.filterMap Prod.snd = parameterSpans t ∧
      ∀ i ∈ items, ∀ span, i.2 = some span → span.of source <:+: i.1.name.toList := by
  unfold Parameter.ofFunction parameterSpans
  cases t.children.find? fun c => c.kind == .parameters with
  | none => exact ⟨[], rfl, rfl, nofun⟩
  | some ps =>
    dsimp only
    let R (p : Parameter) (span : Span) : Prop := span.of source <:+: p.name.toList
    refine exists_paired (R := R) fun p _ span bound => ?_
    cases kind : p.kind with
    | parameter _ =>
      simp only [kind] at bound ⊢
      exact isInfix_of_bindingSpan? bound
    | _ =>
      simp only [kind] at bound
      cases bound

end VueOptions.Source

namespace VueOptions.Options

open Layout Script Source Text

/-! ### How a member is written -/

/-- A text that is handed to the writer, with the places in the source that its literals come from. -/
structure Fragment where
  spans : List Span
  text : String

def Fragment.literals (r : Reading) (choose : Passage → Bool) (f : Fragment) : List Passage :=
  f.spans.flatMap (r.literals choose)

/-- The entry of a member: the line of a field, or the head of a function with its statements. -/
structure MemberText where
  depth : Nat
  head : Fragment
  statements : Option (List Fragment)

namespace MemberText

def fragments (e : MemberText) : List Fragment := e.head :: e.statements.getD []

def actions (e : MemberText) : List Action :=
  match e.statements with
  | none => Action.line e.head.text
  | some fs => functionEntry e.head.text (fs.map Fragment.text)

def print (width : Nat) (e : MemberText) : List Char := standAlone width e.depth e.actions

def literals (r : Reading) (choose : Passage → Bool) (e : MemberText) : List Passage :=
  e.fragments.flatMap (Fragment.literals r choose)

private theorem isLiteral_of_mem_literals {r : Reading} {choose : Passage → Bool} {e : MemberText} {p : Passage}
    (mem : p ∈ e.literals r choose) : p ∈ r.passed ∧ p.isLiteral = true := by
  obtain ⟨f, -, ofFragment⟩ := List.mem_flatMap.mp mem
  obtain ⟨span, -, inSpan⟩ := List.mem_flatMap.mp ofFragment
  obtain ⟨passed, chosen⟩ := List.mem_filter.mp inSpan
  exact ⟨passed, (Bool.and_eq_true_iff.mp (Bool.and_eq_true_iff.mp chosen).1).1⟩

end MemberText

def openingText : List Action → String
  | .write text :: _ => text
  | _ => ""

def Fragment.ofStatement (source : List Char) (s : Tree) : Fragment :=
  ⟨[s.span], String.ofList (dedent source s.span)⟩

/-- The statements of an emit: a value that is returned at the end goes to the trigger of the event. -/
def emitFragments (source : List Char) (t : Tree) (e : Emit) : List Fragment :=
  let fragments := (statementTrees t).map (Fragment.ofStatement source)
  match (statementTrees t).getLast?.filter fun s => s.kind == .returnStatement with
  | some last => fragments.dropLast ++ [⟨(last.children.head?.map Tree.span).toList,
      trigger e.event (typeText source last) e.parameters⟩]
  | none => fragments ++ [⟨[], trigger e.event none e.parameters⟩]

def functionText (depth : Nat) (spans : List Span) (render : List Action)
    (statements : List Fragment) : MemberText :=
  ⟨depth, ⟨spans, openingText render⟩, some statements⟩

/-- How the member that a tree shows is written, for each kind of entry that it gives. -/
def memberTexts (d : Dialect) (source : List Char) (t : Tree) : List MemberText :=
  let statements := (statementTrees t).map (Fragment.ofStatement source)
  (Node.ofMember? source t).toList.flatMap fun n =>
    (DataField.ofNode? n).toList.map (fun f => ⟨3, ⟨valueSpans t, openingText f.render⟩, none⟩)
      ++ (Hook.ofNode? d n).toList.map
        (fun h => functionText 1 (parameterSpans t) h.render statements)
      ++ (PlainMethod.ofNode? d n).toList.map
        (fun p => functionText 2 (parameterSpans t) p.render statements)
      ++ (Watcher.ofNode? d n).toList.map
        (fun w => functionText 2 (parameterSpans t) w.handler.render statements)
      ++ (Getter.ofNode? n).toList.map (fun g => functionText 2 [] g.render statements)
      ++ (Emit.ofNode? d n).toList.map
        (fun e => functionText 2 (parameterSpans t) e.render (emitFragments source t e))

/-! ### From fragments to entries -/

/-- A fragment whose literals stand in it and are left alone in every line that begins inside them. -/
abbrev Fragment.Keeps (r : Reading) (choose : Passage → Bool) (f : Fragment) : Prop :=
  Threaded (feedFlags f.text.toList) ((f.literals r choose).map Passage.taken) f.text.toList

private theorem exists_writes_statements {r : Reading} {choose : Passage → Bool} {fragments : List Fragment}
    (keeps : ∀ f ∈ fragments, f.Keeps r choose) (width depth : Nat) :
    ∃ ls, Writes depth ((fragments.map Fragment.text).flatMap Action.line) ls ∧
      InOrder ((fragments.flatMap (Fragment.literals r choose)).map Passage.taken)
        (printLines width ls) := by
  induction fragments with
  | nil => exact ⟨[], .nil depth _, .nil _⟩
  | cons f fragments ih =>
    obtain ⟨ls, written, parts⟩ := ih fun g mem => keeps g (List.mem_cons_of_mem f mem)
    have first := (keeps f List.mem_cons_self).inOrder_line width depth
    refine ⟨Line.ofText depth f.text.toList ++ ls, (Writes.line depth f.text).append written, ?_⟩
    rw [printLines_append, List.flatMap_cons, List.map_append]
    exact first.append parts

theorem MemberText.inOrder {r : Reading} {choose : Passage → Bool} {e : MemberText}
    (entry : IsEntry e.depth e.actions) (keeps : ∀ f ∈ e.fragments, f.Keeps r choose) (width : Nat) :
    InOrder ((e.literals r choose).map Passage.taken) (e.print width) := by
  have head := keeps e.head List.mem_cons_self
  have later : ∀ f ∈ e.statements.getD [], f.Keeps r choose :=
    fun f mem => keeps f (List.mem_cons_of_mem e.head mem)
  unfold MemberText.literals MemberText.fragments MemberText.print
  unfold MemberText.actions at entry ⊢
  rw [List.flatMap_cons, List.map_append]
  cases body : e.statements with
  | none =>
    rw [body] at entry
    rw [standAlone_eq entry (Writes.line e.depth e.head.text)]
    simpa using head.inOrder_line width e.depth
  | some fs =>
    rw [body] at entry later
    obtain ⟨ls, written, parts⟩ := exists_writes_statements later width (e.depth + 1)
    have inLine : '\n' ∉ ",".toList := by decide
    have lines : Writes e.depth (functionEntry e.head.text (fs.map Fragment.text)) _ :=
      Writes.block e.head.text written inLine
    dsimp only at entry ⊢
    rw [standAlone_eq entry lines, printLines_append, printLines_append]
    exact ((head.inOrder_printed width e.depth _).append parts).append_right _

/-! ### From members to fragments -/

section

variable {source : List Char} {t : Tree} {m : Method} (shows : Node.ofMember? source t = some (.method m))

include shows

theorem key_of_ofMember? : m.key = keyOf source t.children := by
  unfold Node.ofMember? at shows
  split at shows
  · cases shows
  · obtain rfl := Node.method.inj (Option.some.inj shows)
    rfl
  · cases shows

theorem parameters_of_ofMember? : m.parameters = Parameter.ofFunction source t.children := by
  unfold Node.ofMember? at shows
  split at shows
  · cases shows
  · obtain rfl := Node.method.inj (Option.some.inj shows)
    rfl
  · cases shows

private theorem body_of_ofMember? :
    m.body = (t.children.find? fun c => c.kind == .body).map (Body.ofTree source) := by
  unfold Node.ofMember? at shows
  split at shows
  · cases shows
  · obtain rfl := Node.method.inj (Option.some.inj shows)
    rfl
  · cases shows

private theorem statements_of_ofMember? :
    (m.body.map Body.statements).getD [] =
      ((statementTrees t).map (Fragment.ofStatement source)).map Fragment.text := by
  rw [body_of_ofMember? shows, statementTrees]
  cases t.children.find? fun c => c.kind == .body with
  | none => rfl
  | some body =>
    rw [Option.map_some, Option.map_some, Option.getD_some, List.map_map]
    rfl

private theorem trailing_of_ofMember? :
    (m.body.bind fun b => b.trailing) =
      ((statementTrees t).getLast?.filter fun s => s.kind == .returnStatement).map (typeText source) := by
  have returned (s : Tree) : Body.returned? source s =
      if s.kind == .returnStatement then some (typeText source s) else none := by
    unfold Body.returned?
    split
    · next kind => simp [kind]
    · next other => rw [if_neg fun same => other (beq_iff_eq.mp same)]
  have last : (m.body.bind fun b => b.trailing) =
      (statementTrees t).getLast?.bind (Body.returned? source) := by
    rw [body_of_ofMember? shows, statementTrees]
    cases t.children.find? fun c => c.kind == .body <;> rfl
  rw [last]
  cases (statementTrees t).getLast? with
  | none => rfl
  | some s =>
    rw [Option.bind_some, returned, Option.filter_some]
    split <;> rfl

end

private theorem value_of_ofMember? {source : List Char} {t : Tree} {f : Field}
    (shows : Node.ofMember? source t = some (.field f)) : f.value = Node.valueOf? source t.children := by
  unfold Node.ofMember? at shows
  split at shows
  · obtain rfl := Node.field.inj (Option.some.inj shows)
    rfl
  · cases shows
  · cases shows

theorem statements_ofMethod {source : List Char} {t : Tree} {m : Method}
    (shows : Node.ofMember? source t = some (.method m)) (x : Decorator) :
    (Emit.ofMethod m x).statements =
      (emitFragments source t (Emit.ofMethod m x)).map Fragment.text := by
  let e := Emit.ofMethod m x
  have merged : e.statements = mergeTrigger ((m.body.map Body.statements).getD [])
      (m.body.bind fun b => b.trailing) e.event e.parameters := rfl
  rw [show (Emit.ofMethod m x).statements = _ from merged, statements_of_ofMember? shows,
    trailing_of_ofMember? shows, emitFragments]
  cases returns : (statementTrees t).getLast?.filter fun s => s.kind == .returnStatement with
  | none => simp [mergeTrigger, e]
  | some last =>
    obtain ⟨isLast, -⟩ := Option.filter_eq_some_iff.mp returns
    cases trees : statementTrees t with
    | nil => simp [trees] at isLast
    | cons s ss => simp [mergeTrigger, e, List.map_dropLast]

section

variable {source : List Char} {r : Reading} (read : Reading.ofModule? source = some r)
  (choose : Passage → Bool)

include read

private theorem inOrder_declaration {p : Parameter} {span : Option Span}
    (bound : ∀ s, span = some s → s.of source <:+: p.name.toList) :
    InOrder ((span.toList.flatMap (r.literals choose)).map Passage.taken) (declaration p).toList := by
  cases span with
  | none => exact .nil _
  | some s =>
    have inName := (Reading.stands_literals read choose s).inOrder.of_isInfix (bound s rfl)
    rw [Option.toList_some, List.flatMap_singleton]
    unfold declaration
    split
    · rw [String.append_assoc, String.toList_append]
      exact inName.append_right _
    · exact inName

private theorem inOrder_signature {t : Tree} {m : Method} (shows : Node.ofMember? source t = some (.method m))
    (isAsync : Bool) (name : String) (returnType : Option String) :
    InOrder (((parameterSpans t).flatMap (r.literals choose)).map Passage.taken)
      (signature isAsync name m.parameters returnType).toList := by
  obtain ⟨items, shown, spans, bound⟩ := exists_bindings source t
  have declared := InOrder.intercalate ", " fun i (mem : i ∈ items) =>
    inOrder_declaration read choose (bound i mem)
  have parts : items.flatMap (fun i => (i.2.toList.flatMap (r.literals choose)).map Passage.taken) =
      ((parameterSpans t).flatMap (r.literals choose)).map Passage.taken := by
    rw [← spans, List.filterMap_eq_flatMap_toList, List.flatMap_assoc, List.map_flatMap]
  have texts : (items.map fun i => declaration i.1) = m.parameters.map declaration := by
    rw [parameters_of_ofMember? shows, ← shown, List.map_map]
    rfl
  rw [parts, texts] at declared
  simp only [signature, String.toList_append, List.append_assoc]
  exact (((declared.append_right _).append_left _).append_left _).append_left _

private theorem inOrder_trigger (last : Tree) (event : Event) (parameters : List Parameter) :
    InOrder (((last.children.head?.map Tree.span).toList.flatMap (r.literals choose)).map Passage.taken)
      (trigger event (typeText source last) parameters).toList := by
  rw [typeText]
  generalize last.children.head? = value
  let arguments : List (String × List Passage) :=
    (event.argument, []) :: (value.toList.map fun c => (c.span.text source, r.literals choose c.span))
      ++ parameters.map fun p => (argument p, [])
  have each : ∀ a ∈ arguments, InOrder (a.2.map Passage.taken) a.1.toList := by
    intro a mem
    rcases List.mem_append.mp mem with mem | mem
    · rcases List.mem_cons.mp mem with rfl | mem
      · exact .nil _
      · obtain ⟨c, -, rfl⟩ := List.mem_map.mp mem
        rw [Span.text, String.toList_ofList]
        exact (Reading.stands_literals read choose c.span).inOrder
    · obtain ⟨p, -, rfl⟩ := List.mem_map.mp mem
      exact .nil _
  have passed := InOrder.intercalate ", " each
  have none : (parameters.map fun p => (argument p, ([] : List Passage))).flatMap Prod.snd = [] := by
    rw [List.flatMap_map, List.flatMap_eq_nil_iff]
    exact fun _ _ => rfl
  have parts : arguments.flatMap Prod.snd = (value.map Tree.span).toList.flatMap (r.literals choose) := by
    rw [List.flatMap_append, none]
    cases value <;> simp
  have texts : arguments.map Prod.fst = event.argument ::
      (value.map fun c => c.span.text source).toList ++ parameters.map argument := by
    cases value <;> simp [arguments, Function.comp_def]
  rw [← List.map_flatMap, parts, texts] at passed
  simp only [trigger, String.toList_append, List.append_assoc]
  exact (passed.append_right _).append_left _

private theorem inOrder_dataLine {t : Tree} {f : Field} (shows : Node.ofMember? source t = some (.field f)) :
    InOrder (((valueSpans t).flatMap (r.literals choose)).map Passage.taken)
      (openingText (DataField.ofField f).render).toList := by
  have value : (DataField.ofField f).value = Node.valueOf? source t.children := value_of_ofMember? shows
  have line : openingText (DataField.ofField f).render = (DataField.ofField f).name ++ ": "
      ++ (DataField.ofField f).value.getD "undefined" ++ "," := rfl
  rw [line, value, Node.valueOf?, valueSpans]
  simp only [String.toList_append, List.append_assoc]
  refine InOrder.append_left _ (.append_left _ (.append_right _ ?_))
  cases t.children.find? _ with
  | none => exact .nil _
  | some v => simpa [Span.text] using (Reading.stands_literals read choose v.span).inOrder

end

abbrev Hold (r : Reading) (choose : Passage → Bool) (fragments : List Fragment) : Prop :=
  ∀ f ∈ fragments, (∀ p ∈ f.literals r choose, '\n' ∉ p.taken) →
    InOrder ((f.literals r choose).map Passage.taken) f.text.toList

section

variable {source : List Char} {r : Reading} (read : Reading.ofModule? source = some r)
  (choose : Passage → Bool)

include read

private theorem hold_statements (t : Tree) :
    Hold r choose ((statementTrees t).map (Fragment.ofStatement source)) := by
  intro f mem inLine
  obtain ⟨s, -, rfl⟩ := List.mem_map.mp mem
  have single : (Fragment.ofStatement source s).literals r choose = r.literals choose s.span :=
    List.flatMap_singleton _ _
  rw [single] at inLine ⊢
  rw [Fragment.ofStatement, String.toList_ofList]
  exact inOrder_dedent read (.inl inLine)

private theorem hold_emitFragments (t : Tree) (e : Emit) : Hold r choose (emitFragments source t e) := by
  have statements := hold_statements read choose t
  intro f mem inLine
  unfold emitFragments at mem
  cases returns : (statementTrees t).getLast?.filter fun s => s.kind == .returnStatement with
  | none =>
    rw [returns] at mem
    rcases List.mem_append.mp mem with mem | mem
    · exact statements f mem inLine
    · obtain rfl := List.mem_singleton.mp mem
      exact .nil _
  | some last =>
    rw [returns] at mem
    rcases List.mem_append.mp mem with mem | mem
    · exact statements f (List.dropLast_subset _ mem) inLine
    · obtain rfl := List.mem_singleton.mp mem
      exact inOrder_trigger read choose last e.event e.parameters

end

/-! ### What every entry of a member satisfies -/

def Placed (table : Table) (depth : Nat) (actions : List Action) : Prop :=
  (depth = 1 ∧ ∃ h ∈ table.hooks, actions = h.render) ∨
    ∃ map key, depth = OptionMap.depth map ∧ (key, actions) ∈ table.entriesOf map

/-- An entry of a node: it is written wherever the node is read, and literals that stay within a line
stand in its fragments. -/
structure WellWritten (d : Dialect) (source : List Char) (n : Node) (e : MemberText) : Prop where
  isEntry : IsEntry e.depth e.actions
  placed : ∀ nodes, n ∈ nodes → Placed (Table.reading d nodes) e.depth e.actions
  holds : ∀ r choose, Reading.ofModule? source = some r → Hold r choose e.fragments

section

variable {d : Dialect} {source : List Char} {t : Tree} {n : Node}

private theorem wellWritten_functionText {depth : Nat} {spans : List Span} {render : List Action}
    {fragments : List Fragment} {head : String} {body : List String}
    (shape : render = functionEntry head body) (texts : body = fragments.map Fragment.text)
    (placed : ∀ nodes, n ∈ nodes → Placed (Table.reading d nodes) depth render)
    (signed : ∀ r choose, Reading.ofModule? source = some r →
      InOrder ((spans.flatMap (r.literals choose)).map Passage.taken) head.toList)
    (holds : ∀ r choose, Reading.ofModule? source = some r → Hold r choose fragments) :
    WellWritten d source n (functionText depth spans render fragments) := by
  have same : (functionText depth spans render fragments).actions = render := by
    rw [shape, texts]
    rfl
  refine ⟨(isFilled_functionEntry _ _).isEntry, fun nodes mem => ?_, fun r choose read => ?_⟩
  · rw [same]
    exact placed nodes mem
  · subst shape
    exact List.forall_mem_cons.mpr ⟨fun _ => signed r choose read, holds r choose read⟩

private theorem wellWritten_of_mem {e : MemberText} (mem : e ∈ memberTexts d source t) :
    ∃ n, Node.ofMember? source t = some n ∧ WellWritten d source n e := by
  obtain ⟨n, isMember, mem⟩ := List.mem_flatMap.mp mem
  have shows := Option.mem_toList.mp isMember
  have found {α : Type} {f : Node → Option α} {a : α} (shown : f n = some a) {nodes : List Node}
      (mem : n ∈ nodes) : a ∈ nodes.filterMap f := List.mem_filterMap.mpr ⟨n, mem, shown⟩
  have statements (r : Reading) (choose : Passage → Bool) (read : Reading.ofModule? source = some r) :=
    hold_statements read choose t
  refine ⟨n, shows, ?_⟩
  simp only [List.mem_append, List.mem_map, Option.mem_toList] at mem
  rcases mem with ((((⟨f, shown, rfl⟩ | ⟨h, shown, rfl⟩) | ⟨p, shown, rfl⟩) | ⟨w, shown, rfl⟩) |
    ⟨g, shown, rfl⟩) | ⟨e, shown, rfl⟩
  case inl.inl.inl.inl.inl =>
    refine ⟨f.isEntry_render, fun nodes mem => .inr ⟨.data, f.name, rfl, ?_⟩, fun r choose read => ?_⟩
    · exact List.mem_map.mpr ⟨f, found shown mem, rfl⟩
    · obtain ⟨f, rfl, -, rfl⟩ := DataField.ofNode?_eq_some_iff.mp shown
      exact List.forall_mem_cons.mpr ⟨fun _ => inOrder_dataLine read choose shows, nofun⟩
  case inl.inl.inl.inl.inr =>
    have placed (nodes : List Node) (mem : n ∈ nodes) : Placed (Table.reading d nodes) 1 h.render :=
      .inl ⟨rfl, h, found shown mem, rfl⟩
    obtain ⟨m, rfl, -, rfl⟩ := Hook.ofNode?_eq_some_iff.mp shown
    exact wellWritten_functionText rfl (statements_of_ofMember? shows) placed
      (fun r choose read => inOrder_signature read choose shows _ _ _) statements
  case inl.inl.inl.inr =>
    have placed (nodes : List Node) (mem : n ∈ nodes) : Placed (Table.reading d nodes) 2 p.render :=
      .inr ⟨.methods, p.name, rfl, List.mem_append_left _ (List.mem_append_left _
        (List.mem_map.mpr ⟨p, found shown mem, rfl⟩))⟩
    obtain ⟨m, rfl, -, rfl⟩ := PlainMethod.ofNode?_eq_some_iff.mp shown
    exact wellWritten_functionText rfl (statements_of_ofMember? shows) placed
      (fun r choose read => inOrder_signature read choose shows _ _ _) statements
  case inl.inl.inr =>
    have placed (nodes : List Node) (mem : n ∈ nodes) :
        Placed (Table.reading d nodes) 2 w.handler.render :=
      .inr ⟨.methods, w.handler.name, rfl, List.mem_append_right _
        (List.mem_map.mpr ⟨w, found shown mem, rfl⟩)⟩
    obtain ⟨m, x, rfl, -, -, given⟩ := Watcher.ofNode?_eq_some_iff.mp shown
    rw [Watcher.handler_of_ofMethod given] at placed ⊢
    exact wellWritten_functionText rfl (statements_of_ofMember? shows) placed
      (fun r choose read => inOrder_signature read choose shows _ _ _) statements
  case inl.inr =>
    have placed (nodes : List Node) (mem : n ∈ nodes) : Placed (Table.reading d nodes) 2 g.render :=
      .inr ⟨.computed, g.name, rfl, List.mem_append_left _ (List.mem_map.mpr ⟨g, found shown mem, rfl⟩)⟩
    obtain ⟨m, rfl, -, rfl⟩ := Getter.ofNode?_eq_some_iff.mp shown
    exact wellWritten_functionText rfl (statements_of_ofMember? shows) placed
      (fun _ _ _ => .nil _) statements
  case inr =>
    have placed (nodes : List Node) (mem : n ∈ nodes) : Placed (Table.reading d nodes) 2 e.render :=
      .inr ⟨.methods, e.name, rfl, List.mem_append_left _ (List.mem_append_right _
        (List.mem_map.mpr ⟨e, found shown mem, rfl⟩))⟩
    obtain ⟨m, x, rfl, -, -, rfl⟩ := Emit.ofNode?_eq_some_iff.mp shown
    exact wellWritten_functionText rfl (statements_ofMethod shows x) placed
      (fun r choose read => inOrder_signature read choose shows _ _ _)
      (fun r choose read => hold_emitFragments read choose t _)

end

/-! ### From entries to the output -/

private theorem isInfix_entries {α : Type} {items : List α} {i : α} (mem : i ∈ items) (width depth : Nat)
    (render : α → List Action) :
    standAlone width depth (render i) <:+: entries width depth render items := by
  obtain ⟨before, after, rfl⟩ := List.append_of_mem mem
  rw [entries, List.flatMap_append, List.flatMap_cons]
  exact ⟨_, _, List.append_assoc _ _ _⟩

private theorem OptionMap.isInfix_frame (map : OptionMap) (width : Nat) (body : List Char) :
    body <:+: map.frame width body := by
  cases map with
  | data => exact (isInfix_framed _ _ _ _ _).trans (isInfix_framed _ _ _ _ _)
  | props | watch | computed | methods | emits => exact isInfix_framed _ _ _ _ _

theorem isInfix_text_of_mem_sections {d : Dialect} {m : Module} {c : Component} {table : Table} {block : List Char}
    (mem : block ∈ sections d.indentWidth c table) : block <:+: joinLines (moduleBlocks d m c table) := by
  have inBlocks : framed d.indentWidth 0 "export default defineComponent(\x7b"
      (joinLines (sections d.indentWidth c table)) "\x7d)" ∈ moduleBlocks d m c table :=
    List.mem_append_right _ (List.mem_singleton.mpr rfl)
  exact ((isInfix_joinLines mem).trans (isInfix_framed _ _ _ _ _)).trans (isInfix_joinLines inBlocks)

theorem Placed.isInfix_text {d : Dialect} {m : Module} {c : Component} {table : Table} {depth : Nat}
    {actions : List Action} (placed : Placed table depth actions) :
    standAlone d.indentWidth depth actions <:+: joinLines (moduleBlocks d m c table) := by
  rcases placed with ⟨rfl, h, isHook, rfl⟩ | ⟨map, key, rfl, inMap⟩
  · have filled : entries d.indentWidth 1 Hook.render table.hooks ∈ sections d.indentWidth c table := by
      have ne := List.ne_nil_of_mem isHook
      simp [sections, blockWhen, ne]
    exact (isInfix_entries isHook _ _ _).trans (isInfix_text_of_mem_sections filled)
  · have filled := frame_mem_sections d.indentWidth c (List.ne_nil_of_mem inMap)
    exact ((isInfix_entries inMap _ _ Prod.snd).trans (map.isInfix_frame _ _)).trans
      (isInfix_text_of_mem_sections filled)

private theorem isSuffix_moduleBlocks (d : Dialect) (m : Module) (c : Component) (table : Table) :
    [')', '\n'] <:+ joinLines (moduleBlocks d m c table) := by
  have closing : [')', '\n'] <:+ textLine d.indentWidth 0 "\x7d)" := ⟨['\x7d'], by simp [textLine]⟩
  rw [joinLines, moduleBlocks, join_concat (by simp)]
  exact ((closing.trans (List.suffix_append _ _)).trans (List.suffix_cons _ _)).trans
    (List.suffix_append _ _)

/-! ### Literals in the output -/

/-- The text that is put into house style holds the entry of every member, and an entry holds the literals of its
member as they are written and in their order, as far as its fragments retain them; a statement that is taken out of
its place holds those that it retains there. House style leaves a text that can not be read as it is. Where it can
be read, with no string over a line, a member's literals that are read again in it keep their order and values. -/
structure KeepsLiterals (d : Dialect) (source : List Char) (r : Reading) (text out : List Char) : Prop where
  entries : ∀ t ∈ memberTrees source r.tree, ∀ e ∈ memberTexts d source t, e.print d.indentWidth <:+: text
  inEntry : ∀ t ∈ memberTrees source r.tree, ∀ e ∈ memberTexts d source t, ∀ choose,
    (∀ f ∈ e.fragments, Retains f.text.toList (f.literals r choose)) →
      InOrder ((e.literals r choose).map Passage.taken) (e.print d.indentWidth)
  inStatement : ∀ t ∈ memberTrees source r.tree, ∀ s ∈ statementTrees t, ∀ choose,
    Retains (s.span.of source) (r.literals choose s.span) →
      InOrder ((r.literals choose s.span).map Passage.taken) (dedent source s.span)
  unreadable : Reading.ofModule? text = none → out = text
  styled : ∀ r', Reading.ofModule? text = some r' →
    (∀ p ∈ r'.passed, p.string?.isSome = true → '\n' ∉ p.taken) →
      ∀ t ∈ memberTrees source r.tree, ∀ e ∈ memberTexts d source t, ∀ choose,
        ((e.literals r choose).map Passage.taken).Sublist ((r'.passed.filter Passage.isLiteral).map Passage.taken) →
          ∃ parts, List.Forall₂ Respells (e.literals r choose) parts ∧ InOrder parts out

theorem literals_keep_text_and_order {d : Dialect} {script out : String}
    (compiled : compileScript d script = .ok out) :
    ∃ r m table text, Reading.ofModule? script.toList = some r ∧ Module.parse? script = some m ∧
      Table.ofModule d m = .ok table ∧ text = Writer.print d.indentWidth (renderModule d m table) ∧
      out = String.ofList (normalize text d.indentWidth) ∧ KeepsLiterals d script.toList r text out.toList := by
  obtain ⟨m, table, parsed, accepted, rfl⟩ := compileScript_eq_ok_iff.mp compiled
  obtain ⟨run, found⟩ := Table.ofModule_eq_ok_iff.mp accepted
  obtain ⟨-, rfl⟩ := Table.ofNodes_eq_ok_iff.mp run
  obtain ⟨c, component⟩ := Option.ne_none_iff_exists'.mp found
  obtain ⟨tree, isTree, rfl⟩ := Option.map_eq_some_iff.mp parsed
  obtain ⟨r, read, rfl⟩ := Option.map_eq_some_iff.mp isTree
  have printed := print_renderModule (d := d) parsed component
  refine ⟨r, _, _, _, read, parsed, accepted, rfl, rfl, ⟨fun t member e isText => ?_,
    fun t _ e isText choose retains => ?_, fun t _ s _ choose retains => inOrder_dedent read retains,
    fun unread => ?_, fun r' readable strings t member e isText choose again => ?_⟩⟩
  · obtain ⟨n, shows, well⟩ := wellWritten_of_mem isText
    rw [printed]
    exact (well.placed _ (mem_nodes_of_mem_memberTrees member shows)).isInfix_text
  · obtain ⟨n, -, well⟩ := wellWritten_of_mem isText
    refine MemberText.inOrder well.isEntry (fun f mem => ?_) d.indentWidth
    refine (retains f mem).threaded (fun p isLiteral => ?_) (well.holds r choose read f mem)
    obtain ⟨span, -, inSpan⟩ := List.mem_flatMap.mp isLiteral
    exact (Reading.stands_literals read choose span).startsSolid p inSpan
  · rw [printed] at unread ⊢
    rw [generate, printed, String.toList_ofList]
    exact normalize_of_unreadable unread (isSuffix_moduleBlocks d _ c _) (by decide) d.indentWidth
  · rw [generate, String.toList_ofList]
    exact exists_inOrder_normalize read readable strings d.indentWidth
      (fun p mem => MemberText.isLiteral_of_mem_literals mem) again

/-- A field, and an emit with a default, a template over two lines in a statement, and a value. -/
def quotedScript : String :=
  "@Component\nclass A \x7b\n    note = 'n'\n    @Emit() send(a = 'x') \x7b\n        const s = [`p\n"
    ++ " $\x7ba\x7d q`, 'r']\n        return \"it's\"\n    \x7d\n\x7d\n"

/-- The literals of both members stand in their entries, those of the template as well, and their values
in the output. -/
theorem quoted_members_keep_literals :
    ∃ out r, compileScript {} quotedScript = .ok out ∧ Reading.ofModule? quotedScript.toList = some r ∧
      ((memberTrees quotedScript.toList r.tree).flatMap fun t =>
        (memberTexts {} quotedScript.toList t).map fun e =>
          (e.literals r fun _ => true).map fun p => String.ofList p.taken) =
        [["'n'"], ["'x'", "`p\n $\x7b", "\x7d q`", "'r'", "\"it's\""]] ∧
      ∀ t ∈ memberTrees quotedScript.toList r.tree, ∀ e ∈ memberTexts {} quotedScript.toList t,
        InOrder ((e.literals r fun _ => true).map Passage.taken) (e.print 4) ∧
          ∃ parts, List.Forall₂ Respells (e.literals r fun _ => true) parts ∧
            InOrder parts out.toList := by
  have script : Spelled quotedScript _ := .append (.literal rfl) (.literal rfl)
  have compiles : (compileScript {} quotedScript).isOk = true := by
    rw [compileScript_eq_map, script.toList_eq]
    decide +kernel
  have checked : ((Reading.ofModule? quotedScript.toList).bind fun r =>
      (Module.parse? quotedScript).bind fun m => (Table.ofModule {} m).toOption.bind fun table =>
      (Reading.ofModule? (Writer.print 4 (renderModule {} m table))).map fun r' =>
      ((memberTrees quotedScript.toList r.tree).flatMap fun t =>
        (memberTexts {} quotedScript.toList t).map fun e =>
          (e.literals r fun _ => true).map fun p => String.ofList p.taken,
      (memberTrees quotedScript.toList r.tree).all fun t =>
        (memberTexts {} quotedScript.toList t).all fun e =>
          (e.fragments.all fun f => decide (Retains f.text.toList (f.literals r fun _ => true))) &&
            decide (((e.literals r fun _ => true).map Passage.taken).Sublist
              ((r'.passed.filter Passage.isLiteral).map Passage.taken)),
      r'.passed.all fun p => decide (p.string?.isSome = true → '\n' ∉ p.taken))) =
      some ([["'n'"], ["'x'", "`p\n $\x7b", "\x7d q`", "'r'", "\"it's\""]], true, true) := by
    rw [parse?_of_spelled script, script.toList_eq]
    decide +kernel
  cases compiled : compileScript {} quotedScript with
  | error fault =>
    rw [compiled] at compiles
    cases compiles
  | ok out =>
    obtain ⟨r, m, table, text, read, parsed, accepted, rfl, -, keeps⟩ := literals_keep_text_and_order compiled
    rw [read, parsed] at checked
    simp only [Option.bind_some, accepted, Except.toOption] at checked
    obtain ⟨r', readable, all⟩ := Option.map_eq_some_iff.mp checked
    obtain ⟨literals, all⟩ := Prod.mk.inj all
    obtain ⟨retained, strings⟩ := Prod.mk.inj all
    refine ⟨out, r, rfl, read, literals, fun t member e isText => ?_⟩
    have ofEntry := List.all_eq_true.mp (List.all_eq_true.mp retained t member) e isText
    obtain ⟨retains, again⟩ := Bool.and_eq_true_iff.mp ofEntry
    refine ⟨keeps.inEntry t member e isText (fun _ => true) fun f mem => ?_,
      keeps.styled r' readable (fun p mem => ?_) t member e isText (fun _ => true) (of_decide_eq_true again)⟩
    · exact of_decide_eq_true (List.all_eq_true.mp retains f mem)
    · exact of_decide_eq_true (List.all_eq_true.mp strings p mem)

/-- A string that goes on in the next line, and methods whose names open and close a comment. -/
def continuedScript : String :=
  "@Component\nclass A \x7b\n    m() \x7b\n        return 'a\\\n        b'\n    \x7d\n    'c/*'() \x7b\n"
    ++ "        return 'x'\n    \x7d\n    'd*/'() \x7b\x7d\n\x7d\n"

def continuedOutput : String :=
  "import \x7b defineComponent \x7d from 'vue'\n\nexport default defineComponent(\x7b\n    name: 'A',\n\n"
    ++ "    methods: \x7b\n        m () \x7b\n            return 'a\\\n            b'\n        \x7d,\n"
    ++ "        c/* () \x7b\n            return 'x'\n        \x7d,\n        d*/ () \x7b\n        \x7d,\n"
    ++ "    \x7d,\n\x7d)\n"

def stringValues (script : String) : Option (List String) :=
  (Reading.ofModule? script.toList).map fun r => r.passed.filterMap fun p =>
    match p.token.lexeme with
    | .string value => some value
    | _ => none

/-- A string that goes on in the next line gets the indentation of its new place into its value; and names
are written without quotes, so that a literal may end up in a comment. -/
theorem literals_may_change_or_vanish :
    compileScript {} continuedScript = .ok continuedOutput ∧
      stringValues continuedScript = some ["a        b", "c/*", "x", "d*/"] ∧
      stringValues continuedOutput = some ["vue", "A", "a            b"] := by
  have script : Spelled continuedScript _ := .append (.literal rfl) (.literal rfl)
  have output : Spelled continuedOutput _ :=
    .append (.append (.append (.literal rfl) (.literal rfl)) (.literal rfl)) (.literal rfl)
  unfold stringValues
  rw [script.toList_eq, output.toList_eq]
  refine ⟨compileScript_of_spelled script output ?_, ?_, ?_⟩ <;> decide +kernel

end VueOptions.Options
