import Mathlib.Data.List.Forall2
import VueOptions.Proofs.Options.LiteralTexts
import VueOptions.Proofs.Script.CallStatements
import VueOptions.Proofs.Script.Entries
import VueOptions.Proofs.Script.Literals
import VueOptions.Proofs.Options.SpelledScripts

/-!
The call that triggers an event. A method that triggers an event keeps its statements up to a return at their end, and
one call of `this.$emit` follows them. The call is put together from texts, and it is read with one argument for each
of them if each stands alone: the event, what is returned, and the parameters in order. Names stand alone; a sequence
that is returned takes the place of several arguments.
-/

set_option autoImplicit false

namespace VueOptions.Options

open Text Script Script.Grammar
open Layout (Action)
open Source (Parameter Method Decorator Expression Node Module typeOf? statementTrees)

section

variable {word marks gap tail : List Char}

private theorem trim_append_blanks (solid : ∀ c ∈ word, isBlank c = false) (filled : word ≠ [])
    (blank : ∀ c ∈ gap, isBlank c = true) : trim (word ++ gap) = word := by
  obtain ⟨c, cs, rfl⟩ := List.exists_cons_of_ne_nil filled
  have first : trimStart (c :: cs ++ gap) = c :: cs ++ gap :=
    List.dropWhile_cons_of_neg (by simp [solid c List.mem_cons_self])
  rw [trim, first, trimEnd, dropEndWhile_append fun d last => solid d (List.mem_of_getLast? last),
    dropEndWhile_of_all blank, List.append_nil]

/-- The characters of a name that is passed on: those of a word, and the dots before it. -/
def isPassed (c : Char) : Bool := Name.isPart c || c == '.'

private theorem not_mark_of_isPassed {c : Char} (passed : isPassed c = true) :
    isBlank c = false ∧ c ≠ '=' ∧ c ≠ ':' ∧ c ≠ '?' ∧ c ≠ '\x7b' ∧ c ≠ '[' := by
  have solid : Solid isPassed := by
    intro d blank
    have dot : Solid (· == '.') := solid_of_blanks (by decide)
    rw [isPassed, Name.solid_isPart d blank, Bool.false_or]
    exact dot d blank
  have other (d : Char) (stop : isPassed d = false) : c ≠ d := by
    rintro rfl
    rw [stop] at passed
    cases passed
  exact ⟨solid.isBlank_eq_false passed, other _ (by decide), other _ (by decide), other _ (by decide),
    other _ (by decide), other _ (by decide)⟩

private theorem argument_eq {p : Parameter} (name : p.name.toList = word ++ (marks ++ (gap ++ tail)))
    (passed : ∀ c ∈ word, isPassed c = true) (filled : word ≠ []) (marked : ∀ c ∈ marks, c = '?')
    (blank : ∀ c ∈ gap, isBlank c = true) (ends : ∀ c ∈ tail.head?, c = '=' ∨ c = ':') :
    (argument p).toList = word := by
  have kept : (word ++ (marks ++ (gap ++ tail))).takeWhile (fun c => !(c == '=' || c == ':')) =
      word ++ marks ++ gap := by
    have before : ∀ c ∈ word ++ marks ++ gap, (!(c == '=' || c == ':')) = true := by
      intro c mem
      have apart : c ≠ '=' ∧ c ≠ ':' := by
        rcases List.mem_append.mp mem with mem | mem
        · rcases List.mem_append.mp mem with mem | mem
          · exact ⟨(not_mark_of_isPassed (passed c mem)).2.1, (not_mark_of_isPassed (passed c mem)).2.2.1⟩
          · rw [marked c mem]
            decide
        · have solid : Solid fun c => c == '=' || c == ':' := solid_of_blanks (by decide)
          simpa using solid c (blank c mem)
      simp [apart.1, apart.2]
    have behind : tail.takeWhile (fun c => !(c == '=' || c == ':')) = [] := by
      cases tail with
      | nil => rfl
      | cons c cs => exact List.takeWhile_cons_of_neg (by rcases ends c rfl with rfl | rfl <;> simp)
    rw [← List.append_assoc, ← List.append_assoc, List.takeWhile_append_of_pos before, behind, List.append_nil]
  have trimmed : trim (word ++ marks ++ gap) = word ++ marks := by
    refine trim_append_blanks ?_ (by simp [filled]) blank
    intro c mem
    rcases List.mem_append.mp mem with mem | mem
    · exact (not_mark_of_isPassed (passed c mem)).1
    · rw [marked c mem]
      decide
  have unmarked : dropEndWhile (· == '?') (word ++ marks) = word := by
    have last : ∀ c ∈ word.getLast?, (c == '?') = false := fun c mem =>
      beq_eq_false_iff_ne.mpr (not_mark_of_isPassed (passed c (List.mem_of_getLast? mem))).2.2.2.1
    rw [dropEndWhile_append last, dropEndWhile_of_all fun c mem => beq_iff_eq.mpr (marked c mem), List.append_nil]
  obtain ⟨c, cs, rfl⟩ := List.exists_cons_of_ne_nil filled
  obtain ⟨-, -, -, -, brace, bracket⟩ := not_mark_of_isPassed (passed c List.mem_cons_self)
  unfold argument
  split
  · next more same =>
    rw [name] at same
    exact absurd (List.cons.inj same).1 brace
  · next more same =>
    rw [name] at same
    exact absurd (List.cons.inj same).1 bracket
  · rw [name, kept, trimmed, unmarked, String.toList_ofList]

private theorem argument_eq_of_marks {p : Parameter} (name : p.name.toList = word ++ marks)
    (passed : ∀ c ∈ word, isPassed c = true) (filled : word ≠ []) (marked : ∀ c ∈ marks, c = '?') :
    (argument p).toList = word := by
  have whole : p.name.toList = word ++ (marks ++ ([] ++ [])) := by simpa using name
  exact argument_eq whole passed filled marked (by simp) (by simp)

private theorem argument_pattern {p : Parameter} {c : Char} (opens : p.name.toList.head? = some c)
    (bracket : c = '\x7b' ∨ c = '[') : argument p = p.name := by
  unfold argument
  cases shape : p.name.toList with
  | nil =>
    rw [shape] at opens
    cases opens
  | cons d ds =>
    rw [shape] at opens
    obtain rfl : d = c := Option.some.inj opens
    rcases bracket with rfl | rfl <;> rfl

end

/-- The name that a parameter binds, and whether it takes all arguments that are left. -/
def boundName? : List Tree → Option (Name.Word × Bool)
  | .node (.binding _) _ (.node (.identifier w) _ _ :: _) :: _ => some (w, false)
  | .node .defaulted _ (.node (.binding _) _ (.node (.identifier w) _ _ :: _) :: _) :: _ => some (w, false)
  | .node .rest _ (.node (.identifier w) _ _ :: _) :: _ => some (w, true)
  | .node .decorator _ _ :: ts => boundName? ts
  | _ => none

/-- A word, and behind it nothing but question marks and blanks before a type or a default. -/
def opensDefault (word cs : List Char) : Bool :=
  word.isPrefixOf cs && (((cs.drop word.length).dropWhile (· == '?')).dropWhile isBlank).head?.any
    fun c => c == '=' || c == ':'

/-- Whether the text of a parameter starts with the name as it is, without escapes or comments. -/
def isPlainlyWritten (source : List Char) (w : Name.Word) : List Tree → Bool
  | .node .defaulted s _ :: _ => opensDefault w.text.toList (s.of source)
  | .node .rest _ (target :: _) :: _ => target.span.of source == w.text.toList
  | .node .decorator _ _ :: ts => isPlainlyWritten source w ts
  | _ => true

private theorem exists_of_opensDefault {word cs : List Char} (opens : opensDefault word cs = true) :
    ∃ marks gap tail, cs = word ++ (marks ++ (gap ++ tail)) ∧ (∀ c ∈ marks, c = '?') ∧
      (∀ c ∈ gap, isBlank c = true) ∧ ∀ c ∈ tail.head?, c = '=' ∨ c = ':' := by
  rw [opensDefault, Bool.and_eq_true, List.isPrefixOf_iff_prefix] at opens
  obtain ⟨⟨behind, rfl⟩, ends⟩ := opens
  rw [List.drop_left] at ends
  refine ⟨behind.takeWhile (· == '?'), (behind.dropWhile (· == '?')).takeWhile isBlank,
    (behind.dropWhile (· == '?')).dropWhile isBlank, ?_, ?_, ?_, ?_⟩
  · rw [List.takeWhile_append_dropWhile, List.takeWhile_append_dropWhile]
  · intro c mem
    exact beq_iff_eq.mp (List.all_eq_true.mp List.all_takeWhile c mem)
  · intro c mem
    exact List.all_eq_true.mp List.all_takeWhile c mem
  · intro c head
    rw [Option.mem_def.mp head] at ends
    simpa using ends

/-- A name as an argument; what takes all that are left is spread again. -/
def passedName (w : Name.Word) (isRest : Bool) : Phrase :=
  if isRest then ⟨'.' :: '.' :: '.' :: w.text.toList, .node .spread [.node (.identifier w) []]⟩
  else ⟨w.text.toList, .node (.identifier w) []⟩

private theorem alone_passedName {w : Name.Word} (free : w.isFree = true) (isRest : Bool) :
    Alone Grammar.argument (passedName w isRest) := by
  cases isRest with
  | false => exact alone_argument (alone_reference free)
  | true => exact alone_spread (alone_reference free)

private theorem isPassed_of_mem {w : Name.Word} : ∀ c ∈ w.text.toList, isPassed c = true := by
  intro c mem
  rw [isPassed, w.isWord.isPart c mem]
  rfl

private theorem argument_of_boundName? {source : List Char} {parts : List Tree} {w : Name.Word} {isRest : Bool}
    (bound : boundName? parts = some (w, isRest)) (written : isPlainlyWritten source w parts = true) :
    ∃ p, Parameter.ofParts source parts = some p ∧ (argument p).toList = (passedName w isRest).text := by
  have filled := w.isWord.ne_nil
  fun_induction boundName? parts with
  | case1 isOptional span w' s ts typing rest =>
    obtain ⟨rfl, rfl⟩ := Prod.mk.inj (Option.some.inj bound)
    have name : (Parameter.ofBinding source isOptional (.node (.identifier w') s ts) typing).name.toList =
        w'.text.toList ++ if isOptional then ['?'] else [] := by
      cases isOptional <;> simp [Parameter.ofBinding, Tree.kind]
    exact ⟨_, rfl, argument_eq_of_marks name isPassed_of_mem filled (by cases isOptional <;> simp)⟩
  | case2 span isOptional s w' s' ts typing value rest =>
    obtain ⟨rfl, rfl⟩ := Prod.mk.inj (Option.some.inj bound)
    obtain ⟨marks, gap, tail, text, marked, blank, ends⟩ := exists_of_opensDefault written
    refine ⟨_, rfl, argument_eq ?_ isPassed_of_mem filled marked blank ends⟩
    rw [Span.text, String.toList_ofList]
    exact text
  | case3 span w' s ts typing rest =>
    obtain ⟨rfl, rfl⟩ := Prod.mk.inj (Option.some.inj bound)
    have text : s.of source = w'.text.toList := beq_iff_eq.mp written
    have name : ("..." ++ s.text source).toList = (passedName w' true).text ++ [] := by
      simp [Span.text, text, passedName]
    have passed : ∀ c ∈ (passedName w' true).text, isPassed c = true := by
      intro c mem
      simp only [passedName, if_pos, List.mem_cons] at mem
      rcases mem with rfl | rfl | rfl | mem
      · decide
      · decide
      · decide
      · exact isPassed_of_mem c mem
    exact ⟨⟨"..." ++ s.text source, typeOf? source rest .typing⟩, rfl,
      argument_eq_of_marks name passed (List.cons_ne_nil _ _) (by simp)⟩
  | case4 span ts rest ih => exact ih bound written
  | case5 => cases bound

/-- How a parameter is passed on: a name as a reference to it, a pattern as the expression that its text is. -/
inductive PassedOn (source : List Char) (parts : List Tree) : Phrase → Prop
  | name {w : Name.Word} {isRest : Bool} (bound : boundName? parts = some (w, isRest))
    (written : isPlainlyWritten source w parts = true) (free : w.isFree = true) :
    PassedOn source parts (passedName w isRest)
  | pattern {p : Parameter} {q : Phrase} {c : Char} (read : Parameter.ofParts source parts = some p)
    (text : p.name.toList = q.text) (opens : q.text.head? = some c) (bracket : c = '\x7b' ∨ c = '[')
    (alone : Alone Grammar.argument q) : PassedOn source parts q

theorem PassedOn.argument {source : List Char} {parts : List Tree} {q : Phrase} (passed : PassedOn source parts q) :
    Alone Grammar.argument q ∧
      ∃ p, Parameter.ofParts source parts = some p ∧ (Options.argument p).toList = q.text := by
  cases passed with
  | name bound written free => exact ⟨alone_passedName free _, argument_of_boundName? bound written⟩
  | pattern read text opens bracket alone =>
    exact ⟨alone, _, read, by rw [argument_pattern (text ▸ opens) bracket, text]⟩

def parameterView (source : List Char) (parts : List Tree) : Option (Name.Word × Bool) × Option Parameter :=
  ((boundName? parts).filter fun b => isPlainlyWritten source b.1 parts && b.1.isFree, Parameter.ofParts source parts)

private theorem passedOn_of_view {source : List Char} {parts : List Tree} {w : Name.Word} {isRest : Bool}
    {p : Option Parameter}
    (view : parameterView source parts = (some (w, isRest), p)) : PassedOn source parts (passedName w isRest) := by
  have named := congrArg Prod.fst view
  simp only [parameterView, Option.filter_eq_some_iff, Bool.and_eq_true] at named
  exact .name named.1 named.2.1 named.2.2

def parameterTrees (t : Tree) : List Tree :=
  match t.children.find? fun c => c.kind == .parameters with
  | some c => c.children.filter fun p =>
      match p.kind with
      | .parameter _ => true
      | _ => false
  | none => []

private theorem ofFunction_eq (source : List Char) (t : Tree) : Parameter.ofFunction source t.children =
    (parameterTrees t).filterMap fun p => Parameter.ofParts source p.children := by
  unfold Parameter.ofFunction parameterTrees
  cases t.children.find? fun c => c.kind == .parameters with
  | none => rfl
  | some c =>
    dsimp only
    rw [List.filterMap_filter]
    congr
    funext p
    cases p.kind <;> rfl

private theorem arguments_of_passedOn {source : List Char} {ts : List Tree} {qs : List Phrase}
    (passed : List.Forall₂ (fun p q => PassedOn source p.children q) ts qs) :
    (ts.filterMap fun p => Parameter.ofParts source p.children).map (fun p => (argument p).toList) =
      qs.map Phrase.text := by
  induction passed with
  | nil => rfl
  | cons first _ ih =>
    obtain ⟨-, p, read, text⟩ := first.argument
    rw [List.filterMap_cons_some (f := fun p : Tree => Parameter.ofParts source p.children) read, List.map_cons,
      List.map_cons, text, ih]

private theorem alone_of_passedOn {source : List Char} {ts : List Tree} {qs : List Phrase}
    (passed : List.Forall₂ (fun p q => PassedOn source p.children q) ts qs) : ∀ q ∈ qs, Alone Grammar.argument q := by
  induction passed with
  | nil => simp
  | cons first _ ih => exact List.forall_mem_cons.mpr ⟨first.argument.1, ih⟩

def finalReturn? (ss : List Tree) : Option Tree := ss.getLast?.filter fun s => s.kind == .returnStatement

def leadingStatements (ss : List Tree) : List Tree := if (finalReturn? ss).isSome then ss.dropLast else ss

def returned? (source : List Char) (ss : List Tree) : Option Phrase :=
  ((finalReturn? ss).bind fun s => s.children.head?).map fun r => ⟨r.span.of source, r.shape⟩

def dedented (source : List Char) (s : Tree) : String := String.ofList (Layout.dedent source s.span)

def triggerText (source : List Char) (t : Tree) (m : Method) (d : Decorator) : String :=
  trigger (Event.ofDecorator m.key.label d) ((returned? source (statementTrees t)).map fun p => String.ofList p.text)
    m.parameters

private theorem statements_eq_append_trigger {source : List Char} {t : Tree} {m : Method}
    (read : Node.ofMember? source t = some (.method m)) (d : Decorator) : (Emit.ofMethod m d).statements =
      (leadingStatements (statementTrees t)).map (dedented source) ++ [triggerText source t m d] := by
  have texts : ((statementTrees t).map (Fragment.ofStatement source)).map Fragment.text =
      (statementTrees t).map (dedented source) := List.map_map
  rw [statements_ofMethod read, emitFragments, leadingStatements, triggerText, returned?, finalReturn?]
  cases (statementTrees t).getLast?.filter fun s => s.kind == .returnStatement with
  | none =>
    dsimp only
    rw [List.map_append, texts]
    rfl
  | some last =>
    dsimp only
    rw [List.map_append, List.map_dropLast, texts, Option.isSome_some, if_pos rfl, List.map_dropLast, Option.bind_some,
      Option.map_map]
    rfl

/-- What an event is read as: a string, which has to stand on one line, or the expression that the decorator gives. -/
inductive Denotes (name : String) (d : Decorator) : Shape → Prop
  | own (none : d.values.head? = none) (inLine : ∀ c ∈ (hyphenate name).toList, c ≠ '\n' ∧ c ≠ '\r') :
    Denotes name d (.node (.string (hyphenate name)) [])
  | literal {raw value : String} (first : d.values.head? = some (.string raw value))
    (inLine : ∀ c ∈ value.toList, c ≠ '\n' ∧ c ≠ '\r') : Denotes name d (.node (.string value) [])
  | expression {x : Expression} {σ : Shape} (first : d.values.head? = some x)
    (other : ∀ raw value, x ≠ .string raw value)
    (alone : Alone oneExpression ⟨x.text.toList, σ⟩) : Denotes name d σ

theorem Denotes.event {name : String} {d : Decorator} {σ : Shape} (denotes : Denotes name d σ) :
    (∃ value, Event.ofDecorator name d = .name value ∧ (∀ c ∈ value.toList, c ≠ '\n' ∧ c ≠ '\r') ∧
      σ = .node (.string value) []) ∨
    ∃ text, Event.ofDecorator name d = .expression text ∧ Alone oneExpression ⟨text.toList, σ⟩ := by
  unfold Event.ofDecorator
  cases denotes with
  | own none inLine => exact .inl ⟨_, by rw [none], inLine, rfl⟩
  | literal first inLine => exact .inl ⟨_, by rw [first], inLine, rfl⟩
  | @expression x σ first other alone =>
    refine .inr ⟨x.text, ?_, alone⟩
    rw [first]
    cases x with
    | string raw value => exact absurd rfl (other raw value)
    | _ => rfl

theorem Denotes.alone {name : String} {d : Decorator} {σ : Shape} (denotes : Denotes name d σ) :
    Alone oneExpression ⟨(Event.ofDecorator name d).argument.toList, σ⟩ := by
  rcases denotes.event with ⟨value, event, inLine, rfl⟩ | ⟨text, event, alone⟩
  · rw [event]
    exact alone_string inLine
  · rw [event]
    exact alone

def IsKeyOf (σ : Shape) (cs : List Char) : Prop :=
  ∀ (text rest : List Char) (s : Setting) (n : Nat) (c : Cursor text), cs.length < s.bound →
    goalsPerCharacter * cs.length ≤ n → c.Reaches (cs ++ rest) →
    ∃ t c' isComputed, key (upTo n) text s c = some (t, c') ∧ t.shape = .node (.key isComputed) [σ] ∧ c.Passes c' rest

private theorem Denotes.isKeyOf {name : String} {d : Decorator} {σ : Shape} (denotes : Denotes name d σ) :
    IsKeyOf σ (Event.ofDecorator name d).key.toList := by
  intro text rest s n c room goals reaches
  rcases denotes.event with ⟨value, event, inLine, rfl⟩ | ⟨x, event, alone⟩
  · rw [event] at reaches
    obtain ⟨cut, passes⟩ := reaches.passes_cut (startsToken_singleQuoted value rest)
      (Lexeme.cut_singleQuoted inLine rest)
    obtain ⟨t, read, shape⟩ := EntryKey.exists_key (k := .quoted value inLine) (by rw [cut]; rfl) (upTo n)
    exact ⟨t, c.next, false, read, shape, passes⟩
  · have whole : (Event.ofDecorator name d).key.toList = '[' :: (x.toList ++ [']']) := by
      rw [event]
      simp [Event.key]
    rw [whole] at room goals reaches
    simp only [List.length_cons, List.length_append, List.length_nil] at room goals
    have fits : x.toList.length < s.bound ∧ goalsPerCharacter * x.toList.length ≤ n := by
      unfold goalsPerCharacter at goals ⊢
      omega
    rw [List.cons_append, List.append_assoc] at reaches
    obtain ⟨t, c', read, shape, passes⟩ := key_computed alone fits.1 fits.2 reaches
    exact ⟨t, c', true, read, shape, passes⟩

/-- What is returned, as arguments: nothing, an expression that stands alone, or the parts of a sequence. -/
inductive Pays : Option Phrase → List Phrase → Prop
  | nothing : Pays none []
  | expression {p : Phrase} (alone : Alone oneExpression p) : Pays (some p) [p]
  | sequence {p : Phrase} {ps : List Phrase} (shape : p.shape = .node .sequence (ps.map Phrase.shape))
    (filled : ps ≠ [])
    (text : p.text = joinTexts ps) (alone : ∀ p ∈ ps, Alone oneExpression p) : Pays (some p) ps

theorem Pays.alone {returned : Option Phrase} {ps : List Phrase} (pays : Pays returned ps) :
    ∀ p ∈ ps, Alone Grammar.argument p := by
  intro p mem
  cases pays with
  | nothing => cases mem
  | expression alone =>
    obtain rfl := List.mem_singleton.mp mem
    exact alone_argument alone
  | sequence shape filled text alone => exact alone_argument (alone p mem)

theorem Pays.commaTexts {returned : Option Phrase} {ps : List Phrase} (pays : Pays returned ps) :
    Grammar.commaTexts returned.toList = Grammar.commaTexts ps := by
  cases pays with
  | nothing => rfl
  | expression alone => rfl
  | @sequence p ps shape filled text alone =>
    obtain ⟨first, others, rfl⟩ := List.exists_cons_of_ne_nil filled
    rw [joinTexts_cons] at text
    simp [Grammar.commaTexts, text]

def emitWord : Name.Word := ⟨"$emit", by decide⟩

def emitChain (ps : List Phrase) : Chain :=
  ⟨(Atom.literal .this_ .thisWord rfl).phrase, [emitWord], [⟨ps, []⟩]⟩

def emitCall (σ : Shape) (ps qs : List Phrase) : Shape :=
  .node (.call false) (memberShape (.node .thisWord []) emitWord :: σ :: (ps ++ qs).map Phrase.shape)

private theorem text_emitChain (ps : List Phrase) :
    (emitChain ps).phrase.text = "this.$emit(".toList ++ (joinTexts ps ++ [')']) := by
  have this : Keyword.this_.spelling = "this".toList := rfl
  simp [emitChain, Chain.phrase, Chain.tail, Grammar.memberTexts, Link.spelling, emitWord, Atom.phrase, Atom.text, this]

theorem alone_emitChain {ps : List Phrase} (alone : ∀ p ∈ ps, Alone Grammar.argument p) :
    Alone oneExpression (emitChain ps).phrase := by
  refine alone_chain (leads_atom _) (fun l rest closing => (emitChain ps).continues_tail closing) ?_
  intro link mem p given
  obtain rfl := List.mem_singleton.mp mem
  exact alone p given

theorem startsWithThis_emitChain (ps : List Phrase) : StartsWithThis (emitChain ps).phrase.text := ⟨_, rfl⟩

private theorem trigger_eq {event : Event} {returned : Option Phrase} {parameters : List Parameter} {σ : Shape}
    {ps qs : List Phrase} (pays : Pays returned ps)
    (passed : parameters.map (fun p => (argument p).toList) = qs.map Phrase.text) :
    (trigger event (returned.map fun p => String.ofList p.text) parameters).toList =
      (emitChain (⟨event.argument.toList, σ⟩ :: (ps ++ qs))).phrase.text := by
  have texts : (event.argument :: (returned.map fun p => String.ofList p.text).toList ++ parameters.map argument).map
      String.toList = (⟨event.argument.toList, σ⟩ :: (returned.toList ++ qs)).map Phrase.text := by
    cases returned <;> simp [← passed, Function.comp_def]
  have joined : joinTexts (⟨event.argument.toList, σ⟩ :: (returned.toList ++ qs)) =
      joinTexts (⟨event.argument.toList, σ⟩ :: (ps ++ qs)) := by
    have same := pays.commaTexts
    simp only [Grammar.commaTexts] at same
    rw [joinTexts_cons, joinTexts_cons, Grammar.commaTexts, Grammar.commaTexts, List.flatMap_append,
      List.flatMap_append, same]
  rw [trigger, String.toList_append, String.toList_append, String.toList_intercalate, texts, text_emitChain, ← joined,
    List.append_assoc]
  rfl

theorem renderValidator_eq (e : Emit) :
    ∃ (tail : String) (rest : List Action), e.renderValidator = .write (e.event.key ++ (" (" ++ tail)) :: rest := by
  rw [Emit.renderValidator, functionEntry, blockEntry, signature]
  simp only [Bool.false_eq_true, if_false, String.empty_append, String.append_assoc]
  exact ⟨_, _, rfl⟩

/-- A method that triggers an event keeps its statements in order up to a return at their end, and one call of
`this.$emit` follows. If the event, what is returned and the parameters stand alone, the call is read with the
event, what is returned and then one argument for each parameter, in order; and the key of the check is read as the
same event. -/
theorem emit_triggers_event_once {source : List Char} {t : Tree} {m : Method} (d : Decorator)
    (read : Node.ofMember? source t = some (.method m)) :
    (Emit.ofMethod m d).statements =
      (leadingStatements (statementTrees t)).map (dedented source) ++ [triggerText source t m d] ∧
    ∀ (σ : Shape) (ps qs : List Phrase), Denotes m.key.label d σ → Pays (returned? source (statementTrees t)) ps →
      List.Forall₂ (fun p q => PassedOn source p.children q) (parameterTrees t) qs →
      qs.length = m.parameters.length ∧
      IsStatement ⟨(triggerText source t m d).toList, .node .expressionStatement [emitCall σ ps qs]⟩ ∧
      (∃ module, Tree.ofModule? (triggerText source t m d).toList = some module ∧
        module.shape = .node .moduleBody [.node .expressionStatement [emitCall σ ps qs]]) ∧
      (∃ (tail : String) (rest : List Action),
        (Emit.ofMethod m d).renderValidator = .write ((Emit.ofMethod m d).event.key ++ (" (" ++ tail)) :: rest) ∧
      IsKeyOf σ (Emit.ofMethod m d).event.key.toList := by
  refine ⟨statements_eq_append_trigger read d, fun σ ps qs denotes pays passed => ?_⟩
  have arguments : m.parameters.map (fun p => (argument p).toList) = qs.map Phrase.text := by
    rw [parameters_of_ofMember? read, ofFunction_eq]
    exact arguments_of_passedOn passed
  have text : (triggerText source t m d).toList = _ := trigger_eq (σ := σ) pays arguments
  have alone : Alone oneExpression _ := alone_emitChain (List.forall_mem_cons.mpr
    ⟨alone_argument denotes.alone, List.forall_mem_append.mpr ⟨pays.alone, alone_of_passedOn passed⟩⟩)
  have statement := isStatement_of_this alone (startsWithThis_emitChain _) rfl
  refine ⟨?_, ?_, ?_, renderValidator_eq _, denotes.isKeyOf⟩
  · simpa using congrArg List.length arguments.symm
  · rw [text]
    exact statement
  · rw [text]
    exact exists_module_of_call statement (startsWithThis_emitChain _) rfl

/-- A method with an event that is an expression, a statement, a call that is returned and parameters of all kinds. -/
def changeScript : List Char :=
  ("@Component class A \x7b @Emit(Events.CHANGED) change(a, b?: T, \x7b id \x7d, c: number = 1, ...d) "
    ++ "\x7b this.n = a; return this.find(['x', 2], \x7b key: b, ...c \x7d) \x7d \x7d").toList

def changeTree : Tree :=
  ((Tree.ofModule? changeScript).bind fun t => t.nodes.find? fun u =>
    match u.kind with
    | .method _ _ _ _ => true
    | _ => false).getD (.node .moduleBody ⟨0, 0⟩ [])

def changeDecorator : Decorator := ⟨"Emit", [.value (.other "Events.CHANGED")]⟩

def changeTrigger : String :=
  "this.$emit(Events.CHANGED, this.find(['x', 2], \x7b key: b, ...c \x7d), a, b, \x7b id \x7d, c, ...d)"

def changedEvent : Chain :=
  ⟨(Atom.reference ⟨"Events", by decide⟩ (by decide) (by decide)).phrase, [⟨"CHANGED", by decide⟩], []⟩

def two : Literal.Numeral := ⟨"2", .inl rfl, rfl⟩

def foundItem : Chain :=
  ⟨(Atom.literal .this_ .thisWord rfl).phrase, [⟨"find", by decide⟩],
    [⟨[arrayOf [(Atom.string "x" (by simp)).phrase, ⟨two.text.toList, .node (.numeral two) []⟩],
      objectOf [namedValue (.word ⟨"key", by decide⟩) (passedName ⟨"b", by decide⟩ false),
        passedName ⟨"c", by decide⟩ true]], []⟩]⟩

def changeArguments : List Phrase :=
  [passedName ⟨"a", by decide⟩ false, passedName ⟨"b", by decide⟩ false, objectOf [ownValue ⟨"id", by decide⟩],
    passedName ⟨"c", by decide⟩ false, passedName ⟨"d", by decide⟩ true]

def changeParameters : List (Option (Name.Word × Bool) × Parameter) :=
  [(some (⟨"a", by decide⟩, false), ⟨"a", none⟩), (some (⟨"b", by decide⟩, false), ⟨"b?", some "T"⟩),
    (none, ⟨"\x7b id \x7d", none⟩), (some (⟨"c", by decide⟩, false), ⟨"c: number = 1", none⟩),
    (some (⟨"d", by decide⟩, true), ⟨"...d", none⟩)]

private theorem changeTree_spec :
    changeTree.kind = .method .method [] false false ∧
    (parameterTrees changeTree).map (fun p => parameterView changeScript p.children) =
      changeParameters.map (fun v => (v.1, some v.2)) ∧
    returned? changeScript (statementTrees changeTree) = some foundItem.phrase ∧
    (leadingStatements (statementTrees changeTree)).map (dedented changeScript) = ["this.n = a;"] := by
  have spelled : changeScript = _ := (Spelled.append (.literal rfl) (.literal rfl)).toList_eq
  unfold changeTree
  rw [spelled]
  decide +kernel

private theorem alone_changedEvent : Alone oneExpression changedEvent.phrase :=
  alone_chain (leads_atom _) (fun _ _ closing => changedEvent.continues_tail closing) (by simp [changedEvent])

private theorem alone_foundItem : Alone oneExpression foundItem.phrase := by
  refine alone_chain (leads_atom _) (fun _ _ closing => foundItem.continues_tail closing) ?_
  intro link mem p given
  obtain rfl := List.mem_singleton.mp mem
  simp only [List.mem_cons, List.not_mem_nil, or_false] at given
  rcases given with rfl | rfl
  · refine alone_argument (alone_of_leads (leads_array ?_) fun _ _ _ => trivial)
    intro q mem
    simp only [List.mem_cons, List.not_mem_nil, or_false] at mem
    rcases mem with rfl | rfl
    · exact alone_argument (alone_string (by simp))
    · exact alone_argument (alone_numeral two)
  · refine alone_argument (alone_of_leads (leads_object ?_) fun _ _ _ => trivial)
    intro q mem
    simp only [List.mem_cons, List.not_mem_nil, or_false] at mem
    rcases mem with rfl | rfl
    · exact alone_namedValue (alone_reference (by decide))
    · exact alone_spreadEntry (alone_reference (w := ⟨"c", by decide⟩) (by decide))

private theorem passedOn_changeArguments :
    List.Forall₂ (fun p q => PassedOn changeScript p.children q) (parameterTrees changeTree) changeArguments := by
  have views := changeTree_spec.2.1
  generalize parameterTrees changeTree = ts at views ⊢
  obtain ⟨a, ts, rfl, first, views⟩ := List.map_eq_cons_iff.mp views
  obtain ⟨b, ts, rfl, second, views⟩ := List.map_eq_cons_iff.mp views
  obtain ⟨id, ts, rfl, third, views⟩ := List.map_eq_cons_iff.mp views
  obtain ⟨c, ts, rfl, fourth, views⟩ := List.map_eq_cons_iff.mp views
  obtain ⟨d, ts, rfl, fifth, views⟩ := List.map_eq_cons_iff.mp views
  obtain rfl := List.map_eq_nil_iff.mp views
  have pattern : PassedOn changeScript id.children (objectOf [ownValue ⟨"id", by decide⟩]) :=
    .pattern (congrArg Prod.snd third) (by decide) rfl (.inl rfl)
      (alone_argument (alone_of_leads (leads_object fun q mem => List.mem_singleton.mp mem ▸ alone_ownValue (by decide))
        fun _ _ _ => trivial))
  exact .cons (passedOn_of_view first) (.cons (passedOn_of_view second) (.cons pattern
    (.cons (passedOn_of_view fourth) (.cons (passedOn_of_view fifth) .nil))))

theorem change_triggers_event_once :
    ∃ m, Node.ofMember? changeScript changeTree = some (.method m) ∧
      (Emit.ofMethod m changeDecorator).statements = ["this.n = a;", changeTrigger] ∧
      (∃ module, Tree.ofModule? changeTrigger.toList = some module ∧ module.shape = .node .moduleBody
        [.node .expressionStatement [emitCall changedEvent.phrase.shape [foundItem.phrase] changeArguments]]) ∧
      IsKeyOf changedEvent.phrase.shape "[Events.CHANGED]".toList := by
  obtain ⟨kind, views, returned, kept⟩ := changeTree_spec
  obtain ⟨m, read⟩ : ∃ m, Node.ofMember? changeScript changeTree = some (.method m) := by
    rw [Node.ofMember?, kind]
    exact ⟨_, rfl⟩
  have denotes : Denotes m.key.label changeDecorator changedEvent.phrase.shape := by
    refine .expression rfl (fun raw value same => by cases same) ?_
    have alone := alone_changedEvent
    rwa [show changedEvent.phrase = ⟨"Events.CHANGED".toList, changedEvent.phrase.shape⟩ by decide] at alone
  have pays : Pays (returned? changeScript (statementTrees changeTree)) [foundItem.phrase] := by
    rw [returned]
    exact .expression alone_foundItem
  have text : triggerText changeScript changeTree m changeDecorator = changeTrigger := by
    have event : Event.ofDecorator m.key.label changeDecorator = .expression "Events.CHANGED" := rfl
    have parameters : m.parameters = changeParameters.map Prod.snd := by
      have seconds := congrArg (List.filterMap Prod.snd) views
      rw [List.filterMap_map, List.filterMap_map] at seconds
      rw [parameters_of_ofMember? read, ofFunction_eq]
      exact seconds.trans (by decide)
    rw [triggerText, event, returned, parameters]
    decide +kernel
  obtain ⟨statements, trigger⟩ := emit_triggers_event_once changeDecorator read
  obtain ⟨-, -, module, -, key⟩ := trigger _ _ _ denotes pays passedOn_changeArguments
  rw [kept, text] at statements
  rw [text] at module
  exact ⟨m, read, statements, module, key⟩

/-- The statements of the methods of a module, as methods that trigger events. -/
def emitStatements (script : String) : Option (List (List String)) :=
  (Module.parse? script).map fun m => m.nodes.filterMap fun n =>
    match n with
    | .method m => m.decorators.head?.map fun d => (Emit.ofMethod m d).statements
    | _ => none

def callArity? (source : List Char) : Option Nat :=
  (Tree.ofModule? source).bind fun t => t.nodes.findSome? fun u =>
    match u with
    | .node (.call _) _ (_ :: arguments) => some arguments.length
    | _ => none

/-- A sequence is passed on as two arguments, a comment behind a name hides what closes the call, and two arguments are
read as one where an angle opens in the first and closes in the second. -/
theorem trigger_may_lose_arguments :
    emitStatements "@Component class A \x7b @Emit() e(n) \x7b return n, 1 \x7d \x7d" =
      some [["this.$emit('e', n, 1, n)"]] ∧
    callArity? "this.$emit('e', n, 1, n)".toList = some 4 ∧
    emitStatements "@Component class A \x7b @Emit() e(a /* = */ = 1) \x7b\x7d \x7d" = some [["this.$emit('e', a /*)"]] ∧
    callArity? "this.$emit('e', a /*)".toList = none ∧
    emitStatements "@Component class A \x7b @Emit(a < b) e() \x7b return c > (d) \x7d \x7d" =
      some [["this.$emit(a < b, c > (d))"]] ∧
    callArity? "this.$emit(a < b, c > (d))".toList = some 1 := by
  unfold emitStatements
  rw [parse?_of_spelled (.literal rfl), parse?_of_spelled (.literal rfl), parse?_of_spelled (.literal rfl)]
  refine ⟨?_, ?_, ?_, ?_, ?_, ?_⟩ <;> decide +kernel

end VueOptions.Options
