import VueOptions.Proofs.Layout.HouseStyle
import VueOptions.Proofs.Layout.Reindentation

/-!
String and template literals as parts of a text. Those of a module stand in every span around them, in
their order (`Reading.stands_literals`). A fragment that can be read on its own keeps the literals that
it shows, since the lines that begin inside a template are told from this reading (`threaded_own`). In
house style a template literal stays as it is and a string literal is spelled in a way that keeps its
value, and all of them stay in order (`exists_inOrder_normalize`).
-/

set_option autoImplicit false

namespace VueOptions.Script

open Layout Text

/-- Tokens that stand one behind another in a text which starts at an offset. -/
inductive Stands : Nat → List Passage → List Char → Prop
  | nil (n : Nat) (text : List Char) : Stands n [] text
  | cons {n : Nat} {p : Passage} {ps : List Passage} {rest : List Char} (gap : List Char)
    (start : p.token.span.start = n + byteLength gap)
    (stop : p.token.span.stop = p.token.span.start + byteLength p.taken) (solid : StartsSolid p.taken)
    (later : Stands p.token.span.stop ps rest) : Stands n (p :: ps) (gap ++ (p.taken ++ rest))

namespace Stands

variable {n : Nat} {ps : List Passage} {text : List Char}

theorem append_left {before : List Char} (h : Stands (n + byteLength before) ps text) :
    Stands n ps (before ++ text) := by
  cases h with
  | nil => exact .nil n _
  | cons gap start stop solid later =>
    rw [← List.append_assoc]
    refine .cons (before ++ gap) ?_ stop solid later
    rw [byteLength_append, start, Nat.add_assoc]

theorem append_right (h : Stands n ps text) (after : List Char) : Stands n ps (text ++ after) := by
  induction h with
  | nil => exact .nil _ _
  | cons gap start stop solid _ ih =>
    rw [List.append_assoc, List.append_assoc]
    exact .cons gap start stop solid ih

theorem eq_nil (h : Stands n ps []) : ps = [] := by
  generalize whole : ([] : List Char) = text at h
  cases h with
  | nil => rfl
  | cons gap start stop solid later =>
    obtain ⟨c, cs, taken, -⟩ := solid
    simp [taken] at whole

theorem inOrder (h : Stands n ps text) : InOrder (ps.map Passage.taken) text := by
  induction h with
  | nil n text => exact .nil text
  | @cons n p ps rest gap _ _ _ _ ih => exact .cons gap p.taken ih

theorem startsSolid (h : Stands n ps text) : ∀ p ∈ ps, StartsSolid p.taken := by
  induction h with
  | nil => exact nofun
  | cons gap start stop solid _ ih => exact List.forall_mem_cons.mpr ⟨solid, ih⟩

theorem threaded (h : Stands n ps text) {inside : Nat → Bool}
    (flagged : ∀ p ∈ ps, ∀ o ∈ Facts.lineFeeds p.token.span.start p.taken, inside o = true) :
    Threaded ((Facts.lineFeeds n text).map inside) (ps.map Passage.taken) text := by
  induction h with
  | nil => exact .nil _ _
  | @cons n p ps rest gap start stop solid later ih =>
    rw [List.forall_mem_cons] at flagged
    have gapFeeds : ((Facts.lineFeeds n gap).map inside).length = gap.count '\n' := by
      rw [List.length_map, Facts.length_lineFeeds]
    have feeds : ((Facts.lineFeeds p.token.span.start p.taken).map inside).length = p.taken.count '\n' := by
      rw [List.length_map, Facts.length_lineFeeds]
    have flags : (Facts.lineFeeds n (gap ++ (p.taken ++ rest))).map inside =
        (Facts.lineFeeds n gap).map inside ++ ((Facts.lineFeeds p.token.span.start p.taken).map inside ++
          (Facts.lineFeeds p.token.span.stop rest).map inside) := by
      rw [lineFeeds_append, lineFeeds_append, List.map_append, List.map_append, ← start, ← stop]
    rw [flags]
    refine .cons gap p.taken solid ?_ ?_
    · rw [← gapFeeds, List.drop_left, ← feeds, List.take_left]
      exact List.forall_mem_map.mpr flagged.1
    · rw [List.count_append, ← List.drop_drop, ← gapFeeds, List.drop_left, ← feeds, List.drop_left]
      exact ih flagged.2

theorem of_slice {before after : List Char} {start stop : Nat}
    (h : Stands (n + byteLength before + byteLength (takeBytes (start - (n + byteLength before)) after)) ps
      (slice after (start - (n + byteLength before)) (stop - (n + byteLength before)))) :
    Stands (n + byteLength (takeBytes (start - n) (before ++ after))) ps
      (slice (before ++ after) (start - n) (stop - n)) := by
  rw [← Nat.sub_sub, ← Nat.sub_sub] at h
  generalize start - n = i at h ⊢
  generalize stop - n = j at h ⊢
  have size := byteLength_dropBytes_le i before
  by_cases reaches : byteLength (dropBytes i before) ≤ j - i
  · have front : byteLength (takeBytes i before) + byteLength (dropBytes i before) = byteLength before := by
      rw [← byteLength_append, takeBytes_append_dropBytes]
    have least :
        j - byteLength before - (i - byteLength before) ≤ j - i - byteLength (dropBytes i before) := by
      omega
    obtain ⟨more, whole⟩ := takeBytes_isPrefix least (dropBytes (i - byteLength before) after)
    have cut : slice (before ++ after) i j = dropBytes i before ++
        (slice after (i - byteLength before) (j - byteLength before) ++ more) := by
      rw [slice, dropBytes_append, takeBytes_append, takeBytes_of_le reaches, ← whole]
      rfl
    have offset : n + byteLength (takeBytes i (before ++ after)) + byteLength (dropBytes i before) =
        n + byteLength before + byteLength (takeBytes (i - byteLength before) after) := by
      rw [takeBytes_append, byteLength_append]
      omega
    rw [cut]
    refine append_left (append_right ?_ more)
    rw [offset]
    exact h
  · have empty : j - byteLength before - (i - byteLength before) = 0 := by omega
    rw [slice, empty, takeBytes_zero] at h
    rw [h.eq_nil]
    exact .nil _ _

end Stands

def Passage.isInside (span : Span) (p : Passage) : Bool :=
  decide (span.start ≤ p.token.span.start) && decide (p.token.span.stop ≤ span.stop)

theorem Piece.At.startsSolid {n : Nat} {p : Piece} (here : p.At n) : StartsSolid p.passage.taken := by
  cases taken : p.passage.taken with
  | nil => exact absurd taken here.ne_nil
  | cons c cs =>
    have notBlank := here.first c (by rw [taken]; rfl)
    refine ⟨c, cs, rfl, Bool.eq_false_iff.mpr fun indent => ?_⟩
    rw [isBlank_of_isIndent indent] at notBlank
    cases notBlank

theorem Piece.Laid.stands {n m : Nat} {ps : List Piece} (laid : Piece.Laid n ps m) (tail : List Char)
    (choose : Passage → Bool) (span : Span) :
    Stands (n + byteLength (takeBytes (span.start - n) (Piece.weave Passage.taken ps ++ tail)))
      ((ps.map Piece.passage).filter fun p => choose p && p.isInside span)
      (slice (Piece.weave Passage.taken ps ++ tail) (span.start - n) (span.stop - n)) := by
  induction laid with
  | nil n => exact .nil _ _
  | @cons n m p ps first rest ih =>
    have start := first.start
    have stop := first.stop
    rw [Piece.weave_cons, List.append_assoc, List.append_assoc, List.map_cons]
    refine Stands.of_slice ?_
    rw [← start]
    cases inside : choose p.passage && p.passage.isInside span with
    | true =>
      simp only [List.filter_cons, inside, ↓reduceIte]
      simp only [Passage.isInside, Bool.and_eq_true, decide_eq_true_eq] at inside
      have bytes : byteLength p.passage.taken ≤ span.stop - p.passage.token.span.start := by omega
      have begins : span.start - p.passage.token.span.start = 0 := by omega
      have rests : span.start - p.passage.token.span.stop = 0 := by omega
      rw [begins, takeBytes_zero, slice_append bytes, Nat.sub_sub, ← stop]
      rw [rests, takeBytes_zero] at ih
      exact .cons [] rfl stop first.startsSolid ih
    | false =>
      simp only [List.filter_cons, inside, Bool.false_eq_true, ↓reduceIte]
      refine Stands.of_slice ?_
      rw [← stop]
      exact ih

theorem Reading.stands {text : List Char} {r : Reading} (read : Reading.ofModule? text = some r)
    (choose : Passage → Bool) (span : Span) :
    Stands (byteLength (takeBytes span.start text))
      (r.passed.filter fun p => choose p && p.isInside span) (span.of text) := by
  obtain ⟨d, -⟩ := Reading.dissection read
  obtain ⟨stop, laid⟩ := d.laid
  have parts := laid.stands d.tail choose span
  rw [d.passages] at parts
  rw [← Nat.zero_add (byteLength d.head)] at parts
  have whole := Stands.of_slice parts
  rw [d.whole, Nat.zero_add] at whole
  exact whole

def Facts.Frame.window (frame : Facts.Frame) (text : List Char) : Span :=
  ⟨byteLength frame.before, byteLength frame.before + byteLength text⟩

theorem Reading.stands_framed {frame : Facts.Frame} {text : List Char} {r : Reading}
    (read : Reading.ofModule? (frame.before ++ text ++ frame.after) = some r) (choose : Passage → Bool) :
    Stands (byteLength frame.before)
      (r.passed.filter fun p => choose p && p.isInside (frame.window text)) text := by
  have stands := Reading.stands read choose (frame.window text)
  have inside : (frame.window text).of (frame.before ++ text ++ frame.after) = text := by
    rw [Facts.Frame.window, Span.of, List.append_assoc, ← byteLength_append, slice_between]
  have offset : takeBytes (frame.window text).start (frame.before ++ text ++ frame.after) = frame.before := by
    rw [List.append_assoc]
    exact takeBytes_byteLength frame.before (text ++ frame.after)
  rw [inside, offset] at stands
  exact stands

def Passage.isLiteral (p : Passage) : Bool :=
  match p.token.lexeme with
  | .string _ | .template _ _ _ => true
  | _ => false

def Reading.literals (r : Reading) (choose : Passage → Bool) (span : Span) : List Passage :=
  r.passed.filter fun p => p.isLiteral && choose p && p.isInside span

theorem Reading.stands_literals {text : List Char} {r : Reading} (read : Reading.ofModule? text = some r)
    (choose : Passage → Bool) (span : Span) :
    Stands (byteLength (takeBytes span.start text)) (r.literals choose span) (span.of text) :=
  Reading.stands read (fun p => p.isLiteral && choose p) span

def ownReading? (text : List Char) : Option (Facts.Frame × Reading) :=
  Facts.frames.findSome? fun frame =>
    (Reading.ofModule? (frame.before ++ text ++ frame.after)).map (Prod.mk frame)

/-- Tokens that are no strings over several lines. -/
def Passage.isSteady (p : Passage) : Bool := !p.string?.isSome || !p.taken.contains '\n'

/-- The literals that a fragment shows when it is read on its own, strings over several lines aside. -/
def ownLiterals? (text : List Char) : Option (List Passage) :=
  (ownReading? text).map fun own =>
    own.2.literals Passage.isSteady ⟨byteLength own.1.before, byteLength own.1.before + byteLength text⟩

theorem Facts.ofFragment?_eq (text : List Char) :
    Facts.ofFragment? text = (ownReading? text).map fun own =>
      Facts.ofReading (byteLength own.1.before) (byteLength text) own.2 := by
  rw [ownReading?, List.map_findSome?]
  refine congrArg (Facts.frames.findSome? ·) (funext fun frame => ?_)
  rw [Function.comp_apply, Option.map_map]
  rfl

theorem read_of_ownReading? {text : List Char} {frame : Facts.Frame} {r : Reading}
    (own : ownReading? text = some (frame, r)) :
    Reading.ofModule? (frame.before ++ text ++ frame.after) = some r := by
  obtain ⟨other, -, found⟩ := List.exists_of_findSome?_eq_some own
  obtain ⟨r', read, same⟩ := Option.map_eq_some_iff.mp found
  obtain ⟨rfl, rfl⟩ := Prod.mk.inj same
  exact read

theorem Facts.lineFeeds_eq_map (n : Nat) (text : List Char) :
    Facts.lineFeeds n text = (Facts.lineFeeds 0 text).map (n + ·) := by
  induction text generalizing n with
  | nil => rfl
  | cons c cs ih =>
    have shifted (k : Nat) : Facts.lineFeeds (n + k) cs = (Facts.lineFeeds (0 + k) cs).map (n + ·) := by
      rw [ih (n + k), ih (0 + k), List.map_map]
      exact List.map_congr_left fun o _ => by simp [Nat.add_assoc]
    rw [Facts.lineFeeds, Facts.lineFeeds]
    split
    · rw [List.map_cons, shifted]
      rfl
    · exact shifted _

theorem inTemplate_of_own {text : List Char} {frame : Facts.Frame} {r : Reading}
    (own : ownReading? text = some (frame, r)) {p : Passage}
    (mem : p ∈ r.literals Passage.isSteady
      ⟨byteLength frame.before, byteLength frame.before + byteLength text⟩) {o : Nat}
    (feed : o ∈ Facts.lineFeeds p.token.span.start p.taken) :
    (Facts.ofReading (byteLength frame.before) (byteLength text) r).inTemplate
      (o - byteLength frame.before) = true := by
  obtain ⟨passed, picked⟩ := List.mem_filter.mp mem
  simp only [Passage.isInside, Bool.and_eq_true, decide_eq_true_eq] at picked
  have inLine : p.string?.isSome = true → '\n' ∉ p.taken := by
    intro isString
    have steady := picked.1.2
    rw [Passage.isSteady, isString] at steady
    simpa using steady
  obtain ⟨d, -⟩ := Reading.dissection (read_of_ownReading? own)
  obtain ⟨q, n, rfl, here⟩ := d.exists_at passed
  let alone : Facts := ⟨[q.passage].filterMap Passage.chunk?, [], []⟩
  have inChunk : alone.inTemplate o = true :=
    inTemplate_eq_true (f := alone) rfl here List.mem_cons_self inLine feed
  obtain ⟨s, hs, contains⟩ := List.any_eq_true.mp inChunk
  obtain ⟨p, hp, chunk⟩ := List.mem_filterMap.mp hs
  obtain rfl := List.mem_singleton.mp hp
  have bounds : q.passage.token.span.start ≤ s.start ∧ s.stop ≤ q.passage.token.span.stop := by
    unfold Passage.chunk? at chunk
    split at chunk
    · obtain rfl := Option.some.inj chunk
      exact ⟨Nat.le_add_right _ _, Nat.sub_le _ _⟩
    · cases chunk
  simp only [Span.contains, Bool.and_eq_true, decide_eq_true_eq] at contains
  refine List.any_eq_true.mpr ⟨⟨s.start - byteLength frame.before, s.stop - byteLength frame.before⟩,
    List.mem_map.mpr ⟨s, List.mem_filter.mpr ⟨List.mem_filterMap.mpr ⟨_, passed, chunk⟩, ?_⟩, rfl⟩, ?_⟩
  · simp only [Bool.and_eq_true, decide_eq_true_eq]
    omega
  · simp only [Span.contains, Bool.and_eq_true, decide_eq_true_eq]
    omega

theorem threaded_own {text : List Char} {own : List Passage} (shown : ownLiterals? text = some own) :
    Threaded (feedFlags text) (own.map Passage.taken) text := by
  obtain ⟨⟨frame, r⟩, reading, rfl⟩ := Option.map_eq_some_iff.mp shown
  dsimp only
  let n := byteLength frame.before
  have stands := Reading.stands_framed (read_of_ownReading? reading) fun p => p.isLiteral && p.isSteady
  by_cases feed : '\n' ∈ text
  · let facts := Facts.ofReading n (byteLength text) r
    have flags : feedFlags text = (Facts.lineFeeds 0 text).map facts.inTemplate := by
      rw [feedFlags, templateLines, if_pos (by simpa using feed), Facts.ofFragment?_eq, reading]
      rfl
    have shifted : (Facts.lineFeeds n text).map (fun o => facts.inTemplate (o - n)) =
        (Facts.lineFeeds 0 text).map facts.inTemplate := by
      rw [Facts.lineFeeds_eq_map, List.map_map]
      exact List.map_congr_left fun o _ => by simp
    rw [flags, ← shifted]
    exact stands.threaded fun p mem o inside => inTemplate_of_own reading mem inside
  · refine stands.inOrder.threaded ?_ ?_ _
    · exact List.forall_mem_map.mpr stands.startsSolid
    · exact fun part mem inPart => feed ((stands.inOrder.isInfix_of_mem mem).subset inPart)

end VueOptions.Script

namespace VueOptions.Layout

open Text Script

/-- Literals that a fragment keeps when its indentation changes: they stay within a line, or are among
those that the fragment shows when it is read on its own. -/
def Retains (text : List Char) (literals : List Passage) : Prop :=
  (∀ p ∈ literals, '\n' ∉ p.taken) ∨
    ∃ own ∈ ownLiterals? text, (literals.map Passage.taken).Sublist (own.map Passage.taken)

instance decidableRetains (text : List Char) (literals : List Passage) :
    Decidable (Retains text literals) :=
  inferInstanceAs (Decidable (_ ∨ _))

theorem Retains.threaded {text : List Char} {literals : List Passage} (retains : Retains text literals)
    (solid : ∀ p ∈ literals, StartsSolid p.taken)
    (holds : (∀ p ∈ literals, '\n' ∉ p.taken) → InOrder (literals.map Passage.taken) text) :
    Threaded (feedFlags text) (literals.map Passage.taken) text := by
  rcases retains with inLine | ⟨own, shown, among⟩
  · exact (holds inLine).threaded (List.forall_mem_map.mpr solid) (List.forall_mem_map.mpr inLine) _
  · exact (threaded_own shown).sublist among

theorem inOrder_dedent {source : List Char} {r : Reading}
    (read : Reading.ofModule? source = some r) {choose : Passage → Bool} {span : Span}
    (retains : Retains (span.of source) (r.literals choose span)) :
    InOrder ((r.literals choose span).map Passage.taken) (dedent source span) := by
  have stands := Reading.stands_literals read choose span
  exact (retains.threaded stands.startsSolid fun _ => stands.inOrder).inOrder
    (reindents_dedent source span)

theorem Thins.inOrder {width : Nat} {write : Passage → List Char} {ps : List Piece}
    {tail : List Glyph} {s t : Stand} {out : List Char} (choose : Passage → Bool)
    (run : Thins width s (glyphs write ps ++ tail) out t) :
    InOrder (((ps.map Piece.passage).filter choose).map write) out := by
  induction ps generalizing s out with
  | nil => exact .nil out
  | cons p ps ih =>
    rw [glyphs_cons, List.append_assoc, List.append_assoc] at run
    obtain ⟨gap, rest, u, rfl, -, fromToken⟩ := run.of_append
    obtain ⟨token, later, v, rfl, tokenRun, fromRest⟩ := fromToken.of_append
    obtain ⟨rfl, -⟩ := tokenRun.fixed
    have parts := ih fromRest
    rw [List.map_cons]
    cases chosen : choose p.passage with
    | true =>
      rw [List.filter_cons_of_pos chosen]
      exact .cons gap (write p.passage) parts
    | false =>
      rw [List.filter_cons_of_neg (by simp [chosen])]
      exact (parts.append_left _).append_left gap

/-- A text that spells the same literal as a token; for a template literal, its own text. -/
def Respells (p : Passage) (part : List Char) : Prop :=
  p.token.lexeme.Spells part ∧ (p.string? = none → part = p.taken)

theorem respells_styled {text : List Char} {t : Tree} {n : Nat} {p : Piece} (here : p.At n)
    (literal : p.passage.isLiteral = true) : Respells p.passage (styled text t p.passage) := by
  have kept : drops text t p.passage = false := by
    refine Bool.eq_false_iff.mpr fun drop => ?_
    rw [Passage.isLiteral, semicolon_of_drops drop] at literal
    cases literal
  refine ⟨((writes_styled here).spelled kept).2, fun other => ?_⟩
  cases lexeme : p.passage.token.lexeme with
  | string value =>
    rw [Passage.string?, lexeme] at other
    cases other
  | _ => simp only [styled, lexeme, kept, Bool.false_eq_true, ↓reduceIte]

private theorem string_ne_template {value raw : String} {isLast isValid : Bool} {cs : List Char}
    (string : (Lexeme.string value).Spells cs)
    (template : (Lexeme.template raw isLast isValid).Spells cs) : False := by
  obtain ⟨quote, body, isQuote, rfl, -, -⟩ := string
  obtain ⟨opening, isOpening, same⟩ := template
  obtain ⟨rfl, -⟩ := List.cons.inj same
  rcases isQuote with rfl | rfl <;> rcases isOpening with isOpening | isOpening <;> cases isOpening

private theorem string_unique {value value' : String} {cs : List Char}
    (h : (Lexeme.string value).Spells cs) (h' : (Lexeme.string value').Spells cs) : value = value' := by
  obtain ⟨quote, body, -, rfl, -, cooked⟩ := h
  obtain ⟨quote', body', -, same, -, cooked'⟩ := h'
  obtain ⟨rfl, same⟩ := List.cons.inj same
  obtain rfl := List.append_cancel_right same
  exact String.toList_injective (Option.some.inj (cooked.symm.trans cooked'))

theorem string_or_template {p : Passage} (literal : p.isLiteral = true) :
    (∃ value, p.token.lexeme = .string value) ∨
      ∃ raw isLast isValid, p.token.lexeme = .template raw isLast isValid := by
  unfold Passage.isLiteral at literal
  cases lexeme : p.token.lexeme with
  | string value => exact .inl ⟨value, rfl⟩
  | template raw isLast isValid => exact .inr ⟨raw, isLast, isValid, rfl⟩
  | _ =>
    rw [lexeme] at literal
    cases literal

theorem Respells.of_taken {p q : Passage} {part : List Char} (h : Respells q part)
    (same : p.taken = q.taken) (literal : p.isLiteral = true) (literal' : q.isLiteral = true)
    (spelled : p.token.lexeme.Spells p.taken) (spelled' : q.token.lexeme.Spells q.taken) :
    Respells p part := by
  obtain ⟨spells, verbatim⟩ := h
  rw [← same] at spelled' verbatim
  rw [Passage.string?] at verbatim
  rw [Respells, Passage.string?]
  rcases string_or_template literal with ⟨value, ofP⟩ | ⟨raw, isLast, isValid, ofP⟩ <;>
    rcases string_or_template literal' with ⟨value', ofQ⟩ | ⟨raw', isLast', isValid', ofQ⟩ <;>
    rw [ofP] at spelled ⊢ <;> rw [ofQ] at spelled' spells verbatim
  · obtain rfl := string_unique spelled spelled'
    exact ⟨spells, fun other => absurd other (Option.some_ne_none _)⟩
  · exact (string_ne_template spelled spelled').elim
  · exact (string_ne_template spelled' spelled).elim
  · obtain rfl := verbatim rfl
    exact ⟨spelled, fun _ => rfl⟩

private theorem forall₂_of_map_eq {α β γ : Type} {f : α → γ} {g : β → γ} {R : α → β → Prop}
    {xs : List α} {ys : List β} (same : xs.map f = ys.map g)
    (each : ∀ x ∈ xs, ∀ y ∈ ys, f x = g y → R x y) : List.Forall₂ R xs ys := by
  induction xs generalizing ys with
  | nil =>
    obtain rfl := List.map_eq_nil_iff.mp same.symm
    exact .nil
  | cons x xs ih =>
    cases ys with
    | nil => cases same
    | cons y ys =>
      obtain ⟨here, later⟩ := List.cons.inj same
      refine .cons (each x List.mem_cons_self y List.mem_cons_self here) (ih later fun a ha b hb => ?_)
      exact each a (List.mem_cons_of_mem x ha) b (List.mem_cons_of_mem y hb)

theorem exists_inOrder_normalize {text source : List Char} {r r' : Reading}
    (read : Reading.ofModule? source = some r) (read' : Reading.ofModule? text = some r')
    (inLine : ∀ p ∈ r'.passed, p.string?.isSome = true → '\n' ∉ p.taken) (width : Nat)
    {literals : List Passage} (ofSource : ∀ p ∈ literals, p ∈ r.passed ∧ p.isLiteral = true)
    (again : (literals.map Passage.taken).Sublist
      ((r'.passed.filter Passage.isLiteral).map Passage.taken)) :
    ∃ parts, List.Forall₂ Respells literals parts ∧ InOrder parts (normalize text width) := by
  obtain ⟨d, -⟩ := Reading.dissection read'
  obtain ⟨out, t, run, normal⟩ := normalize_thins read' d inLine width
  obtain ⟨head, rest, s, rfl, -, fromHead⟩ := run.of_append
  have all := (fromHead.inOrder Passage.isLiteral).append_left head
  rw [d.passages] at all
  obtain ⟨kept, among, same⟩ := List.sublist_map_iff.mp again
  refine ⟨kept.map (styled text r'.tree), List.forall₂_map_right_iff.mpr ?_, ?_⟩
  · refine forall₂_of_map_eq same fun p mem q mem' taken => ?_
    obtain ⟨passed, literal⟩ := ofSource p mem
    obtain ⟨passed', literal'⟩ := List.mem_filter.mp (among.subset mem')
    have styledAs : Respells q (styled text r'.tree q) := by
      obtain ⟨piece, n, rfl, here⟩ := d.exists_at passed'
      exact respells_styled here literal'
    exact styledAs.of_taken taken literal literal' (Reading.spells_of_mem read passed)
      (Reading.spells_of_mem read' passed')
  · have parts := all.sublist (among.map (styled text r'.tree))
    rcases normal with normal | normal
    · rwa [normal]
    · rw [normal]
      exact parts.append_right ['\n']

theorem normalize_of_unreadable {text : List Char} {c : Char} (unread : Reading.ofModule? text = none)
    (ends : [c, '\n'] <:+ text) (inLine : c ≠ '\n') (width : Nat) : normalize text width = text := by
  obtain ⟨front, ends⟩ := ends
  rw [normalize_unread unread, ← ends]
  simp [dropEndWhile, inLine]

end VueOptions.Layout
