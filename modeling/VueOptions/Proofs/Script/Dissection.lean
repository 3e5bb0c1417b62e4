import VueOptions.Proofs.Source.StatementText
import VueOptions.Script.Facts

/-!
A module taken apart into its tokens and what stands between them. Before each token and after the
last one there are only blanks and comments; a token neither starts nor ends with a blank. Every
module that can be read is taken apart in this way by the tokens that its reading passed
(`Reading.dissection`), and its facts are facts about these tokens.
-/

set_option autoImplicit false

namespace VueOptions.Script

open Text

namespace Trivia

/-- Where a read of blanks and comments stands after characters; nothing if a token starts among
them. -/
def after? : Mode → List Char → Option Mode
  | mode, [] => some mode
  | mode, c :: cs => (mode.past? c cs.head?).bind fun next => after? next cs

theorem past?_between {mode : Mode} {c : Char} {next : Option Char}
    (h : mode.past? c next = some .between) (next' : Option Char) :
    mode.past? c next' = some .between := by
  cases mode with
  | between =>
    simp only [Mode.past?] at h ⊢
    split at h
    · next blank => rw [if_pos blank]
    · split at h
      · cases h
      · split at h <;> cases h
  | line =>
    simp only [Mode.past?] at h ⊢
    exact h
  | opening => cases h
  | block =>
    simp only [Mode.past?] at h
    split at h <;> cases h
  | closing => rfl

theorem between_of_past?_eq_none {mode : Mode} {c : Char} {next : Option Char}
    (h : mode.past? c next = none) : mode = .between := by
  cases mode <;> simp only [Mode.past?] at h
  · rfl
  all_goals first | cases h | (split at h <;> cases h)

theorem after?_append {mode : Mode} {cs : List Char} (h : after? mode cs = some .between)
    (ds : List Char) : after? mode (cs ++ ds) = after? .between ds := by
  induction cs generalizing mode with
  | nil =>
    obtain rfl := Option.some.inj h
    rfl
  | cons c cs ih =>
    obtain ⟨next, goesOn, rest⟩ := Option.bind_eq_some_iff.mp h
    have same : mode.past? c (cs ++ ds).head? = some next := by
      cases cs with
      | nil =>
        obtain rfl := Option.some.inj rest
        exact past?_between goesOn _
      | cons d cs => exact goesOn
    rw [List.cons_append, after?, same]
    exact ih rest

theorem isSome_after?_feed {mode : Mode} {cs : List Char} (h : (after? mode cs).isSome = true) :
    (after? mode (cs ++ ['\n'])).isSome = true := by
  induction cs generalizing mode with
  | nil => cases mode <;> rfl
  | cons c cs ih =>
    obtain ⟨last, h⟩ := Option.isSome_iff_exists.mp h
    obtain ⟨next, goesOn, rest⟩ := Option.bind_eq_some_iff.mp h
    have same : mode.past? c (cs ++ ['\n']).head? = some next := by
      cases cs with
      | nil =>
        cases mode with
        | between | block => simpa [Mode.past?] using goesOn
        | line | opening | closing => exact goesOn
      | cons d cs => exact goesOn
    rw [List.cons_append, after?, same]
    exact ih (by rw [rest]; rfl)

theorem skip_spec (mode : Mode) (n : Nat) (b : Bool) (cs : List Char) :
    ∃ gap last, after? mode gap = some last ∧ gap ++ (skip mode n b cs).rest = cs ∧
      (skip mode n b cs).bytes = n + byteLength gap ∧
      (skip mode n b cs).hasBreak = (b || gap.any isLineBreak) ∧
      ((skip mode n b cs).rest ≠ [] → last = .between) := by
  fun_induction skip mode n b cs with
  | case1 mode n b => exact ⟨[], mode, rfl, rfl, rfl, by simp, fun ne => absurd rfl ne⟩
  | case2 mode n b c cs starts =>
    exact ⟨[], mode, rfl, rfl, rfl, by simp, fun _ => between_of_past?_eq_none starts⟩
  | case3 mode n b c cs next goesOn ih =>
    obtain ⟨gap, last, stands, whole, bytes, hasBreak, between⟩ := ih
    refine ⟨c :: gap, last, ?_, by rw [List.cons_append, whole], ?_, ?_, between⟩
    · have same : mode.past? c gap.head? = some next := by
        cases gap with
        | cons d gap =>
          rw [← goesOn, ← whole]
          rfl
        | nil =>
          rw [List.nil_append] at whole
          cases cs with
          | nil => exact goesOn
          | cons d cs =>
            have last_eq : next = .between :=
              (Option.some.inj stands).trans (between (by rw [whole]; exact List.cons_ne_nil _ _))
            rw [last_eq] at goesOn ⊢
            exact past?_between goesOn _
      rw [after?, same]
      exact stands
    · rw [bytes, byteLength_cons, Nat.add_assoc]
    · rw [hasBreak, List.any_cons, Bool.or_assoc]

end Trivia

/-- A token, and neither a blank nor a comment, stands at the front of a text. -/
def StartsToken (cs : List Char) : Prop :=
  ∃ c rest, cs = c :: rest ∧ Trivia.Mode.past? c rest.head? .between = none

theorem Trivia.startsToken_skip (mode : Mode) (n : Nat) (b : Bool) (cs : List Char)
    (ne : (skip mode n b cs).rest ≠ []) : StartsToken (skip mode n b cs).rest := by
  fun_induction skip mode n b cs with
  | case1 mode n b => exact absurd rfl ne
  | case2 mode n b c cs starts => exact ⟨c, cs, rfl, between_of_past?_eq_none starts ▸ starts⟩
  | case3 mode n b c cs next _ ih => exact ih ne

structure Piece where
  gap : List Char
  passage : Passage

namespace Piece

/-- The piece stands at an offset: its gap holds only blanks and whole comments, and its token is
spelled as it has to be, between characters that are no blanks. -/
structure At (n : Nat) (p : Piece) : Prop where
  gap : Trivia.after? .between p.gap = some .between
  start : p.passage.token.span.start = n + byteLength p.gap
  stop : p.passage.token.span.stop = p.passage.token.span.start + byteLength p.passage.taken
  hasBreak : p.passage.token.afterBreak = p.gap.any isLineBreak
  ne_nil : p.passage.taken ≠ []
  first : ∀ c ∈ p.passage.taken.head?, isBlank c = false
  last : ∀ c ∈ p.passage.taken.getLast?, isBlank c = false
  spelled : p.passage.token.lexeme.Spells p.passage.taken

/-- Pieces stand one after another from an offset to another. -/
inductive Laid : Nat → List Piece → Nat → Prop
  | nil (n : Nat) : Laid n [] n
  | cons {n m : Nat} {p : Piece} {ps : List Piece} (first : p.At n)
    (rest : Laid p.passage.token.span.stop ps m) : Laid n (p :: ps) m

/-- The text of pieces, with the tokens written in some way. -/
def weave (write : Passage → List Char) (ps : List Piece) : List Char :=
  ps.flatMap fun p => p.gap ++ write p.passage

theorem weave_cons (write : Passage → List Char) (p : Piece) (ps : List Piece) :
    weave write (p :: ps) = p.gap ++ (write p.passage ++ weave write ps) := by
  rw [weave, List.flatMap_cons, List.append_assoc, ← weave]

theorem weave_append (write : Passage → List Char) (ps qs : List Piece) :
    weave write (ps ++ qs) = weave write ps ++ weave write qs := List.flatMap_append

theorem Laid.concat {n m : Nat} {ps : List Piece} {p : Piece} (laid : Laid n ps m) (last : p.At m) :
    Laid n (ps ++ [p]) p.passage.token.span.stop := by
  induction laid with
  | nil n => exact .cons last (.nil _)
  | cons first _ ih => exact .cons first (ih last)

theorem Laid.byteLength_weave {n m : Nat} {ps : List Piece} (laid : Laid n ps m) :
    m = n + byteLength (weave Passage.taken ps) := by
  induction laid with
  | nil n => rfl
  | cons first _ ih =>
    rw [ih, first.stop, first.start, weave_cons, byteLength_append, byteLength_append]
    omega

theorem Laid.at {n m : Nat} {before after : List Piece} {p : Piece}
    (laid : Laid n (before ++ p :: after) m) :
    p.At (n + byteLength (weave Passage.taken before)) := by
  induction before generalizing n with
  | nil => cases laid with | cons first _ => exact first
  | cons q before ih =>
    cases laid with
    | cons first rest =>
      have here := ih rest
      rw [first.stop, first.start] at here
      rw [weave_cons, byteLength_append, byteLength_append]
      simpa only [Nat.add_assoc] using here

theorem Laid.exists_at {n m : Nat} {ps : List Piece} {p : Piece} (laid : Laid n ps m) (mem : p ∈ ps) :
    ∃ k, p.At k := by
  obtain ⟨before, after, rfl⟩ := List.append_of_mem mem
  exact ⟨_, laid.at⟩

theorem Laid.of_append {n m : Nat} {ps qs : List Piece} (laid : Laid n (ps ++ qs) m) :
    ∃ k, Laid n ps k ∧ Laid k qs m := by
  induction ps generalizing n with
  | nil => exact ⟨n, .nil n, laid⟩
  | cons p ps ih =>
    cases laid with
    | cons first rest =>
      obtain ⟨k, before, after⟩ := ih rest
      exact ⟨k, .cons first before, after⟩

theorem Laid.bounds {n m : Nat} {ps : List Piece} (laid : Laid n ps m) :
    ∀ p ∈ ps, n ≤ p.passage.token.span.start ∧ p.passage.token.span.stop ≤ m := by
  intro p mem
  obtain ⟨before, after, rfl⟩ := List.append_of_mem mem
  obtain ⟨k, first, rest⟩ := laid.of_append
  cases rest with
  | cons here rest =>
    have start := here.start
    have reached := first.byteLength_weave
    have left := rest.byteLength_weave
    omega

theorem Laid.stop_le {n m : Nat} {ps : List Piece} (laid : Laid n ps m) :
    ps.Pairwise fun p q => p.passage.token.span.stop ≤ q.passage.token.span.start := by
  induction laid with
  | nil => exact .nil
  | cons _ rest ih => exact .cons (fun q mem => (rest.bounds q mem).1) ih

end Piece

def NamesInterpreter (head : List Char) : Prop :=
  head = [] ∨ ∃ line, head = '#' :: '!' :: line ∧ ∀ c ∈ line, isLineBreak c = false

/-- A text taken apart into passages: a line that may name an interpreter, the pieces, and the blanks
and comments after the last token. -/
structure Dissection (text : List Char) (passed : List Passage) where
  head : List Char
  pieces : List Piece
  tail : List Char
  opens : NamesInterpreter head
  whole : head ++ (Piece.weave Passage.taken pieces ++ tail) = text
  passages : pieces.map Piece.passage = passed
  laid : ∃ stop, Piece.Laid (byteLength head) pieces stop
  ends : (Trivia.after? .between tail).isSome = true

namespace Dissection

variable {text : List Char} {passed : List Passage}

theorem cuts (d : Dissection text passed) {before after : List Piece} {p : Piece}
    (split : d.pieces = before ++ p :: after) :
    (d.head ++ Piece.weave Passage.taken before ++ p.gap) ++
        (p.passage.taken ++ (Piece.weave Passage.taken after ++ d.tail)) = text ∧
      byteLength (d.head ++ Piece.weave Passage.taken before ++ p.gap) = p.passage.token.span.start := by
  obtain ⟨stop, laid⟩ := d.laid
  rw [split] at laid
  refine ⟨?_, ?_⟩
  · refine Eq.trans ?_ d.whole
    rw [split, Piece.weave_append, Piece.weave_cons]
    simp only [List.append_assoc]
  · rw [laid.at.start, byteLength_append, byteLength_append]

theorem exists_split (d : Dissection text passed) {p : Passage} (mem : p ∈ passed) :
    ∃ before q after, d.pieces = before ++ q :: after ∧ q.passage = p := by
  rw [← d.passages] at mem
  obtain ⟨q, hq, rfl⟩ := List.mem_map.mp mem
  obtain ⟨before, after, split⟩ := List.append_of_mem hq
  exact ⟨before, q, after, split, rfl⟩

theorem exists_at (d : Dissection text passed) {p : Passage} (mem : p ∈ passed) :
    ∃ (q : Piece) (n : Nat), q.passage = p ∧ q.At n := by
  rw [← d.passages] at mem
  obtain ⟨q, hq, same⟩ := List.mem_map.mp mem
  obtain ⟨stop, laid⟩ := d.laid
  obtain ⟨n, here⟩ := laid.exists_at hq
  exact ⟨q, n, same, here⟩

theorem span_le (d : Dissection text passed) {p : Passage} (mem : p ∈ passed) :
    p.token.span.start < p.token.span.stop ∧ p.token.span.stop ≤ byteLength text := by
  obtain ⟨before, q, after, split, rfl⟩ := d.exists_split mem
  obtain ⟨whole, start⟩ := d.cuts split
  obtain ⟨stop, laid⟩ := d.laid
  rw [split] at laid
  have taken := byteLength_pos laid.at.ne_nil
  have stops := laid.at.stop
  have bytes := congrArg byteLength whole
  rw [byteLength_append, start, byteLength_append] at bytes
  omega

theorem stop_le (d : Dissection text passed) :
    passed.Pairwise fun p q => p.token.span.stop ≤ q.token.span.start := by
  obtain ⟨stop, laid⟩ := d.laid
  rw [← d.passages]
  exact List.pairwise_map.mpr laid.stop_le

theorem start_lt (d : Dissection text passed) :
    passed.Pairwise fun p q => p.token.span.start < q.token.span.start :=
  d.stop_le.imp_of_mem fun hp _ le => Nat.lt_of_lt_of_le (d.span_le hp).1 le

theorem apart (d : Dissection text passed) {p q : Passage} (hp : p ∈ passed) (hq : q ∈ passed) :
    p = q ∨ q.token.span.stop ≤ p.token.span.start ∨ p.token.span.stop ≤ q.token.span.start := by
  obtain ⟨before, after, rfl⟩ := List.append_of_mem hp
  obtain ⟨-, later, earlier⟩ := List.pairwise_append.mp d.stop_le
  rcases List.mem_append.mp hq with mem | mem
  · exact .inr (.inl (earlier q mem p List.mem_cons_self))
  · rcases List.mem_cons.mp mem with rfl | mem
    · exact .inl rfl
    · exact .inr (.inr ((List.pairwise_cons.mp later).1 q mem))

/-- No token begins like a comment, also with what follows it. -/
def StartsTokens (d : Dissection text passed) : Prop :=
  ∀ before p after, d.pieces = before ++ p :: after →
    StartsToken (p.passage.taken ++ (Piece.weave Passage.taken after ++ d.tail))

end Dissection

namespace Passage

theorem opening_cuts (text : List Char) : ∃ head, NamesInterpreter head ∧
    head ++ (opening text).after = text ∧ byteLength head = (opening text).offset := by
  unfold opening
  split
  · next cs =>
    refine ⟨'#' :: '!' :: cs.takeWhile fun c => !isLineBreak c, .inr ⟨_, rfl, ?_⟩, ?_, ?_⟩
    · intro c mem
      simpa using List.all_eq_true.mp List.all_takeWhile c mem
    · simp [Place.past]
    · simp only [byteLength_cons, Place.past, Place.first, ← Nat.add_assoc, Nat.zero_add]
      rfl
  · exact ⟨[], .inl rfl, rfl, rfl⟩

/-- What passages that follow one another show of their text: pieces, and where the text has ended,
perhaps blanks and comments behind them. -/
private structure Trail (text : List Char) (passed : List Passage) (n : Nat) (after : List Char) where
  head : List Char
  pieces : List Piece
  behind : List Char
  opens : NamesInterpreter head
  whole : head ++ (Piece.weave Passage.taken pieces ++ (behind ++ after)) = text
  passages : pieces.map Piece.passage = (passed.filter fun p => !p.taken.isEmpty).reverse
  laid : ∃ stop, Piece.Laid (byteLength head) pieces stop ∧ n = stop + byteLength behind
  ends : (Trivia.after? .between behind).isSome = true
  reached : behind ≠ [] → after = []
  starts : ∀ before p later, pieces = before ++ p :: later →
    StartsToken (p.passage.taken ++ (Piece.weave Passage.taken later ++ (behind ++ after)))

private theorem Follow.trail {text : List Char} {passed : List Passage} {n : Nat} {after : List Char}
    (follow : Follow text passed n after) : Nonempty (Trail text passed n after) := by
  induction follow with
  | opening =>
    obtain ⟨head, opens, whole, bytes⟩ := opening_cuts text
    exact ⟨⟨head, [], [], opens, whole, rfl, ⟨_, .nil _, bytes.symm⟩, rfl, nofun, by simp⟩⟩
  | @next ps n after rest p before cut start stop hasBreak ih =>
    obtain ⟨head, pieces, behind, opens, whole, passages, ⟨m, laid, hn⟩, ends, reached, starts⟩ := ih
    obtain ⟨gap, last, stands, cuts, bytes, breaks, between⟩ := Trivia.skip_spec .between 0 false after
    by_cases ended : p.taken = []
    · have none : (Trivia.skip .between 0 false after).rest = [] := cut.advances ended
      have rest_eq : rest = [] := by
        have taken := cut.whole
        rw [none] at taken
        exact (List.append_eq_nil_iff.mp taken).2
      have gap_eq : gap = after := by rw [none, List.append_nil] at cuts; exact cuts
      subst rest_eq gap_eq
      refine ⟨⟨head, pieces, behind ++ gap, opens, by rw [List.append_nil]; exact whole, ?_,
        ⟨m, laid, ?_⟩, ?_, fun _ => rfl, by rw [List.append_nil]; exact starts⟩⟩
      · rw [passages, List.filter_cons_of_neg (by simp [ended])]
      · rw [stop, start, bytes, ended, byteLength_append, hn]
        simp [Nat.add_assoc]
      · by_cases empty : behind = []
        · rw [empty, List.nil_append, stands]
          rfl
        · rw [reached empty, List.append_nil]
          exact ends
    · have ne : (Trivia.skip .between 0 false after).rest ≠ [] := by
        rw [← cut.whole]
        exact List.append_ne_nil_of_left_ne_nil ended _
      have empty : behind = [] := by
        apply Decidable.byContradiction
        intro some
        rw [reached some] at ne
        exact ne rfl
      subst empty
      have first : ∀ c ∈ p.taken.head?, isBlank c = false := by
        intro c front
        apply Trivia.head?_skip_solid .between 0 false after
        rw [← cut.whole, List.head?_append, Option.mem_def.mp front]
        rfl
      rw [between ne] at stands
      have here : (Piece.mk gap p).At m :=
        ⟨stands, by rw [start, bytes, hn, Nat.zero_add]; rfl, stop, by rw [hasBreak, breaks]; rfl, ended,
          first, cut.solid, cut.spelled⟩
      have after_eq : gap ++ (p.taken ++ rest) = after := by
        have taken : p.taken ++ rest = (Trivia.skip .between 0 false after).rest := cut.whole
        rw [taken, cuts]
      refine ⟨⟨head, pieces ++ [⟨gap, p⟩], [], opens, ?_, ?_, ⟨_, laid.concat here, rfl⟩, rfl, nofun, ?_⟩⟩
      · rw [← whole, ← after_eq, Piece.weave_append]
        simp [Piece.weave]
      · rw [List.map_append, passages, List.filter_cons_of_pos (by simpa using ended),
          List.reverse_cons]
        rfl
      · intro earlier q later split
        rcases List.eq_nil_or_concat later with rfl | ⟨cs, last, rfl⟩
        · obtain ⟨rfl, same⟩ := List.append_inj' split rfl
          obtain ⟨rfl, -⟩ := List.cons.inj same
          have begins := Trivia.startsToken_skip .between 0 false after ne
          rw [← cut.whole] at begins
          exact begins
        · rw [List.concat_eq_append, ← List.cons_append, ← List.append_assoc] at split
          obtain ⟨rfl, same⟩ := List.append_inj' split rfl
          obtain ⟨rfl, -⟩ := List.cons.inj same
          have begins := starts earlier q cs rfl
          rw [← after_eq] at begins
          simpa [Piece.weave] using begins

end Passage

namespace Grammar

open Parse

theorem endOfText_of_moduleStatements {g : Grammar} {text : List Char} {s : Setting}
    {c c' : Cursor text} {ts : List Tree} (run : moduleStatements g text s c = some (ts, c')) :
    c'.cut.lexeme = .endOfText := by
  obtain ⟨found, k, loop, run⟩ := bind_eq_some.mp run
  obtain ⟨-, rfl⟩ := pure_eq_some.mp run
  obtain ⟨setting, k', -, loop⟩ := bind_eq_some.mp loop
  obtain ⟨found', i, round⟩ := rounds_stops loop
  obtain ⟨x, j, seen, round⟩ := bind_eq_some.mp round
  obtain ⟨rfl, rfl⟩ := Prod.mk.inj (Option.some.inj seen)
  split at round
  · next ended =>
    obtain ⟨-, rfl⟩ := pure_eq_some.mp round
    exact beq_iff_eq.mp ended
  · obtain ⟨t, j, -, round⟩ := bind_eq_some.mp round
    obtain ⟨again, -⟩ := pure_eq_some.mp round
    cases again

end Grammar

theorem Reading.dissection {text : List Char} {r : Reading} (read : Reading.ofModule? text = some r) :
    ∃ d : Dissection text r.passed, d.StartsTokens := by
  unfold Reading.ofModule? at read
  dsimp only at read
  split at read
  · next ts cursor run =>
    split at read
    · cases read
    · obtain rfl := Option.some.inj read
      have ended := Grammar.endOfText_of_moduleStatements run
      have nothing : cursor.place.after = [] := by
        have spelled := cursor.cut_from.spelled
        rw [ended] at spelled
        exact cursor.cut_from.advances spelled
      obtain ⟨n, after, follow, -, rest, -⟩ := cursor.follows
      obtain ⟨head, pieces, behind, opens, whole, passages, ⟨m, laid, -⟩, ends, reached, starts⟩ :=
        follow.trail
      obtain ⟨gap, last, stands, cuts, -⟩ := Trivia.skip_spec .between 0 false after
      have gap_eq : gap = after := by rw [← rest, nothing, List.append_nil] at cuts; exact cuts
      subst gap_eq
      refine ⟨⟨head, pieces, behind ++ gap, opens, whole, passages, ⟨m, laid⟩, ?_⟩, starts⟩
      by_cases empty : behind = []
      · rw [empty, List.nil_append, stands]
        rfl
      · rw [reached empty, List.append_nil]
        exact ends
  · cases read

theorem Reading.spells_of_mem {text : List Char} {r : Reading} (read : Reading.ofModule? text = some r)
    {p : Passage} (mem : p ∈ r.passed) : p.token.lexeme.Spells p.taken := by
  obtain ⟨d, -⟩ := Reading.dissection read
  obtain ⟨q, n, rfl, here⟩ := d.exists_at mem
  exact here.spelled

def Tree.terminators (t : Tree) : List Nat := t.nodes.filterMap Facts.terminator?

theorem Reading.facts {text : List Char} {r : Reading} (read : Reading.ofModule? text = some r) :
    Facts.ofModule? text = some
      { templates := r.passed.filterMap Passage.chunk?
        strings := r.passed.filterMap Passage.string?
        terminators := (r.passed.filterMap Passage.semicolon?).filter r.tree.terminators.contains } := by
  obtain ⟨d, -⟩ := Reading.dissection read
  have stays : ∀ spans : List Span, (∀ s ∈ spans, s.stop ≤ byteLength text) →
      ((spans.filter fun s => decide (0 ≤ s.start) && decide (s.stop ≤ 0 + byteLength text)).map
        fun s => Span.mk (s.start - 0) (s.stop - 0)) = spans := by
    intro spans inside
    rw [List.filter_eq_self.mpr fun s mem => by simpa using inside s mem]
    exact List.map_id spans
  have chunks : ∀ s ∈ r.passed.filterMap Passage.chunk?, s.stop ≤ byteLength text := by
    intro s mem
    obtain ⟨p, hp, chunk⟩ := List.mem_filterMap.mp mem
    have inside := (d.span_le hp).2
    unfold Passage.chunk? at chunk
    split at chunk
    · obtain rfl := Option.some.inj chunk
      exact Nat.le_trans (Nat.sub_le _ _) inside
    · cases chunk
  have strings : ∀ s ∈ r.passed.filterMap Passage.string?, s.stop ≤ byteLength text := by
    intro s mem
    obtain ⟨p, hp, string⟩ := List.mem_filterMap.mp mem
    unfold Passage.string? at string
    split at string
    · obtain rfl := Option.some.inj string
      exact (d.span_le hp).2
    · cases string
  have semicolons : ∀ o ∈ r.passed.filterMap Passage.semicolon?, o < byteLength text := by
    intro o mem
    obtain ⟨p, hp, semicolon⟩ := List.mem_filterMap.mp mem
    unfold Passage.semicolon? at semicolon
    split at semicolon
    · obtain rfl := Option.some.inj semicolon
      exact Nat.lt_of_lt_of_le (d.span_le hp).1 (d.span_le hp).2
    · cases semicolon
  have bare : Facts.bare.before ++ text ++ Facts.bare.after = text := by
    rw [Facts.bare, List.nil_append, List.append_nil]
  have start : byteLength Facts.bare.before = 0 := rfl
  rw [Facts.ofModule?, Facts.ofFramed?, bare, read, Option.map_some, start, Facts.ofReading]
  dsimp only
  rw [stays _ chunks, stays _ strings]
  congr 2
  rw [List.filter_congr (q := r.tree.terminators.contains) fun o mem => ?_]
  · exact List.map_id _
  · simp only [Nat.zero_le, decide_true, Bool.and_true, Nat.zero_add, semicolons o mem]
    rfl

end VueOptions.Script
