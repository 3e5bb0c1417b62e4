import VueOptions.Proofs.Layout.Edits
import VueOptions.Proofs.Layout.Gaps

/-!
A module with the characters of its tokens marked as fixed. Fixed characters do not meet free ones
with a blank, since no token starts or ends with one (`joins_glyphs`). A line begins in a template
exactly where the line feed before it is fixed: among the tokens that stand in house style, only
templates hold line feeds (`templateLines_eq`).
-/

set_option autoImplicit false

namespace VueOptions.Layout

open Text Script

/-- The characters of pieces, with their tokens written in some way. -/
def glyphs (write : Passage → List Char) (ps : List Piece) : List Glyph :=
  ps.flatMap fun p => marks false p.gap ++ marks true (write p.passage)

theorem map_char_marks (isFixed : Bool) (cs : List Char) : (marks isFixed cs).map Glyph.char = cs := by
  rw [marks, List.map_map]
  exact List.map_id cs

theorem glyphs_cons (write : Passage → List Char) (p : Piece) (ps : List Piece) :
    glyphs write (p :: ps)
      = marks false p.gap ++ (marks true (write p.passage) ++ glyphs write ps) := by
  rw [glyphs, List.flatMap_cons, List.append_assoc]
  rfl

theorem map_char_glyphs (write : Passage → List Char) (ps : List Piece) :
    (glyphs write ps).map Glyph.char = Piece.weave write ps := by
  induction ps with
  | nil => rfl
  | cons p ps ih =>
    rw [glyphs_cons, List.map_append, List.map_append, map_char_marks, map_char_marks, ih,
      Piece.weave_cons]

/-- A text that may follow any character but a fixed blank. -/
def Joins (gs : List Glyph) : Prop :=
  ∀ g : Glyph, (g.isFixed = true → isBlank g.char = false) → (g :: gs).IsChain Meets

theorem joins_feed : Joins [feedGlyph false] :=
  fun _ solid => .cons_cons (.inr ⟨solid, nofun⟩) (.singleton _)

theorem Joins.free {gs : List Glyph} (h : Joins gs) (cs : List Char) : Joins (marks false cs ++ gs) := by
  induction cs with
  | nil => exact h
  | cons c cs ih => exact fun g solid => .cons_cons (.inr ⟨solid, nofun⟩) (ih ⟨c, false⟩ nofun)

theorem Joins.fixed {gs : List Glyph} (h : Joins gs) {cs : List Char}
    (first : ∀ c ∈ cs.head?, isBlank c = false) (last : ∀ c ∈ cs.getLast?, isBlank c = false) :
    Joins (marks true cs ++ gs) := by
  have inner : ∀ c cs, (∀ d ∈ (c :: cs).getLast?, isBlank d = false) →
      (⟨c, true⟩ :: (marks true cs ++ gs)).IsChain Meets := by
    intro c cs last
    induction cs generalizing c with
    | nil => exact h ⟨c, true⟩ fun _ => last c rfl
    | cons d cs ih => exact .cons_cons (.inl rfl) (ih d last)
  cases cs with
  | nil => exact h
  | cons c cs => exact fun g solid => .cons_cons (.inr ⟨solid, fun _ => first c rfl⟩) (inner c cs last)

/-- How a token is written: not at all, or between characters that are no blanks. -/
def Solidly (cs : List Char) : Prop :=
  (∀ c ∈ cs.head?, isBlank c = false) ∧ ∀ c ∈ cs.getLast?, isBlank c = false

theorem joins_glyphs {write : Passage → List Char} {ps : List Piece} {gs : List Glyph} (h : Joins gs)
    (solid : ∀ p ∈ ps, Solidly (write p.passage)) : Joins (glyphs write ps ++ gs) := by
  induction ps with
  | nil => exact h
  | cons p ps ih =>
    rw [List.forall_mem_cons] at solid
    rw [glyphs_cons, List.append_assoc, List.append_assoc]
    exact ((ih solid.2).fixed solid.1.1 solid.1.2).free p.gap

theorem solidly_restyle {value : String} {cs : List Char} (h : (Lexeme.string value).Spells cs) :
    Solidly (restyle cs) := by
  obtain ⟨quote, body, mark, same, -⟩ := spells_restyle h
  rw [same]
  refine ⟨?_, ?_⟩
  · rintro _ ⟨⟩
    rcases mark with rfl | rfl <;> rfl
  · rw [List.getLast?_append]
    rintro _ ⟨⟩
    rcases mark with rfl | rfl <;> rfl

theorem solidly_styled {text : List Char} {t : Tree} {n : Nat} {p : Piece} (here : p.At n) :
    Solidly (styled text t p.passage) := by
  have spelled := here.spelled
  unfold styled
  split
  · next value lexeme =>
    rw [lexeme] at spelled
    exact solidly_restyle spelled
  · split
    · exact ⟨nofun, nofun⟩
    · exact ⟨here.first, here.last⟩

/-- Whether each line feed of a text is fixed. -/
def feeds (gs : List Glyph) : List Bool := (gs.filter fun g => g.char == '\n').map Glyph.isFixed

theorem feeds_append (gs hs : List Glyph) : feeds (gs ++ hs) = feeds gs ++ feeds hs := by
  rw [feeds, List.filter_append, List.map_append]
  rfl

theorem feeds_marks (isFixed : Bool) (cs : List Char) :
    feeds (marks isFixed cs) = List.replicate (cs.count '\n') isFixed := by
  induction cs with
  | nil => rfl
  | cons c cs ih =>
    by_cases feed : c = '\n'
    · subst feed
      rw [List.count_cons_self, List.replicate_succ, ← ih]
      rfl
    · rw [List.count_cons_of_ne feed, ← ih, feeds, marks, List.map_cons,
        List.filter_cons_of_neg (by simpa using feed)]
      rfl

theorem lineFeeds_append (n : Nat) (cs ds : List Char) :
    Facts.lineFeeds n (cs ++ ds) = Facts.lineFeeds n cs ++ Facts.lineFeeds (n + byteLength cs) ds := by
  induction cs generalizing n with
  | nil => rfl
  | cons c cs ih =>
    rw [List.cons_append, Facts.lineFeeds, Facts.lineFeeds, byteLength_cons, ← Nat.add_assoc]
    split
    · next feed =>
      subst feed
      rw [ih]
      rfl
    · rw [ih]

theorem bounds_of_mem_lineFeeds {n o : Nat} {cs : List Char} (mem : o ∈ Facts.lineFeeds n cs) :
    n ≤ o ∧ o < n + byteLength cs := by
  induction cs generalizing n with
  | nil => cases mem
  | cons c cs ih =>
    have pos := c.utf8Size_pos
    rw [Facts.lineFeeds] at mem
    rw [byteLength_cons]
    split at mem
    · next feed =>
      subst feed
      have one : '\n'.utf8Size = 1 := rfl
      rcases List.mem_cons.mp mem with rfl | mem
      · omega
      · have := ih mem
        omega
    · have := ih mem
      omega

theorem map_lineFeeds {inside : Nat → Bool} {n : Nat} {cs : List Char} {flag : Bool}
    (h : ∀ o ∈ Facts.lineFeeds n cs, inside o = flag) :
    (Facts.lineFeeds n cs).map inside = List.replicate (cs.count '\n') flag := by
  rw [List.eq_replicate_iff, List.length_map, Facts.length_lineFeeds]
  exact ⟨rfl, List.forall_mem_map.mpr h⟩

section

variable {text : List Char} {passed : List Passage} {f : Facts}

theorem inTemplate_eq_false (templates : f.templates = passed.filterMap Passage.chunk?) {o : Nat}
    (outside : ∀ p ∈ passed, p.chunk?.isSome = true → o < p.token.span.start ∨ p.token.span.stop ≤ o) :
    f.inTemplate o = false := by
  rw [Facts.inTemplate, templates, List.any_eq_false]
  intro s mem
  obtain ⟨p, hp, chunk⟩ := List.mem_filterMap.mp mem
  have apart := outside p hp (by rw [chunk]; rfl)
  unfold Passage.chunk? at chunk
  split at chunk
  · obtain rfl := Option.some.inj chunk
    simp only [Span.contains, Bool.and_eq_true, decide_eq_true_eq, not_and, Nat.not_lt]
    omega
  · cases chunk

theorem tokens_apart (d : Dissection text passed) {p : Piece} (hp : p ∈ d.pieces) {q : Passage}
    (hq : q ∈ passed) : q = p.passage ∨
      q.token.span.stop + byteLength p.gap ≤ p.passage.token.span.start ∨
      p.passage.token.span.stop ≤ q.token.span.start := by
  obtain ⟨stop, laid⟩ := d.laid
  obtain ⟨before, after, split⟩ := List.append_of_mem hp
  rw [← d.passages, split] at hq
  rw [split] at laid
  obtain ⟨other, beside, rfl⟩ := List.mem_map.mp hq
  obtain ⟨k, first, rest⟩ := laid.of_append
  cases rest with
  | cons here later =>
    have start := here.start
    rcases List.mem_append.mp beside with mem | mem
    · have bounds := first.bounds other mem
      omega
    · rcases List.mem_cons.mp mem with rfl | mem
      · exact .inl rfl
      · exact .inr (.inr (later.bounds other mem).1)

theorem inTemplate_gap (templates : f.templates = passed.filterMap Passage.chunk?)
    (d : Dissection text passed) {p : Piece} (hp : p ∈ d.pieces) {o : Nat}
    (lt : o < p.passage.token.span.start) (le : p.passage.token.span.start ≤ o + byteLength p.gap) :
    f.inTemplate o = false := by
  refine inTemplate_eq_false templates fun q hq _ => ?_
  have span := (d.span_le (d.passages ▸ List.mem_map_of_mem hp : p.passage ∈ passed)).1
  rcases tokens_apart d hp hq with rfl | before | behind
  · exact .inl lt
  · omega
  · omega

theorem template_of_feed {n : Nat} {p : Piece} (here : p.At n)
    (inLine : p.passage.string?.isSome = true → '\n' ∉ p.passage.taken) (feed : '\n' ∈ p.passage.taken) :
    ∃ raw isLast isValid, p.passage.token.lexeme = .template raw isLast isValid := by
  have spelled := here.spelled
  cases lexeme : p.passage.token.lexeme with
  | template raw isLast isValid => exact ⟨raw, isLast, isValid, rfl⟩
  | string value => exact absurd feed (inLine (by simp [Passage.string?, lexeme]))
  | mark m =>
    rw [lexeme] at spelled
    rw [show p.passage.taken = m.spelling from spelled] at feed
    exact absurd (m.solid_spelling _ feed) (by decide)
  | endOfText =>
    rw [lexeme] at spelled
    exact absurd spelled here.ne_nil
  | name | keyword | privateName | numeral | pattern | malformed =>
    rw [lexeme] at spelled
    exact absurd feed spelled

theorem mem_of_mem_lineFeeds {n o : Nat} {cs : List Char} (mem : o ∈ Facts.lineFeeds n cs) : '\n' ∈ cs := by
  have some := List.length_pos_of_mem mem
  rw [Facts.length_lineFeeds] at some
  exact List.count_pos_iff.mp some

theorem inTemplate_eq_true (templates : f.templates = passed.filterMap Passage.chunk?) {n o : Nat}
    {p : Piece} (here : p.At n) (mem : p.passage ∈ passed)
    (inLine : p.passage.string?.isSome = true → '\n' ∉ p.passage.taken)
    (feed : o ∈ Facts.lineFeeds p.passage.token.span.start p.passage.taken) : f.inTemplate o = true := by
  obtain ⟨raw, isLast, isValid, lexeme⟩ := template_of_feed here inLine (mem_of_mem_lineFeeds feed)
  have spelled := here.spelled
  rw [lexeme] at spelled
  obtain ⟨opening, mark, taken⟩ := spelled
  have one : opening.utf8Size = 1 := by rcases mark with rfl | rfl <;> rfl
  have inside : o ∈ Facts.lineFeeds (p.passage.token.span.start + 1) raw.toList := by
    have ne : opening ≠ '\n' := by rcases mark with rfl | rfl <;> decide
    have closing : ∀ n, Facts.lineFeeds n (Literal.Chunk.mk raw.toList isLast []).closing = [] := by
      cases isLast <;> exact fun _ => rfl
    rw [taken, List.cons_append, Facts.lineFeeds, if_neg ne, one, lineFeeds_append, closing,
      List.append_nil] at feed
    exact feed
  have bounds := bounds_of_mem_lineFeeds inside
  have chunk : p.passage.chunk? = some ⟨p.passage.token.span.start + 1,
      p.passage.token.span.stop - if isLast then 1 else 2⟩ := by
    rw [Passage.chunk?, lexeme]
  rw [Facts.inTemplate, templates, List.any_eq_true]
  refine ⟨_, List.mem_filterMap.mpr ⟨p.passage, mem, chunk⟩, ?_⟩
  have stop := here.stop
  rw [taken, byteLength_append, byteLength_cons, one] at stop
  have closing : byteLength (Literal.Chunk.mk raw.toList isLast []).closing = if isLast then 1 else 2 := by
    cases isLast <;> rfl
  rw [closing] at stop
  simp only [Span.contains, Bool.and_eq_true, decide_eq_true_eq]
  omega

private theorem count_requote (cs : List Char) : (requote cs).count '\n' = cs.count '\n' := by
  rw [List.count_eq_length_filter, List.count_eq_length_filter, Literal.filter_requote rfl]

theorem count_restyle {quote : Char} {body : List Char} (mark : quote = '"' ∨ quote = '\'') :
    (restyle (quote :: body ++ [quote])).count '\n' = (quote :: body ++ [quote]).count '\n' := by
  rcases mark with rfl | rfl
  · rw [restyle_double]
    split
    · rfl
    · simp [count_requote]
  · rfl

theorem count_styled {n : Nat} {p : Piece} {t : Tree} (here : p.At n) :
    (styled text t p.passage).count '\n' = p.passage.taken.count '\n' := by
  have spelled := here.spelled
  unfold styled
  split
  · next value lexeme =>
    rw [lexeme] at spelled
    obtain ⟨quote, body, mark, taken, -⟩ := spelled
    rw [taken, count_restyle mark]
  · split
    · next drop =>
      rw [taken_of_drops here drop]
      rfl
    · rfl

theorem map_lineFeeds_weave {inside : Nat → Bool} {flag : Passage → Bool} {n m : Nat} {ps : List Piece}
    (laid : Piece.Laid n ps m) (gaps : ∀ p ∈ ps, ∀ o, o < p.passage.token.span.start →
      p.passage.token.span.start ≤ o + byteLength p.gap → inside o = false)
    (tokens : ∀ p ∈ ps, ∀ o ∈ Facts.lineFeeds p.passage.token.span.start p.passage.taken,
      inside o = flag p.passage) :
    (Facts.lineFeeds n (Piece.weave Passage.taken ps)).map inside = ps.flatMap fun p =>
      List.replicate (p.gap.count '\n') false ++
        List.replicate (p.passage.taken.count '\n') (flag p.passage) := by
  induction laid with
  | nil n => rfl
  | @cons n m p ps first rest ih =>
    rw [List.forall_mem_cons] at gaps tokens
    have gap : (Facts.lineFeeds n p.gap).map inside = List.replicate (p.gap.count '\n') false := by
      refine map_lineFeeds fun o mem => ?_
      have bounds := bounds_of_mem_lineFeeds mem
      have start := first.start
      exact gaps.1 o (by omega) (by omega)
    rw [Piece.weave_cons, lineFeeds_append, lineFeeds_append, ← first.start, ← first.stop,
      List.flatMap_cons, List.map_append, List.map_append, gap, map_lineFeeds tokens.1,
      ih gaps.2 tokens.2, List.append_assoc]

theorem templateLines_of_tokens (flag : Passage → Bool)
    (templates : f.templates = passed.filterMap Passage.chunk?) (d : Dissection text passed)
    (tokens : ∀ p ∈ d.pieces, ∀ o ∈ Facts.lineFeeds p.passage.token.span.start p.passage.taken,
      f.inTemplate o = flag p.passage) :
    f.templateLines text = false :: (List.replicate (d.head.count '\n') false ++
      ((d.pieces.flatMap fun p => List.replicate (p.gap.count '\n') false ++
        List.replicate (p.passage.taken.count '\n') (flag p.passage)) ++
      List.replicate (d.tail.count '\n') false)) := by
  obtain ⟨stop, laid⟩ := d.laid
  have outside : ∀ o, o < byteLength d.head ∨ stop ≤ o → f.inTemplate o = false := by
    intro o out
    refine inTemplate_eq_false templates fun q mem _ => ?_
    obtain ⟨p, hp, rfl⟩ := List.mem_map.mp (d.passages.symm ▸ mem)
    have bounds := laid.bounds p hp
    omega
  have whole := congrArg (Facts.lineFeeds 0) d.whole
  rw [lineFeeds_append, lineFeeds_append, Nat.zero_add, ← laid.byteLength_weave] at whole
  have head : ∀ o ∈ Facts.lineFeeds 0 d.head, f.inTemplate o = false := by
    intro o mem
    have bounds := bounds_of_mem_lineFeeds mem
    exact outside o (.inl (by omega))
  have tail : ∀ o ∈ Facts.lineFeeds stop d.tail, f.inTemplate o = false := fun o mem =>
    outside o (.inr (bounds_of_mem_lineFeeds mem).1)
  have gaps : ∀ p ∈ d.pieces, ∀ o, o < p.passage.token.span.start →
      p.passage.token.span.start ≤ o + byteLength p.gap → f.inTemplate o = false :=
    fun p hp o lt le => inTemplate_gap templates d hp lt le
  rw [Facts.templateLines, ← whole, List.map_append, List.map_append, map_lineFeeds head,
    map_lineFeeds tail, map_lineFeeds_weave laid gaps tokens]

theorem feeds_glyphs {write : Passage → List Char} {ps : List Piece}
    (count : ∀ p ∈ ps, (write p.passage).count '\n' = p.passage.taken.count '\n') :
    feeds (glyphs write ps) = ps.flatMap fun p => List.replicate (p.gap.count '\n') false ++
      List.replicate (p.passage.taken.count '\n') true := by
  induction ps with
  | nil => rfl
  | cons p ps ih =>
    rw [List.forall_mem_cons] at count
    rw [glyphs_cons, feeds_append, feeds_append, feeds_marks, feeds_marks, ih count.2, count.1,
      List.flatMap_cons, List.append_assoc]

end

theorem templateLines_eq {text : List Char} {r : Reading} {f : Facts}
    (templates : f.templates = r.passed.filterMap Passage.chunk?) (d : Dissection text r.passed)
    (inLine : ∀ p ∈ r.passed, p.string?.isSome = true → '\n' ∉ p.taken) :
    f.templateLines text = lineFlags
      (marks false d.head ++ (glyphs (styled text r.tree) d.pieces ++ marks false d.tail)) := by
  obtain ⟨stop, laid⟩ := d.laid
  have tokens : ∀ p ∈ d.pieces, ∀ o ∈ Facts.lineFeeds p.passage.token.span.start p.passage.taken,
      f.inTemplate o = true := by
    intro p hp o mem
    obtain ⟨k, here⟩ := laid.exists_at hp
    have passage : p.passage ∈ r.passed := d.passages ▸ List.mem_map_of_mem hp
    exact inTemplate_eq_true templates here passage (inLine _ passage) mem
  have count : ∀ p ∈ d.pieces,
      (styled text r.tree p.passage).count '\n' = p.passage.taken.count '\n' := by
    intro p hp
    obtain ⟨k, here⟩ := laid.exists_at hp
    exact count_styled here
  have written : feeds (marks false d.head ++ (glyphs (styled text r.tree) d.pieces ++ marks false d.tail)) =
      List.replicate (d.head.count '\n') false ++
      ((d.pieces.flatMap fun p => List.replicate (p.gap.count '\n') false ++
        List.replicate (p.passage.taken.count '\n') true) ++
      List.replicate (d.tail.count '\n') false) := by
    rw [feeds_append, feeds_append, feeds_marks, feeds_marks, feeds_glyphs count]
  rw [templateLines_of_tokens (fun _ => true) templates d tokens, ← written]
  rfl

end VueOptions.Layout
