import VueOptions.Proofs.Layout.Marked

/-!
What house style does to a module. It keeps the tokens in their order, and the only ones that go are
semicolons after which a line ends (`house_style_keeps_tokens`). It does not follow that the tokens are
read as the same tree: without its semicolon a statement may go on in the next line
(`house_style_may_change_tree`).
-/

set_option autoImplicit false

namespace VueOptions.Layout

open Text Script

/-- One token in two texts, written in some way in the second. -/
structure Rewritten (write : Passage → List Char) (p q : Piece) : Prop where
  lexeme : q.passage.token.lexeme = p.passage.token.lexeme
  isEscaped : q.passage.token.isEscaped = p.passage.token.isEscaped
  taken : q.passage.taken = write p.passage

/-- Two tokens that are as far from what is before them: adjacent, on its line, or on a later one. -/
structure Spaced (p q : Piece) : Prop where
  hasBreak : q.passage.token.afterBreak = p.passage.token.afterBreak
  adjacent : q.gap = [] ↔ p.gap = []

/-- What becomes of a token: it is not written, or spelled in a way that neither starts nor ends with
a blank. -/
structure WritesToken (write : Passage → List Char) (drop : Passage → Bool) (p : Passage) : Prop where
  solid : Solidly (write p)
  eq_nil : drop p = true → write p = []
  spelled : drop p = false → write p ≠ [] ∧ p.token.lexeme.Spells (write p)

section

variable {width : Nat} {write : Passage → List Char} {drop : Passage → Bool}

theorem exists_piece {p : Piece} {n : Nat} (here : p.At n) (writes : WritesToken write drop p.passage)
    (kept : drop p.passage = false) {before : List Char}
    (closed : Trivia.after? .between before = some .between)
    (broken : before = [] ∨ p.passage.token.afterBreak = true) {s t : Stand} {out : List Char}
    (run : Thins width s (marks false (before ++ p.gap) ++ marks true (write p.passage)) out t)
    (k : Nat) :
    ∃ q : Piece, q.At k ∧ q.gap ++ q.passage.taken = out ∧ t = .inside ∧ Rewritten write p q ∧
      (s.isBare = false → Spaced p q) := by
  obtain ⟨ne, spelled⟩ := writes.spelled kept
  obtain ⟨gap, taken, u, rfl, gapRun, tokenRun⟩ := run.of_append
  obtain ⟨rfl, ends⟩ := tokenRun.fixed
  have last := List.getLast?_eq_some_getLast ne
  obtain ⟨free, stands⟩ := ends _ last
  have inside : t = .inside := by
    rw [stands, Stand.behind, if_neg]
    intro feed
    have solid := writes.solid.2 _ last
    rw [feed] at solid
    cases solid
  have trivia : Trivia.after? .between gap = some .between := by
    have whole : Trivia.after? .between (before ++ p.gap) = some .between := by
      rw [Trivia.after?_append closed, here.gap]
    obtain ⟨mode, after, agree⟩ := gapRun.after? (Thins.agree_between s) trivial whole
    rw [after, agree.eq_of_free free]
  let token : Token :=
    { lexeme := p.passage.token.lexeme
      span := ⟨k + byteLength gap, k + byteLength gap + byteLength (write p.passage)⟩
      afterBreak := gap.any isLineBreak
      isEscaped := p.passage.token.isEscaped }
  refine ⟨⟨gap, token, write p.passage⟩,
    ⟨trivia, rfl, rfl, rfl, ne, writes.solid.1, writes.solid.2, spelled⟩, rfl, inside, ⟨rfl, rfl, rfl⟩,
    fun bare => ?_⟩
  have breaks : gap.any isLineBreak = (before.any isLineBreak || p.passage.token.afterBreak) := by
    rw [gapRun.any_isLineBreak bare free, List.any_append, here.hasBreak]
  have none := gapRun.eq_nil_iff bare free
  rcases broken with rfl | broken
  · exact ⟨breaks, none⟩
  · have gap_ne : p.gap ≠ [] := by
      intro empty
      rw [here.hasBreak, empty] at broken
      cases broken
    refine ⟨by rw [broken, Bool.or_true] at breaks; exact breaks.trans broken.symm, ?_⟩
    rw [List.append_eq_nil_iff] at none
    exact ⟨fun empty => (none.mp empty).2, fun empty => absurd empty gap_ne⟩

theorem exists_pieces {n m : Nat} {ps : List Piece} (laid : Piece.Laid n ps m)
    (writes : ∀ p ∈ ps, WritesToken write drop p.passage)
    (breaks : ∀ before p q after, ps = before ++ p :: q :: after → drop p.passage = true →
      q.passage.token.afterBreak = true)
    {tail : List Char} (ends : (Trivia.after? .between tail).isSome = true)
    {pending : List Char} (closed : Trivia.after? .between pending = some .between)
    (broken : pending = [] ∨ ∀ p ∈ ps.head?, p.passage.token.afterBreak = true)
    {s t : Stand} {out : List Char}
    (run : Thins width s (marks false pending ++ (glyphs write ps ++ marks false tail)) out t)
    (k : Nat) :
    ∃ qs rest, Piece.weave Passage.taken qs ++ rest = out ∧ (∃ stop, Piece.Laid k qs stop) ∧
      (Trivia.after? .between rest).isSome = true ∧
      List.Forall₂ (Rewritten write) (ps.filter fun p => !drop p.passage) qs ∧
      List.Forall₂ Spaced (ps.filter fun p => !drop p.passage).tail qs.tail ∧
      (s.isBare = false → List.Forall₂ Spaced (ps.filter fun p => !drop p.passage) qs) := by
  induction laid generalizing pending s out k with
  | nil n =>
    rw [show glyphs write [] = [] from rfl, List.nil_append, ← marks_append] at run
    obtain ⟨mode, after⟩ := Option.isSome_iff_exists.mp ends
    rw [← Trivia.after?_append closed] at after
    obtain ⟨mode', after', -⟩ := run.after? (Thins.agree_between s) trivial after
    exact ⟨[], out, rfl, ⟨k, .nil k⟩, by rw [after']; rfl, .nil, .nil, fun _ => .nil⟩
  | @cons n m p ps first rest ih =>
    rw [List.forall_mem_cons] at writes
    have later : ∀ before q r after, ps = before ++ q :: r :: after → drop q.passage = true →
        r.passage.token.afterBreak = true :=
      fun before q r after split => breaks (p :: before) q r after (by rw [split]; rfl)
    rw [glyphs_cons, List.append_assoc, List.append_assoc, ← List.append_assoc, ← marks_append] at run
    cases kept : drop p.passage with
    | true =>
      rw [writes.1.eq_nil kept] at run
      rw [List.filter_cons_of_neg (by simp [kept])]
      refine ih writes.2 later ?_ (.inr ?_) run k
      · rw [Trivia.after?_append closed, first.gap]
      · intro q front
        obtain ⟨qs, rfl⟩ := List.head?_eq_some_iff.mp front
        exact breaks [] p q qs rfl kept
    | false =>
      -- The run stands inside a line behind the token, so all later pieces are spaced as before.
      rw [← List.append_assoc] at run
      obtain ⟨out₁, out₂, u, rfl, here, run⟩ := run.of_append
      obtain ⟨q, at_q, rfl, rfl, rewritten, spaced⟩ := exists_piece first writes.1 kept closed
        (broken.imp id fun h => h p rfl) here k
      obtain ⟨qs, rest, rfl, ⟨stop, laid⟩, trivia, all, -, apart⟩ :=
        ih writes.2 later rfl (.inl rfl) run q.passage.token.span.stop
      rw [List.filter_cons_of_pos (by simp [kept])]
      refine ⟨q :: qs, rest, ?_, ⟨stop, .cons at_q laid⟩, trivia, .cons rewritten all, apart rfl,
        fun bare => .cons (spaced bare) (apart rfl)⟩
      rw [Piece.weave_cons]
      simp only [List.append_assoc]

end

theorem exists_head {width : Nat} {head out : List Char} {t : Stand} (opens : NamesInterpreter head)
    (run : Thins width .start (marks false head) out t) :
    NamesInterpreter out ∧ (∃ bs, out ++ bs = head ∧ ∀ b ∈ bs, isBlank b = true) ∧
      (head ≠ [] → t.isBare = false) := by
  rcases opens with rfl | ⟨line, rfl, inLine⟩
  · cases run
    exact ⟨.inl rfl, ⟨[], rfl, nofun⟩, nofun⟩
  · have feed : '\n' ∉ '!' :: line := by
      rw [List.mem_cons, not_or]
      refine ⟨by decide, fun mem => ?_⟩
      cases inLine _ mem
    cases run with
    | cons step later =>
      cases step with
      | drop _ blank => cases blank
      | keep =>
        obtain ⟨bare, bs, split, blanks⟩ := later.line feed
        rcases List.append_eq_cons_iff.mp split with ⟨-, rfl⟩ | ⟨rest, rfl, rfl⟩
        · cases blanks '!' List.mem_cons_self
        · have inRest : ∀ c ∈ rest, isLineBreak c = false :=
            fun c mem => inLine c (List.mem_append_left _ mem)
          exact ⟨.inr ⟨rest, rfl, inRest⟩, ⟨bs, rfl, blanks⟩, fun _ => bare⟩

/-- The pieces of a module whose tokens house style keeps. -/
def keptPieces {text : List Char} {passed : List Passage} (t : Tree) (d : Dissection text passed) :
    List Piece :=
  d.pieces.filter fun p => !drops text t p.passage

/-- How a module and its text in house style are made of tokens. -/
structure Restyles {text out : List Char} {passed passed' : List Passage} (t : Tree)
    (d : Dissection text passed) (d' : Dissection out passed') : Prop where
  /-- The tokens are those of the module in house style, without some semicolons. -/
  tokens : List.Forall₂ (Rewritten (styled text t)) (keptPieces t d) d'.pieces
  /-- All but the first of them are spaced as before. -/
  spaced : List.Forall₂ Spaced (keptPieces t d).tail d'.pieces.tail
  /-- So is the first after a line that names an interpreter. -/
  spacedHead : d.head ≠ [] → List.Forall₂ Spaced (keptPieces t d) d'.pieces
  /-- A line ended after each semicolon that went. -/
  breaks : ∀ before p q after, d.pieces = before ++ p :: q :: after → drops text t p.passage = true →
    q.passage.token.afterBreak = true
  /-- A line that names an interpreter lost at most blanks at its end. -/
  head : ∃ bs, d'.head ++ bs = d.head ∧ ∀ b ∈ bs, isBlank b = true
  /-- All that is no blank is still there, in the same order. -/
  solid : out.filter (!isBlank ·)
    = (d.head ++ (Piece.weave (styled text t) d.pieces ++ d.tail)).filter (!isBlank ·)

theorem writes_styled {text : List Char} {t : Tree} {n : Nat} {p : Piece} (here : p.At n) :
    WritesToken (styled text t) (drops text t) p.passage := by
  refine ⟨solidly_styled here, fun drop => ?_, fun kept => ?_⟩
  · simp only [styled, semicolon_of_drops drop, drop, if_true]
  · have spelled := here.spelled
    unfold styled
    split
    · next value lexeme =>
      rw [lexeme] at spelled ⊢
      refine ⟨?_, spells_restyle spelled⟩
      obtain ⟨quote, body, -, same, -⟩ := spells_restyle spelled
      rw [same]
      exact List.cons_ne_nil _ _
    · rw [kept]
      exact ⟨here.ne_nil, spelled⟩

theorem normalize_thins {text : List Char} {r : Reading} (read : Reading.ofModule? text = some r)
    (d : Dissection text r.passed) (inLine : ∀ p ∈ r.passed, p.string?.isSome = true → '\n' ∉ p.taken) (width : Nat) :
    ∃ out t, Thins width .start
        (marks false d.head ++ (glyphs (styled text r.tree) d.pieces ++ marks false d.tail)) out t ∧
      (normalize text width = out ∨ normalize text width = out ++ ['\n']) := by
  obtain ⟨stop, laid⟩ := d.laid
  have solid : ∀ p ∈ d.pieces, Solidly (styled text r.tree p.passage) := fun p mem =>
    have ⟨_, here⟩ := laid.exists_at mem
    solidly_styled here
  have joins := (joins_glyphs (joins_feed.free d.tail) solid).free d.head
  have chain := joins (feedGlyph false) nofun
  simp only [← List.append_assoc] at chain
  obtain ⟨f, facts, templates⟩ : ∃ f, Facts.ofModule? text = some f ∧
      f.templates = r.passed.filterMap Passage.chunk? := ⟨_, Reading.facts read, rfl⟩
  obtain ⟨out, t, run, tidied⟩ := tidy_thins width chain
  simp only [List.append_assoc] at run tidied
  refine ⟨out, t, run, ?_⟩
  rw [← templateLines_eq templates d inLine, List.map_append, List.map_append, map_char_marks,
    map_char_marks, map_char_glyphs, ← apply_edits read facts d] at tidied
  rw [normalize, facts]
  exact tidied

/-- House style keeps the tokens of a module. -/
theorem house_style_keeps_tokens {text : List Char} {r : Reading}
    (read : Reading.ofModule? text = some r)
    (inLine : ∀ p ∈ r.passed, p.string?.isSome = true → '\n' ∉ p.taken) (width : Nat) :
    ∃ (d : Dissection text r.passed) (passed : List Passage)
      (d' : Dissection (normalize text width) passed), Restyles r.tree d d' := by
  obtain ⟨d, starts⟩ := Reading.dissection read
  obtain ⟨stop, laid⟩ := d.laid
  obtain ⟨out, t, run, normal⟩ := normalize_thins read d inLine width
  have solid := run.filter_solid
  obtain ⟨head, rest, s, rfl, headRun, run⟩ := run.of_append
  obtain ⟨opens, blanks, bare⟩ := exists_head d.opens headRun
  have writes : ∀ p ∈ d.pieces, WritesToken (styled text r.tree) (drops text r.tree) p.passage := fun p mem =>
    have ⟨_, here⟩ := laid.exists_at mem
    writes_styled here
  have breaks : ∀ before p q after, d.pieces = before ++ p :: q :: after →
      drops text r.tree p.passage = true → q.passage.token.afterBreak = true :=
    fun _ _ _ _ split => break_of_drops starts split
  have nothing : Trivia.after? .between [] = some .between := rfl
  obtain ⟨qs, tail, rfl, laid', trivia, tokens, spaced, spacedHead⟩ :=
    exists_pieces laid writes breaks d.ends nothing (.inl rfl) run (byteLength head)
  obtain ⟨tail', whole, ends, same⟩ : ∃ tail',
      head ++ (Piece.weave Passage.taken qs ++ tail') = normalize text width ∧
      (Trivia.after? .between tail').isSome = true ∧
      (normalize text width).filter (!isBlank ·)
        = (head ++ (Piece.weave Passage.taken qs ++ tail)).filter (!isBlank ·) := by
    rcases normal with normal | normal
    · exact ⟨tail, normal.symm, trivia, by rw [normal]⟩
    · refine ⟨tail ++ ['\n'], ?_, Trivia.isSome_after?_feed trivia, ?_⟩
      · rw [normal]
        simp only [List.append_assoc]
      · rw [normal, List.filter_append]
        exact List.append_nil _
  refine ⟨d, qs.map Piece.passage, ⟨head, qs, tail', opens, whole, rfl, laid', ends⟩,
    ⟨tokens, spaced, fun named => spacedHead (bare named), breaks, blanks, ?_⟩⟩
  rw [same, solid, List.map_append, List.map_append, map_char_marks, map_char_marks, map_char_glyphs]

/-- A line that names an interpreter, a string with an escaped quote, a template over two lines, and
three semicolons: the second has to stay, since the next line would join. -/
def crowdedText : List Char :=
  "#!run  \n\nconst s = \"a\\\"b\";  // c \n".toList ++
    "\tlet t = `;  \n\t$\x7bs\x7d`;\n\n\n[t].map(s);\n".toList

theorem crowded_text_keeps_tokens :
    normalize crowdedText 2 = "#!run\n\nconst s = 'a\"b'  // c\n".toList ++
        "  let t = `;  \n\t$\x7bs\x7d`;\n\n[t].map(s)\n".toList ∧
      ∃ r, Reading.ofModule? crowdedText = some r ∧
        ∃ (d : Dissection crowdedText r.passed) (passed : List Passage)
          (d' : Dissection (normalize crowdedText 2) passed), Restyles r.tree d d' := by
  refine ⟨by decide +kernel, ?_⟩
  have readable : (Reading.ofModule? crowdedText).isSome = true := by decide +kernel
  have strings : ((Reading.ofModule? crowdedText).all fun r => r.passed.all fun p =>
      !p.string?.isSome || !p.taken.contains '\n') = true := by decide +kernel
  obtain ⟨r, read⟩ := Option.isSome_iff_exists.mp readable
  rw [read] at strings
  refine ⟨r, read, house_style_keeps_tokens read (fun p mem string => ?_) 2⟩
  have inLine := List.all_eq_true.mp strings p mem
  rw [string] at inLine
  simpa using inLine

def generatorText : List Char := "class A \x7b\n    a = 1;\n    *b() \x7b\x7d\n\x7d\n".toList

/-- Two statements, of which the second starts with an assertion about its type. -/
def assertionText : List Char := "a;\n<T>b;\n".toList

/-- A string that goes on after a line feed and a tab. -/
def continuedText : List Char := "x = 'a\\\n\tb'\n".toList

/-- House style need not keep the tree: without a semicolon, a field and a method may be no class any
more, and two statements may be one; and the tabs of a line that begins in a string are part of it. -/
theorem house_style_may_change_tree :
    (Tree.ofModule? generatorText).isSome = true ∧ (Tree.ofModule? (normalize generatorText 4)).isSome = false ∧
      (Tree.ofModule? assertionText).map (fun t => t.children.length) = some 2 ∧
      (Tree.ofModule? (normalize assertionText 4)).map (fun t => t.children.length) = some 1 ∧
      ((Reading.ofModule? continuedText).map fun r => r.passed.map fun p => p.token.lexeme) =
        some [.name "x", .mark .eq, .string "a\tb"] ∧
      ((Reading.ofModule? (normalize continuedText 4)).map fun r =>
        r.passed.map fun p => p.token.lexeme) = some [.name "x", .mark .eq, .string "a    b"] := by
  refine ⟨?_, ?_, ?_, ?_, ?_, ?_⟩ <;> decide +kernel

end VueOptions.Layout
