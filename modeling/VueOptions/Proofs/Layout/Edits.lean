import VueOptions.Proofs.Layout.Requote
import VueOptions.Proofs.Script.Dissection

/-!
The edits of house style. Each edit is about one token: a string in double quotes gets single quotes,
and a semicolon that ends something may go. So carrying them out writes every token in its own way and
keeps all that stands between the tokens (`apply_edits`). After a semicolon that goes, a line ends
before the next token (`break_of_drops`).
-/

set_option autoImplicit false

namespace VueOptions.Layout

open Text Script

theorem facts_unread {text : List Char} (unread : Reading.ofModule? text = none) :
    Facts.ofModule? text = none := by
  have bare : Facts.bare.before ++ text ++ Facts.bare.after = text := by
    rw [Facts.bare, List.nil_append, List.append_nil]
  rw [Facts.ofModule?, Facts.ofFramed?, bare, unread]
  rfl

theorem normalize_unread {text : List Char} (unread : Reading.ofModule? text = none) (width : Nat) :
    normalize text width = dropEndWhile (· == '\n') text ++ ['\n'] := by
  rw [normalize, facts_unread unread]

def restyle : List Char → List Char
  | '"' :: cs =>
    if cs.dropLast.contains '\'' then '"' :: cs else '\'' :: requote cs.dropLast ++ ['\'']
  | cs => cs

/-- Whether a token is a semicolon that house style takes from a text. -/
def drops (text : List Char) (t : Tree) (p : Passage) : Bool :=
  p.token.lexeme == .mark .semicolon && t.terminators.contains p.token.span.start
    && isDroppable text p.token.span.start

def styled (text : List Char) (t : Tree) (p : Passage) : List Char :=
  match p.token.lexeme with
  | .string _ => restyle p.taken
  | _ => if drops text t p then [] else p.taken

theorem semicolon_of_drops {text : List Char} {t : Tree} {p : Passage} (drop : drops text t p = true) :
    p.token.lexeme = .mark .semicolon := by
  simp only [drops, Bool.and_eq_true, beq_iff_eq] at drop
  exact drop.1.1

theorem taken_of_drops {text : List Char} {t : Tree} {n : Nat} {p : Piece} (here : p.At n)
    (drop : drops text t p.passage = true) : p.passage.taken = [';'] := by
  have spelled := here.spelled
  rw [semicolon_of_drops drop] at spelled
  exact spelled

def edit? (text : List Char) (t : Tree) (p : Passage) : Option Edit :=
  (p.string?.bind (quoteEdit? text)).or
    (if drops text t p then some ⟨⟨p.token.span.start, p.token.span.start + 1⟩, []⟩ else none)

theorem restyle_double {body : List Char} :
    restyle ('"' :: body ++ ['"']) =
      if body.contains '\'' then '"' :: body ++ ['"'] else '\'' :: requote body ++ ['\''] := by
  rw [List.cons_append, restyle, List.dropLast_concat]

theorem spells_restyle {value : String} {cs : List Char} (h : (Lexeme.string value).Spells cs) :
    (Lexeme.string value).Spells (restyle cs) := by
  obtain ⟨quote, body, rfl | rfl, rfl, isBody, hvalue⟩ := h
  · rw [restyle_double]
    split
    · exact ⟨'"', body, .inl rfl, rfl, isBody, hvalue⟩
    · next single =>
      have requoted := isBody.body.requote (by simpa using single)
      exact ⟨'\'', requote body, .inr rfl, rfl, requoted.isBody (by decide) (by decide), by
        rw [isBody.body.value?_requote, hvalue]⟩
  · exact ⟨'\'', body, .inr rfl, rfl, isBody, hvalue⟩

section

variable {text : List Char} {r : Reading}

theorem charAt?_byteLength (xs ys : List Char) : charAt? (byteLength xs) (xs ++ ys) = ys.head? := by
  induction xs with
  | nil => cases ys <;> simp [charAt?]
  | cons c cs ih =>
    have pos := c.utf8Size_pos
    rw [List.cons_append, byteLength_cons, charAt?, if_neg (by omega), if_neg (by omega),
      Nat.add_sub_cancel_left, ih]

theorem quoteEdit?_at {before body : List Char} {quote : Char} {s : Span} (after : List Char)
    (mark : quote = '"' ∨ quote = '\'') (start : s.start = byteLength before)
    (stop : s.stop = s.start + byteLength (quote :: body ++ [quote])) :
    quoteEdit? (before ++ (quote :: body ++ [quote] ++ after)) s =
      if quote = '"' ∧ '\'' ∉ body then some ⟨s, restyle (quote :: body ++ [quote])⟩ else none := by
  have front : charAt? s.start (before ++ (quote :: body ++ [quote] ++ after)) = some quote := by
    rw [start, charAt?_byteLength]
    rfl
  rw [quoteEdit?, front]
  rcases mark with rfl | rfl
  · have inner : slice (before ++ ('"' :: body ++ ['"'] ++ after)) (s.start + 1) (s.stop - 1) = body := by
      have one : '"'.utf8Size = 1 := rfl
      have cut := slice_between (before ++ ['"']) body ('"' :: after)
      rw [byteLength_append, byteLength_append, byteLength_append] at cut
      rw [stop, start]
      simp only [byteLength_append, byteLength_cons, byteLength_nil, one, List.cons_append,
        List.append_assoc, List.nil_append, Nat.add_zero] at cut ⊢
      rw [show byteLength before + (1 + (byteLength body + 1)) - 1
        = byteLength before + 1 + byteLength body by omega]
      exact cut
    rw [inner, restyle_double]
    by_cases single : '\'' ∈ body <;> simp [single]
  · simp

theorem edit?_spec {d : Dissection text r.passed} {before after : List Piece} {p : Piece}
    (split : d.pieces = before ++ p :: after) :
    (edit? text r.tree p.passage = none ∧ styled text r.tree p.passage = p.passage.taken) ∨
      edit? text r.tree p.passage = some ⟨p.passage.token.span, styled text r.tree p.passage⟩ := by
  obtain ⟨whole, start⟩ := d.cuts split
  obtain ⟨stop, laid⟩ := d.laid
  rw [split] at laid
  have here := laid.at
  have spelled := here.spelled
  unfold edit? styled Passage.string?
  cases lexeme : p.passage.token.lexeme with
  | string value =>
    rw [lexeme] at spelled
    obtain ⟨quote, body, mark, taken, -, -⟩ := spelled
    have edit := quoteEdit?_at (Piece.weave Passage.taken after ++ d.tail) mark start.symm
      (by rw [here.stop, taken])
    rw [← taken, whole] at edit
    have stays : drops text r.tree p.passage = false := by simp [drops, lexeme]
    simp only [Option.bind_some, edit, stays, Bool.false_eq_true, if_false, Option.or_none]
    split
    · exact .inr rfl
    · next single =>
      left
      refine ⟨rfl, ?_⟩
      rw [taken]
      rcases mark with rfl | rfl
      · rw [restyle_double, if_pos (by simpa using single)]
      · rfl
  | _ =>
    by_cases drop : drops text r.tree p.passage = true
    · right
      have stops := here.stop
      rw [taken_of_drops here drop] at stops
      simp only [drop, if_true, Option.bind_none, Option.none_or]
      rw [show p.passage.token.span.start + 1 = p.passage.token.span.stop from stops.symm]
    · left
      simp only [drop, Bool.false_eq_true, if_false, Option.bind_none, Option.none_or]
      trivial

private theorem perm_filterMap_or {α β : Type} (f g : α → Option β)
    (apart : ∀ x, f x = none ∨ g x = none) (xs : List α) :
    (xs.filterMap f ++ xs.filterMap g).Perm (xs.filterMap fun x => (f x).or (g x)) := by
  induction xs with
  | nil => exact .refl _
  | cons x xs ih =>
    rcases apart x with none | none
    · rw [List.filterMap_cons_none none]
      cases hx : g x with
      | none => simpa [none, hx] using ih
      | some y =>
        rw [List.filterMap_cons_some hx, List.filterMap_cons_some (by rw [none, hx]; rfl)]
        exact List.perm_middle.trans (.cons y ih)
    · rw [List.filterMap_cons_none none]
      cases hx : f x with
      | none => simpa [none, hx] using ih
      | some y =>
        rw [List.filterMap_cons_some hx, List.filterMap_cons_some (by rw [none, hx]; rfl),
          List.cons_append]
        exact .cons y ih

theorem span_of_quoteEdit? {s : Span} {e : Edit} (edit : quoteEdit? text s = some e) : e.span = s := by
  unfold quoteEdit? at edit
  split at edit
  · dsimp only at edit
    split at edit
    · cases edit
    · obtain rfl := Option.some.inj edit
      rfl
  · cases edit

private theorem start_of_edit? {t : Tree} {p : Passage} {e : Edit} (h : edit? text t p = some e) :
    e.span.start = p.token.span.start := by
  rcases Option.or_eq_some_iff.mp h with string | ⟨-, semicolon⟩
  · obtain ⟨s, hs, edit⟩ := Option.bind_eq_some_iff.mp string
    rw [span_of_quoteEdit? edit]
    unfold Passage.string? at hs
    split at hs
    · obtain rfl := Option.some.inj hs
      rfl
    · cases hs
  · split at semicolon
    · obtain rfl := Option.some.inj semicolon
      rfl
    · cases semicolon

theorem edits_eq (read : Reading.ofModule? text = some r) {f : Facts}
    (facts : Facts.ofModule? text = some f) : edits text f = r.passed.filterMap (edit? text r.tree) := by
  rw [Reading.facts read] at facts
  obtain rfl := Option.some.inj facts
  obtain ⟨d, -⟩ := Reading.dissection read
  have strings : (r.passed.filterMap Passage.string?).filterMap (quoteEdit? text)
      = r.passed.filterMap fun p => p.string?.bind (quoteEdit? text) := List.filterMap_filterMap
  have semicolons :
      ((((r.passed.filterMap Passage.semicolon?).filter r.tree.terminators.contains).filter
        (isDroppable text)).map fun o => Edit.mk ⟨o, o + 1⟩ [])
      = r.passed.filterMap fun p => if drops text r.tree p then
          some ⟨⟨p.token.span.start, p.token.span.start + 1⟩, []⟩ else none := by
    rw [List.filter_filterMap, List.filter_filterMap, List.map_filterMap]
    congr 1
    funext p
    by_cases semicolon : p.token.lexeme = .mark .semicolon
    · by_cases owned : p.token.span.start ∈ r.tree.terminators <;>
        by_cases droppable : isDroppable text p.token.span.start = true <;>
        simp [Passage.semicolon?, drops, semicolon, owned, droppable, Option.filter]
    · simp [Passage.semicolon?, drops, semicolon]
  rw [edits, strings, semicolons]
  refine sortBy_eq (perm_filterMap_or _ _ (fun p => ?_) _) (d.start_lt.filterMap _ ?_)
  · by_cases semicolon : p.token.lexeme = .mark .semicolon
    · exact .inl (by simp [Passage.string?, semicolon])
    · exact .inr (by simp [drops, semicolon])
  · intro p q lt e he e' he'
    rwa [start_of_edit? he, start_of_edit? he']

theorem Edit.applyFrom_cons {n : Nat} {e : Edit} (kept old rest : List Char) (es : List Edit)
    (start : e.span.start = n + byteLength kept) (stop : e.span.stop = e.span.start + byteLength old) :
    applyFrom n (kept ++ (old ++ rest)) (e :: es) = kept ++ (e.replacement ++ applyFrom e.span.stop rest es) := by
  have front : takeBytes (e.span.start - n) (kept ++ (old ++ rest)) = kept := by
    rw [start, Nat.add_sub_cancel_left, takeBytes_byteLength]
  have behind : dropBytes (e.span.stop - n) (kept ++ (old ++ rest)) = rest := by
    rw [stop, start, Nat.add_assoc, Nat.add_sub_cancel_left, ← byteLength_append, ← List.append_assoc,
      dropBytes_byteLength]
  rw [applyFrom, front, behind, List.append_assoc]

theorem applyFrom_edits {write : Passage → List Char} {edit : Passage → Option Edit} {n m : Nat}
    {ps : List Piece} (laid : Piece.Laid n ps m) (tail : List Char)
    (spec : ∀ p ∈ ps, (edit p.passage = none ∧ write p.passage = p.passage.taken) ∨
      edit p.passage = some ⟨p.passage.token.span, write p.passage⟩)
    {k : Nat} (pending : List Char) (hn : n = k + byteLength pending) :
    Edit.applyFrom k (pending ++ (Piece.weave Passage.taken ps ++ tail))
        ((ps.map Piece.passage).filterMap edit) =
      pending ++ (Piece.weave write ps ++ tail) := by
  induction laid generalizing k pending with
  | nil n => rfl
  | @cons n m p ps first rest ih =>
    have later := fun q mem => spec q (List.mem_cons_of_mem p mem)
    have start : p.passage.token.span.start = k + byteLength (pending ++ p.gap) := by
      rw [first.start, hn, byteLength_append, Nat.add_assoc]
    rcases spec p List.mem_cons_self with ⟨stays, same⟩ | changes
    · have stop : p.passage.token.span.stop = k + byteLength (pending ++ (p.gap ++ p.passage.taken)) := by
        rw [first.stop, start, ← List.append_assoc, byteLength_append (pending ++ p.gap), Nat.add_assoc]
      have kept := ih later (pending ++ (p.gap ++ p.passage.taken)) stop
      rw [List.map_cons, List.filterMap_cons_none stays, Piece.weave_cons, Piece.weave_cons, same]
      simpa only [List.append_assoc] using kept
    · have kept : Edit.applyFrom p.passage.token.span.stop (Piece.weave Passage.taken ps ++ tail)
          ((ps.map Piece.passage).filterMap edit) = Piece.weave write ps ++ tail := ih later [] rfl
      have applied := Edit.applyFrom_cons (e := ⟨p.passage.token.span, write p.passage⟩) (pending ++ p.gap)
        p.passage.taken (Piece.weave Passage.taken ps ++ tail) ((ps.map Piece.passage).filterMap edit) start first.stop
      rw [List.map_cons, List.filterMap_cons_some changes, Piece.weave_cons, Piece.weave_cons]
      rw [kept] at applied
      simpa only [List.append_assoc] using applied

theorem apply_edits (read : Reading.ofModule? text = some r) {f : Facts}
    (facts : Facts.ofModule? text = some f) (d : Dissection text r.passed) :
    Edit.apply text (edits text f) = d.head ++ (Piece.weave (styled text r.tree) d.pieces ++ d.tail) := by
  obtain ⟨stop, laid⟩ := d.laid
  have spec : ∀ p ∈ d.pieces, _ := fun p mem =>
    have ⟨_, _, split⟩ := List.append_of_mem mem
    edit?_spec split
  have applied := applyFrom_edits laid d.tail spec d.head (Nat.zero_add _).symm
  rw [d.whole, d.passages] at applied
  rw [edits_eq read facts]
  exact applied

private theorem after?_blanks {bs cs : List Char} (blank : ∀ c ∈ bs, isBlank c = true) :
    Trivia.after? .between (bs ++ cs) = Trivia.after? .between cs := by
  induction bs with
  | nil => rfl
  | cons b bs ih =>
    rw [List.forall_mem_cons] at blank
    rw [List.cons_append, Trivia.after?, Trivia.Mode.past?, if_pos (isLineBreak_or_isSpace blank.1)]
    exact ih blank.2

private theorem after?_line {cs : List Char} (inLine : cs.any isLineBreak = false) :
    Trivia.after? .line cs = some .line := by
  induction cs with
  | nil => rfl
  | cons c cs ih =>
    rw [List.any_cons, Bool.or_eq_false_iff] at inLine
    rw [Trivia.after?, Trivia.Mode.past?, inLine.1]
    exact ih inLine.2

private theorem isPrefix_trimEnd (cs : List Char) : trimEnd cs <+: cs := by
  obtain ⟨ends, whole, -⟩ := dropEndWhile_spec isBlank cs
  exact ⟨ends, whole⟩

private theorem trimEnd_ne_nil {c : Char} {cs : List Char} (solid : isBlank c = false) :
    trimEnd (c :: cs) ≠ [] := by
  intro none
  obtain ⟨ends, whole, blank, -⟩ := dropEndWhile_spec isBlank (c :: cs)
  rw [← trimEnd, none, List.nil_append] at whole
  rw [blank c (whole ▸ List.mem_cons_self)] at solid
  cases solid

theorem any_isLineBreak_of_line {gap rest : List Char}
    (closed : Trivia.after? .between gap = some .between) (starts : StartsToken rest)
    (line : (trim ((gap ++ rest).takeWhile (· != '\n'))).isEmpty = true ∨
      ['/', '/'] <+: trim ((gap ++ rest).takeWhile (· != '\n'))) :
    gap.any isLineBreak = true := by
  obtain ⟨c, cs, rfl, token⟩ := starts
  cases inLine : gap.any isLineBreak with
  | true => rfl
  | false =>
    exfalso
    obtain ⟨bs, gs, rfl, blank, solid⟩ : ∃ bs gs, bs ++ gs = gap ∧ (∀ b ∈ bs, isBlank b = true) ∧
        ∀ g ∈ gs.head?, isBlank g = false := by
      refine ⟨gap.takeWhile isBlank, gap.dropWhile isBlank, List.takeWhile_append_dropWhile,
        List.all_eq_true.mp List.all_takeWhile, fun g front => ?_⟩
      have first := List.head?_dropWhile_not isBlank gap
      rw [Option.mem_def.mp front] at first
      simpa using first
    have solid' : isBlank c = false := by
      cases blank : isBlank c with
      | false => rfl
      | true =>
        rw [Trivia.Mode.past?, if_pos (isLineBreak_or_isSpace blank)] at token
        cases token
    have feed : '\n' ∉ bs ++ gs := by
      intro mem
      have breaks := List.any_eq_true.mpr ⟨_, mem, (rfl : isLineBreak '\n' = true)⟩
      rw [inLine] at breaks
      cases breaks
    have taken : (bs ++ gs ++ c :: cs).takeWhile (· != '\n')
        = bs ++ (gs ++ c :: cs.takeWhile (· != '\n')) := by
      have feed' : c ≠ '\n' := by
        rintro rfl
        exact absurd solid' (by decide)
      have inside : ∀ a ∈ bs ++ gs, (a != '\n') = true := by
        intro a mem
        rw [bne_iff_ne]
        rintro rfl
        exact feed mem
      rw [List.takeWhile_append_of_pos inside, List.takeWhile_cons_of_pos (by simpa using feed'),
        List.append_assoc]
    obtain ⟨x, xs, front, solidFront⟩ : ∃ x xs, gs ++ c :: cs.takeWhile (· != '\n') = x :: xs ∧
        isBlank x = false := by
      cases gs with
      | nil => exact ⟨_, _, rfl, solid'⟩
      | cons g gs => exact ⟨_, _, rfl, solid g rfl⟩
    have trimmed : trimStart (bs ++ x :: xs) = x :: xs := by
      rw [trimStart, List.dropWhile_append_of_pos blank, List.dropWhile_cons_of_neg (by simp [solidFront])]
    rw [trim, taken, front, trimmed] at line
    have comment : ['/', '/'] <+: x :: xs := by
      rcases line with empty | lead
      · exact absurd (List.isEmpty_iff.mp empty) (trimEnd_ne_nil solidFront)
      · exact lead.trans (isPrefix_trimEnd _)
    obtain ⟨more, slashes⟩ := comment
    rw [← front] at slashes
    cases gs with
    | nil =>
      obtain ⟨rfl, after⟩ := List.cons.inj slashes
      cases cs with
      | nil => cases after
      | cons d cs =>
        rw [List.takeWhile_cons] at after
        split at after
        · obtain ⟨rfl, -⟩ := List.cons.inj after
          cases token
        · cases after
    | cons g gs =>
      obtain ⟨rfl, after⟩ := List.cons.inj slashes
      rw [after?_blanks blank, Trivia.after?] at closed
      cases gs with
      | nil => cases closed
      | cons e gs =>
        obtain ⟨rfl, -⟩ := List.cons.inj after
        rw [List.any_append, List.any_cons, Bool.or_eq_false_iff, Bool.or_eq_false_iff] at inLine
        have goesOn := (after?_line inLine.2.2).symm.trans closed
        cases goesOn

theorem break_of_drops {d : Dissection text r.passed} (starts : d.StartsTokens)
    {before after : List Piece} {p q : Piece} (split : d.pieces = before ++ p :: q :: after)
    (drop : drops text r.tree p.passage = true) : q.passage.token.afterBreak = true := by
  obtain ⟨stop, laid⟩ := d.laid
  rw [split] at laid
  have here := laid.at
  have next : q.At _ := (List.append_cons before p (q :: after) ▸ laid).at
  have taken := taken_of_drops here drop
  have droppable : isDroppable text p.passage.token.span.start = true :=
    (Bool.and_eq_true_iff.mp drop).2
  obtain ⟨whole, start⟩ := d.cuts split
  have rest : dropBytes (p.passage.token.span.start + 1) text
      = q.gap ++ (q.passage.taken ++ (Piece.weave Passage.taken after ++ d.tail)) := by
    have cut := dropBytes_byteLength (d.head ++ Piece.weave Passage.taken before ++ p.gap ++ [';'])
      (Piece.weave Passage.taken (q :: after) ++ d.tail)
    rw [byteLength_append, start, List.append_assoc, show byteLength [';'] = 1 from rfl] at cut
    rw [taken] at whole
    rw [whole, Piece.weave_cons] at cut
    simpa only [List.append_assoc] using cut
  simp only [isDroppable, rest, Bool.and_eq_true, Bool.or_eq_true] at droppable
  rw [next.hasBreak]
  refine any_isLineBreak_of_line next.gap (starts (before ++ [p]) q after ?_) ?_
  · rw [split, List.append_assoc]
    rfl
  · exact droppable.1.imp id List.isPrefixOf_iff_prefix.mp

end

end VueOptions.Layout
