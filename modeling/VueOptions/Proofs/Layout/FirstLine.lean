import VueOptions.Proofs.Layout.Edits

/-!
The first line of a text in house style. Edits are made at double quotes and at semicolons, so a line
without them stays as it is; and a line that neither begins nor ends with a blank is kept with the lines
behind it. Main statement: `isPrefix_normalize`.
-/

set_option autoImplicit false

namespace VueOptions.Layout

open Text Script

structure PlainLine (line : List Char) : Prop where
  ne_nil : line ≠ []
  inLine : '\n' ∉ line
  unquoted : '"' ∉ line
  unended : ';' ∉ line
  first : ∀ c ∈ line.head?, isBlank c = false
  last : ∀ c ∈ line.getLast?, isBlank c = false

theorem head?_of_edit? {text : List Char} {r : Reading} {d : Dissection text r.passed}
    {before after : List Piece} {p : Piece} {e : Edit} (split : d.pieces = before ++ p :: after)
    (edit : edit? text r.tree p.passage = some e) :
    p.passage.taken.head? = some '"' ∨ p.passage.taken.head? = some ';' := by
  obtain ⟨whole, start⟩ := d.cuts split
  obtain ⟨stop, laid⟩ := d.laid
  rw [split] at laid
  rcases Option.or_eq_some_iff.mp edit with string | ⟨-, semicolon⟩
  · left
    obtain ⟨s, spans, quote⟩ := Option.bind_eq_some_iff.mp string
    obtain rfl : p.passage.token.span = s := by
      unfold Passage.string? at spans
      split at spans
      · exact Option.some.inj spans
      · cases spans
    have found : charAt? p.passage.token.span.start text = some '"' := by
      unfold quoteEdit? at quote
      split at quote
      · next starts => simpa using starts
      · cases quote
    obtain ⟨c, cs, taken⟩ := List.exists_cons_of_ne_nil laid.at.ne_nil
    rw [← whole, ← start, charAt?_byteLength, taken] at found
    rw [taken]
    exact found
  · right
    by_cases drop : drops text r.tree p.passage = true
    · rw [taken_of_drops laid.at drop]
      rfl
    · rw [if_neg drop] at semicolon
      cases semicolon

private theorem byteLength_le_of_not_mem {line rest front back : List Char} {c : Char} (absent : c ∉ line)
    (other : c ≠ '\n') (same : front ++ c :: back = line ++ '\n' :: rest) :
    byteLength (line ++ ['\n']) ≤ byteLength front := by
  rcases List.append_eq_append_iff.mp same with ⟨more, rfl, behind⟩ | ⟨more, rfl, behind⟩
  · cases more with
    | nil => exact absurd (List.cons.inj behind).1 other
    | cons x xs =>
      obtain ⟨rfl, -⟩ := List.cons.inj behind
      exact absurd (List.mem_append_right _ List.mem_cons_self) absent
  · cases more with
    | nil => exact absurd (List.cons.inj behind).1.symm other
    | cons x xs =>
      obtain ⟨rfl, -⟩ := List.cons.inj behind
      simp only [byteLength_append, byteLength_cons, byteLength_nil]
      omega

theorem start_of_mem_edits {line rest : List Char} (plain : PlainLine line) {f : Facts}
    (facts : Facts.ofModule? (line ++ '\n' :: rest) = some f) {e : Edit}
    (mem : e ∈ edits (line ++ '\n' :: rest) f) : byteLength (line ++ ['\n']) ≤ e.span.start := by
  obtain ⟨r, read⟩ : ∃ r, Reading.ofModule? (line ++ '\n' :: rest) = some r := by
    obtain ⟨r, read, -⟩ := Option.map_eq_some_iff.mp facts
    exact ⟨r, by simpa [Facts.bare] using read⟩
  rw [edits_eq read facts] at mem
  obtain ⟨p, passed, edit⟩ := List.mem_filterMap.mp mem
  obtain ⟨d, -⟩ := Reading.dissection read
  obtain ⟨before, q, after, split, rfl⟩ := d.exists_split passed
  obtain ⟨whole, start⟩ := d.cuts split
  have spans : e.span = q.passage.token.span := by
    rcases edit?_spec split with ⟨none, -⟩ | same
    · rw [edit] at none
      cases none
    · rw [edit] at same
      rw [Option.some.inj same]
  rw [spans, ← start]
  rcases head?_of_edit? split edit with quote | semicolon
  · obtain ⟨back, taken⟩ := List.head?_eq_some_iff.mp quote
    rw [taken] at whole
    exact byteLength_le_of_not_mem plain.unquoted (by decide) whole
  · obtain ⟨back, taken⟩ := List.head?_eq_some_iff.mp semicolon
    rw [taken] at whole
    exact byteLength_le_of_not_mem plain.unended (by decide) whole

theorem isPrefix_applyFrom {offset : Nat} {front text : List Char} {es : List Edit} (begins : front <+: text)
    (behind : ∀ e ∈ es, offset + byteLength front ≤ e.span.start) :
    front <+: Edit.applyFrom offset text es := by
  obtain ⟨rest, rfl⟩ := begins
  cases es with
  | nil => exact List.prefix_append front rest
  | cons e es =>
    have far := behind e List.mem_cons_self
    rw [Edit.applyFrom, takeBytes_append, takeBytes_of_le (by omega), List.append_assoc, List.append_assoc]
    exact List.prefix_append front _

theorem isPrefix_apply_edits {line rest : List Char} (plain : PlainLine line) {f : Facts}
    (facts : Facts.ofModule? (line ++ '\n' :: rest) = some f) :
    line ++ ['\n'] <+: Edit.apply (line ++ '\n' :: rest) (edits (line ++ '\n' :: rest) f) := by
  apply isPrefix_applyFrom
  · exact ⟨rest, by rw [List.append_assoc, List.singleton_append]⟩
  · intro e mem
    rw [Nat.zero_add]
    exact start_of_mem_edits plain facts mem

theorem getLast?_dropWhile {ls : List (List Char)} {first : List Char} (ne : first ≠ [])
    (oldest : ls.getLast? = some first) : (ls.dropWhile List.isEmpty).getLast? = some first := by
  obtain ⟨later, rfl⟩ := List.getLast?_eq_some_iff.mp oldest
  rw [List.dropWhile_append]
  split
  · rw [List.dropWhile_cons_of_neg (by simpa using ne)]
    rfl
  · simp

theorem getLast?_tidyStep {kept : List (List Char)} {first : List Char} (ne : first ≠ [])
    (oldest : kept.getLast? = some first) (line : List Char) (inTemplate endsInTemplate : Bool) :
    (tidyStep kept line inTemplate endsInTemplate).getLast? = some first := by
  have added (next : List Char) {ls : List (List Char)} (last : ls.getLast? = some first) :
      (next :: ls).getLast? = some first := by rw [List.getLast?_cons, last]; rfl
  unfold tidyStep
  dsimp only
  split
  · exact added line oldest
  · generalize (if endsInTemplate = true then line else trimEnd line) = shown
    split
    · cases kept with
      | nil => cases oldest
      | cons prev earlier =>
        dsimp only
        split
        · exact oldest
        · exact added _ oldest
    · split
      · exact added _ (getLast?_dropWhile ne oldest)
      · exact added _ oldest

theorem getLast?_tidyFrom {kept : List (List Char)} {first : List Char} (ne : first ≠ [])
    (oldest : kept.getLast? = some first) (lines : List (List Char)) (flags : List Bool) :
    (tidyFrom kept lines flags).getLast? = some first := by
  induction lines generalizing kept flags with
  | nil => exact oldest
  | cons line lines ih => exact ih (getLast?_tidyStep ne oldest ..) _

namespace PlainLine

variable {line : List Char}

theorem trimEnd_eq (plain : PlainLine line) : trimEnd line = line := dropEndWhile_eq_self plain.last

theorem expandTabs_eq (plain : PlainLine line) (width : Nat) : expandTabs width line = line := by
  cases line with
  | nil => rfl
  | cons c cs =>
    have solid := plain.first c rfl
    have other : ¬(c == '\t') = true := by
      rintro same
      rw [eq_of_beq same] at solid
      cases solid
    simp [expandTabs, other]

theorem tidyStep_eq (plain : PlainLine line) (endsInTemplate : Bool) :
    tidyStep [] line false endsInTemplate = [line] := by
  have notEmpty : line.isEmpty = false := by simpa using plain.ne_nil
  simp only [tidyStep, plain.trimEnd_eq, ite_self, notEmpty, Bool.false_eq_true, if_false, List.dropWhile_nil]

theorem isPrefix_tidy (plain : PlainLine line) (lines : List (List Char)) (flags : List Bool) :
    line ++ ['\n'] <+: tidy (line :: lines) (false :: flags) := by
  have oldest : (tidyFrom [] (line :: lines) (false :: flags)).getLast? = some line := by
    rw [tidyFrom]
    refine getLast?_tidyFrom plain.ne_nil ?_ lines flags
    rw [List.head?_cons, Option.getD_some, plain.tidyStep_eq]
    rfl
  obtain ⟨later, kept⟩ := List.getLast?_eq_some_iff.mp (getLast?_dropWhile plain.ne_nil oldest)
  rw [tidy, tidyLines, kept, List.reverse_append, List.reverse_singleton, joinLines,
    join_append_sep (by simp), List.singleton_append, List.flatMap_cons]
  exact List.prefix_append _ _

end PlainLine

theorem isPrefix_normalize {line text : List Char} (plain : PlainLine line) (begins : line ++ ['\n'] <+: text)
    (width : Nat) : line ++ ['\n'] <+: normalize text width := by
  obtain ⟨rest, rfl⟩ := begins
  rw [List.append_assoc, List.singleton_append]
  unfold normalize
  cases facts : Facts.ofModule? (line ++ '\n' :: rest) with
  | none =>
    have inLine : ∀ c ∈ line.getLast?, (c == '\n') = false := by
      intro c last
      rw [beq_eq_false_iff_ne]
      rintro rfl
      exact plain.inLine (List.mem_of_getLast? last)
    dsimp only
    rw [dropEndWhile_append inLine, List.append_assoc, List.prefix_append_right_inj]
    obtain ⟨ends, whole, -⟩ := dropEndWhile_spec (· == '\n') ('\n' :: rest)
    cases kept : dropEndWhile (· == '\n') ('\n' :: rest) with
    | nil => exact List.prefix_refl _
    | cons c cs =>
      rw [kept] at whole
      obtain ⟨rfl, -⟩ := List.cons.inj whole
      exact List.prefix_append _ _
  | some f =>
    dsimp only
    obtain ⟨rest', edited⟩ := isPrefix_apply_edits plain facts
    have lines : splitLines ((line ++ ['\n']) ++ rest') = line :: splitLines rest' := by
      rw [List.append_assoc, List.singleton_append]
      exact split_append plain.inLine rest'
    rw [← edited, lines, Facts.templateLines, expandLines, List.zip_cons_cons, List.map_cons]
    dsimp only
    rw [if_neg (by decide), plain.expandTabs_eq]
    exact plain.isPrefix_tidy _ _

end VueOptions.Layout
