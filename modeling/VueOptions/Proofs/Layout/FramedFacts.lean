import VueOptions.Proofs.Layout.Literals

/-!
Facts at their places. A fragment may have been read inside a frame, and its facts are then moved back. They point
at the fragment all the same: a string literal stands between its quotes, a terminator is a semicolon outside of all
strings, and both come in order (`Facts.WellFormed`). Every line has one flag that says whether it begins inside a
template, also if the fragment cannot be read at all.
-/

set_option autoImplicit false

namespace VueOptions.Text

def bytes (cs : List Char) : List UInt8 := cs.flatMap String.utf8EncodeChar

theorem length_bytes (cs : List Char) : (bytes cs).length = byteLength cs := by
  induction cs with
  | nil => rfl
  | cons c cs ih =>
    rw [bytes, List.flatMap_cons, List.length_append, String.length_utf8EncodeChar, ← bytes, ih, byteLength_cons]

end VueOptions.Text

namespace VueOptions.Script

open Layout Text

namespace Span.Covers

variable {s : Span} {text before inner after : List Char}

theorem stop_le (covers : s.Covers text before inner after) : s.stop ≤ byteLength text := by
  rw [covers.stop, covers.start, ← covers.whole, byteLength_append, byteLength_append]
  omega

theorem getElem?_bytes {c : Char} {byte : UInt8} (covers : s.Covers text before (c :: inner) after)
    (single : String.utf8EncodeChar c = [byte]) : (bytes text)[s.start]? = some byte := by
  have split : bytes text = bytes before ++ byte :: bytes (inner ++ after) := by
    rw [← covers.whole, bytes, List.flatMap_append, List.cons_append, List.flatMap_cons, single]
    rfl
  rw [split, covers.start, ← length_bytes, List.getElem?_append_right (Nat.le_refl _), Nat.sub_self]
  rfl

end Span.Covers

theorem Stands.exists_of_mem {n : Nat} {ps : List Passage} {text : List Char} {p : Passage} (stands : Stands n ps text)
    (mem : p ∈ ps) :
    ∃ before after, before ++ (p.taken ++ after) = text ∧ p.token.span.start = n + byteLength before ∧
      p.token.span.stop = p.token.span.start + byteLength p.taken := by
  induction stands with
  | nil => cases mem
  | @cons n q ps rest gap start stop solid later ih =>
    rcases List.mem_cons.mp mem with rfl | mem
    · exact ⟨gap, rest, rfl, start, stop⟩
    · obtain ⟨before, after, rfl, starts, stops⟩ := ih mem
      refine ⟨gap ++ (q.taken ++ before), after, by simp only [List.append_assoc], ?_, stops⟩
      rw [byteLength_append, byteLength_append]
      omega

theorem Reading.covers_framed {frame : Facts.Frame} {text : List Char} {r : Reading} {p : Passage}
    (read : Reading.ofModule? (frame.before ++ text ++ frame.after) = some r) (passed : p ∈ r.passed)
    (least : byteLength frame.before ≤ p.token.span.start)
    (most : p.token.span.stop ≤ byteLength frame.before + byteLength text) :
    ∃ before after, Span.Covers ⟨p.token.span.start - byteLength frame.before,
      p.token.span.stop - byteLength frame.before⟩ text before p.taken after := by
  have inside : p.isInside (frame.window text) = true := by
    rw [Passage.isInside, Bool.and_eq_true, decide_eq_true_eq, decide_eq_true_eq]
    exact ⟨least, most⟩
  have stands := Reading.stands_framed read fun _ => true
  obtain ⟨before, after, whole, start, stop⟩ :=
    stands.exists_of_mem (List.mem_filter.mpr ⟨passed, by rw [Bool.true_and, inside]⟩)
  exact ⟨before, after, whole, by dsimp only; omega, by dsimp only; omega⟩

namespace Facts

/-- Facts at their places: the strings stand between quotes and are apart, and the terminators are semicolons outside of
the strings, none of them listed twice. Nothing is asked of what stands between the quotes. -/
structure Placed (f : Facts) (text : List Char) : Prop where
  quoted : ∀ s ∈ f.strings, ∃ quote before body after, (quote = '"' ∨ quote = '\'') ∧
    s.Covers text before (quote :: body ++ [quote]) after
  apart : f.strings.Pairwise fun s t => s.stop ≤ t.start ∨ t.stop ≤ s.start
  semicolon : ∀ o ∈ f.terminators, ∃ before after, Span.Covers ⟨o, o + 1⟩ text before [';'] after
  distinct : f.terminators.Nodup
  outside : ∀ s ∈ f.strings, ∀ o ∈ f.terminators, s.contains o = false

structure WellFormed (f : Facts) (text : List Char) : Prop extends f.Placed text where
  ascending : f.terminators.Pairwise (· < ·)
  terminator : ∀ o ∈ f.terminators, o < byteLength text ∧ (bytes text)[o]? = some ';'.toUInt8
  within : ∀ s ∈ f.strings, s.start ≤ s.stop ∧ s.stop ≤ byteLength text
  sorted : f.strings.Pairwise fun s t => s.start ≤ t.start
  flags : (f.templateLines text).length = (splitLines text).length
  first : (f.templateLines text).head? = some false

section

variable {n size : Nat} {r : Reading}

theorem exists_string {s : Span} (mem : s ∈ (ofReading n size r).strings) :
    ∃ p ∈ r.passed, (∃ value, p.token.lexeme = .string value) ∧ n ≤ p.token.span.start ∧
      p.token.span.stop ≤ n + size ∧ s = ⟨p.token.span.start - n, p.token.span.stop - n⟩ := by
  obtain ⟨t, ht, rfl⟩ := List.mem_map.mp mem
  obtain ⟨ht, inside⟩ := List.mem_filter.mp ht
  obtain ⟨p, passed, string⟩ := List.mem_filterMap.mp ht
  simp only [Bool.and_eq_true, decide_eq_true_eq] at inside
  unfold Passage.string? at string
  split at string
  · next value lexeme =>
    obtain rfl := Option.some.inj string
    exact ⟨p, passed, ⟨value, lexeme⟩, inside.1, inside.2, rfl⟩
  · cases string

theorem exists_semicolon {o : Nat} (mem : o ∈ (ofReading n size r).terminators) :
    ∃ p ∈ r.passed, p.token.lexeme = .mark .semicolon ∧ n ≤ p.token.span.start ∧
      p.token.span.start < n + size ∧ o = p.token.span.start - n := by
  obtain ⟨k, hk, rfl⟩ := List.mem_map.mp mem
  obtain ⟨hk, inside⟩ := List.mem_filter.mp hk
  obtain ⟨p, passed, semicolon⟩ := List.mem_filterMap.mp hk
  simp only [Bool.and_eq_true, decide_eq_true_eq] at inside
  unfold Passage.semicolon? at semicolon
  split at semicolon
  · next lexeme =>
    obtain rfl := Option.some.inj semicolon
    exact ⟨p, passed, lexeme, inside.1.2, inside.2, rfl⟩
  · cases semicolon

theorem pairwise_strings {text : List Char} (d : Dissection text r.passed) :
    (ofReading n size r).strings.Pairwise fun s t => s.stop ≤ t.start := by
  have spans : (r.passed.filterMap Passage.string?).Pairwise fun s t => s.stop ≤ t.start := by
    refine d.stop_le.filterMap _ fun p q le s hs t ht => ?_
    unfold Passage.string? at hs ht
    split at hs
    · split at ht
      · obtain rfl := Option.some.inj hs
        obtain rfl := Option.some.inj ht
        exact le
      · cases ht
    · cases hs
  exact (spans.filter _).map _ fun s t le => Nat.sub_le_sub_right le n

theorem pairwise_terminators {text : List Char} (d : Dissection text r.passed) :
    (ofReading n size r).terminators.Pairwise (· < ·) := by
  have offsets : (r.passed.filterMap Passage.semicolon?).Pairwise (· < ·) := by
    refine d.start_lt.filterMap _ fun p q lt o ho k hk => ?_
    unfold Passage.semicolon? at ho hk
    split at ho
    · split at hk
      · obtain rfl := Option.some.inj ho
        obtain rfl := Option.some.inj hk
        exact lt
      · cases hk
    · cases ho
  refine List.pairwise_map.mpr ((offsets.filter _).imp_of_mem fun {o k} ho _ lt => ?_)
  have inside := (List.mem_filter.mp ho).2
  simp only [Bool.and_eq_true, decide_eq_true_eq] at inside
  omega

end

section

variable {frame : Frame} {text : List Char} {r : Reading}
  (read : Reading.ofModule? (frame.before ++ text ++ frame.after) = some r)

include read

theorem quoted_framed {s : Span} (mem : s ∈ (ofReading (byteLength frame.before) (byteLength text) r).strings) :
    ∃ quote before body after, (quote = '"' ∨ quote = '\'') ∧
      s.Covers text before (quote :: body ++ [quote]) after := by
  obtain ⟨p, passed, ⟨value, lexeme⟩, least, most, rfl⟩ := exists_string mem
  obtain ⟨before, after, covers⟩ := Reading.covers_framed read passed least most
  have spells := Reading.spells_of_mem read passed
  rw [lexeme] at spells
  obtain ⟨quote, body, mark, taken, -, -⟩ := spells
  exact ⟨quote, before, body, after, mark, taken ▸ covers⟩

theorem semicolon_framed {o : Nat}
    (mem : o ∈ (ofReading (byteLength frame.before) (byteLength text) r).terminators) :
    ∃ before after, Span.Covers ⟨o, o + 1⟩ text before [';'] after := by
  obtain ⟨d, -⟩ := Reading.dissection read
  obtain ⟨p, passed, lexeme, least, most, rfl⟩ := exists_semicolon mem
  obtain ⟨q, k, rfl, here⟩ := d.exists_at passed
  have spells := here.spelled
  rw [lexeme] at spells
  have taken : q.passage.taken = [';'] := spells
  have one : byteLength [';'] = 1 := rfl
  have stop := here.stop
  rw [taken] at stop
  obtain ⟨before, after, covers⟩ := Reading.covers_framed read passed least (by omega)
  rw [taken] at covers
  exact ⟨before, after, covers.whole, covers.start, rfl⟩

theorem outside_framed {s : Span} {o : Nat}
    (hs : s ∈ (ofReading (byteLength frame.before) (byteLength text) r).strings)
    (ho : o ∈ (ofReading (byteLength frame.before) (byteLength text) r).terminators) : s.contains o = false := by
  obtain ⟨d, -⟩ := Reading.dissection read
  obtain ⟨p, hp, ⟨value, string⟩, least, most, rfl⟩ := exists_string hs
  obtain ⟨q, hq, semicolon, least', most', rfl⟩ := exists_semicolon ho
  have size := (d.span_le hq).1
  have apart : q.token.span.stop ≤ p.token.span.start ∨ p.token.span.stop ≤ q.token.span.start := by
    rcases d.apart hp hq with rfl | apart
    · rw [string] at semicolon
      cases semicolon
    · exact apart
  simp only [Span.contains, Bool.and_eq_false_iff, decide_eq_false_iff_not]
  omega

end

theorem wellFormed_of_ofFramed? {frame : Frame} {text : List Char} {f : Facts} (facts : ofFramed? frame text = some f) :
    f.WellFormed text := by
  obtain ⟨r, read, rfl⟩ := Option.map_eq_some_iff.mp facts
  obtain ⟨d, -⟩ := Reading.dissection read
  have ascending : (ofReading (byteLength frame.before) (byteLength text) r).terminators.Pairwise (· < ·) :=
    pairwise_terminators d
  have ordered : (ofReading (byteLength frame.before) (byteLength text) r).strings.Pairwise
      fun s t => s.stop ≤ t.start := pairwise_strings d
  have within : ∀ s ∈ (ofReading (byteLength frame.before) (byteLength text) r).strings,
      s.start ≤ s.stop ∧ s.stop ≤ byteLength text := by
    intro s mem
    obtain ⟨quote, before, body, after, -, covers⟩ := quoted_framed read mem
    exact ⟨covers.stop ▸ Nat.le_add_right _ _, covers.stop_le⟩
  exact {
    quoted := fun s mem => quoted_framed read mem
    apart := ordered.imp .inl
    semicolon := fun o mem => semicolon_framed read mem
    distinct := ascending.imp Nat.ne_of_lt
    outside := fun s hs o ho => outside_framed read hs ho
    ascending := ascending
    terminator := fun o mem => by
      obtain ⟨before, after, covers⟩ := semicolon_framed read mem
      exact ⟨covers.stop_le, covers.getElem?_bytes rfl⟩
    within := within
    sorted := ordered.imp_of_mem fun hs _ le => Nat.le_trans (within _ hs).1 le
    flags := Facts.length_templateLines _ text
    first := rfl }

end Facts

/-- Facts fit their text whichever frame it was read in: terminators are strictly ascending offsets of semicolons,
strings stand between quotes and are sorted, and each line has one flag, the first of which is not set. Flags for
all lines are also there if the text cannot be read. -/
theorem facts_fit_text (text : List Char) :
    (∀ f, Facts.ofModule? text = some f ∨ Facts.ofFragment? text = some f → f.WellFormed text) ∧
    (templateLines text).length = (splitLines text).length := by
  refine ⟨fun f facts => ?_, length_templateLines text⟩
  rcases facts with whole | fragment
  · exact Facts.wellFormed_of_ofFramed? whole
  · obtain ⟨frame, -, framed⟩ := List.exists_of_findSome?_eq_some fragment
    exact Facts.wellFormed_of_ofFramed? framed

/-- A module, a statement of a method, entries of an object and an expression, each in its own frame. -/
theorem facts_fit_texts_in_all_frames :
    (Facts.ofModule? "a = 'é';\nb".toList = some ⟨[], [⟨4, 8⟩], [8]⟩ ∧
      Facts.WellFormed ⟨[], [⟨4, 8⟩], [8]⟩ "a = 'é';\nb".toList) ∧
    (Facts.ofFragment? "await super.load('é');\nreturn;".toList = some ⟨[], [⟨17, 21⟩], [22, 30]⟩ ∧
      Facts.WellFormed ⟨[], [⟨17, 21⟩], [22, 30]⟩ "await super.load('é');\nreturn;".toList) ∧
    (Facts.ofFragment? "m() \x7b f('é'); \x7d,\nn: `\n`".toList = some ⟨[⟨22, 23⟩], [⟨8, 12⟩], [13]⟩ ∧
      Facts.WellFormed ⟨[⟨22, 23⟩], [⟨8, 12⟩], [13]⟩ "m() \x7b f('é'); \x7d,\nn: `\n`".toList) ∧
    (Facts.ofFragment? "\x7b m() \x7b f('é');\n\x7d \x7d.m".toList = some ⟨[], [⟨10, 14⟩], [15]⟩ ∧
      Facts.WellFormed ⟨[], [⟨10, 14⟩], [15]⟩ "\x7b m() \x7b f('é');\n\x7d \x7d.m".toList) := by
  have bare : Facts.ofModule? "a = 'é';\nb".toList = some ⟨[], [⟨4, 8⟩], [8]⟩ := by decide +kernel
  have statement : Facts.ofFragment? "await super.load('é');\nreturn;".toList = some ⟨[], [⟨17, 21⟩], [22, 30]⟩ := by
    decide +kernel
  have entries : Facts.ofFragment? "m() \x7b f('é'); \x7d,\nn: `\n`".toList
      = some ⟨[⟨22, 23⟩], [⟨8, 12⟩], [13]⟩ := by decide +kernel
  have expression : Facts.ofFragment? "\x7b m() \x7b f('é');\n\x7d \x7d.m".toList = some ⟨[], [⟨10, 14⟩], [15]⟩ := by
    decide +kernel
  exact ⟨⟨bare, (facts_fit_text _).1 _ (.inl bare)⟩, ⟨statement, (facts_fit_text _).1 _ (.inr statement)⟩,
    ⟨entries, (facts_fit_text _).1 _ (.inr entries)⟩, ⟨expression, (facts_fit_text _).1 _ (.inr expression)⟩⟩

end VueOptions.Script
