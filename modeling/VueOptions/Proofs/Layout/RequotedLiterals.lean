import VueOptions.Proofs.Layout.Edits
import VueOptions.Proofs.Script.StringLiterals

/-!
The quotes of house style. A literal in double quotes that holds a single quote stays as it is. Any other one
becomes a literal in single quotes with the same code units and the same line breaks, and nothing around it
changes. The strings of a module are literals in this sense (`isLiteral_of_mem_strings`), so this is about all
of them.
-/

set_option autoImplicit false

namespace VueOptions.Layout

open Text Script Script.Literal

theorem apply_singleton {text before inner after : List Char} {s : Span} (covers : s.Covers text before inner after)
    (cs : List Char) : Edit.apply text [⟨s, cs⟩] = before ++ (cs ++ after) := by
  have start : s.start = 0 + byteLength before := by rw [covers.start, Nat.zero_add]
  rw [← covers.whole]
  exact Edit.applyFrom_cons (e := ⟨s, cs⟩) before inner after [] start covers.stop

theorem isLiteral_requote {units : List Nat} {body : List Char} (literal : IsLiteral '"' units ('"' :: body ++ ['"']))
    (single : '\'' ∉ body) : IsLiteral '\'' units ('\'' :: requote body ++ ['\'']) := by
  obtain ⟨own, same, isBody, cooked⟩ := literal
  obtain rfl : body = own := by simpa using same
  refine ⟨requote body, rfl, (isBody.body.requote single).isBody (by decide) (by decide), ?_⟩
  rw [isBody.body.cook_requote .plain (by simp), cooked]

theorem isLiteral_of_mem_strings {text : List Char} {f : Facts} (facts : Facts.ofModule? text = some f) {s : Span}
    (mem : s ∈ f.strings) : ∃ quote units before body after, (quote = '"' ∨ quote = '\'') ∧
      s.Covers text before (quote :: body ++ [quote]) after ∧ IsLiteral quote units (quote :: body ++ [quote]) := by
  cases read : Reading.ofModule? text with
  | none =>
    rw [facts_unread read] at facts
    cases facts
  | some r =>
    rw [Reading.facts read] at facts
    obtain rfl := Option.some.inj facts
    obtain ⟨d, -⟩ := Reading.dissection read
    obtain ⟨p, hp, string⟩ := List.mem_filterMap.mp mem
    obtain ⟨before, q, after, split, rfl⟩ := d.exists_split hp
    obtain ⟨whole, start⟩ := d.cuts split
    obtain ⟨stop, laid⟩ := d.laid
    rw [split] at laid
    have here := laid.at
    have spelled := here.spelled
    unfold Passage.string? at string
    cases lexeme : q.passage.token.lexeme with
    | string value =>
      rw [lexeme] at spelled string
      obtain rfl := Option.some.inj string
      obtain ⟨quote, units, mark, literal, -⟩ := exists_isLiteral_of_spells spelled
      have covers : q.passage.token.span.Covers text _ q.passage.taken _ := ⟨whole, start.symm, here.stop⟩
      obtain ⟨body, taken, -⟩ := id literal
      rw [taken] at literal covers
      exact ⟨quote, units, _, body, _, mark, covers, literal⟩
    | _ =>
      rw [lexeme] at string
      cases string

/-- House style leaves a literal in double quotes alone if it holds a single quote, and otherwise puts a literal
in single quotes in its place that stands for the same code units and has the same line breaks. The strings of a
module are literals, and those in single quotes stay. -/
theorem requoted_literals_keep_values (text : List Char) (s : Span) :
    (∀ {before body after : List Char} {units : List Nat}, s.Covers text before ('"' :: body ++ ['"']) after →
      IsLiteral '"' units ('"' :: body ++ ['"']) →
        ('\'' ∈ body → quoteEdit? text s = none) ∧
        ('\'' ∉ body → ∃ literal, quoteEdit? text s = some ⟨s, literal⟩ ∧ IsLiteral '\'' units literal ∧
          literal.filter isLineBreak = ('"' :: body ++ ['"']).filter isLineBreak ∧
          Edit.apply text [⟨s, literal⟩] = before ++ (literal ++ after))) ∧
    ∀ {f : Facts}, Facts.ofModule? text = some f → s ∈ f.strings →
      ∃ quote units before body after, s.Covers text before (quote :: body ++ [quote]) after ∧
        IsLiteral quote units (quote :: body ++ [quote]) ∧
        (quote = '"' ∨ quote = '\'' ∧ quoteEdit? text s = none) := by
  refine ⟨fun {before body after units} covers literal => ?_, fun facts mem => ?_⟩
  · have edit := quoteEdit?_at after (.inl rfl) covers.start covers.stop
    rw [covers.whole, restyle_double] at edit
    constructor
    · intro single
      rw [edit, if_neg fun both => both.2 single]
    · intro single
      rw [if_pos ⟨rfl, single⟩, if_neg (by simpa using single)] at edit
      refine ⟨_, edit, isLiteral_requote literal single, ?_, apply_singleton covers _⟩
      have kept := filter_requote (p := isLineBreak) rfl body
      rw [List.filter_append, List.filter_append, List.filter_cons_of_neg (by decide),
        List.filter_cons_of_neg (by decide), kept]
      rfl
  · obtain ⟨quote, units, before, body, after, mark, covers, literal⟩ := isLiteral_of_mem_strings facts mem
    refine ⟨quote, units, before, body, after, covers, literal, mark.imp_right fun single => ⟨single, ?_⟩⟩
    have edit := quoteEdit?_at after mark covers.start covers.stop
    rw [covers.whole] at edit
    rw [edit, if_neg fun both => absurd (single.symm.trans both.1) (by decide)]

/-- A string with an escaped quote behind an escaped backslash, and a line end behind a backslash. -/
def escapedBody : List Char := "a\\\\\\\"b\\\nc".toList

theorem escaped_literal_keeps_value :
    ∃ literal, quoteEdit? ("f(\"".toList ++ (escapedBody ++ "\")".toList)) ⟨2, 13⟩ = some ⟨⟨2, 13⟩, literal⟩ ∧
      IsLiteral '\'' [97, 92, 34, 98, 99] literal ∧ (literal.filter isLineBreak).length = 1 := by
  have literal : IsLiteral '"' [97, 92, 34, 98, 99] ('"' :: escapedBody ++ ['"']) := ⟨escapedBody, rfl, rfl, rfl⟩
  have covers : (Span.mk 2 13).Covers ("f(\"".toList ++ (escapedBody ++ "\")".toList)) "f(".toList
      ('"' :: escapedBody ++ ['"']) ")".toList := ⟨rfl, rfl, rfl⟩
  obtain ⟨written, edit, again, breaks, -⟩ :=
    ((requoted_literals_keep_values _ _).1 covers literal).2 (by decide)
  exact ⟨written, edit, again, by rw [breaks]; rfl⟩

end VueOptions.Layout
