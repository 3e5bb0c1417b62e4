import VueOptions.Proofs.Layout.Tidy
import VueOptions.Proofs.Script.Dissection

/-!
Tidying between tokens. Blanks and comments stay blanks and comments (`Thins.after?`): a dropped blank
stands before the end of its line, so it neither joins the marks of a comment nor opens one. Where a
line ends between two tokens, one still does (`Thins.any_isLineBreak`). A token stays as it is
(`Thins.fixed`), and only blanks come and go (`Thins.filter_solid`).
-/

set_option autoImplicit false

namespace VueOptions.Layout

open Text Script

def marks (isFixed : Bool) (cs : List Char) : List Glyph := cs.map fun c => ⟨c, isFixed⟩

theorem marks_append (isFixed : Bool) (cs ds : List Char) :
    marks isFixed (cs ++ ds) = marks isFixed cs ++ marks isFixed ds := List.map_append

namespace Thins

variable {width : Nat} {s t : Stand} {cs out : List Char}

theorem fixed (run : Thins width s (marks true cs) out t) :
    out = cs ∧ ∀ c ∈ cs.getLast?, s.isTrailing = false ∧ t = Stand.behind c := by
  induction cs generalizing s out with
  | nil =>
    cases run
    exact ⟨rfl, nofun⟩
  | cons c cs ih =>
    cases run with
    | cons step later =>
      cases step with
      | keep _ free =>
        obtain ⟨same, last⟩ := ih later
        refine ⟨by rw [same]; rfl, ?_⟩
        cases cs with
        | nil =>
          rintro _ ⟨⟩
          cases later
          exact ⟨free, rfl⟩
        | cons d cs => exact fun e final => ⟨free, (last e final).2⟩

theorem head?_of_trailing (run : Thins width (.trailing false) (marks false cs) out t) :
    out.head? = none ∨ out.head? = some '\n' := by
  induction cs generalizing out with
  | nil => cases run; exact .inl rfl
  | cons c cs ih =>
    cases run with
    | cons step later =>
      cases step with
      | keep _ free => cases free
      | feed => exact .inr rfl
      | drop _ _ _ => exact ih later
      | merge bare => cases bare

theorem head?_of_solid {c : Char} (run : Thins width s (marks false (c :: cs)) out t)
    (solid : isBlank c = false) : out.head? = some c := by
  cases run with
  | cons step later =>
    cases step with
    | keep => rfl
    | feed | widen | merge => cases solid
    | drop _ blank => rw [blank] at solid; cases solid

theorem head?_of_inside (run : Thins width .inside (marks false cs) out t) :
    out.head? = cs.head? ∨ out.head? = none ∨ out.head? = some '\n' := by
  cases cs with
  | nil => cases run; exact .inl rfl
  | cons c cs =>
    cases run with
    | cons step later =>
      cases step with
      | keep | feed => exact .inl rfl
      | drop => exact .inr (head?_of_trailing later)
      | merge bare => cases bare

/-- How a read of the text and a read of the run stand: in the same mode, unless a line ended among
blanks that were dropped behind a comment. -/
def Agree : Stand → Trivia.Mode → Trivia.Mode → Prop
  | .start, m, m' | .trailing true, m, m' => m' = m ∧ (m = .between ∨ m = .block)
  | .inside, m, m' => m' = m
  | .trailing false, m, m' =>
    m' = m ∧ (m = .between ∨ m = .line ∨ m = .block) ∨ m = .between ∧ m' = .line

/-- The second mark of the start or the end of a comment comes next. -/
def Expects : Trivia.Mode → List Char → Prop
  | .opening, cs => cs.head? = some '*'
  | .closing, cs => cs.head? = some '/'
  | _, _ => True

variable {m m' k : Trivia.Mode} {c : Char}

theorem agree_between : (s : Stand) → Agree s .between .between
  | .start | .trailing true => ⟨rfl, .inl rfl⟩
  | .inside => rfl
  | .trailing false => .inl ⟨rfl, .inl rfl⟩

theorem Agree.eq_of_free (agree : Agree s m m') (free : s.isTrailing = false) : m' = m := by
  cases s with
  | start => exact agree.1
  | inside => exact agree
  | trailing => cases free

theorem Agree.of_bare (agree : Agree s m m') (bare : s.isBare = true) :
    m' = m ∧ (m = .between ∨ m = .block) := by
  cases s with
  | start => exact agree
  | inside => cases bare
  | trailing => cases bare; exact agree

theorem expects_past? (h : m.past? c cs.head? = some k) : Expects k cs := by
  cases m with
  | between =>
    simp only [Trivia.Mode.past?] at h
    split at h
    · cases h; trivial
    · split at h
      · cases h; trivial
      · split at h
        · next starts =>
          cases h
          simp only [Bool.and_eq_true, decide_eq_true_eq] at starts
          exact starts.2
        · cases h
  | line =>
    simp only [Trivia.Mode.past?] at h
    split at h <;> cases h <;> trivial
  | opening => cases h; trivial
  | block =>
    simp only [Trivia.Mode.past?] at h
    split at h
    · next ends =>
      cases h
      simp only [Bool.and_eq_true, decide_eq_true_eq] at ends
      exact ends.2
    · cases h; trivial
  | closing => cases h; trivial

theorem past?_head (h : m.past? c cs.head? = some k)
    (later : Thins width (Stand.behind c) (marks false cs) out t) : m.past? c out.head? = some k := by
  -- It matters only where a comment may begin or end.
  have solid : ∀ d, isBlank d = false → cs.head? = some d → out.head? = some d := by
    intro d solid front
    obtain ⟨rest, rfl⟩ := List.head?_eq_some_iff.mp front
    exact head?_of_solid later solid
  cases m with
  | line | opening | closing => exact h
  | between =>
    simp only [Trivia.Mode.past?] at h ⊢
    by_cases blank : (isLineBreak c || isSpace c) = true
    · rw [if_pos blank] at h ⊢
      exact h
    rw [if_neg blank] at h ⊢
    obtain ⟨d, front, solidFront⟩ : ∃ d, cs.head? = some d ∧ isBlank d = false := by
      split at h
      · next starts => exact ⟨'/', by simpa using (Bool.and_eq_true_iff.mp starts).2, rfl⟩
      · split at h
        · next starts => exact ⟨'*', by simpa using (Bool.and_eq_true_iff.mp starts).2, rfl⟩
        · cases h
    rw [solid d solidFront front, ← front]
    exact h
  | block =>
    simp only [Trivia.Mode.past?] at h ⊢
    by_cases ends : (c = '*' && cs.head? = some '/') = true
    · have front : cs.head? = some '/' := by simpa using (Bool.and_eq_true_iff.mp ends).2
      rw [front] at h
      rw [solid '/' rfl front]
      exact h
    · rw [if_neg ends] at h
      rw [if_neg ?_]
      · exact h
      intro ends'
      simp only [Bool.and_eq_true, decide_eq_true_eq] at ends ends'
      obtain ⟨rfl, front⟩ := ends'
      rcases head?_of_inside later with same | none | feed
      · exact ends ⟨rfl, same ▸ front⟩
      · rw [none] at front; cases front
      · rw [feed] at front; cases front

theorem Agree.eq_or (agree : Agree s m m') : m' = m ∨ m = .between ∧ m' = .line := by
  match s, agree with
  | .start, agree => exact .inl agree.1
  | .inside, agree => exact .inl agree
  | .trailing true, agree => exact .inl agree.1
  | .trailing false, agree => exact agree.imp And.left id

theorem past?_feed (agree : Agree s m m') (expects : Expects m ('\n' :: cs)) {next : Option Char}
    (next' : Option Char) (h : m.past? '\n' next = some k) :
    m'.past? '\n' next' = some k ∧ (k = .between ∨ k = .block) := by
  cases m with
  | opening | closing => cases expects
  | between =>
    cases h
    rcases agree.eq_or with rfl | ⟨-, rfl⟩ <;> exact ⟨rfl, .inl rfl⟩
  | line =>
    cases h
    rcases agree.eq_or with rfl | ⟨other, -⟩
    · exact ⟨rfl, .inl rfl⟩
    · cases other
  | block =>
    cases h
    rcases agree.eq_or with rfl | ⟨other, -⟩
    · exact ⟨rfl, .inr rfl⟩
    · cases other

theorem Agree.drop (agree : Agree s m m') (expects : Expects m (c :: cs)) (blank : isBlank c = true)
    {next : Option Char} (h : m.past? c next = some k) : Agree (.trailing s.isBare) k m' := by
  cases m with
  | opening =>
    obtain rfl := Option.some.inj expects
    cases blank
  | closing =>
    obtain rfl := Option.some.inj expects
    cases blank
  | between =>
    rw [Trivia.Mode.past?, if_pos (isLineBreak_or_isSpace blank)] at h
    cases h
    cases bare : s.isBare with
    | true => exact agree.of_bare bare
    | false =>
      rcases agree.eq_or with rfl | ⟨-, rfl⟩
      · exact .inl ⟨rfl, .inl rfl⟩
      · exact .inr ⟨rfl, rfl⟩
  | line =>
    cases bare : s.isBare with
    | true => rcases (agree.of_bare bare).2 with other | other <;> cases other
    | false =>
      rcases agree.eq_or with rfl | ⟨other, -⟩
      · rw [Trivia.Mode.past?] at h
        split at h <;> cases h
        · exact .inr ⟨rfl, rfl⟩
        · exact .inl ⟨rfl, .inr (.inl rfl)⟩
      · cases other
  | block =>
    have star : c ≠ '*' := by
      rintro rfl
      cases blank
    rw [Trivia.Mode.past?, if_neg (by simp [star])] at h
    cases h
    cases bare : s.isBare with
    | true => exact agree.of_bare bare
    | false =>
      rcases agree.eq_or with rfl | ⟨other, -⟩
      · exact .inl ⟨rfl, .inr (.inr rfl)⟩
      · cases other

private theorem after?_spaces (h : m = .between ∨ m = .block) (n : Nat) (cs : List Char) :
    Trivia.after? m (List.replicate n ' ' ++ cs) = Trivia.after? m cs := by
  induction n with
  | zero => rfl
  | succ n ih =>
    rw [List.replicate_succ, List.cons_append]
    rcases h with rfl | rfl <;> exact ih

theorem after? (run : Thins width s (marks false cs) out t) (agree : Agree s m m')
    (expects : Expects m cs) (h : Trivia.after? m cs = some k) :
    ∃ k', Trivia.after? m' out = some k' ∧ Agree t k k' := by
  induction cs generalizing s out m m' with
  | nil =>
    cases run
    obtain rfl := Option.some.inj h
    exact ⟨m', rfl, agree⟩
  | cons c cs ih =>
    obtain ⟨n, goesOn, rest⟩ := Option.bind_eq_some_iff.mp h
    have expects' := expects_past? goesOn
    cases run with
    | cons step later =>
      cases step with
      | keep _ free =>
        obtain rfl := agree.eq_of_free free
        have agree' : Agree (Stand.behind c) n n := by
          unfold Stand.behind
          split
          · next feed =>
            subst feed
            exact ⟨rfl, (past?_feed agree expects none goesOn).2⟩
          · rfl
        obtain ⟨k', after, ends⟩ := ih later agree' expects' rest
        refine ⟨k', ?_, ends⟩
        rw [List.singleton_append, Trivia.after?, past?_head goesOn later]
        exact after
      | feed =>
        obtain ⟨_, atFeed⟩ := past?_feed agree expects none goesOn
        obtain ⟨k', after, ends⟩ := ih later ⟨rfl, atFeed⟩ expects' rest
        refine ⟨k', ?_, ends⟩
        rw [List.singleton_append, Trivia.after?, (past?_feed agree expects _ goesOn).1]
        exact after
      | widen =>
        obtain ⟨rfl, mode⟩ := agree
        have same : n = m' := by
          rcases mode with rfl | rfl <;> exact (Option.some.inj goesOn).symm
        subst same
        obtain ⟨k', after, ends⟩ := ih later ⟨rfl, mode⟩ expects' rest
        exact ⟨k', (after?_spaces mode _ _).trans after, ends⟩
      | drop _ blank _ => exact ih later (agree.drop expects blank goesOn) expects' rest
      | merge bare =>
        obtain ⟨rfl, mode⟩ := agree.of_bare bare
        have same : n = m' := by
          rcases mode with rfl | rfl <;> exact (Option.some.inj goesOn).symm
        subst same
        exact ih later ⟨rfl, mode⟩ expects' rest

theorem any_isLineBreak_of_trailing (run : Thins width (.trailing false) (marks false cs) out t)
    (free : t.isTrailing = false) : out.any isLineBreak = true := by
  induction cs generalizing out with
  | nil => cases run; cases free
  | cons c cs ih =>
    cases run with
    | cons step later =>
      cases step with
      | keep _ other => cases other
      | feed => rfl
      | drop => exact ih later
      | merge bare => cases bare

theorem any_isLineBreak (run : Thins width s (marks false cs) out t) (bare : s.isBare = false)
    (free : t.isTrailing = false) : out.any isLineBreak = cs.any isLineBreak := by
  induction cs generalizing s out with
  | nil => cases run; rfl
  | cons c cs ih =>
    cases run with
    | cons step later =>
      cases step with
      | keep _ _ =>
        by_cases feed : c = '\n'
        · subst feed
          rfl
        · have inside : Stand.behind c = .inside := if_neg feed
          rw [List.singleton_append, List.any_cons, List.any_cons, ih later (by rw [inside]; rfl)]
      | feed => rfl
      | widen => cases bare
      | merge other => rw [other] at bare; cases bare
      | drop =>
        rw [bare] at later
        have breaks := any_isLineBreak_of_trailing later free
        rw [List.nil_append, List.any_cons, ← ih later rfl, breaks, Bool.or_true]

theorem eq_nil_iff (run : Thins width s (marks false cs) out t) (bare : s.isBare = false)
    (free : t.isTrailing = false) : out = [] ↔ cs = [] := by
  cases cs with
  | nil => cases run; exact ⟨fun _ => rfl, fun _ => rfl⟩
  | cons c cs =>
    refine ⟨fun none => ?_, nofun⟩
    cases run with
    | cons step later =>
      cases step with
      | keep | feed => cases none
      | widen => cases bare
      | merge other => rw [other] at bare; cases bare
      | drop =>
        rw [bare] at later
        have breaks := any_isLineBreak_of_trailing later free
        rw [(List.append_eq_nil_iff.mp none).2] at breaks
        cases breaks

private theorem line_of_trailing (run : Thins width (.trailing false) (marks false cs) out t)
    (inLine : '\n' ∉ cs) : t.isBare = false ∧ out = [] ∧ ∀ c ∈ cs, isBlank c = true := by
  induction cs generalizing out with
  | nil => cases run; exact ⟨rfl, rfl, nofun⟩
  | cons c cs ih =>
    rw [List.mem_cons, not_or] at inLine
    cases run with
    | cons step later =>
      cases step with
      | keep _ free => cases free
      | feed => exact absurd rfl inLine.1
      | merge bare => cases bare
      | drop _ blank _ =>
        obtain ⟨stands, none, blanks⟩ := ih later inLine.2
        exact ⟨stands, none, List.forall_mem_cons.mpr ⟨blank, blanks⟩⟩

theorem line (run : Thins width .inside (marks false cs) out t) (inLine : '\n' ∉ cs) :
    t.isBare = false ∧ ∃ bs, out ++ bs = cs ∧ ∀ b ∈ bs, isBlank b = true := by
  induction cs generalizing out with
  | nil => cases run; exact ⟨rfl, [], rfl, nofun⟩
  | cons c cs ih =>
    rw [List.mem_cons, not_or] at inLine
    cases run with
    | cons step later =>
      cases step with
      | keep _ _ =>
        rw [Stand.behind, if_neg (Ne.symm inLine.1)] at later
        obtain ⟨stands, bs, rfl, blanks⟩ := ih later inLine.2
        exact ⟨stands, bs, rfl, blanks⟩
      | feed => exact absurd rfl inLine.1
      | merge bare => cases bare
      | drop _ blank _ =>
        obtain ⟨stands, none, blanks⟩ := line_of_trailing later inLine.2
        exact ⟨stands, c :: cs, by rw [none]; rfl, List.forall_mem_cons.mpr ⟨blank, blanks⟩⟩

theorem filter_solid {gs : List Glyph} (run : Thins width s gs out t) :
    out.filter (!isBlank ·) = (gs.map Glyph.char).filter (!isBlank ·) := by
  induction run with
  | nil => rfl
  | @cons s t u g gs out rest step _ ih =>
    have first : out.filter (!isBlank ·) = [g.char].filter (!isBlank ·) := by
      cases step with
      | keep | feed | merge => rfl
      | widen =>
        rw [List.filter_replicate]
        rfl
      | drop _ blank _ => simp [blank]
    rw [List.filter_append, first, ih, ← List.filter_append]
    rfl

end Thins

end VueOptions.Layout
