import VueOptions.Source.Module

/-!
The texts of the statements of a module. A statement starts at a token and stops at one, and no token
ends with a line feed; so the text of a statement is never empty and never ends its last line. Both
follow from what a cursor carries: a repetition keeps what each of its rounds keeps.
-/

set_option autoImplicit false

namespace VueOptions.Script

namespace Parse

variable {α β σ : Type} {text : List Char} {s : Setting} {c c' : Cursor text}

theorem bind_eq_some {p : Parse α} {f : α → Parse β} {b : β} :
    (p >>= f) text s c = some (b, c') ↔
      ∃ a k, p text s c = some (a, k) ∧ f a text s k = some (b, c') := by
  cases read : p text s c with
  | none =>
    have refused : (p >>= f) text s c = none := by simp only [bind, read]
    simp [refused]
  | some r =>
    have after : (p >>= f) text s c = f r.1 text s r.2 := by simp only [bind, read]
    rw [after]
    constructor
    · exact fun h => ⟨r.1, r.2, rfl, h⟩
    · rintro ⟨a, k, first, h⟩
      obtain rfl := Option.some.inj first
      exact h

theorem pure_eq_some {a b : α} : (pure a : Parse α) text s c = some (b, c') ↔ a = b ∧ c = c' := by
  change some (a, c) = some (b, c') ↔ _
  simp

def Round.state : Round σ → σ
  | .again s => s
  | .stop s => s

theorem rounds_keeps {P : σ → Prop} {step : σ → Parse (Round σ)}
    (keeps : ∀ x (k k' : Cursor text) r, P x → step x text s k = some (r, k') → P r.state)
    (n : Nat) {x y : σ} (start : P x) (run : rounds step n x text s c = some (y, c')) : P y := by
  -- On the number of rounds left; the cursor moves, so it varies too.
  induction n generalizing x c with
  | zero => cases run
  | succ n ih =>
    obtain ⟨r, k, round, rest⟩ := bind_eq_some.mp run
    have kept := keeps x c k r start round
    cases r with
    | stop z =>
      obtain ⟨rfl, -⟩ := pure_eq_some.mp rest
      exact kept
    | again z => exact ih kept rest

theorem rounds_stops {step : σ → Parse (Round σ)} {n : Nat} {x y : σ}
    (run : rounds step n x text s c = some (y, c')) :
    ∃ z k, step z text s k = some (.stop y, c') := by
  induction n generalizing x c with
  | zero => cases run
  | succ n ih =>
    obtain ⟨r, k, round, rest⟩ := bind_eq_some.mp run
    cases r with
    | stop z =>
      obtain ⟨rfl, rfl⟩ := pure_eq_some.mp rest
      exact ⟨x, c, round⟩
    | again z => exact ih rest

end Parse

/-- A span that covers some text within lines: it stops before the line ends. -/
def Span.InLine (span : Span) (text : List Char) : Prop :=
  span.of text ≠ [] ∧ (span.of text).getLast? ≠ some '\n'

structure Span.Covers (span : Span) (text before inner after : List Char) : Prop where
  whole : before ++ (inner ++ after) = text
  start : span.start = Text.byteLength before
  stop : span.stop = span.start + Text.byteLength inner

theorem Span.Covers.of_eq {span : Span} {text before inner after : List Char}
    (covers : span.Covers text before inner after) : span.of text = inner := by
  rw [Span.of, covers.stop, covers.start, ← covers.whole, ← Text.byteLength_append]
  exact Text.slice_between before inner after

open Parse in
theorem inLine_of_spanning {p : Parse Tree} {text : List Char} {s : Setting} {c c' : Cursor text}
    {t : Tree} (run : spanning p text s c = some (t, c')) : t.span.InLine text := by
  obtain ⟨start, k, hstart, run⟩ := bind_eq_some.mp run
  obtain ⟨rfl, rfl⟩ := Prod.mk.inj (Option.some.inj hstart)
  obtain ⟨u, k, -, run⟩ := bind_eq_some.mp run
  obtain ⟨stop, k', hstop, run⟩ := bind_eq_some.mp run
  obtain ⟨rfl, rfl⟩ := Prod.mk.inj (Option.some.inj hstop)
  split at run
  · next lt =>
    obtain ⟨rfl, -⟩ := pure_eq_some.mp run
    exact c.place.slice_inLine k.lastStop_inLine lt
  · cases run

namespace Grammar

open Parse

private theorem span_of_mem_markDirectives {ts : List Tree} {t : Tree} (mem : t ∈ markDirectives ts) :
    ∃ u ∈ ts, u.span = t.span := by
  fun_induction markDirectives ts with
  | case1 span v span' cs ts ih =>
    rcases List.mem_cons.mp mem with rfl | mem
    · exact ⟨_, List.mem_cons_self, rfl⟩
    · obtain ⟨u, hu, same⟩ := ih mem
      exact ⟨u, List.mem_cons_of_mem _ hu, same⟩
  | case2 ts => exact ⟨t, mem, rfl⟩

theorem inLine_of_moduleStatements {g : Grammar} {text : List Char} {s : Setting} {c c' : Cursor text}
    {ts : List Tree} (run : moduleStatements g text s c = some (ts, c')) :
    ∀ t ∈ ts, t.span.InLine text := by
  obtain ⟨found, k, loop, run⟩ := bind_eq_some.mp run
  obtain ⟨rfl, -⟩ := pure_eq_some.mp run
  have kept : ∀ t ∈ found, t.span.InLine text := by
    obtain ⟨setting, k', -, loop⟩ := bind_eq_some.mp loop
    refine rounds_keeps (P := fun ts => ∀ t ∈ ts, t.span.InLine text) ?_ _ (by simp) loop
    intro ts k k' r kept round
    obtain ⟨x, i, -, round⟩ := bind_eq_some.mp round
    split at round
    · obtain ⟨rfl, -⟩ := pure_eq_some.mp round
      exact kept
    · obtain ⟨t, j, item, round⟩ := bind_eq_some.mp round
      obtain ⟨rfl, -⟩ := pure_eq_some.mp round
      exact List.forall_mem_cons.mpr ⟨inLine_of_spanning item, kept⟩
  intro t mem
  obtain ⟨u, hu, same⟩ := span_of_mem_markDirectives mem
  exact same ▸ kept u (List.mem_reverse.mp hu)

end Grammar

end VueOptions.Script

namespace VueOptions.Source

open Script

def StaysInLine (text : String) : Prop := text.toList ≠ [] ∧ text.toList.getLast? ≠ some '\n'

section

variable {script : String} {m : Module}

theorem staysInLine_statement (parsed : Module.parse? script = some m) {st : Statement}
    (mem : st ∈ m.statements) : StaysInLine st.text := by
  obtain ⟨tree, read, rfl⟩ := Option.map_eq_some_iff.mp parsed
  obtain ⟨t, child, rfl⟩ := List.mem_map.mp mem
  have statement : t.span.InLine script.toList := by
    obtain ⟨r, reading, rfl⟩ := Option.map_eq_some_iff.mp read
    unfold Reading.ofModule? at reading
    dsimp only at reading
    split at reading
    · next ts cursor run =>
      split at reading
      · cases reading
      · obtain rfl := Option.some.inj reading
        exact Grammar.inLine_of_moduleStatements run t (List.mem_filter.mp child).1
    · cases reading
  rw [StaysInLine, Span.text, String.toList_ofList]
  exact statement

theorem staysInLine_import (parsed : Module.parse? script = some m) {i : String × String}
    (mem : i ∈ m.imports) : StaysInLine i.2 := by
  obtain ⟨st, hst, hi⟩ := List.mem_filterMap.mp mem
  unfold Statement.import? at hi
  split at hi
  · obtain rfl := Option.some.inj hi
    exact staysInLine_statement parsed hst
  · cases hi

private theorem staysInLine_withoutComponents {components : List String} {names : List ExportedName}
    {text kept : String} (whole : StaysInLine text)
    (h : Statement.withoutComponents components names text = some kept) : StaysInLine kept := by
  unfold Statement.withoutComponents at h
  dsimp only at h
  split at h
  · obtain rfl := Option.some.inj h
    exact whole
  · split at h
    · cases h
    · obtain rfl := Option.some.inj h
      refine ⟨by simp, ?_⟩
      rw [String.toList_append, List.getLast?_append]
      exact nofun

theorem staysInLine_carried (parsed : Module.parse? script = some m) {c : CarriedKind × String}
    (mem : c ∈ m.carried) : StaysInLine c.2 := by
  obtain ⟨st, hst, hc⟩ := List.mem_filterMap.mp mem
  have whole := staysInLine_statement parsed hst
  have plain : ∀ {kind : CarriedKind}, some (kind, st.text) = some c → StaysInLine c.2 := by
    intro kind h
    obtain rfl := Option.some.inj h
    exact whole
  unfold Statement.carried? at hc
  split at hc
  · cases hc
  · exact plain hc
  · exact plain hc
  · split at hc
    · cases hc
    · exact plain hc
  · exact plain hc
  · obtain ⟨kept, hkept, rfl⟩ := Option.map_eq_some_iff.mp hc
    exact staysInLine_withoutComponents whole hkept
  · split at hc
    · cases hc
    · exact plain hc
  · exact plain hc

end

end VueOptions.Source
