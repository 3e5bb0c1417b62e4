import VueOptions.Layout.HouseStyle

/-!
Writing a string in other quotes. A body is read escape by escape, not character by character: the
backslash before a quote may itself be escaped. In a body that stands in double quotes and holds no
single quote, taking the backslash from each double quote gives a body for single quotes
(`Body.requote`) with the same value (`Body.value?_requote`).
-/

set_option autoImplicit false

namespace VueOptions.Script.Literal

open Name (hexValue?)
open Layout (requote)

inductive Body (quote : Char) : List Char → Prop
  | nil : Body quote []
  | plain {c : Char} {cs : List Char} (ne : c ≠ quote) (slash : c ≠ '\\') (feed : c ≠ '\n')
    (ret : c ≠ '\r') (rest : Body quote cs) : Body quote (c :: cs)
  | continued {cs : List Char} (rest : Body quote cs) : Body quote ('\\' :: '\r' :: '\n' :: cs)
  | escape {c : Char} {cs : List Char} (apart : c = '\r' → cs.head? ≠ some '\n')
    (rest : Body quote cs) : Body quote ('\\' :: c :: cs)

theorem body_of_scanString {quote : Char} {isEscaped : Bool} {cs : List Char}
    {r : List Char × List Char} (h : scanString quote isEscaped cs = some r) :
    Body quote (if isEscaped then '\\' :: r.1 else r.1) := by
  fun_induction scanString quote isEscaped cs generalizing r with
  | case1 | case6 => cases h
  | case2 cs ih =>
    obtain ⟨s, hs, rfl⟩ := Option.map_eq_some_iff.mp h
    exact .continued (ih hs)
  | case3 c cs ne ih =>
    obtain ⟨s, hs, rfl⟩ := Option.map_eq_some_iff.mp h
    refine .escape (fun hc front => ?_) (ih hs)
    obtain ⟨rest, hrest⟩ := List.head?_eq_some_iff.mp front
    have whole := scanString_append hs
    rw [hrest] at whole
    exact ne _ hc whole.symm
  | case4 cs => cases h; exact .nil
  | case5 cs ne ih =>
    obtain ⟨s, hs, rfl⟩ := Option.map_eq_some_iff.mp h
    exact ih hs
  | case7 c cs ne slash feed ih =>
    obtain ⟨s, hs, rfl⟩ := Option.map_eq_some_iff.mp h
    simp only [Bool.or_eq_true, decide_eq_true_eq, not_or] at feed
    exact .plain ne slash feed.1 feed.2 (ih hs)

theorem IsBody.body {quote : Char} {body : List Char} (h : IsBody quote body) : Body quote body :=
  body_of_scanString h

namespace Body

variable {quote : Char} {body : List Char}

theorem isBody (h : Body quote body) (slash : quote ≠ '\\') (feed : quote ≠ '\n') :
    IsBody quote body := by
  induction h with
  | nil => simp [IsBody, scanString]
  | plain ne slash' feed' ret _ ih =>
    rw [IsBody] at ih ⊢
    simp [scanString, ne, slash', feed', ret, ih, cons]
  | continued _ ih =>
    rw [IsBody] at ih ⊢
    simp [scanString, slash.symm, ih, cons]
  | @escape c cs apart _ ih =>
    rw [IsBody] at ih ⊢
    have apart' : ∀ rest, c = '\r' → cs ++ [quote] = '\n' :: rest → False := by
      intro rest hc eq
      cases cs with
      | nil => exact feed (List.cons.inj eq).1
      | cons d cs => exact apart hc (congrArg some (List.cons.inj eq).1)
    rw [List.cons_append, scanString, if_neg slash.symm, if_pos rfl, List.cons_append,
      scanString.eq_3 _ _ _ apart', ih]
    rfl

theorem head?_ne (h : Body quote body) (slash : quote ≠ '\\') : body.head? ≠ some quote := by
  cases h with
  | nil => exact nofun
  | plain ne => exact fun eq => ne (Option.some.inj eq)
  | continued | escape => exact fun eq => slash (Option.some.inj eq).symm

end Body

theorem requote_cons {c : Char} {cs : List Char} (ne : c = '\\' → cs.head? ≠ some '"') :
    requote (c :: cs) = c :: requote cs := by
  rw [requote]
  rintro rest rfl rfl
  exact ne rfl rfl

theorem head?_requote (cs : List Char) :
    (requote cs).head? = cs.head? ∨ (requote cs).head? = some '"' ∧ cs.head? = some '\\' := by
  fun_cases requote cs with
  | case1 => exact .inl rfl
  | case2 cs => exact .inr ⟨rfl, rfl⟩
  | case3 c cs ne => exact .inl rfl

theorem filter_requote {p : Char → Bool} (slash : p '\\' = false) (cs : List Char) :
    (requote cs).filter p = cs.filter p := by
  fun_induction requote cs with
  | case1 => rfl
  | case2 cs ih => simp [List.filter_cons, slash, ih]
  | case3 c cs _ ih => rw [List.filter_cons, List.filter_cons, ih]

namespace Body

variable {body : List Char}

theorem requote_escape {c : Char} {cs : List Char} (rest : Body '"' cs) (ne : c ≠ '"') :
    requote ('\\' :: c :: cs) = '\\' :: c :: requote cs := by
  have first : requote ('\\' :: c :: cs) = '\\' :: requote (c :: cs) :=
    requote_cons fun _ front => ne (Option.some.inj front)
  rw [first, requote_cons fun _ => rest.head?_ne (by decide)]

protected theorem requote (h : Body '"' body) (single : '\'' ∉ body) : Body '\'' (requote body) := by
  induction h with
  | nil => exact .nil
  | plain ne slash feed ret _ ih =>
    rw [List.mem_cons, not_or] at single
    rw [requote_cons fun same => absurd same slash]
    exact .plain (Ne.symm single.1) slash feed ret (ih single.2)
  | continued rest ih =>
    exact .continued (ih fun mem => single (by simp [mem]))
  | @escape c cs apart rest ih =>
    have kept := ih fun mem => single (by simp [mem])
    by_cases double : c = '"'
    · subst double
      exact .plain (by decide) (by decide) (by decide) (by decide) kept
    · rw [rest.requote_escape double]
      refine .escape (fun ret front => ?_) kept
      rcases head?_requote cs with same | ⟨other, -⟩
      · exact apart ret (same ▸ front)
      · rw [other] at front
        cases front

private theorem cook_escape_requote {octal : Bool} {c : Char} {cs : List Char}
    (apart : c = '\r' → cs.head? ≠ some '\n')
    (ih : ∀ mode, mode ≠ .escape → cook octal mode (requote cs) = cook octal mode cs) :
    cook octal .escape (c :: requote cs) = cook octal .escape (c :: cs) := by
  have front := head?_requote cs
  have apart' : c = '\r' → (requote cs).head? ≠ some '\n' := by
    intro ret feed
    rcases front with same | ⟨other, -⟩
    · exact apart ret (same ▸ feed)
    · rw [other] at feed
      cases feed
  have digits : (requote cs).head?.any Char.isDigit = cs.head?.any Char.isDigit := by
    rcases front with same | ⟨quote, slash⟩
    · rw [same]
    · rw [quote, slash]
      rfl
  have plain := ih .plain nofun
  rw [cook.eq_4 octal c (requote cs) fun rest ret eq => apart' ret (congrArg List.head? eq),
    cook.eq_4 octal c cs fun rest ret eq => apart ret (congrArg List.head? eq), plain, digits,
    ih (.digits 1 0) nofun, ih .unicode nofun, ih (.octal _ _) nofun]

theorem cook_requote {octal : Bool} (h : Body '"' body) (mode : Mode) (ne : mode ≠ .escape) :
    cook octal mode (requote body) = cook octal mode body := by
  induction h generalizing mode with
  | nil => rfl
  | @plain c cs _ slash _ _ _ ih =>
    rw [requote_cons fun same => absurd same slash]
    cases mode with
    | escape => exact absurd rfl ne
    | plain | octal | unicode | digits | braced => simp [cook, slash, ih]
  | @continued cs _ ih =>
    have kept : requote ('\\' :: '\r' :: '\n' :: cs) = '\\' :: '\r' :: '\n' :: requote cs := rfl
    rw [kept]
    cases mode with
    | escape => exact absurd rfl ne
    | plain | octal | unicode | digits | braced => simp [cook, ih, isOctal, hexValue?]
  | @escape c cs apart rest ih =>
    have escaped : cook octal .escape (c :: requote cs) = cook octal .escape (c :: cs) :=
      cook_escape_requote apart ih
    by_cases double : c = '"'
    · subst double
      have kept : requote ('\\' :: '"' :: cs) = '"' :: requote cs := rfl
      rw [kept]
      cases mode with
      | escape => exact absurd rfl ne
      | plain | octal | unicode | digits | braced =>
        simp [cook, ih, isOctal, hexValue?, Function.comp_def]
    · rw [rest.requote_escape double]
      cases mode with
      | escape => exact absurd rfl ne
      | plain | octal | unicode | digits | braced => simp [cook, escaped, isOctal, hexValue?]

theorem value?_requote (h : Body '"' body) : value? (requote body) = value? body := by
  rw [value?, value?, h.cook_requote .plain nofun]

end Body

end VueOptions.Script.Literal
