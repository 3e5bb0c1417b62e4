import VueOptions.Proofs.Layout.Marked

/-!
What the characters of a text are to a reading of it: a character belongs to a string, to a template or to
neither. Blanks need no role. A line begins in a template exactly if the next character that is no blank
belongs to one (`templateLines_eq_roles`), and the strings can be cut out of the other characters again
(`quoted_rolesFrom`). So two texts with the same roles differ in nothing but blanks that house style looks at.
-/

set_option autoImplicit false

namespace VueOptions.Layout

open Text Script

inductive Role
  | plain
  | opensString
  | inString
  | inTemplate
  deriving DecidableEq, Repr

def firstRole : Lexeme → Role
  | .string _ => .opensString
  | _ => .plain

def laterRole : Lexeme → Role
  | .string _ => .inString
  | .template _ _ _ => .inTemplate
  | _ => .plain

def roles (role : Role) (cs : List Char) : List (Char × Role) := cs.map fun c => (c, role)

def tokenRoles (l : Lexeme) : List Char → List (Char × Role)
  | [] => []
  | c :: cs => (c, firstRole l) :: roles (laterRole l) cs

/-- The characters of a text from an offset on, with its tokens written in some way. -/
def rolesFrom (write : Passage → List Char) (offset : Nat) (text : List Char) :
    List Passage → List (Char × Role)
  | [] => roles .plain text
  | p :: ps =>
    roles .plain (takeBytes (p.token.span.start - offset) text) ++ (tokenRoles p.token.lexeme (write p) ++
      rolesFrom write p.token.span.stop (dropBytes (p.token.span.stop - offset) text) ps)

def solids (rs : List (Char × Role)) : List (Char × Role) := rs.filter fun x => !isBlank x.1

/-- The characters of pieces, with their tokens written in some way. -/
def pieceRoles (write : Passage → List Char) (ps : List Piece) : List (Char × Role) :=
  ps.flatMap fun p => roles .plain p.gap ++ tokenRoles p.passage.token.lexeme (write p.passage)

theorem roles_append (role : Role) (cs ds : List Char) :
    roles role (cs ++ ds) = roles role cs ++ roles role ds := List.map_append

theorem map_fst_roles (role : Role) (cs : List Char) : (roles role cs).map Prod.fst = cs := by
  rw [roles, List.map_map]
  exact List.map_id cs

theorem map_fst_tokenRoles (l : Lexeme) (cs : List Char) : (tokenRoles l cs).map Prod.fst = cs := by
  cases cs with
  | nil => rfl
  | cons c cs => rw [tokenRoles, List.map_cons, map_fst_roles]

theorem pieceRoles_cons (write : Passage → List Char) (p : Piece) (ps : List Piece) :
    pieceRoles write (p :: ps) =
      roles .plain p.gap ++ (tokenRoles p.passage.token.lexeme (write p.passage) ++ pieceRoles write ps) := by
  rw [pieceRoles, List.flatMap_cons, List.append_assoc]
  rfl

theorem map_fst_pieceRoles (write : Passage → List Char) (ps : List Piece) :
    (pieceRoles write ps).map Prod.fst = Piece.weave write ps := by
  induction ps with
  | nil => rfl
  | cons p ps ih =>
    rw [pieceRoles_cons, List.map_append, List.map_append, map_fst_roles, map_fst_tokenRoles, ih,
      Piece.weave_cons]

theorem solids_append (rs ss : List (Char × Role)) : solids (rs ++ ss) = solids rs ++ solids ss :=
  List.filter_append ..

theorem solids_roles (role : Role) (cs : List Char) :
    solids (roles role cs) = roles role (cs.filter (!isBlank ·)) := by
  rw [solids, roles, List.filter_map]
  rfl

theorem map_fst_solids (rs : List (Char × Role)) :
    (solids rs).map Prod.fst = (rs.map Prod.fst).filter (!isBlank ·) := by
  rw [List.filter_map]
  rfl

theorem rolesFrom_laid (write : Passage → List Char) {n m : Nat} {ps : List Piece}
    (laid : Piece.Laid n ps m) (tail : List Char) {k : Nat} (pending : List Char)
    (hn : n = k + byteLength pending) :
    rolesFrom write k (pending ++ (Piece.weave Passage.taken ps ++ tail)) (ps.map Piece.passage) =
      roles .plain pending ++ (pieceRoles write ps ++ roles .plain tail) := by
  induction laid generalizing k pending with
  | nil n => exact roles_append .plain pending tail
  | @cons n m p ps first rest ih =>
    have before : p.passage.token.span.start - k = byteLength (pending ++ p.gap) := by
      rw [first.start, hn, byteLength_append]
      omega
    have through : p.passage.token.span.stop - k = byteLength (pending ++ (p.gap ++ p.passage.taken)) := by
      rw [first.stop, first.start, hn, byteLength_append, byteLength_append]
      omega
    have front : takeBytes (p.passage.token.span.start - k)
        (pending ++ (Piece.weave Passage.taken (p :: ps) ++ tail)) = pending ++ p.gap := by
      rw [before, Piece.weave_cons, List.append_assoc, ← List.append_assoc pending, takeBytes_byteLength]
    have behind : dropBytes (p.passage.token.span.stop - k)
        (pending ++ (Piece.weave Passage.taken (p :: ps) ++ tail)) =
          Piece.weave Passage.taken ps ++ tail := by
      have text : pending ++ (Piece.weave Passage.taken (p :: ps) ++ tail) =
          (pending ++ (p.gap ++ p.passage.taken)) ++ (Piece.weave Passage.taken ps ++ tail) := by
        rw [Piece.weave_cons]
        simp only [List.append_assoc]
      rw [through, text, dropBytes_byteLength]
    have later := ih [] rfl
    rw [List.nil_append] at later
    rw [List.map_cons, rolesFrom, front, behind, later, roles_append, pieceRoles_cons]
    simp only [List.append_assoc]
    rfl

theorem rolesFrom_eq {text : List Char} {passed : List Passage} (d : Dissection text passed)
    (write : Passage → List Char) : rolesFrom write 0 text passed =
      roles .plain d.head ++ (pieceRoles write d.pieces ++ roles .plain d.tail) := by
  obtain ⟨stop, laid⟩ := d.laid
  have whole := rolesFrom_laid write laid d.tail d.head (Nat.zero_add _).symm
  rwa [d.whole, d.passages] at whole

theorem map_fst_rolesFrom {text : List Char} {passed : List Passage} (d : Dissection text passed)
    (write : Passage → List Char) :
    (rolesFrom write 0 text passed).map Prod.fst = d.head ++ (Piece.weave write d.pieces ++ d.tail) := by
  rw [rolesFrom_eq d, List.map_append, List.map_append, map_fst_roles, map_fst_roles, map_fst_pieceRoles]

/-- The next character that is no blank starts a token or stands between tokens. -/
def Fresh (rs : List (Char × Role)) : Prop :=
  ∀ x ∈ (solids rs).head?, x.2 ≠ .inTemplate ∧ x.2 ≠ .inString

theorem firstRole_ne (l : Lexeme) : firstRole l ≠ .inTemplate ∧ firstRole l ≠ .inString := by
  cases l <;> simp [firstRole]

theorem fresh_nil : Fresh [] := fun _ mem => by cases mem

theorem solids_cons_of_blank {c : Char} (blank : isBlank c = true) (role : Role) (rs : List (Char × Role)) :
    solids ((c, role) :: rs) = solids rs := List.filter_cons_of_neg (by simp [blank])

theorem solids_cons_of_solid {c : Char} (solid : isBlank c = false) (role : Role) (rs : List (Char × Role)) :
    solids ((c, role) :: rs) = (c, role) :: solids rs := List.filter_cons_of_pos (by simp [solid])

theorem Fresh.cons_plain {rs : List (Char × Role)} (h : Fresh rs) (c : Char) : Fresh ((c, .plain) :: rs) := by
  cases blank : isBlank c with
  | true =>
    rw [Fresh, solids_cons_of_blank blank]
    exact h
  | false =>
    rw [Fresh, solids_cons_of_solid blank]
    rintro _ ⟨⟩
    exact firstRole_ne .endOfText

theorem Fresh.plain {rs : List (Char × Role)} (h : Fresh rs) (cs : List Char) :
    Fresh (roles .plain cs ++ rs) := by
  induction cs with
  | nil => exact h
  | cons c cs ih => exact ih.cons_plain c

theorem fresh_roles (cs : List Char) : Fresh (roles .plain cs) := by
  have ends := fresh_nil.plain cs
  rwa [List.append_nil] at ends

theorem Fresh.token {rs : List (Char × Role)} (h : Fresh rs) (l : Lexeme) {cs : List Char}
    (first : ∀ c ∈ cs.head?, isBlank c = false) : Fresh (tokenRoles l cs ++ rs) := by
  cases cs with
  | nil => exact h
  | cons c cs =>
    rw [tokenRoles, List.cons_append, Fresh, solids_cons_of_solid (first c rfl)]
    rintro _ ⟨⟩
    exact firstRole_ne l

theorem Fresh.pieces {rs : List (Char × Role)} (h : Fresh rs) {write : Passage → List Char} {ps : List Piece}
    (solid : ∀ p ∈ ps, Solidly (write p.passage)) : Fresh (pieceRoles write ps ++ rs) := by
  induction ps with
  | nil => exact h
  | cons p ps ih =>
    rw [List.forall_mem_cons] at solid
    rw [pieceRoles_cons, List.append_assoc, List.append_assoc]
    exact ((ih solid.2).token _ solid.1.1).plain p.gap

/-- Whether the next character that is no blank belongs to a template that began before. -/
def entersTemplate (rs : List (Char × Role)) : Bool :=
  (solids rs).head?.any fun x => x.2 == .inTemplate

/-- For each line feed, whether a template goes on behind it. -/
def templateFeeds : List (Char × Role) → List Bool
  | [] => []
  | (c, _) :: rs => if c = '\n' then entersTemplate rs :: templateFeeds rs else templateFeeds rs

/-- For each line, whether it begins in a template by the roles of its characters. -/
def roleFlags (rs : List (Char × Role)) : List Bool := entersTemplate rs :: templateFeeds rs

theorem Fresh.entersTemplate_eq {rs : List (Char × Role)} (h : Fresh rs) : entersTemplate rs = false := by
  rw [entersTemplate, Option.any_eq_false]
  intro x front
  simpa using (h x front).1

theorem entersTemplate_cons (c : Char) (role : Role) (rs : List (Char × Role)) :
    entersTemplate ((c, role) :: rs) = if isBlank c then entersTemplate rs else role == .inTemplate := by
  cases blank : isBlank c with
  | true => rw [entersTemplate, solids_cons_of_blank blank, if_pos rfl, entersTemplate]
  | false =>
    rw [entersTemplate, solids_cons_of_solid blank]
    rfl

theorem entersTemplate_roles {cs : List Char} (solid : ∃ c ∈ cs, isBlank c = false) (role : Role)
    (rs : List (Char × Role)) : entersTemplate (roles role cs ++ rs) = (role == .inTemplate) := by
  induction cs with
  | nil => simp at solid
  | cons c cs ih =>
    have shown : roles role (c :: cs) ++ rs = (c, role) :: (roles role cs ++ rs) := rfl
    rw [shown, entersTemplate_cons]
    cases blank : isBlank c with
    | true => exact ih (by simpa [blank] using solid)
    | false => rfl

theorem templateFeeds_roles {role : Role} {flag : Bool} {cs : List Char} {rs : List (Char × Role)}
    (next : ∀ before after, cs = before ++ '\n' :: after → entersTemplate (roles role after ++ rs) = flag) :
    templateFeeds (roles role cs ++ rs) = List.replicate (cs.count '\n') flag ++ templateFeeds rs := by
  induction cs with
  | nil => rfl
  | cons c cs ih =>
    have later := ih fun before after split => next (c :: before) after (by rw [split, List.cons_append])
    have shown : roles role (c :: cs) ++ rs = (c, role) :: (roles role cs ++ rs) := rfl
    rw [shown, templateFeeds]
    by_cases feed : c = '\n'
    · subst feed
      rw [if_pos rfl, next [] cs rfl, later, List.count_cons_self, List.replicate_succ, List.cons_append]
    · rw [if_neg feed, later, List.count_cons_of_ne feed]

theorem length_roleFlags (rs : List (Char × Role)) :
    (roleFlags rs).length = (splitLines (rs.map Prod.fst)).length := by
  rw [roleFlags, List.length_cons, length_split, Nat.add_right_cancel_iff]
  induction rs with
  | nil => rfl
  | cons x rs ih =>
    obtain ⟨c, role⟩ := x
    by_cases feed : c = '\n' <;> simp [templateFeeds, feed, ih]

theorem templateFeeds_plain {rs : List (Char × Role)} (h : Fresh rs) (cs : List Char) :
    templateFeeds (roles .plain cs ++ rs) = List.replicate (cs.count '\n') false ++ templateFeeds rs :=
  templateFeeds_roles fun _ after _ => (h.plain after).entersTemplate_eq

theorem templateFeeds_token (l : Lexeme) {cs : List Char} (solid : Solidly cs) (rs : List (Char × Role)) :
    templateFeeds (tokenRoles l cs ++ rs) =
      List.replicate (cs.count '\n') (laterRole l == .inTemplate) ++ templateFeeds rs := by
  cases cs with
  | nil => rfl
  | cons c cs =>
    have ne : c ≠ '\n' := by
      rintro rfl
      exact absurd (solid.1 _ rfl) (by decide)
    rw [tokenRoles, List.cons_append, templateFeeds, if_neg ne, List.count_cons_of_ne ne]
    refine templateFeeds_roles fun before after split => entersTemplate_roles ?_ _ rs
    have ends := solid.2
    rw [split, ← List.cons_append, List.getLast?_append] at ends
    cases last : after.getLast? with
    | none =>
      rw [List.getLast?_eq_none_iff.mp last] at ends
      exact absurd (ends '\n' rfl) (by decide)
    | some d =>
      refine ⟨d, List.mem_of_getLast? last, ends d ?_⟩
      rw [List.getLast?_cons, last]
      rfl

theorem templateFeeds_pieces {rs : List (Char × Role)} (h : Fresh rs) {write : Passage → List Char}
    {ps : List Piece} (solid : ∀ p ∈ ps, Solidly (write p.passage)) :
    templateFeeds (pieceRoles write ps ++ rs) = (ps.flatMap fun p => List.replicate (p.gap.count '\n') false ++
      List.replicate ((write p.passage).count '\n') (laterRole p.passage.token.lexeme == .inTemplate)) ++
      templateFeeds rs := by
  induction ps with
  | nil => rfl
  | cons p ps ih =>
    rw [List.forall_mem_cons] at solid
    have fresh : Fresh (tokenRoles p.passage.token.lexeme (write p.passage) ++ (pieceRoles write ps ++ rs)) :=
      (h.pieces solid.2).token _ solid.1.1
    rw [pieceRoles_cons, List.append_assoc, List.append_assoc, templateFeeds_plain fresh,
      templateFeeds_token _ solid.1, ih solid.2, List.flatMap_cons]
    simp only [List.append_assoc]

/-- The strings of a text, each without its blanks, read off the characters that are no blanks. -/
def quoted : List (Char × Role) → List (List Char)
  | [] => []
  | (c, role) :: rs =>
    if role = .opensString then
      (c :: (rs.takeWhile fun x => x.2 == .inString).map Prod.fst) :: quoted rs
    else quoted rs

theorem quoted_roles {role : Role} (ne : role ≠ .opensString) (cs : List Char) (rs : List (Char × Role)) :
    quoted (roles role cs ++ rs) = quoted rs := by
  induction cs with
  | nil => rfl
  | cons c cs ih =>
    have shown : roles role (c :: cs) ++ rs = (c, role) :: (roles role cs ++ rs) := rfl
    rw [shown, quoted, if_neg ne, ih]

def solidString? (write : Passage → List Char) (p : Passage) : Option (List Char) :=
  p.string?.map fun _ => (write p).filter (!isBlank ·)

theorem lexeme_of_string? {p : Passage} (string : p.string?.isSome = true) :
    ∃ value, p.token.lexeme = .string value := by
  unfold Passage.string? at string
  split at string
  · next value lexeme => exact ⟨value, lexeme⟩
  · cases string

private theorem takeWhile_inString {rs : List (Char × Role)} (h : Fresh rs) (cs : List Char) :
    (roles .inString cs ++ solids rs).takeWhile (fun x => x.2 == .inString) = roles .inString cs := by
  have stops : (solids rs).takeWhile (fun x => x.2 == .inString) = [] := by
    cases front : solids rs with
    | nil => rfl
    | cons x xs =>
      have other := (h x (by rw [front]; rfl)).2
      exact List.takeWhile_cons_of_neg (by simpa using other)
  rw [List.takeWhile_append_of_pos, stops, List.append_nil]
  intro x mem
  obtain ⟨c, -, rfl⟩ := List.mem_map.mp mem
  rfl

theorem quoted_token {write : Passage → List Char} {p : Passage} (solid : Solidly (write p))
    (ne : p.string?.isSome = true → write p ≠ []) {rs : List (Char × Role)} (h : Fresh rs) :
    quoted (solids (tokenRoles p.token.lexeme (write p) ++ rs)) =
      (solidString? write p).toList ++ quoted (solids rs) := by
  unfold solidString?
  generalize write p = cs at solid ne
  cases cs with
  | nil =>
    have none : p.string? = none := Option.not_isSome_iff_eq_none.mp fun string => ne string rfl
    rw [none]
    rfl
  | cons c cs =>
    have first := solid.1 c rfl
    rw [tokenRoles, List.cons_append, solids_cons_of_solid first, solids_append, solids_roles, quoted]
    by_cases string : p.string?.isSome = true
    · obtain ⟨value, lexeme⟩ := lexeme_of_string? string
      have found : p.string? = some p.token.span := by rw [Passage.string?, lexeme]
      rw [lexeme, found, firstRole, if_pos rfl, laterRole, takeWhile_inString h, map_fst_roles,
        quoted_roles (by decide), List.filter_cons_of_pos (by simp [first])]
      rfl
    · have other : firstRole p.token.lexeme ≠ .opensString ∧ laterRole p.token.lexeme ≠ .opensString := by
        cases lexeme : p.token.lexeme with
        | string value => exact absurd (by rw [Passage.string?, lexeme]; rfl) string
        | _ => exact ⟨by simp [firstRole], by simp [laterRole]⟩
      rw [Option.not_isSome_iff_eq_none.mp string, if_neg other.1, quoted_roles other.2]
      rfl

theorem quoted_pieces {write : Passage → List Char} {ps : List Piece}
    (solid : ∀ p ∈ ps, Solidly (write p.passage))
    (ne : ∀ p ∈ ps, p.passage.string?.isSome = true → write p.passage ≠ [])
    {rs : List (Char × Role)} (h : Fresh rs) :
    quoted (solids (pieceRoles write ps ++ rs)) =
      (ps.map Piece.passage).filterMap (solidString? write) ++ quoted (solids rs) := by
  induction ps with
  | nil => rfl
  | cons p ps ih =>
    rw [List.forall_mem_cons] at solid ne
    rw [pieceRoles_cons, List.append_assoc, List.append_assoc, solids_append, solids_roles,
      quoted_roles (by decide), quoted_token solid.1 ne.1 (h.pieces solid.2), ih solid.2 ne.2, List.map_cons,
      List.filterMap_cons]
    cases solidString? write p.passage <;> rfl

section

variable {text : List Char} {passed : List Passage} {f : Facts} {write : Passage → List Char}

/-- A way to write tokens that keeps their line feeds: no token starts or ends with a blank, and no string is
dropped. -/
structure SolidWriting (write : Passage → List Char) (ps : List Piece) : Prop where
  solid : ∀ p ∈ ps, Solidly (write p.passage)
  count : ∀ p ∈ ps, (write p.passage).count '\n' = p.passage.taken.count '\n'
  ne : ∀ p ∈ ps, p.passage.string?.isSome = true → write p.passage ≠ []

theorem solidWriting_taken (d : Dissection text passed) : SolidWriting Passage.taken d.pieces := by
  obtain ⟨stop, laid⟩ := d.laid
  have pieces : ∀ p ∈ d.pieces, ∃ n, p.At n := fun p hp => laid.exists_at hp
  refine ⟨fun p hp => ?_, fun _ _ => rfl, fun p hp _ => ?_⟩ <;> obtain ⟨n, here⟩ := pieces p hp
  · exact ⟨here.first, here.last⟩
  · exact here.ne_nil

theorem solidWriting_styled (d : Dissection text passed) (t : Tree) :
    SolidWriting (styled text t) d.pieces := by
  obtain ⟨stop, laid⟩ := d.laid
  have pieces : ∀ p ∈ d.pieces, ∃ n, p.At n := fun p hp => laid.exists_at hp
  refine ⟨fun p hp => ?_, fun p hp => ?_, fun p hp string => ?_⟩ <;> obtain ⟨n, here⟩ := pieces p hp
  · exact solidly_styled here
  · exact count_styled here
  · obtain ⟨value, lexeme⟩ := lexeme_of_string? string
    have spelled := here.spelled
    rw [lexeme] at spelled
    obtain ⟨quote, body, -, same, -⟩ := spells_restyle spelled
    rw [styled, lexeme]
    dsimp only
    rw [same]
    exact List.cons_ne_nil _ _

theorem fresh_rolesFrom (d : Dissection text passed) (writes : SolidWriting write d.pieces) :
    Fresh (rolesFrom write 0 text passed) := by
  rw [rolesFrom_eq d]
  exact ((fresh_roles d.tail).pieces writes.solid).plain d.head

theorem inTemplate_token (templates : f.templates = passed.filterMap Passage.chunk?)
    (d : Dissection text passed) {p : Piece} (hp : p ∈ d.pieces) {o : Nat}
    (feed : o ∈ Facts.lineFeeds p.passage.token.span.start p.passage.taken) :
    f.inTemplate o = (laterRole p.passage.token.lexeme == .inTemplate) := by
  obtain ⟨stop, laid⟩ := d.laid
  obtain ⟨k, here⟩ := laid.exists_at hp
  have mem : p.passage ∈ passed := d.passages ▸ List.mem_map_of_mem hp
  by_cases string : p.passage.string?.isSome = true
  · obtain ⟨value, lexeme⟩ := lexeme_of_string? string
    have bounds := bounds_of_mem_lineFeeds feed
    have stops := here.stop
    rw [lexeme]
    refine inTemplate_eq_false templates fun q hq chunk => ?_
    rcases tokens_apart d hp hq with rfl | before | behind
    · rw [Passage.chunk?, lexeme] at chunk
      cases chunk
    · omega
    · omega
  · have inLine : p.passage.string?.isSome = true → '\n' ∉ p.passage.taken := fun is => absurd is string
    obtain ⟨raw, isLast, isValid, lexeme⟩ := template_of_feed here inLine (mem_of_mem_lineFeeds feed)
    rw [inTemplate_eq_true templates here mem inLine feed, lexeme]
    rfl

theorem templateLines_eq_roles (templates : f.templates = passed.filterMap Passage.chunk?)
    (d : Dissection text passed) (writes : SolidWriting write d.pieces) :
    f.templateLines text = roleFlags (rolesFrom write 0 text passed) := by
  have last : templateFeeds (roles .plain d.tail) = List.replicate (d.tail.count '\n') false := by
    have ends := templateFeeds_plain fresh_nil d.tail
    rwa [List.append_nil, templateFeeds, List.append_nil] at ends
  have tokens : (d.pieces.flatMap fun p => List.replicate (p.gap.count '\n') false ++
      List.replicate ((write p.passage).count '\n') (laterRole p.passage.token.lexeme == .inTemplate)) =
      d.pieces.flatMap fun p => List.replicate (p.gap.count '\n') false ++
        List.replicate (p.passage.taken.count '\n') (laterRole p.passage.token.lexeme == .inTemplate) :=
    List.flatMap_congr fun p hp => by rw [writes.count p hp]
  rw [templateLines_of_tokens (fun p => laterRole p.token.lexeme == .inTemplate) templates d
    fun p hp o feed => inTemplate_token templates d hp feed, roleFlags,
    (fresh_rolesFrom d writes).entersTemplate_eq, rolesFrom_eq d,
    templateFeeds_plain ((fresh_roles d.tail).pieces writes.solid),
    templateFeeds_pieces (fresh_roles d.tail) writes.solid, last, tokens]

theorem quoted_rolesFrom (d : Dissection text passed) (writes : SolidWriting write d.pieces) :
    quoted (solids (rolesFrom write 0 text passed)) = passed.filterMap (solidString? write) := by
  have last : quoted (solids (roles .plain d.tail)) = [] := by
    have ends := quoted_roles (show Role.plain ≠ .opensString by decide) (d.tail.filter (!isBlank ·)) []
    rwa [List.append_nil, ← solids_roles, quoted] at ends
  rw [rolesFrom_eq d, solids_append, solids_roles, quoted_roles (by decide),
    quoted_pieces writes.solid writes.ne (fresh_roles d.tail), last, List.append_nil, d.passages]

end

end VueOptions.Layout
