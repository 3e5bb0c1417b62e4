import Mathlib.Data.List.Induction
import VueOptions.Project.Batch
import VueOptions.Proofs.Project.Places

/-!
What patterns name. The files that are found are put in order, and a file that is listed already is not
listed again; so the files of a job come in strict order (`ascending_of_inputs`), and leaving some names
out before the listing or after it is the same (`filter_listed`). A job fails exactly at the first
pattern that cannot be read (`run_eq_error_iff`).
-/

set_option autoImplicit false

namespace VueOptions.Project

namespace PathComponent

private theorem order_eq_iff {a b : PathComponent} : order a b = .eq ↔ a = b := by
  cases a <;> cases b <;> simp [order, rank]

private theorem order_gt_iff {a b : PathComponent} : order a b = .gt ↔ order b a = .lt := by
  cases a <;> cases b <;> simp [order, rank, Std.OrientedCmp.gt_iff_lt, Nat.compare_eq_lt]

private theorem order_lt_trans {a b c : PathComponent} (first : order a b = .lt) (second : order b c = .lt) :
    order a c = .lt := by
  cases a <;> cases b <;> cases c <;> simp_all [order, rank, Nat.compare_eq_lt]
  exact Std.TransCmp.lt_trans first second

theorem orderAll_eq_iff {as bs : List PathComponent} : orderAll as bs = .eq ↔ as = bs := by
  induction as generalizing bs with
  | nil => cases bs <;> simp [orderAll]
  | cons a as ih =>
    cases bs with
    | nil => simp [orderAll]
    | cons b bs =>
      rw [orderAll, List.cons.injEq, ← ih, ← order_eq_iff]
      cases order a b <;> simp

private theorem orderAll_gt_iff {as bs : List PathComponent} : orderAll as bs = .gt ↔ orderAll bs as = .lt := by
  induction as generalizing bs with
  | nil => cases bs <;> simp [orderAll]
  | cons a as ih =>
    cases bs with
    | nil => simp [orderAll]
    | cons b bs =>
      rw [orderAll, orderAll]
      cases here : order a b with
      | lt =>
        have back : order b a = .gt := order_gt_iff.mpr here
        simp [back]
      | eq =>
        obtain rfl := order_eq_iff.mp here
        simpa [here] using ih
      | gt =>
        have back : order b a = .lt := order_gt_iff.mp here
        simp [back]

private theorem orderAll_lt_trans {as bs cs : List PathComponent} (first : orderAll as bs = .lt)
    (second : orderAll bs cs = .lt) : orderAll as cs = .lt := by
  induction as generalizing bs cs with
  | nil =>
    cases cs with
    | nil => cases bs <;> cases second
    | cons c cs => rfl
  | cons a as ih =>
    cases bs with
    | nil => cases first
    | cons b bs =>
      cases cs with
      | nil => cases second
      | cons c cs =>
        rw [orderAll] at first second ⊢
        cases ab : order a b with
        | gt => simp [ab] at first
        | eq =>
          obtain rfl := order_eq_iff.mp ab
          rw [ab] at first
          cases ac : order a c with
          | gt => simp [ac] at second
          | lt => rfl
          | eq =>
            rw [ac] at second
            exact ih first second
        | lt =>
          cases bc : order b c with
          | gt => simp [bc] at second
          | eq =>
            obtain rfl := order_eq_iff.mp bc
            rw [ab]
          | lt => rw [order_lt_trans ab bc]

end PathComponent

/-- Paths in the order of their components, no two of them with the same ones. -/
def Ascending (ps : List Path) : Prop := ps.Pairwise fun p q => p.order q = .lt

namespace Path

private theorem mem_insert {p q : Path} {ps : List Path} (mem : q ∈ p.insert ps) : q = p ∨ q ∈ ps := by
  induction ps with
  | nil => exact .inl (List.mem_singleton.mp mem)
  | cons r ps ih =>
    rw [insert] at mem
    cases place : p.order r with
    | lt =>
      rw [place] at mem
      exact List.mem_cons.mp mem
    | eq =>
      rw [place] at mem
      exact .inr mem
    | gt =>
      rw [place] at mem
      rcases List.mem_cons.mp mem with rfl | later
      · exact .inr List.mem_cons_self
      · rcases ih later with here | there
        · exact .inl here
        · exact .inr (List.mem_cons_of_mem r there)

private theorem exists_mem_insert (p : Path) (ps : List Path) :
    (∃ q ∈ p.insert ps, q.components = p.components) ∧ ∀ q ∈ ps, q ∈ p.insert ps := by
  induction ps with
  | nil => exact ⟨⟨p, List.mem_singleton_self p, rfl⟩, fun q mem => absurd mem List.not_mem_nil⟩
  | cons r ps ih =>
    rw [insert]
    cases place : p.order r with
    | lt => exact ⟨⟨p, List.mem_cons_self, rfl⟩, fun q mem => List.mem_cons_of_mem p mem⟩
    | eq => exact ⟨⟨r, List.mem_cons_self, (PathComponent.orderAll_eq_iff.mp place).symm⟩, fun q mem => mem⟩
    | gt =>
      obtain ⟨⟨q, found, same⟩, kept⟩ := ih
      refine ⟨⟨q, List.mem_cons_of_mem r found, same⟩, fun q mem => ?_⟩
      rcases List.mem_cons.mp mem with rfl | later
      · exact List.mem_cons_self
      · exact List.mem_cons_of_mem r (kept q later)

private theorem ascending_insert {p : Path} {ps : List Path} (ascending : Ascending ps) :
    Ascending (p.insert ps) := by
  induction ps with
  | nil => exact List.pairwise_singleton _ _
  | cons q ps ih =>
    obtain ⟨first, rest⟩ := List.pairwise_cons.mp ascending
    rw [insert]
    cases place : p.order q with
    | lt =>
      refine List.pairwise_cons.mpr ⟨fun r mem => ?_, ascending⟩
      rcases List.mem_cons.mp mem with rfl | later
      · exact place
      · exact PathComponent.orderAll_lt_trans place (first r later)
    | eq => exact ascending
    | gt =>
      refine List.pairwise_cons.mpr ⟨fun r mem => ?_, ih rest⟩
      rcases mem_insert mem with rfl | later
      · exact PathComponent.orderAll_gt_iff.mp place
      · exact first r later

private theorem insert_of_lt {p : Path} {ps : List Path} (before : ∀ q ∈ ps, p.order q = .lt) :
    p.insert ps = p :: ps := by
  cases ps with
  | nil => rfl
  | cons q ps => rw [insert, before q List.mem_cons_self]

private theorem filter_insert {keep : Path → Bool} (respects : ∀ p q : Path, p.order q = .eq → keep p = keep q)
    (p : Path) {ps : List Path} (ascending : Ascending ps) :
    (p.insert ps).filter keep = if keep p then p.insert (ps.filter keep) else ps.filter keep := by
  induction ps with
  | nil =>
    cases kept : keep p <;> simp [insert, kept]
  | cons q ps ih =>
    obtain ⟨first, rest⟩ := List.pairwise_cons.mp ascending
    rw [insert]
    cases place : p.order q with
    | lt =>
      have before : ∀ r ∈ (q :: ps).filter keep, p.order r = .lt := by
        intro r mem
        rcases List.mem_cons.mp (List.mem_of_mem_filter mem) with rfl | later
        · exact place
        · exact PathComponent.orderAll_lt_trans place (first r later)
      rw [insert_of_lt before, List.filter_cons]
    | eq =>
      have same := respects p q place
      cases kept : keep q with
      | false => simp [same, kept]
      | true => simp [same, kept, insert, place]
    | gt =>
      have later := ih rest
      cases kept : keep q with
      | false => simpa [kept] using later
      | true =>
        cases keptHere : keep p with
        | false => simpa [kept, keptHere] using later
        | true => simpa [kept, keptHere, insert, place] using later

end Path

/-- Paths in order, each once, as it is first spelled. -/
def listed (ps : List Path) : List Path := ps.foldl (fun found p => p.insert found) []

private theorem listed_append_singleton (ps : List Path) (p : Path) : listed (ps ++ [p]) = p.insert (listed ps) := by
  simp [listed]

theorem mem_of_mem_listed {ps : List Path} {p : Path} (mem : p ∈ listed ps) : p ∈ ps := by
  induction ps using List.reverseRecOn with
  | nil => cases mem
  | append_singleton ps q ih =>
    rw [listed_append_singleton] at mem
    rcases Path.mem_insert mem with rfl | old
    · simp
    · exact List.mem_append_left _ (ih old)

theorem exists_mem_listed {ps : List Path} {p : Path} (mem : p ∈ ps) :
    ∃ q ∈ listed ps, q.components = p.components := by
  induction ps using List.reverseRecOn with
  | nil => cases mem
  | append_singleton ps r ih =>
    rw [listed_append_singleton]
    obtain ⟨new, kept⟩ := Path.exists_mem_insert r (listed ps)
    rcases List.mem_append.mp mem with old | last
    · obtain ⟨q, found, same⟩ := ih old
      exact ⟨q, kept q found, same⟩
    · rw [List.mem_singleton.mp last]
      exact new

theorem ascending_listed (ps : List Path) : Ascending (listed ps) := by
  induction ps using List.reverseRecOn with
  | nil => exact .nil
  | append_singleton ps p ih =>
    rw [listed_append_singleton]
    exact Path.ascending_insert ih

theorem filter_listed {keep : Path → Bool} (respects : ∀ p q : Path, p.order q = .eq → keep p = keep q)
    (ps : List Path) : (listed ps).filter keep = listed (ps.filter keep) := by
  induction ps using List.reverseRecOn with
  | nil => rfl
  | append_singleton ps p ih =>
    rw [listed_append_singleton, Path.filter_insert respects p (ascending_listed ps), ih,
      List.filter_append]
    cases kept : keep p with
    | false => simp [kept]
    | true => simp [kept, listed_append_singleton]

theorem discover_eq (t : FileTree) (patterns : List String) :
    discover t patterns = (patterns.mapM (named t)).map fun lists => listed lists.flatten := by
  have run : ∀ found : List Path, patterns.foldlM (fun found pattern => do
      let more ← named t pattern
      pure (more.foldl (fun found p => p.insert found) found)) found =
        (patterns.mapM (named t)).map fun lists =>
          lists.flatten.foldl (fun found p => p.insert found) found := by
    induction patterns with
    | nil => exact fun found => rfl
    | cons pattern patterns ih =>
      intro found
      rw [List.foldlM_cons, List.mapM_cons]
      cases first : named t pattern with
      | error e => rfl
      | ok more =>
        have later := ih (more.foldl (fun found p => p.insert found) found)
        simp only [bind, Except.bind, pure, Except.pure] at later ⊢
        rw [later]
        cases patterns.mapM (named t) with
        | error e => rfl
        | ok lists => simp [Except.map]
  exact run []

theorem inputs_eq_ok_iff {j : Job} {t : FileTree} {inputs : List Path} :
    j.inputs t = .ok inputs ↔ ∃ lists, j.patterns.mapM (named t) = .ok lists ∧
      inputs = (listed lists.flatten).filter fun p => !j.passesOver p := by
  rw [Job.inputs, discover_eq]
  cases j.patterns.mapM (named t) with
  | error e => simp [Except.map]
  | ok lists => simp [Except.map, eq_comm]

theorem ascending_of_inputs {j : Job} {t : FileTree} {inputs : List Path} (found : j.inputs t = .ok inputs) :
    Ascending inputs := by
  obtain ⟨lists, -, rfl⟩ := inputs_eq_ok_iff.mp found
  exact (ascending_listed _).filter _

theorem isComponent_of_named {t : FileTree} {pattern : String} {ps : List Path} (found : named t pattern = .ok ps)
    {p : Path} (mem : p ∈ ps) : t.isFile p = true ∧ p.isComponent = true := by
  have among {text : String} (match_ : matching t text = .ok ps) : t.isFile p = true ∧ p.isComponent = true := by
    unfold matching at match_
    split at match_
    · cases match_
    · obtain rfl := Except.ok.inj match_
      simpa using (List.mem_filter.mp mem).2
  unfold named at found
  dsimp only at found
  split at found
  · exact among found
  · split at found
    · next isFile =>
      obtain rfl := Except.ok.inj found
      split at mem
      · next isComponent =>
        obtain rfl := List.mem_singleton.mp mem
        exact ⟨isFile, isComponent⟩
      · cases mem
    · exact among found

theorem mapM_cons_eq_ok_iff {t : FileTree} {pattern : String} {patterns : List String} {lists : List (List Path)} :
    (pattern :: patterns).mapM (named t) = .ok lists ↔ ∃ ps later, named t pattern = .ok ps ∧
      patterns.mapM (named t) = .ok later ∧ lists = ps :: later := by
  rw [List.mapM_cons]
  cases named t pattern with
  | error e => simp [bind, Except.bind]
  | ok ps =>
    cases patterns.mapM (named t) with
    | error e => simp [bind, Except.bind]
    | ok later => simp [bind, Except.bind, pure, Except.pure, eq_comm]

theorem mem_flatten_of_mapM {t : FileTree} {patterns : List String} {lists : List (List Path)}
    (found : patterns.mapM (named t) = .ok lists) {p : Path} (mem : p ∈ lists.flatten) :
    ∃ pattern ∈ patterns, ∃ ps, named t pattern = .ok ps ∧ p ∈ ps := by
  induction patterns generalizing lists with
  | nil =>
    obtain rfl : [] = lists := Except.ok.inj found
    cases mem
  | cons pattern patterns ih =>
    obtain ⟨ps, later, first, rest, rfl⟩ := mapM_cons_eq_ok_iff.mp found
    rw [List.flatten_cons, List.mem_append] at mem
    rcases mem with here | there
    · exact ⟨pattern, List.mem_cons_self, ps, first, here⟩
    · obtain ⟨pattern', mem', rest'⟩ := ih rest there
      exact ⟨pattern', List.mem_cons_of_mem pattern mem', rest'⟩

theorem isComponent_of_inputs {j : Job} {t : FileTree} {inputs : List Path} (found : j.inputs t = .ok inputs)
    {p : Path} (mem : p ∈ inputs) :
    t.isFile p = true ∧ p.isComponent = true ∧ j.passesOver p = false := by
  obtain ⟨lists, named, rfl⟩ := inputs_eq_ok_iff.mp found
  obtain ⟨found, kept⟩ := List.mem_filter.mp mem
  obtain ⟨pattern, -, ps, names, mem⟩ := mem_flatten_of_mapM named (mem_of_mem_listed found)
  obtain ⟨isFile, isComponent⟩ := isComponent_of_named names mem
  exact ⟨isFile, isComponent, by simpa using kept⟩

/-- The text that is read as a pattern; a pattern that is the path of a file is not read as one. -/
def searched (t : FileTree) (pattern : String) : Option String :=
  if t.isDirectory ⟨pattern⟩ then some (patternBelow pattern)
  else if t.isFile ⟨pattern⟩ then none
  else some pattern

theorem named_of_searched {t : FileTree} {pattern text : String} (search : searched t pattern = some text) :
    named t pattern = matching t text := by
  unfold searched at search
  unfold named
  dsimp only
  split at search
  · next directory =>
    rw [if_pos directory, Option.some.inj search]
  · next other =>
    rw [if_neg other]
    split at search
    · cases search
    · next noFile =>
      rw [if_neg noFile, Option.some.inj search]

theorem named_of_not_searched {t : FileTree} {pattern : String} (search : searched t pattern = none) :
    named t pattern = .ok (if (Path.mk pattern).isComponent then [⟨pattern⟩] else []) := by
  unfold searched at search
  unfold named
  dsimp only
  split at search
  · cases search
  · next other =>
    split at search
    · next isFile => rw [if_neg other, if_pos isFile]
    · cases search

theorem matching_eq_error_iff {t : FileTree} {text : String} {e : PatternFault} :
    matching t text = .error e ↔ e.pattern = text ∧ Pattern.parse? text = none := by
  obtain ⟨pattern⟩ := e
  unfold matching
  cases Pattern.parse? text with
  | none =>
    simp only [Except.error.injEq, PatternFault.mk.injEq, and_true]
    exact eq_comm
  | some q => simp

def IsFaulty (t : FileTree) (pattern text : String) : Prop :=
  searched t pattern = some text ∧ Pattern.parse? text = none

private theorem named_eq_error_iff {t : FileTree} {pattern : String} {e : PatternFault} :
    named t pattern = .error e ↔ IsFaulty t pattern e.pattern := by
  rw [IsFaulty]
  cases search : searched t pattern with
  | none => simp [named_of_not_searched search]
  | some text =>
    rw [named_of_searched search, matching_eq_error_iff]
    constructor
    · rintro ⟨same, fault⟩
      exact ⟨by rw [same], by rw [same]; exact fault⟩
    · rintro ⟨same, fault⟩
      obtain rfl := Option.some.inj same
      exact ⟨rfl, fault⟩

def IsFirstFault (t : FileTree) (patterns : List String) (e : PatternFault) : Prop :=
  ∃ before pattern after, patterns = before ++ pattern :: after ∧
    (∀ earlier ∈ before, ∀ text, ¬IsFaulty t earlier text) ∧ IsFaulty t pattern e.pattern

private theorem isFirstFault_cons_iff {t : FileTree} {pattern : String} {patterns : List String} {e : PatternFault} :
    IsFirstFault t (pattern :: patterns) e ↔ IsFaulty t pattern e.pattern ∨
      (∀ text, ¬IsFaulty t pattern text) ∧ IsFirstFault t patterns e := by
  constructor
  · rintro ⟨before, faulty, after, split, clean, fault⟩
    cases before with
    | nil =>
      obtain ⟨rfl, -⟩ := List.cons.inj split
      exact .inl fault
    | cons first before =>
      obtain ⟨rfl, rfl⟩ := List.cons.inj split
      refine .inr ⟨clean pattern List.mem_cons_self, before, faulty, after, rfl, fun earlier mem => ?_, fault⟩
      exact clean earlier (List.mem_cons_of_mem pattern mem)
  · rintro (fault | ⟨cleanFirst, before, faulty, after, rfl, clean, fault⟩)
    · exact ⟨[], pattern, patterns, rfl, by simp, fault⟩
    · refine ⟨pattern :: before, faulty, after, rfl, fun earlier mem => ?_, fault⟩
      rcases List.mem_cons.mp mem with rfl | old
      · exact cleanFirst
      · exact clean earlier old

private theorem mapM_eq_error_iff {t : FileTree} {patterns : List String} {e : PatternFault} :
    patterns.mapM (named t) = .error e ↔ IsFirstFault t patterns e := by
  induction patterns with
  | nil => simp [IsFirstFault, pure, Except.pure]
  | cons pattern patterns ih =>
    rw [isFirstFault_cons_iff, ← ih, ← named_eq_error_iff, List.mapM_cons]
    cases here : named t pattern with
    | error f =>
      have faulty : IsFaulty t pattern f.pattern := named_eq_error_iff.mp here
      have unclean : ¬∀ text, ¬IsFaulty t pattern text := fun clean => clean f.pattern faulty
      simp [bind, Except.bind, unclean]
    | ok ps =>
      have clean : ∀ text, ¬IsFaulty t pattern text := by
        intro text fault
        have error : named t pattern = .error ⟨text⟩ := named_eq_error_iff.mpr fault
        rw [here] at error
        cases error
      cases patterns.mapM (named t) <;> simp [bind, Except.bind, pure, Except.pure, clean]

theorem run_eq_error_iff {j : Job} {l : Linter} {t : FileTree} {e : PatternFault} :
    j.run l t = .error e ↔ IsFirstFault t j.patterns e := by
  rw [← mapM_eq_error_iff, Job.run, Job.inputs, discover_eq]
  cases j.patterns.mapM (named t) <;> simp [Except.map]

theorem run_eq_ok_iff {j : Job} {l : Linter} {t : FileTree} {b : Batch} :
    j.run l t = .ok b ↔ ∃ inputs, j.inputs t = .ok inputs ∧
      b = (Batch.ofInputs j l t inputs).withOutputsLinted := by
  rw [Job.run]
  cases j.inputs t with
  | error e => simp [Except.map]
  | ok inputs => simp [Except.map, eq_comm]

end VueOptions.Project
