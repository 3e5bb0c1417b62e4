import Mathlib.Logic.ExistsUnique
import VueOptions.Source.Module

/-!
What becomes of each statement of a module. A statement is an import, declares a class that may be a
component, exports nothing but such classes, or is one of the rest; every statement falls in exactly one
group (`existsUnique_group`). Which local name a specifier stands for is told in one of two ways (`Naming`):
by the binding, where an escape in an identifier stands for a character, or by the spelling in the text. The
two agree as far as no specifier is spelled with an escape (`carriedStatements_congr`).
-/

set_option autoImplicit false

namespace VueOptions.Source

open Script

/-- A name in the braces of an export: the local name that it stands for, and the whole of it. -/
structure Specifier where
  name : Tree
  whole : Tree

def Specifier.ofTree? (t : Tree) : Option Specifier :=
  match t.kind, t.children with
  | .exportSpecifier _, name :: _ => some ⟨name, t⟩
  | _, _ => none

def ownSpecifiers? (t : Tree) : Option (List Specifier) :=
  match t.kind with
  | .exportNames _ =>
    if (StatementForm.sourceOf? t.children).isSome then none
    else some (t.children.filterMap Specifier.ofTree?)
  | _ => none

def importSource? (t : Tree) : Option String :=
  match t.kind with
  | .importDeclaration _ => some ((StatementForm.sourceOf? t.children).getD "")
  | _ => none

def defaultName? : Tree → Option String
  | .node .exportDefault _ [.node (.identifier name) _ _] => some name
  | _ => none

def declaredClass? : Tree → Option Tree
  | .node (.classNode modifiers) span parts => some (.node (.classNode modifiers) span parts)
  | .node .exportDeclaration _ [.node (.classNode modifiers) span parts] =>
    some (.node (.classNode modifiers) span parts)
  | .node .exportDefault _ [.node (.classNode modifiers) span parts] =>
    some (.node (.classNode modifiers) span parts)
  | _ => none

/-- What a statement takes part in: its source if it is an import, the class that it declares, the name
that it exports as the default, and the specifiers that it exports. -/
structure Profile where
  imports : Option String
  declares : Option Tree
  default : Option String
  exports : Option (List Specifier)

def Profile.ofTree (t : Tree) : Profile :=
  ⟨importSource? t, declaredClass? t, defaultName? t, ownSpecifiers? t⟩

def declarationOf : Tree → Tree
  | .node .exportDeclaration _ [d] => d
  | t => t

def carriedKind (t : Tree) : CarriedKind :=
  match (declarationOf t).kind with
  | .typeAlias _ => .typeAlias
  | .interfaceDeclaration _ => .interface
  | _ => .other

def Specifier.exported (source : List Char) (s : Specifier) : ExportedName :=
  ⟨s.name.span.text source, s.whole.span.text source⟩

def StatementForm.plainKind? : StatementForm → Option CarriedKind
  | .typeAlias => some .typeAlias
  | .interface => some .interface
  | .exportNames true _ => some .other
  | .other => some .other
  | _ => none

/-- What the form of a statement says about its profile: a statement takes part in at most one thing. -/
inductive Shows (source : List Char) (t : Tree) : StatementForm → Prop
  | imports {path : String} (profile : Profile.ofTree t = ⟨some path, none, none, none⟩) :
    Shows source t (.importing path)
  | declares {c : Tree} (profile : Profile.ofTree t = ⟨none, some c, none, none⟩)
    (kind : carriedKind t = .other) : Shows source t (.classLike (ClassDeclaration.ofTree source c))
  | default {name : String} (profile : Profile.ofTree t = ⟨none, none, some name, none⟩)
    (kind : carriedKind t = .other) : Shows source t (.exportDefaultName name)
  | exports {specifiers : List Specifier}
    (profile : Profile.ofTree t = ⟨none, none, none, some specifiers⟩)
    (kind : carriedKind t = .other) :
    Shows source t (.exportNames false (specifiers.map (Specifier.exported source)))
  | plain {form : StatementForm} (profile : Profile.ofTree t = ⟨none, none, none, none⟩)
    (kind : form.plainKind? = some (carriedKind t)) : Shows source t form

private theorem namesOf_eq (source : List Char) (parts : List Tree) :
    StatementForm.namesOf source parts =
      (parts.filterMap Specifier.ofTree?).map (Specifier.exported source) := by
  rw [List.map_filterMap, StatementForm.namesOf]
  refine congrArg (parts.filterMap ·) (funext fun t => ?_)
  obtain ⟨kind, span, below⟩ := t
  cases kind with
  | exportSpecifier isType => cases below <;> rfl
  | _ => rfl

theorem shows_ofTree (source : List Char) (t : Tree) : Shows source t (StatementForm.ofTree source t) := by
  obtain ⟨kind, span, parts⟩ := t
  cases kind with
  | importDeclaration isType => exact .imports rfl
  | classNode modifiers => exact .declares rfl rfl
  | exportDeclaration =>
    rcases parts with _ | ⟨⟨kind, span', parts⟩, _ | ⟨e, more⟩⟩
    · exact .plain rfl rfl
    · cases kind with
      | classNode modifiers => exact .declares rfl rfl
      | _ => exact .plain rfl rfl
    · cases kind <;> exact .plain rfl rfl
  | exportDefault =>
    rcases parts with _ | ⟨⟨kind, span', parts⟩, _ | ⟨e, more⟩⟩
    · exact .plain rfl rfl
    · cases kind with
      | classNode modifiers => exact .declares rfl rfl
      | identifier name => exact .default rfl rfl
      | _ => exact .plain rfl rfl
    · cases kind <;> exact .plain rfl rfl
  | exportNames isType =>
    have form : StatementForm.ofTree source (.node (.exportNames isType) span parts) =
        .exportNames (StatementForm.sourceOf? parts).isSome (StatementForm.namesOf source parts) := rfl
    have own : ownSpecifiers? (.node (.exportNames isType) span parts) =
        if (StatementForm.sourceOf? parts).isSome then none
        else some (parts.filterMap Specifier.ofTree?) := rfl
    rw [form, namesOf_eq]
    cases hasSource : (StatementForm.sourceOf? parts).isSome with
    | true => exact .plain (by rw [Profile.ofTree, own, hasSource]; rfl) rfl
    | false => exact .exports (by rw [Profile.ofTree, own, hasSource]; rfl) rfl
  | _ => exact .plain rfl rfl

/-- The header of the class that a statement declares, if that may be a component. -/
def candidate? (source : List Char) (t : Tree) : Option ClassHeader :=
  ((declaredClass? t).map fun c => ClassHeader.ofParts source c.children).filter
    ClassHeader.isCandidate

def componentNames (source : List Char) (ts : List Tree) : List String :=
  (ts.filterMap (candidate? source)).filterMap ClassHeader.name

/-- How the local name of a specifier is told. -/
abbrev Naming := Tree → Option String

def Naming.binding : Naming := fun t =>
  match t.kind with
  | .identifier name => some name
  | _ => none

def Naming.spelling (source : List Char) : Naming := fun t => some (t.span.text source)

def Specifier.IsComponent (naming : Naming) (components : List String) (s : Specifier) : Prop :=
  ∃ name ∈ naming s.name, name ∈ components

instance (naming : Naming) (components : List String) (s : Specifier) :
    Decidable (s.IsComponent naming components) :=
  inferInstanceAs (Decidable (∃ _ ∈ _, _))

inductive Group
  | importing
  | declaring
  | withdrawn
  | rest
  deriving DecidableEq, Repr

def IsWithdrawn (naming : Naming) (components : List String) (t : Tree) : Prop :=
  (∃ name ∈ defaultName? t, name ∈ components) ∨
    ∃ specifiers ∈ ownSpecifiers? t,
      specifiers ≠ [] ∧ ∀ s ∈ specifiers, s.IsComponent naming components

def Group.Holds (naming : Naming) (source : List Char) (components : List String) (t : Tree) :
    Group → Prop
  | .importing => (importSource? t).isSome = true
  | .declaring => (candidate? source t).isSome = true
  | .withdrawn => IsWithdrawn naming components t
  | .rest => ¬(importSource? t).isSome = true ∧ ¬(candidate? source t).isSome = true ∧
      ¬IsWithdrawn naming components t

section

variable {naming naming' : Naming} {source : List Char} {components : List String}

instance (t : Tree) : Decidable (IsWithdrawn naming components t) :=
  inferInstanceAs (Decidable (_ ∨ ∃ _ ∈ _, _))

instance (t : Tree) (g : Group) : Decidable (g.Holds naming source components t) :=
  match g with
  | .importing | .declaring => inferInstanceAs (Decidable (_ = true))
  | .withdrawn => inferInstanceAs (Decidable (IsWithdrawn naming components t))
  | .rest => inferInstanceAs (Decidable (_ ∧ _ ∧ _))

theorem profile_exclusive (t : Tree) :
    ((importSource? t).isSome = true →
      declaredClass? t = none ∧ defaultName? t = none ∧ ownSpecifiers? t = none) ∧
    ((declaredClass? t).isSome = true → defaultName? t = none ∧ ownSpecifiers? t = none) := by
  have shows := shows_ofTree [] t
  generalize StatementForm.ofTree [] t = form at shows
  cases shows with
  | imports profile =>
    obtain ⟨imports, declares, default, exports⟩ := Profile.mk.inj profile
    exact ⟨fun _ => ⟨declares, default, exports⟩, fun _ => ⟨default, exports⟩⟩
  | declares profile =>
    obtain ⟨imports, declares, default, exports⟩ := Profile.mk.inj profile
    exact ⟨by simp [imports], fun _ => ⟨default, exports⟩⟩
  | default profile =>
    obtain ⟨imports, declares, default, exports⟩ := Profile.mk.inj profile
    exact ⟨by simp [imports], by simp [declares]⟩
  | exports profile =>
    obtain ⟨imports, declares, default, exports⟩ := Profile.mk.inj profile
    exact ⟨by simp [imports], by simp [declares]⟩
  | plain profile =>
    obtain ⟨imports, declares, default, exports⟩ := Profile.mk.inj profile
    exact ⟨by simp [imports], by simp [declares]⟩

theorem not_isWithdrawn {t : Tree} (default : defaultName? t = none) (exports : ownSpecifiers? t = none) :
    ¬IsWithdrawn naming components t := by
  simp [IsWithdrawn, default, exports]

theorem declaredClass?_of_candidate? {t : Tree} (h : (candidate? source t).isSome = true) :
    (declaredClass? t).isSome = true := by
  cases declared : declaredClass? t with
  | none => simp [candidate?, declared] at h
  | some c => rfl

theorem existsUnique_group (naming : Naming) (source : List Char) (components : List String) (t : Tree) :
    ∃! g : Group, g.Holds naming source components t := by
  obtain ⟨ofImport, ofClass⟩ := profile_exclusive t
  by_cases importing : (importSource? t).isSome = true
  · obtain ⟨declares, default, exports⟩ := ofImport importing
    refine ⟨.importing, importing, fun g holds => ?_⟩
    cases g with
    | importing => rfl
    | declaring => simp [Group.Holds, candidate?, declares] at holds
    | withdrawn => exact absurd holds (not_isWithdrawn default exports)
    | rest => exact absurd importing holds.1
  by_cases declaring : (candidate? source t).isSome = true
  · obtain ⟨default, exports⟩ := ofClass (declaredClass?_of_candidate? declaring)
    refine ⟨.declaring, declaring, fun g holds => ?_⟩
    cases g with
    | importing => exact absurd holds importing
    | declaring => rfl
    | withdrawn => exact absurd holds (not_isWithdrawn default exports)
    | rest => exact absurd declaring holds.2.1
  by_cases withdrawn : IsWithdrawn naming components t
  · refine ⟨.withdrawn, withdrawn, fun g holds => ?_⟩
    cases g with
    | importing => exact absurd holds importing
    | declaring => exact absurd holds declaring
    | withdrawn => rfl
    | rest => exact absurd withdrawn holds.2.2
  · refine ⟨.rest, ⟨importing, declaring, withdrawn⟩, fun g holds => ?_⟩
    cases g with
    | importing => exact absurd holds importing
    | declaring => exact absurd holds declaring
    | withdrawn => exact absurd holds withdrawn
    | rest => rfl

def exportList (source : List Char) (specifiers : List Specifier) : String :=
  "export \x7b " ++ ", ".intercalate (specifiers.map fun s => s.whole.span.text source) ++ " \x7d"

/-- The text that is carried over of a statement: its own, but for an export list that names some
components the list of its other specifiers. -/
def carriedText (naming : Naming) (source : List Char) (components : List String) (t : Tree) : String :=
  match ownSpecifiers? t with
  | none => t.span.text source
  | some specifiers =>
    if ∃ s ∈ specifiers, s.IsComponent naming components then
      exportList source (specifiers.filter fun s => ¬s.IsComponent naming components)
    else t.span.text source

def carriedStatements (naming : Naming) (source : List Char) (ts : List Tree) :
    List (CarriedKind × String) :=
  (ts.filter fun t => Group.rest.Holds naming source (componentNames source ts) t).map fun t =>
    (carriedKind t, carriedText naming source (componentNames source ts) t)

private theorem withoutComponents_eq (specifiers : List Specifier) (text : String) :
    Statement.withoutComponents components
        (specifiers.map (Specifier.exported source)) text =
      if specifiers ≠ [] ∧ ∀ s ∈ specifiers, s.IsComponent (.spelling source) components then none
      else if ∃ s ∈ specifiers, s.IsComponent (.spelling source) components then
        some (exportList source (specifiers.filter fun s => ¬s.IsComponent (.spelling source) components))
      else some text := by
  have kept : ((specifiers.map (Specifier.exported source)).filter fun n =>
      !components.contains n.binding) =
        (specifiers.filter fun s => ¬s.IsComponent (.spelling source) components).map
          (Specifier.exported source) := by
    rw [List.filter_map]
    congr 2
    funext s
    have same : s.IsComponent (.spelling source) components ↔ (s.exported source).binding ∈ components := by
      simp [Specifier.IsComponent, Naming.spelling, Specifier.exported]
    simp [same]
  have none_iff : (specifiers.filter fun s => ¬s.IsComponent (.spelling source) components).length =
      specifiers.length ↔ ¬∃ s ∈ specifiers, s.IsComponent (.spelling source) components := by
    rw [List.length_filter_eq_length_iff]
    simp
  have all_iff : (specifiers.filter fun s => ¬s.IsComponent (.spelling source) components).isEmpty = true ↔
      ∀ s ∈ specifiers, s.IsComponent (.spelling source) components := by
    rw [List.isEmpty_iff, List.filter_eq_nil_iff]
    simp
  rw [Statement.withoutComponents, kept, List.length_map, List.length_map, List.isEmpty_map, List.map_map]
  by_cases some : ∃ s ∈ specifiers, s.IsComponent (.spelling source) components
  · have filled : specifiers ≠ [] := by
      rintro rfl
      simp at some
    rw [if_neg (mt none_iff.mp (not_not_intro some)), if_pos some]
    by_cases all : ∀ s ∈ specifiers, s.IsComponent (.spelling source) components
    · rw [if_pos (all_iff.mpr all), if_pos ⟨filled, all⟩]
    · rw [if_neg (mt all_iff.mp all), if_neg fun h => all h.2]
      rfl
  · have left : ¬(specifiers ≠ [] ∧ ∀ s ∈ specifiers, s.IsComponent (.spelling source) components) := by
      rintro ⟨filled, all⟩
      obtain ⟨s, mem⟩ := List.exists_mem_of_ne_nil specifiers filled
      exact some ⟨s, mem, all s mem⟩
    rw [if_pos (none_iff.mpr some), if_neg left, if_neg some]

/-! The groups and what is carried over depend only on the names that specifiers stand for. -/

/-- Two ways to tell names agree on the specifiers of a statement. -/
def Naming.Agree (naming naming' : Naming) (t : Tree) : Prop :=
  ∀ specifiers ∈ ownSpecifiers? t, ∀ s ∈ specifiers, naming s.name = naming' s.name

instance (t : Tree) : Decidable (naming.Agree naming' t) :=
  inferInstanceAs (Decidable (∀ specifiers ∈ ownSpecifiers? t, ∀ s ∈ specifiers, _ = _))

theorem Specifier.isComponent_congr {s : Specifier} (same : naming s.name = naming' s.name) :
    s.IsComponent naming components ↔ s.IsComponent naming' components := by
  rw [Specifier.IsComponent, Specifier.IsComponent, same]

theorem isWithdrawn_congr {t : Tree} (agree : naming.Agree naming' t) :
    IsWithdrawn naming components t ↔ IsWithdrawn naming' components t := by
  refine or_congr_right (exists_congr fun specifiers => and_congr_right fun mem => ?_)
  exact and_congr_right fun _ => forall₂_congr fun s hs =>
    Specifier.isComponent_congr (agree specifiers mem s hs)

theorem holds_congr {t : Tree} (agree : naming.Agree naming' t) (g : Group) :
    g.Holds naming source components t ↔ g.Holds naming' source components t := by
  cases g with
  | importing | declaring => rfl
  | withdrawn => exact isWithdrawn_congr agree
  | rest => exact and_congr_right' (and_congr_right' (not_congr (isWithdrawn_congr agree)))

theorem carriedText_congr {t : Tree} (agree : naming.Agree naming' t) :
    carriedText naming source components t = carriedText naming' source components t := by
  unfold carriedText
  split
  · rfl
  · next specifiers own =>
    have same (s : Specifier) (mem : s ∈ specifiers) :
        s.IsComponent naming components ↔ s.IsComponent naming' components :=
      Specifier.isComponent_congr (agree specifiers own s mem)
    have some_iff : (∃ s ∈ specifiers, s.IsComponent naming components) ↔
        ∃ s ∈ specifiers, s.IsComponent naming' components :=
      exists_congr fun s => and_congr_right fun mem => same s mem
    have kept : (specifiers.filter fun s => ¬s.IsComponent naming components) =
        specifiers.filter fun s => ¬s.IsComponent naming' components :=
      List.filter_congr fun s mem => by simp [same s mem]
    simp only [some_iff, kept]

theorem carriedStatements_congr {ts : List Tree} (agree : ∀ t ∈ ts, naming.Agree naming' t) :
    carriedStatements naming source ts = carriedStatements naming' source ts := by
  have kept : (ts.filter fun t => Group.rest.Holds naming source (componentNames source ts) t) =
      ts.filter fun t => Group.rest.Holds naming' source (componentNames source ts) t :=
    List.filter_congr fun t mem => by simp [holds_congr (agree t mem)]
  rw [carriedStatements, carriedStatements, kept]
  refine List.map_congr_left fun t mem => ?_
  rw [carriedText_congr (agree t (List.mem_filter.mp mem).1)]

theorem of_plainKind? {form : StatementForm} {kind : CarriedKind} (h : form.plainKind? = some kind) :
    (∀ components text, Statement.carried? components ⟨text, form⟩ = some (kind, text)) ∧
      ∀ text, Statement.candidate? ⟨text, form⟩ = none ∧ Statement.import? ⟨text, form⟩ = none := by
  unfold StatementForm.plainKind? at h
  split at h <;> cases h <;> exact ⟨fun _ _ => rfl, fun _ => ⟨rfl, rfl⟩⟩

theorem carried?_of_shows {t : Tree} {form : StatementForm} (shows : Shows source t form) :
    Statement.carried? components ⟨t.span.text source, form⟩ =
      if Group.rest.Holds (.spelling source) source components t then
        some (carriedKind t, carriedText (.spelling source) source components t)
      else none := by
  cases shows with
  | imports profile =>
    obtain ⟨imports, -, -, -⟩ := Profile.mk.inj profile
    simp [Statement.carried?, Group.Holds, imports]
  | @declares c profile kind =>
    obtain ⟨imports, declares, default, exports⟩ := Profile.mk.inj profile
    change (if (ClassHeader.ofParts source c.children).isCandidate = true then none
      else some (CarriedKind.other, t.span.text source)) = _
    by_cases isCandidate : (ClassHeader.ofParts source c.children).isCandidate = true
    · simp [Group.Holds, candidate?, declares, isCandidate]
    · simp [Group.Holds, IsWithdrawn, candidate?, carriedText, imports, declares, default, exports,
        kind, isCandidate]
  | @default name profile kind =>
    obtain ⟨imports, declares, default, exports⟩ := Profile.mk.inj profile
    by_cases mem : name ∈ components
    · simp [Statement.carried?, Group.Holds, IsWithdrawn, default, mem]
    · simp [Statement.carried?, Group.Holds, IsWithdrawn, candidate?, carriedText, imports, declares,
        default, exports, kind, mem]
  | @exports specifiers profile kind =>
    obtain ⟨imports, declares, default, exports⟩ := Profile.mk.inj profile
    have rest : Group.rest.Holds (.spelling source) source components t ↔ ¬(specifiers ≠ [] ∧
        ∀ s ∈ specifiers, s.IsComponent (.spelling source) components) := by
      simp [Group.Holds, IsWithdrawn, candidate?, imports, declares, default, exports]
    simp only [Statement.carried?, withoutComponents_eq, rest, carriedText, exports, kind, ite_not]
    split
    · rfl
    · split <;> rfl
  | plain profile kind =>
    obtain ⟨imports, declares, default, exports⟩ := Profile.mk.inj profile
    have rest : Group.rest.Holds (.spelling source) source components t := by
      simp [Group.Holds, IsWithdrawn, candidate?, imports, declares, default, exports]
    rw [if_pos rest, carriedText, exports]
    exact (of_plainKind? kind).1 components _

theorem candidate?_of_shows {t : Tree} {form : StatementForm} (shows : Shows source t form)
    (text : String) :
    (Statement.candidate? ⟨text, form⟩).map ClassDeclaration.header = candidate? source t := by
  cases shows with
  | @declares c profile kind =>
    obtain ⟨-, declares, -, -⟩ := Profile.mk.inj profile
    have header : (ClassDeclaration.ofTree source c).header = ClassHeader.ofParts source c.children := rfl
    rw [candidate?, declares, Option.map_some, Option.filter_some, ← header]
    by_cases isCandidate : (ClassDeclaration.ofTree source c).header.isCandidate = true
    · simp [Statement.candidate?, isCandidate]
    · simp [Statement.candidate?, isCandidate]
  | plain profile kind =>
    obtain ⟨-, declares, -, -⟩ := Profile.mk.inj profile
    rw [candidate?, declares, (of_plainKind? kind).2 text |>.1]
    rfl
  | imports profile | default profile _ | exports profile _ =>
    obtain ⟨-, declares, -, -⟩ := Profile.mk.inj profile
    rw [candidate?, declares]
    rfl

theorem import?_of_shows {t : Tree} {form : StatementForm} (shows : Shows source t form) (text : String) :
    Statement.import? ⟨text, form⟩ = (importSource? t).map (·, text) := by
  cases shows with
  | plain profile kind =>
    obtain ⟨imports, -, -, -⟩ := Profile.mk.inj profile
    rw [imports, (of_plainKind? kind).2 text |>.2]
    rfl
  | imports profile | declares profile _ | default profile _ | exports profile _ =>
    obtain ⟨imports, -, -, -⟩ := Profile.mk.inj profile
    rw [imports]
    rfl

end

def statementsOf (tree : Tree) : List Tree := tree.children.filter fun t => t.kind != .directive

theorem Module.statements_ofTree (source : List Char) (tree : Tree) :
    (Module.ofTree source tree).statements = (statementsOf tree).map fun t =>
      ⟨t.span.text source, StatementForm.ofTree source t⟩ := rfl

theorem Module.headers_ofTree (source : List Char) (tree : Tree) :
    (Module.ofTree source tree).candidates.map ClassDeclaration.header =
      (statementsOf tree).filterMap (candidate? source) := by
  rw [Module.candidates, List.map_filterMap, Module.statements_ofTree, List.filterMap_map]
  exact congrArg (List.filterMap · (statementsOf tree))
    (funext fun t => candidate?_of_shows (shows_ofTree source t) _)

theorem Module.candidateNames_ofTree (source : List Char) (tree : Tree) :
    (Module.ofTree source tree).candidateNames = componentNames source (statementsOf tree) := by
  rw [componentNames, ← Module.headers_ofTree, List.filterMap_map]
  rfl

private theorem filterMap_ite {α β : Type} (p : α → Prop) [DecidablePred p] (f : α → β) (xs : List α) :
    (xs.filterMap fun x => if p x then some (f x) else none) = (xs.filter p).map f := by
  induction xs with
  | nil => rfl
  | cons x xs ih => by_cases h : p x <;> simp [h, ih]

theorem Module.carried_ofTree (source : List Char) (tree : Tree) :
    (Module.ofTree source tree).carried =
      carriedStatements (.spelling source) source (statementsOf tree) := by
  rw [Module.carried, Module.candidateNames_ofTree, Module.statements_ofTree, List.filterMap_map,
    carriedStatements, ← filterMap_ite]
  exact congrArg (List.filterMap · (statementsOf tree))
    (funext fun t => carried?_of_shows (shows_ofTree source t))

theorem Module.imports_ofTree (source : List Char) (tree : Tree) :
    (Module.ofTree source tree).imports = (statementsOf tree).filterMap fun t =>
      (importSource? t).map (·, t.span.text source) := by
  rw [Module.imports, Module.statements_ofTree, List.filterMap_map]
  exact congrArg (List.filterMap · (statementsOf tree))
    (funext fun t => import?_of_shows (shows_ofTree source t) _)

end VueOptions.Source
