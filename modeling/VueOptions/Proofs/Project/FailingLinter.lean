import VueOptions.Proofs.Blocks.CompiledFile
import VueOptions.Proofs.Layout.FirstLine
import VueOptions.Proofs.Options.Compilation
import VueOptions.Proofs.Options.OutputModule
import VueOptions.Proofs.Project.SecondRun

/-!
Linters that fail beside the idle one. After a linter that fails, the compiled script stays as it is; the
text that the idle linter hands back has its leading blanks taken away and begins on a line of its own.
Both come to the same because every output begins with the import of `defineComponent`, in house style or
not. Main statement: `failing_linter_leaves_no_trace`.
-/

set_option autoImplicit false

namespace VueOptions.Project

open Blocks Layout Options Source Text

def openingLine : List Char := "import \x7b defineComponent \x7d from 'vue'".toList

private theorem plainLine_openingLine : PlainLine openingLine where
  ne_nil := by decide
  inLine := by decide
  unquoted := by decide
  unended := by decide
  first := by
    intro c first
    obtain rfl : 'i' = c := Option.some.inj first
    decide
  last := by
    intro c last
    obtain rfl : '\'' = c := Option.some.inj last
    decide

private theorem isPrefix_joinLines (line : List Char) (lines : List (List Char)) :
    line <+: joinLines (line :: lines) := by
  cases lines with
  | nil => exact List.prefix_refl line
  | cons next lines => exact List.prefix_append line _

private theorem isPrefix_moduleBlocks (d : Dialect) (m : Module) (c : Component) (t : Table) :
    openingLine ++ ['\n'] <+: joinLines (moduleBlocks d m c t) := by
  have opening : textLine d.indentWidth 0 "import \x7b defineComponent \x7d from 'vue'" = openingLine ++ ['\n'] := by
    rw [textLine, Nat.mul_zero, List.replicate_zero, List.nil_append]
    rfl
  unfold moduleBlocks
  rw [opening]
  exact (List.prefix_append _ _).trans (isPrefix_joinLines _ _)

private theorem isPrefix_compileScript {d : Dialect} {script out : String}
    (compiled : compileScript d script = .ok out) :
    openingLine ++ ['\n'] <+: out.toList := by
  obtain ⟨m, t, parsed, table, rfl⟩ := compileScript_eq_ok_iff.mp compiled
  obtain ⟨c, component⟩ := Option.ne_none_iff_exists'.mp (Table.ofModule_eq_ok_iff.mp table).2
  rw [generate, print_renderModule parsed component, String.toList_ofList]
  exact isPrefix_normalize plainLine_openingLine (isPrefix_moduleBlocks d m c t) d.indentWidth

private theorem trimStart_compileScript {d : Dialect} {script out : String}
    (compiled : compileScript d script = .ok out) :
    trimStart out.toList = out.toList := by
  obtain ⟨rest, begins⟩ := isPrefix_compileScript compiled
  rw [← begins]
  rfl

section Step

variable {l : Linter} {j : Job} {t : FileTree} {p : Path}

private theorem mend_idle {d : Dialect} {script out : String} (compiled : compileScript d script = .ok out) :
    Linter.idle.mend ("\n" ++ out) = "\n" ++ out := by
  have feed : trimStart ("\n" ++ out).toList = trimStart out.toList := by
    rw [String.toList_append]
    rfl
  rw [Linter.mend, Linter.idle]
  dsimp only
  rw [feed, trimStart_compileScript compiled, String.ofList_toList]

private theorem mend_of_fails (fails : ∀ text, ∃ why, l.lintText text = .error why) (content : String) :
    l.mend content = content := by
  obtain ⟨why, failed⟩ := fails content
  rw [Linter.mend, failed]

private theorem content_withCompiled (b : Block) (output : String) :
    (b.withCompiled output).content = "\n" ++ output := by
  unfold Block.withCompiled
  dsimp only
  split <;> rfl

private theorem mendFile_of_fails (fails : ∀ text, ∃ why, l.lintText text = .error why) {d : Dialect}
    {f c : ComponentFile} (compiled : f.compile d = .ok c) : l.mendFile c = Linter.idle.mendFile c := by
  obtain ⟨b, output, -, -, script, rfl⟩ := ComponentFile.compile_eq_ok_iff.mp compiled
  simp only [Linter.mendFile, Option.map_some, content_withCompiled, mend_of_fails fails, mend_idle script]

private theorem convert_of_fails (fails : ∀ text, ∃ why, l.lintText text = .error why) :
    convert j l t p = convert j .idle t p := by
  have plan : j.plan l (t.read p) = j.plan .idle (t.read p) := by
    unfold Job.plan
    cases t.read p with
    | error why => rfl
    | ok text =>
      dsimp only
      cases j.table? (ComponentFile.parse text) with
      | error why => rfl
      | ok table =>
        dsimp only
        cases compiled : (ComponentFile.parse text).compile j.dialect with
        | error why => cases why <;> rfl
        | ok c =>
          dsimp only
          rw [mendFile_of_fails fails compiled]
  rw [convert_eq_carryOut, convert_eq_carryOut, plan]

end Step

private theorem ofInputs_of_fails {l : Linter} (fails : ∀ text, ∃ why, l.lintText text = .error why) (j : Job)
    (t : FileTree) (inputs : List Path) : Batch.ofInputs j l t inputs = Batch.ofInputs j .idle t inputs := by
  induction inputs using List.reverseRecOn with
  | nil => rfl
  | append_singleton ps p ih =>
    rw [Batch.ofInputs_append, Batch.ofInputs_append, ih, Batch.ofInputs_singleton, Batch.ofInputs_singleton,
      convert_of_fails fails]

/-- A linter that fails on every text is not noticed: a run with it comes to the same reports, files,
requests and exit code as a run with the idle linter, whatever it does about files and in whatever order
files are converted. -/
theorem failing_linter_leaves_no_trace {l : Linter} (fails : ∀ text, ∃ why, l.lintText text = .error why) (j : Job)
    (t : FileTree) :
    j.run l t = j.run .idle t ∧
      ∀ inputs order, j.runInOrder l t inputs order = j.runInOrder .idle t inputs order := by
  constructor
  · rw [Job.run, Job.run]
    congr 1
    funext inputs
    rw [ofInputs_of_fails fails]
  · intro inputs order
    rw [Job.runInOrder, Job.runInOrder, ofInputs_of_fails fails]

/-- A linter that cannot be started converts the card like the idle one. -/
theorem card_with_linter_not_started :
    ∃ b, cardJob.run (Eslint.linter ⟨"rules.js"⟩ fun _ _ => none) cardTree = .ok b ∧
      cardJob.run .idle cardTree = .ok b ∧ b.reports.map Report.input = [⟨"Card.vue"⟩, ⟨"base/Box.vue"⟩] := by
  have found : cardJob.inputs cardTree = .ok [⟨"Card.vue"⟩, ⟨"base/Box.vue"⟩] := by decide +kernel
  have same := failing_linter_leaves_no_trace (l := Eslint.linter ⟨"rules.js"⟩ fun _ _ => none)
    (fun _ => ⟨.notStarted, rfl⟩) cardJob cardTree
  obtain ⟨b, ran, reported, -⟩ := exists_run (l := .idle) found
  exact ⟨b, same.1.trans ran, ran, reported⟩

end VueOptions.Project
