import Stencil.Host.Step
import Stencil.Options
import Stencil.Proofs.Compiler.Lawful
import Stencil.Proofs.Host.Pipeline

/-!
# Failed compilations

Over a host that decides by a fixed predicate, the tags in force are always accepted ones, also where
they were set behind the back of the compiler and are not the last of their histories
(`Reachable.acceptable`). So the requests that end a rollback are granted, and a failed compilation
leaves the histories and the tags as the revert before it has left them (`unchanged_of_compile_error`).
-/

namespace Stencil

namespace Compiler

variable {σ : Type} [Host σ] {accepts : Flavor → Delims → Prop}

/-- The states of a compiler over a host: what commands lead to, and tags that are set behind its
back. -/
inductive Reachable (host : σ) (keywords : PerFlavor Text) : Compiler σ → Prop where
  | start : Reachable host keywords (ofHost host keywords)
  | run {c : Compiler σ} (h : Reachable host keywords c) (command : Command) :
      Reachable host keywords (final command.run c)
  | setHostTags {c : Compiler σ} (h : Reachable host keywords c) (flavor : Flavor)
      (tags : Delims) : Reachable host keywords (final (Compiler.setHostTags flavor tags) c)

/-! ## Accepted tags in force -/

theorem Settles.acceptable {c c' : Compiler σ} (h : Settles accepts c c')
    (hc : Acceptable accepts c) : Acceptable accepts c' := by
  obtain ⟨changes, hs⟩ := h hc
  exact hs.acceptable hc

theorem acceptable_setHostTags (lawful : Host.Lawful σ accepts) {c : Compiler σ}
    (hc : Acceptable accepts c) (flavor : Flavor) (tags : Delims) :
    Acceptable accepts (final (setHostTags flavor tags) c) := by
  intro other
  cases hset : Host.setTags flavor tags c.host with
  | ok _ host =>
    rw [final_of_ok (setHostTags_of_ok hset)]
    show accepts other ((Host.tags host).get other)
    rw [lawful.ok hset, PerFlavor.get_set]
    split
    · next heq => exact heq ▸ (lawful.decides flavor tags c.host).mp ⟨host, hset⟩
    · exact hc other
  | error e host =>
    rw [final_of_error (setHostTags_of_error hset)]
    show accepts other ((Host.tags host).get other)
    rw [lawful.error hset]
    exact hc other

/-- In every state the host would accept the tags in force. -/
theorem Reachable.acceptable (lawful : Host.Lawful σ accepts) {host : σ}
    (hhost : ∀ flavor, accepts flavor ((Host.tags host).get flavor)) {keywords : PerFlavor Text}
    {c : Compiler σ} (h : Reachable host keywords c) : Acceptable accepts c := by
  induction h with
  | start => exact hhost
  | run _ command ih => exact Settles.acceptable ((kept_settles lawful).run command _) ih
  | setHostTags _ flavor tags ih => exact acceptable_setHostTags lawful ih flavor tags

/-! ## What a failed compilation leaves -/

/-- A failed compilation leaves what the revert before it leaves, whether the revert itself has failed
or the pass after it. -/
theorem compile_error_of_acceptable (lawful : Host.Lawful σ accepts) {c c' : Compiler σ}
    (hc : Acceptable accepts c) {source : Text} {e : Error}
    (h : compile source c = .error e c') :
    c'.histories = (final applyRevert c).histories ∧ c'.tags = (final applyRevert c).tags ∧
      c'.revertPending = false := by
  have hrevert := revertPending_applyRevert c
  have hstart := Settles.acceptable ((kept_settles lawful).applyRevert c) hc
  cases ha : applyRevert c with
  | error e' start =>
    rw [final_of_error ha] at hrevert ⊢
    rw [compile_of_applyRevert_error ha] at h
    cases h
    exact ⟨rfl, rfl, hrevert⟩
  | ok _ start =>
    rw [final_of_ok ha] at hrevert hstart ⊢
    cases hp : pass source start with
    | ok text d =>
      rw [compile_of_pass_ok ha hp] at h
      cases h
    | error e' d =>
      rw [compile_of_pass_error ha hp] at h
      cases h
      -- the tags at the start of the pass are accepted, so both requests of the rollback are granted
      exact ⟨rfl, lawful.tags_restore hstart d.host, hrevert⟩

/-- **A failed compilation changes no tags.** Whatever state the compiler is in and whatever part of
the compilation fails, the histories and the tags in force are those from before, or those that the
revert alone leaves if it was due. -/
theorem unchanged_of_compile_error (lawful : Host.Lawful σ accepts) {host : σ}
    (hhost : ∀ flavor, accepts flavor ((Host.tags host).get flavor)) {keywords : PerFlavor Text}
    {c : Compiler σ} (hc : Reachable host keywords c) {source : Text} {e : Error}
    (h : answer (compile source) c = .error e) :
    (c.revertPending = false → (final (compile source) c).histories = c.histories ∧
        (final (compile source) c).tags = c.tags) ∧
      (c.revertPending = true →
        (final (compile source) c).histories = (final applyRevert c).histories ∧
          (final (compile source) c).tags = (final applyRevert c).tags) ∧
      (final (compile source) c).revertPending = false := by
  cases hcompile : compile source c with
  | ok text c' =>
    rw [answer_of_ok hcompile] at h
    cases h
  | error e' c' =>
    obtain ⟨hhistories, htags, hrevert⟩ :=
      compile_error_of_acceptable lawful (hc.acceptable lawful hhost) hcompile
    rw [final_of_error hcompile]
    refine ⟨fun hnot => ?_, fun _ => ⟨hhistories, htags⟩, hrevert⟩
    rw [final_of_ok (applyRevert_of_not_pending hnot)] at hhistories htags
    exact ⟨hhistories, htags⟩

/-- With the default tags and a step that fails on an exclamation mark, after plain tags were set that
are on no history: the directive for plain tags fails, or the one for escaped tags does after the
other one has put a pair for them in force, or the step does, and once more with a revert due. -/
theorem unchanged_of_compile_error_phases :
    let host := (Pipeline.ofTags ({} : Options).tags).register (.failIf ['f'] ['!'] ['m'])
    let start := ofHost host ({} : Options).keywords
    let c := final (setHostTags .plain ⟨['<'], ['>']⟩) start
    let due := final (Command.requestRevert true).run c
    Host.Lawful Pipeline (fun _ tags => tags.Full) ∧
      (∀ flavor, ((Host.tags host).get flavor).Full) ∧
      Reachable host ({} : Options).keywords c ∧ Reachable host ({} : Options).keywords due ∧
      c.tags.plain ≠ c.histories.plain.last ∧
      (answer (compile "changecontenttags('a')".toList) c = .error (.tags (.argumentCount 1)) ∧
        (final (compile "changecontenttags('a')".toList) c).tags = c.tags) ∧
      (answer (compile "changecontenttags('[',']',yes)changeescapedtags('','b')".toList) c =
          .error (.tags (.emptyTag .escaped ⟨[], ['b']⟩)) ∧
        (final (compile "changecontenttags('[',']',yes)changeescapedtags('','b')".toList) c).tags =
          c.tags) ∧
      (answer (compile "changecontenttags('[',']')!".toList) c = .error (.step ['m']) ∧
        (final (compile "changecontenttags('[',']')!".toList) c).tags = c.tags) ∧
      (answer (compile "changecontenttags('[',']')!".toList) due = .error (.step ['m']) ∧
        (final (compile "changecontenttags('[',']')!".toList) due).tags = ({} : Options).tags) := by
  intro host start c due
  have hhost : ∀ flavor, ((Host.tags host).get flavor).Full := by
    intro flavor
    cases flavor <;> decide +kernel
  have hc : Reachable host ({} : Options).keywords c := .setHostTags .start _ _
  have hdue : Reachable host ({} : Options).keywords due := .run hc _
  have hplain : answer (compile "changecontenttags('a')".toList) c =
      .error (.tags (.argumentCount 1)) := by decide +kernel
  have hescaped :
      answer (compile "changecontenttags('[',']',yes)changeescapedtags('','b')".toList) c =
        .error (.tags (.emptyTag .escaped ⟨[], ['b']⟩)) := by decide +kernel
  have hstep : answer (compile "changecontenttags('[',']')!".toList) c = .error (.step ['m']) := by
    decide +kernel
  have hstepdue : answer (compile "changecontenttags('[',']')!".toList) due =
      .error (.step ['m']) := by decide +kernel
  have unchanged {source : Text} {e : Error} (h : answer (compile source) c = .error e) :
      (final (compile source) c).tags = c.tags :=
    ((unchanged_of_compile_error Pipeline.lawful hhost hc h).1 rfl).2
  refine ⟨Pipeline.lawful, hhost, hc, hdue, by decide +kernel, ⟨hplain, unchanged hplain⟩,
    ⟨hescaped, unchanged hescaped⟩, ⟨hstep, unchanged hstep⟩, hstepdue, ?_⟩
  exact ((unchanged_of_compile_error Pipeline.lawful hhost hdue hstepdue).2.1 rfl).2

end Compiler

end Stencil
