import Stencil.Proofs.Renderer.Refreshed
import Stencil.Proofs.Renderer.Twins
import Stencil.Proofs.Site.Lift

/-!
# Steps that are added between renderings

A view is kept with its source and its tags, and not with the steps that have compiled it. So a view
that was kept before a step was added goes on being used as it is (`renderSource_kept_before_step`).
Once all such views are forgotten, flushed or replaced, a rendering gives what it gives on a new
renderer that has had the steps from the beginning (`renderSource_after_steps`).
-/

namespace Stencil

open Renderer (Refreshed)

namespace Compiler

/-- Adding a step changes the steps only, by what they are. -/
theorem sameSetup_register {c c' : Compiler Pipeline} (h : SameSetup c c') (step : Step) :
    SameSetup { c with host := c.host.register step } { c' with host := c'.host.register step } := by
  have hsteps : c'.host.steps = c.host.steps := congrArg Setup.steps h
  have hregister : (c'.host.register step).steps = (c.host.register step).steps := by
    unfold Pipeline.register
    rw [hsteps]
    split <;> rfl
  have hkeywords : c'.keywords = c.keywords := congrArg Setup.keywords h
  have hdefaults : c'.histories.map (·.first) = c.histories.map (·.first) :=
    congrArg Setup.defaults h
  show (⟨_, _, _⟩ : Setup) = ⟨_, _, _⟩
  rw [hregister, hkeywords, hdefaults]

end Compiler

/-- Adding steps changes nothing but the host. -/
theorem Renderer.after_registerStep (steps : List Step) (r : Renderer) :
    ∃ host, after Renderer.registerStep steps r =
      { r with compiler := { r.compiler with host := host } } := by
  induction steps generalizing r with
  | nil => exact ⟨r.compiler.host, rfl⟩
  | cons step steps ih => exact ih (final (Renderer.registerStep step) r)

namespace Site

/-- The step that a command adds. -/
def Command.step? : Command → Option Step
  | .registerStep step => some step
  | _ => none

/-- The steps that some commands add, in order. -/
def stepsAdded (commands : List Command) : List Step := commands.filterMap Command.step?

/-- Whatever else a site is asked, its setup is that of a renderer to which the steps are added. -/
theorem sameSetup_after_stepsAdded {r : Renderer} {s : Site}
    (h : Renderer.Lift Compiler.SameSetup r s.renderer) (commands : List Command) :
    Renderer.Lift Compiler.SameSetup (after Renderer.registerStep (stepsAdded commands) r)
      (after Command.run commands s).renderer := by
  induction commands generalizing r s with
  | nil => exact h
  | cons command commands ih =>
    by_cases hstep : ∃ step, command = .registerStep step
    · obtain ⟨step, rfl⟩ := hstep
      exact ih ⟨Compiler.sameSetup_register h.compiler step, h.options⟩
    · have hadded : stepsAdded (command :: commands) = stepsAdded commands := by
        refine List.filterMap_cons_none ?_
        cases command with
        | registerStep step => exact absurd ⟨step, rfl⟩ hstep
        | _ => rfl
      have hkeeps : Keeps (Lift Compiler.SameSetup) command.run :=
        keeps_run Compiler.kept_sameSetup.run
          (fun flavor tags _ => Compiler.keepsSetup_setHostTags flavor tags)
          fun step heq => absurd ⟨step, heq⟩ hstep
      rw [hadded]
      exact ih (trans_of (Renderer.Lift Compiler.SameSetup) h (hkeeps s))

/-! ## Views that are kept too long -/

theorem refreshed_run {command : Command} (hregister : ∀ step, .registerStep step ≠ command) :
    Keeps (Related Refreshed) command.run :=
  keeps_run_of_renderer
    (fun command => Renderer.keeps_refreshed_onCompiler (Compiler.kept_sameSetup.run command))
    Renderer.keeps_refreshed_compileView Renderer.keeps_refreshed_forget
    Renderer.keeps_refreshed_flush
    (fun flavor tags _ => Renderer.keeps_refreshed_onCompiler
      (Compiler.keepsSetup_setHostTags flavor tags))
    fun step heq => absurd heq.symm (hregister step)

theorem refreshed_after {commands : List Command} (hregister : ∀ step, .registerStep step ∉ commands)
    (s : Site) : Related Refreshed s (after Command.run commands s) :=
  keeps_after (fun _ hmem => refreshed_run fun step heq => hregister step (heq ▸ hmem)) s

/-- A view that is kept although it was taken away once has been compiled anew. -/
theorem faithful_of_removed {commands : List Command}
    (hregister : ∀ step, .registerStep step ∉ commands) {command : Command}
    (hmem : command ∈ commands) {name : Text}
    (hremoves : ∀ s, (final command.run s).renderer.cache.find? name = none)
    {s : Site} {view : CachedView}
    (hfind : (after Command.run commands s).renderer.cache.find? name = some view) :
    view.Faithful s.renderer.compiler.setup := by
  obtain ⟨earlier, later, rfl⟩ := List.append_of_mem hmem
  simp only [List.mem_append, List.mem_cons, not_or] at hregister
  have hearlier : Related Refreshed s (after Command.run earlier s) :=
    refreshed_after (fun step => (hregister step).1) s
  have hcommand : Related Refreshed _ (final command.run (after Command.run earlier s)) :=
    refreshed_run (fun step => (hregister step).2.1) _
  have hlater : Related Refreshed (final command.run (after Command.run earlier s)) _ :=
    refreshed_after (fun step => (hregister step).2.2) _
  rw [after_append] at hfind
  rcases hlater.kept name view hfind with hkept | hfaithful
  · rw [hremoves] at hkept
    cases hkept
  · rwa [hcommand.setup, hearlier.setup] at hfaithful

/-- Each view that was kept was forgotten since, or flushed, or another one is kept in its place. -/
def Dropped (before : Site) (later : List Command) (site : Site) : Prop :=
  ∀ name view, before.renderer.cache.find? name = some view →
    .forget name ∈ later ∨ .flush ∈ later ∨ site.renderer.cache.find? name ≠ some view

/-- Once the views that were kept are gone, all kept views are faithful. -/
theorem coherent_of_dropped {before : Site} {later : List Command}
    (hregister : ∀ step, .registerStep step ∉ later)
    (hdropped : Dropped before later (after Command.run later before)) :
    (after Command.run later before).renderer.Coherent := by
  have hrefreshed : Related Refreshed before (after Command.run later before) :=
    refreshed_after hregister before
  intro name view hfind
  show view.Faithful (after Command.run later before).renderer.compiler.setup
  rw [hrefreshed.setup]
  rcases hrefreshed.kept name view hfind with hkept | hfaithful
  · rcases hdropped name view hkept with hforget | hflush | hreplaced
    · refine faithful_of_removed hregister hforget (fun s => ?_) hfind
      exact (Table.find?_erase s.renderer.cache name name).trans (if_pos rfl)
    · exact faithful_of_removed hregister hflush (fun _ => rfl) hfind
    · exact absurd hfind hreplaced
  · exact hfaithful

end Site

open Site (Command)

/-- **A step that is added reaches a rendering** that begins with the defaults, once the views that
were kept before the step are gone: the answer is that of a new renderer to which all the steps were
added before any rendering. -/
theorem renderSource_after_steps {options : Options} (hrevert : options.revertPerView = true)
    (hfull : ∀ flavor, (options.tags.get flavor).Full) (views : Views) (first later : List Command)
    (hregister : ∀ step, .registerStep step ∉ later)
    (hdropped : Site.Dropped (after Command.run first ⟨views, .ofOptions options⟩) later
      (after Command.run (first ++ later) ⟨views, .ofOptions options⟩))
    (name source : Text) (params : Param) :
    let site := after Command.run (first ++ later) ⟨views, .ofOptions options⟩
    let fresh := after Renderer.registerStep (Site.stepsAdded (first ++ later)) (.ofOptions options)
    answer (Renderer.renderSource site.views name source params) site.renderer =
      answer (Renderer.renderSource site.views name source params) fresh := by
  intro site fresh
  have hcoherent : site.renderer.Coherent := by
    show (after Command.run (first ++ later) _).renderer.Coherent
    rw [after_append] at hdropped ⊢
    exact Site.coherent_of_dropped hregister hdropped
  have hsame : Renderer.Lift Compiler.SameSetup fresh site.renderer :=
    Site.sameSetup_after_stepsAdded (s := ⟨views, .ofOptions options⟩)
      (refl_of (Renderer.Lift Compiler.SameSetup) (.ofOptions options)) (first ++ later)
  obtain ⟨host, hfresh⟩ :=
    Renderer.after_registerStep (Site.stepsAdded (first ++ later)) (.ofOptions options)
  change fresh = _ at hfresh
  cases hparams : params.toValue with
  | error e => rw [Renderer.renderSource, hparams]; rfl
  | ok root =>
    refine (Renderer.renderSource_of_setup_eq hcoherent (Renderer.coherent_of_empty ?_)
      hsame.compiler hsame.options ?_ ?_ site.views name source hparams).1
    · rw [hfresh]
      rfl
    · rw [hfresh]
      exact hrevert
    · rw [hfresh]
      exact hfull

/-- A step is added after two views were kept. Then one of them is forgotten, and another source takes
the place of the other one. -/
theorem renderSource_after_steps_forget :
    let first : List Command := [.renderSource ['v'] ['a'] .unit, .renderSource ['w'] ['a'] .unit,
      .registerStep (.replace ['r'] ['a'] ['b'])]
    let later : List Command := [.forget ['v'], .renderSource ['w'] ['c'] .unit]
    let before := after Command.run first ⟨.empty, .ofOptions {}⟩
    let site := after Command.run (first ++ later) ⟨.empty, .ofOptions {}⟩
    ({} : Options).revertPerView = true ∧ (∀ flavor, (({} : Options).tags.get flavor).Full) ∧
      (∀ step, .registerStep step ∉ later) ∧
      (∀ name ∈ [['v'], ['w']], (before.renderer.cache.find? name).isSome) ∧
      Site.Dropped before later site ∧
      ∀ name ∈ [['v'], ['w']],
        answer (Renderer.renderSource site.views name ['a'] .unit) site.renderer = .ok ['b'] := by
  intro first later before site
  have hregister : ∀ step, .registerStep step ∉ later := by simp [later]
  have hdropped : Site.Dropped before later site := by
    intro name view hfind
    have hkept : (before.renderer.cache.find? name).isSome := by rw [hfind]; rfl
    obtain ⟨entry, hentry, hname⟩ := List.lookup_isSome_iff.mp hkept
    have hnames : ∀ entry ∈ before.renderer.cache.entries, entry.1 = ['v'] ∨ entry.1 = ['w'] := by
      decide +kernel
    rcases hnames entry hentry with heq | heq
    · exact .inl (by rw [eq_of_beq hname, heq]; exact List.mem_cons_self)
    · refine .inr (.inr fun hsite => ?_)
      have hreplaced : before.renderer.cache.find? ['w'] ≠ site.renderer.cache.find? ['w'] := by
        decide +kernel
      rw [eq_of_beq hname, heq] at hfind hsite
      exact hreplaced (hfind.trans hsite.symm)
  refine ⟨rfl, Options.full_default, hregister, by decide +kernel, hdropped, ?_⟩
  intro name hname
  refine (renderSource_after_steps rfl Options.full_default .empty first later hregister hdropped name
    ['a'] .unit).trans ?_
  simp only [List.mem_cons, List.not_mem_nil, or_false] at hname
  rcases hname with rfl | rfl <;> decide +kernel

/-- With the default options, the source `a` is rendered, then a step that replaces `a` by `b` is
added. The kept view goes on being used, although a new renderer with that step gives `b`. -/
theorem renderSource_kept_before_step :
    let commands : List Command :=
      [.renderSource ['v'] ['a'] .unit, .registerStep (.replace ['r'] ['a'] ['b'])]
    let site := after Command.run commands ⟨.empty, .ofOptions {}⟩
    let fresh := after Renderer.registerStep (Site.stepsAdded commands) (.ofOptions {})
    ({} : Options).cacheEnabled = true ∧ ({} : Options).revertPerView = true ∧
      (∀ flavor, (({} : Options).tags.get flavor).Full) ∧
      answer (Renderer.renderSource site.views ['v'] ['a'] .unit) site.renderer = .ok ['a'] ∧
      answer (Renderer.renderSource site.views ['v'] ['a'] .unit) fresh = .ok ['b'] := by
  exact ⟨rfl, rfl, Options.full_default, by decide +kernel, by decide +kernel⟩

end Stencil
