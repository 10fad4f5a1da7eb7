import Stencil.Proofs.Site.Twins

/-!
# Renderings that do not depend on the past

A rendering that begins with the defaults gives what it gives on a new renderer, whatever the site was
asked before (`renderSource_after`). For the setup and the options are still those of the beginning,
and the kept views are faithful (`coherent_after`).
-/

namespace Stencil

namespace Site

def StaysCoherent (s s' : Site) : Prop := s.renderer.Coherent → s'.renderer.Coherent

instance : IsPreorder Site StaysCoherent where
  refl _ := id
  trans _ _ _ hf hs := hs ∘ hf

/-- A site is its own twin, so whatever is done alike on twins keeps its views faithful. -/
theorem staysCoherent_run {command : Command} (hregister : ∀ step, command ≠ .registerStep step) :
    Keeps StaysCoherent command.run := by
  intro s hs
  by_cases hshow : command = .showOptions
  · subst hshow
    exact hs
  · have hself : Twins False s.renderer.compiler.histories s.renderer.compiler.histories s s :=
      ⟨rfl, .of_now rfl rfl rfl fun _ => rfl, rfl, hs, hs, False.elim⟩
    have htwins := (alike_run (fun _ _ _ => id) (fun _ _ _ _ => id)
      (fun step heq => absurd heq (hregister step)) hshow).final hself
    exact htwins.renderer.coherent

theorem coherent_after {commands : List Command} (hregister : ∀ step, .registerStep step ∉ commands)
    (views : Views) (options : Options) :
    (after Command.run commands ⟨views, .ofOptions options⟩).renderer.Coherent := by
  refine keeps_after (R := StaysCoherent) (fun command hmem => staysCoherent_run ?_) _
    (Renderer.coherent_of_empty rfl)
  rintro step rfl
  exact hregister step hmem

theorem sameSetup_after {commands : List Command}
    (hregister : ∀ step, .registerStep step ∉ commands) (s : Site) :
    Lift Compiler.SameSetup s (after Command.run commands s) := by
  refine keeps_after (fun command hmem => keeps_run Compiler.kept_sameSetup.run ?_ ?_) s
  · exact fun flavor tags _ => Compiler.keepsSetup_setHostTags flavor tags
  · rintro step rfl
    exact absurd hmem (hregister step)

end Site

open Site (Command)

/-- **A rendering that begins with the defaults does not depend on the past**: whatever the site was
asked before, new steps apart, the answer and the tags in force after it are those of a new
renderer. -/
theorem renderSource_after {options : Options} (hrevert : options.revertPerView = true)
    (hfull : ∀ flavor, (options.tags.get flavor).Full) (views : Views) (commands : List Command)
    (hregister : ∀ step, .registerStep step ∉ commands) (name source : Text) (params : Param)
    {root : Value} (hparams : params.toValue = .ok root) :
    let site := after Command.run commands ⟨views, .ofOptions options⟩
    let render := Renderer.renderSource site.views name source params
    answer render site.renderer = answer render (.ofOptions options) ∧
      (final render site.renderer).compiler.tags =
        (final render (.ofOptions options)).compiler.tags := by
  intro site render
  have hsame : Renderer.Lift Compiler.SameSetup (.ofOptions options) site.renderer :=
    Site.sameSetup_after hregister ⟨views, .ofOptions options⟩
  exact Renderer.renderSource_of_setup_eq (Site.coherent_after hregister views options)
    (Renderer.coherent_of_empty rfl) hsame.compiler hsame.options hrevert hfull site.views name source
    hparams

/-- Tags that were set behind the back of the compiler are not in force in the next rendering. -/
theorem renderSource_after_setHostTags :
    ({} : Options).revertPerView = true ∧ (∀ flavor, (({} : Options).tags.get flavor).Full) ∧
      Param.unit.toValue = .ok .null ∧
      (answer (Renderer.renderSource .empty ['v'] ['<', 'a', '>'] .unit)
          (after Command.run [.setHostTags .plain ⟨['<'], ['>']⟩]
            ⟨.empty, .ofOptions {}⟩).renderer).toOption = some ['<', 'a', '>'] := by
  refine ⟨rfl, Options.full_default, rfl, ?_⟩
  obtain ⟨hanswer, -⟩ := renderSource_after rfl Options.full_default .empty
    [.setHostTags .plain ⟨['<'], ['>']⟩] (by simp) ['v'] ['<', 'a', '>'] .unit rfl
  refine (congrArg Except.toOption hanswer).trans ?_
  decide +kernel

end Stencil
