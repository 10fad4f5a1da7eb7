import Stencil.Proofs.Renderer.Twins
import Stencil.Proofs.Site.Lift

/-!
# Sites that differ in kept views

Two sites whose renderers are twins give the same answers and stay twins (`alike_run`). So keeping
views cannot be noticed (`trace_cacheEnabled`).
-/

namespace Stencil

namespace Site

/-- The same view store, and twin renderers. -/
structure Twins (early : Prop) (h h' : PerFlavor History) (s s' : Site) : Prop where
  views : s.views = s'.views
  renderer : Renderer.Twins early h h' s.renderer s'.renderer

variable {early : Prop} {h h' : PerFlavor History}

theorem alike_onRenderer {α : Type} {action action' : Renderer.Action α}
    (halike : Alike (Renderer.Twins early h h') action action') :
    Alike (Twins early h h') (onRenderer action) (onRenderer action') := by
  intro s s' ht
  rcases halike _ _ ht.renderer with ⟨a, r, r', hs, hs', hr⟩ | ⟨e, r, r', hs, hs', hr⟩
  · exact .inl ⟨a, _, _, onRenderer_of_ok hs, onRenderer_of_ok hs', ht.views, hr⟩
  · exact .inr ⟨_, _, _, onRenderer_of_error hs, onRenderer_of_error hs', ht.views, hr⟩

theorem alike_onViews (failure : LoadError → Failure) (action : EStateM LoadError Views Unit) :
    Alike (Twins early h h') (onViews failure action) (onViews failure action) := by
  intro s s' ht
  have hviews := ht.views
  obtain ⟨views, r⟩ := s
  obtain ⟨views', r'⟩ := s'
  obtain rfl : views = views' := hviews
  show (∃ a t t', onViews failure action ⟨views, r⟩ = .ok a t ∧
    onViews failure action ⟨views, r'⟩ = .ok a t' ∧ _) ∨ _
  unfold onViews
  cases action views with
  | ok _ views => exact .inl ⟨_, _, _, rfl, rfl, rfl, ht.renderer⟩
  | error e views => exact .inr ⟨_, _, _, rfl, rfl, rfl, ht.renderer⟩

theorem alike_done {action : Renderer.Action Unit}
    (halike : Alike (Renderer.Twins early h h') action action) :
    Alike (Twins early h h') (do onRenderer action; return .done : Action Answer)
      (do onRenderer action; return .done : Action Answer) :=
  (alike_onRenderer halike).bind fun _ => .pure _

theorem alike_compilerCommand (command : Compiler.Command) :
    Alike (Twins early h h') (Command.compiler command).run (Command.compiler command).run := by
  have hcommand : Alike (Renderer.Twins early h h') _ _ :=
    Renderer.alike_onCompiler (Compiler.alike_run command) (Compiler.kept_sameSetup.run command)
  refine (alike_onRenderer hcommand).bind fun text => ?_
  split
  · exact .pure _
  · exact .pure _

theorem alike_runSteps (source : Text) :
    Alike (Twins early h h') (Command.runSteps source).run (Command.runSteps source).run := by
  refine (alike_onRenderer (Renderer.alike_onCompiler (Compiler.alike_compileHost source) ?_)).map _
  intro c
  rw [Compiler.final_compileHost]
  rfl

theorem alike_registerStep (hearly : early) (step : Step) :
    Alike (Twins early h h') (Command.registerStep step).run (Command.registerStep step).run := by
  refine (alike_onRenderer (Renderer.alike_registerStep hearly step)).bind fun _ =>
    Alike.get_bind fun s s' ht => ?_
  rw [ht.renderer.compiler.host]
  exact .pure _

/-- Twins stay twins, and answer alike: before the first rendering whatever is asked for but a
rendering, and after it whatever is asked for but a new step. -/
theorem alike_run {command : Command} (hrender : ∀ name params, command = .render name params → ¬early)
    (hsource : ∀ name source params, command = .renderSource name source params → ¬early)
    (hregister : ∀ step, command = .registerStep step → early) (hshow : command ≠ .showOptions) :
    Alike (Twins early h h') command.run command.run := by
  cases command with
  | compiler command => exact alike_compilerCommand command
  | runSteps source => exact alike_runSteps source
  | setHostTags flavor tags =>
    exact alike_done (Renderer.alike_onCompiler (Compiler.alike_setHostTags flavor tags)
      (Compiler.keepsSetup_setHostTags flavor tags))
  | registerStep step => exact alike_registerStep (hregister step rfl) step
  | render name params =>
    refine Alike.get_bind fun s s' ht => ?_
    rw [ht.views]
    exact (alike_onRenderer (Renderer.alike_render (hrender name params rfl) s'.views name params)).bind
      fun _ => .pure _
  | renderSource name source params =>
    refine Alike.get_bind fun s s' ht => ?_
    rw [ht.views]
    exact (alike_onRenderer (Renderer.alike_renderSource (hsource name source params rfl) s'.views
      name source params)).bind fun _ => .pure _
  | forget name => exact alike_done (Renderer.alike_forget name)
  | flush => exact alike_done Renderer.alike_flush
  | showOptions => exact absurd rfl hshow
  | addView name source => exact alike_onViews .loading (Views.add name source)
  | findView name =>
    refine Alike.get_bind fun s s' ht => ?_
    rw [ht.views]
    exact .pure _
  | removeView name => exact alike_onViews .loading (Views.remove name)
  | addAssets assets => exact alike_onViews .loading (Views.addAssets assets)
  | addFiles root tree below extension => exact alike_onViews _ _
  | addViewFiles root tree below =>
    refine Alike.get_bind fun s s' ht => ?_
    rw [ht.renderer.viewExtension_eq]
    exact alike_onViews _ _

/-! ## Keeping views or not -/

/-- What can be seen of a site beside its answers and its views: the histories, whether a revert is
pending, and the tags in force. -/
def visible (s : Site) : PerFlavor History × Bool × Tags :=
  (s.renderer.compiler.histories, s.renderer.compiler.revertPending, s.renderer.compiler.tags)

theorem visible_eq {s s' : Site} (ht : Twins early h h s s') : s.visible = s'.visible := by
  rw [visible, visible, ht.renderer.compiler.eq]

/-- Once the first rendering is due, it does not matter that no view has been kept. -/
theorem Twins.late {s s' : Site} (ht : Twins True h h' s s') : Twins False h h' s s' :=
  ⟨ht.views, ht.renderer.compiler, ht.renderer.options, ht.renderer.coherent,
    ht.renderer.coherent', False.elim⟩

theorem twins_ofOptions (views : Views) (options : Options) (kept kept' : Bool) :
    ∃ h, Twins True h h ⟨views, .ofOptions { options with cacheEnabled := kept }⟩
      ⟨views, .ofOptions { options with cacheEnabled := kept' }⟩ :=
  ⟨_, rfl, .of_now rfl rfl rfl fun _ => rfl, rfl, Renderer.coherent_of_empty rfl,
    Renderer.coherent_of_empty rfl, fun _ => ⟨rfl, rfl⟩⟩

end Site

open Site (Command)

/-- **Whether views are kept cannot be noticed**, neither from an answer nor from the histories and
the tags in force after it, as long as no step is added after a rendering. -/
theorem trace_cacheEnabled (options : Options) (views : Views) (kept kept' : Bool)
    (first later : List Command) (hrender : ∀ name params, .render name params ∉ first)
    (hsource : ∀ name source params, .renderSource name source params ∉ first)
    (hregister : ∀ step, .registerStep step ∉ later) (hshow : .showOptions ∉ first ++ later) :
    trace Command.run Site.visible (first ++ later)
        ⟨views, .ofOptions { options with cacheEnabled := kept }⟩ =
      trace Command.run Site.visible (first ++ later)
        ⟨views, .ofOptions { options with cacheEnabled := kept' }⟩ := by
  obtain ⟨h, hstart⟩ := Site.twins_ofOptions views options kept kept'
  have hfirst : ∀ command ∈ first, Alike (Site.Twins True h h) command.run command.run := by
    intro command hmem
    refine Site.alike_run ?_ ?_ (fun _ _ => trivial) ?_
    · rintro name params rfl
      exact absurd hmem (hrender name params)
    · rintro name source params rfl
      exact absurd hmem (hsource name source params)
    · rintro rfl
      exact hshow (List.mem_append_left later hmem)
  have hlater : ∀ command ∈ later, Alike (Site.Twins False h h) command.run command.run := by
    intro command hmem
    refine Site.alike_run (fun _ _ _ => id) (fun _ _ _ _ => id) ?_ ?_
    · rintro step rfl
      exact absurd hmem (hregister step)
    · rintro rfl
      exact hshow (List.mem_append_right first hmem)
  rw [trace_append, trace_append, trace_eq_of_alike hfirst (fun _ _ => Site.visible_eq) hstart,
    trace_eq_of_alike hlater (fun _ _ => Site.visible_eq) (after_of_alike hfirst hstart).late]

/-- A step is added, and a source is rendered twice. The second time its view has been kept on one
side only. -/
theorem trace_cacheEnabled_twice :
    let commands : List Command := [.registerStep (.replace ['r'] ['a'] ['b']),
      .renderSource ['v'] ['a'] .unit, .renderSource ['v'] ['a'] .unit]
    let site (kept : Bool) : Site := ⟨.empty, .ofOptions { cacheEnabled := kept }⟩
    ((after Command.run commands (site true)).renderer.cache.find? ['v']).isSome = true ∧
      ((after Command.run commands (site false)).renderer.cache.find? ['v']).isSome = false ∧
      trace Command.run Site.visible commands (site true) =
        trace Command.run Site.visible commands (site false) := by
  refine ⟨by decide +kernel, by decide +kernel, ?_⟩
  exact trace_cacheEnabled {} .empty true false [.registerStep (.replace ['r'] ['a'] ['b'])]
    [.renderSource ['v'] ['a'] .unit, .renderSource ['v'] ['a'] .unit] (by simp) (by simp) (by simp)
    (by simp)

end Stencil
