import Stencil.Proofs.Renderer.Endings
import Stencil.Proofs.Renderer.Twins
import Stencil.Proofs.Views.Files
import Stencil.Site

/-!
# From compilers to sites

What the parts of a renderer and of a store keep is kept by the commands to a site
(`keeps_run_of_parts`), and so is what every command to a compiler keeps (`keeps_run`). So on every site
the histories and the tags in force stay in step (`inStep_after`), and no site comes to read with two
empty tags that are not among its options (`legible_after`).
-/

namespace Stencil

namespace Site

/-- The compilers are related, and the options are the same. -/
def Lift (R : Compiler Pipeline → Compiler Pipeline → Prop) (s s' : Site) : Prop :=
  Renderer.Lift R s.renderer s'.renderer

variable {R : Compiler Pipeline → Compiler Pipeline → Prop} [IsPreorder (Compiler Pipeline) R]

instance : IsPreorder Site (Lift R) where
  refl s := refl_of (Renderer.Lift R) s.renderer
  trans _ _ _ hf hs := trans_of (Renderer.Lift R) hf hs

theorem onRenderer_of_ok {α : Type} {action : Renderer.Action α} {s : Site} {r : Renderer} {a : α}
    (h : action s.renderer = .ok a r) : onRenderer action s = .ok a { s with renderer := r } := by
  rw [onRenderer, h]

theorem onRenderer_of_error {α : Type} {action : Renderer.Action α} {s : Site} {r : Renderer}
    {e : Error} (h : action s.renderer = .error e r) :
    onRenderer action s = .error (.compiling e) { s with renderer := r } := by
  rw [onRenderer, h]

/-! ### What is kept by a site -/

/-- The renderers are related, and so are the stores of views. -/
structure Parts (Q : Renderer → Renderer → Prop) (V : Views → Views → Prop) (s s' : Site) : Prop where
  renderer : Q s.renderer s'.renderer
  views : V s.views s'.views

section Parts

variable {Q : Renderer → Renderer → Prop} {V : Views → Views → Prop} [IsPreorder Views V]

theorem keeps_onRenderer {α : Type} {action : Renderer.Action α} (h : Keeps Q action) :
    Keeps (Parts Q V) (onRenderer action) := by
  intro s
  have hs := h s.renderer
  cases haction : action s.renderer with
  | ok a r =>
    rw [final_of_ok haction] at hs
    rw [final_of_ok (onRenderer_of_ok haction)]
    exact ⟨hs, refl_of V s.views⟩
  | error e r =>
    rw [final_of_error haction] at hs
    rw [final_of_error (onRenderer_of_error haction)]
    exact ⟨hs, refl_of V s.views⟩

variable [IsPreorder Renderer Q]

instance : IsPreorder Site (Parts Q V) where
  refl s := ⟨refl_of Q s.renderer, refl_of V s.views⟩
  trans _ _ _ hf hs := ⟨trans_of Q hf.renderer hs.renderer, trans_of V hf.views hs.views⟩

omit [IsPreorder Views V] in
theorem keeps_onViews {action : EStateM LoadError Views Unit} (h : Keeps V action)
    (failure : LoadError → Failure) : Keeps (Parts Q V) (onViews failure action) := by
  intro s
  have hs := h s.views
  unfold final at hs
  unfold final onViews
  cases haction : action s.views with
  | ok a views =>
    rw [haction] at hs
    exact ⟨refl_of Q s.renderer, hs⟩
  | error e views =>
    rw [haction] at hs
    exact ⟨refl_of Q s.renderer, hs⟩

theorem keeps_loadFiles
    (hregister : ∀ name source duplicate, Keeps V (Views.register name source duplicate))
    (failure : LoadError → Failure) (root : Text) (tree : FileTree) (below : Option Text)
    (extension : Text) : Keeps (Parts Q V) (loadFiles failure root tree below extension) := by
  refine keeps_onViews ?_ failure
  cases below with
  | none => exact Views.keeps_addFiles hregister _ _ _
  | some path => exact Views.keeps_addFiles hregister _ _ _

/-- A command to a site keeps what is kept by the commands to its compiler, by the compiling of a view
and by the removal of kept views, and of its store what is kept when a view is added to it or taken
away. -/
theorem keeps_run_of_parts
    (hcommand : ∀ command : Compiler.Command, Keeps Q (Renderer.onCompiler command.run))
    (hview : ∀ name source, Keeps Q (Renderer.compileView name source))
    (hforget : ∀ name, Keeps Q (Renderer.forget name)) (hflush : Keeps Q Renderer.flush)
    {command : Command}
    (hset : ∀ flavor tags, command = .setHostTags flavor tags →
      Keeps Q (Renderer.onCompiler (Compiler.setHostTags flavor tags)))
    (hstep : ∀ step, command = .registerStep step → Keeps Q (Renderer.registerStep step))
    (hregister : ∀ name source duplicate, Keeps V (Views.register name source duplicate))
    (hremove : ∀ name, command = .removeView name → Keeps V (Views.remove name)) :
    Keeps (Parts Q V) command.run := by
  have hrequest : Keeps Q (Renderer.onCompiler (Compiler.requestRevert true)) :=
    hcommand (.requestRevert true)
  have done {action : Renderer.Action Unit} (haction : Keeps Q action) :
      Keeps (Parts Q V) (do onRenderer action; return .done : Action Answer) :=
    (keeps_onRenderer haction).bind fun _ => .pure _
  cases command with
  | compiler command =>
    refine (keeps_onRenderer (hcommand command)).bind fun text => ?_
    split
    · exact .pure _
    · exact .pure _
  | runSteps source =>
    refine (keeps_onRenderer fun r => ?_).map _
    rw [Renderer.final_onCompiler, Compiler.final_compileHost]
    exact refl_of Q r
  | setHostTags flavor tags => exact done (hset flavor tags rfl)
  | registerStep step =>
    exact (keeps_onRenderer (hstep step rfl)).bind fun _ => Keeps.get.bind fun _ => .pure _
  | render name params =>
    refine Keeps.get.bind fun s => ?_
    exact (keeps_onRenderer (Renderer.keeps_render hview hrequest s.views name params)).bind
      fun _ => .pure _
  | renderSource name source params =>
    refine Keeps.get.bind fun s => ?_
    exact (keeps_onRenderer
      (Renderer.keeps_renderSource hview hrequest s.views name source params)).bind fun _ => .pure _
  | forget name => exact done (hforget name)
  | flush => exact done hflush
  | showOptions => exact Keeps.get.bind fun s => Keeps.pure (Answer.options s.renderer.options)
  | addView name source => exact keeps_onViews (hregister _ _ _) .loading
  | findView name => exact Keeps.get.bind fun s => Keeps.pure (Answer.found (s.views.find? name))
  | removeView name => exact keeps_onViews (hremove name rfl) .loading
  | addAssets assets => exact keeps_onViews (Views.keeps_addAssets hregister assets) .loading
  | addFiles root tree below extension => exact keeps_loadFiles hregister _ _ _ _ _
  | addViewFiles root tree below => exact Keeps.get.bind fun _ => keeps_loadFiles hregister _ _ _ _ _

end Parts

/-- The renderers are related. -/
def Related (Q : Renderer → Renderer → Prop) (s s' : Site) : Prop := Q s.renderer s'.renderer

section Related

variable {Q : Renderer → Renderer → Prop} [IsPreorder Renderer Q]

instance : IsPreorder Site (Related Q) where
  refl s := refl_of Q s.renderer
  trans _ _ _ hf hs := trans_of Q hf hs

/-- A command to a site keeps what is kept by the commands to its compiler, by the compiling of a view
and by the removal of kept views. -/
theorem keeps_run_of_renderer
    (hcommand : ∀ command : Compiler.Command, Keeps Q (Renderer.onCompiler command.run))
    (hview : ∀ name source, Keeps Q (Renderer.compileView name source))
    (hforget : ∀ name, Keeps Q (Renderer.forget name)) (hflush : Keeps Q Renderer.flush)
    {command : Command}
    (hset : ∀ flavor tags, command = .setHostTags flavor tags →
      Keeps Q (Renderer.onCompiler (Compiler.setHostTags flavor tags)))
    (hstep : ∀ step, command = .registerStep step → Keeps Q (Renderer.registerStep step)) :
    Keeps (Related Q) command.run := by
  intro s
  have hparts : Parts Q Anything s (final command.run s) :=
    keeps_run_of_parts hcommand hview hforget hflush hset hstep (fun _ _ _ => keeps_anything _)
      (fun _ _ => keeps_anything _) s
  exact hparts.renderer

end Related

/-- A command to a site keeps what every command to its compiler keeps. -/
theorem keeps_run (h : ∀ command : Compiler.Command, Keeps R command.run) {command : Command}
    (hset : ∀ flavor tags, command = .setHostTags flavor tags →
      Keeps R (Compiler.setHostTags flavor tags))
    (hregister : ∀ step, command = .registerStep step →
      Keeps (Renderer.Lift R) (Renderer.registerStep step)) :
    Keeps (Lift R) command.run :=
  keeps_run_of_renderer (fun command => Renderer.keeps_onCompiler (h command))
    (Renderer.keeps_compileView h) (fun _ => Renderer.keeps_modifyCache _)
    (Renderer.keeps_modifyCache _)
    (fun flavor tags heq => Renderer.keeps_onCompiler (hset flavor tags heq)) hregister

theorem tags_registerStep (step : Step) (r : Renderer) :
    (final (Renderer.registerStep step) r).compiler.tags = r.compiler.tags := by
  show (r.compiler.host.register step).tags = r.compiler.host.tags
  unfold Pipeline.register
  split
  · rfl
  · rfl

/-! ## Tags that are not both empty -/

theorem drifts_after (commands : List Command) (s : Site) :
    Lift Compiler.Drifts s (after Command.run commands s) := by
  refine keeps_after (fun command _ => keeps_run Compiler.kept_drifts.run ?_ ?_) s
  · exact fun flavor tags _ => Compiler.drifts_setHostTags flavor tags
  · exact fun step _ r => ⟨fun flavor => .inl (by rw [tags_registerStep]), rfl⟩

/-- **If no pair among the options consists of two empty tags, no rendering begins with one**, whatever
the site was asked before. -/
theorem legible_after {options : Options} (hne : ∀ flavor, options.tags.get flavor ≠ ⟨[], []⟩)
    (views : Views) (commands : List Command) :
    (after Command.run commands ⟨views, .ofOptions options⟩).renderer.begun.compiler.Legible :=
  fun _ => (drifts_after commands ⟨views, .ofOptions options⟩).compiler.readable hne

/-! ## Histories and tags in step -/

theorem settles_after {commands : List Command}
    (hset : ∀ flavor tags, .setHostTags flavor tags ∉ commands) (s : Site) :
    Lift (Compiler.Settles fun _ tags => tags.Full) s (after Command.run commands s) := by
  have hkept := Compiler.kept_settles Pipeline.lawful
  refine keeps_after (fun command hmem => keeps_run hkept.run ?_ ?_) s
  · rintro flavor tags rfl
    exact absurd hmem (hset flavor tags)
  · -- a new step changes neither the tags nor the histories
    exact fun step _ r => ⟨fun _ => ⟨[], .none (tags_registerStep step r) rfl⟩, rfl⟩

end Site

theorem Options.full_default (flavor : Flavor) : (({} : Options).tags.get flavor).Full := by
  cases flavor <;> decide

/-- **Histories and tags stay in step**: of a compiler over a lawful host that accepts its own tags,
whatever it is asked, and of a site with full default tags, whatever it is asked but to set tags
behind the back of its compiler. -/
theorem inStep_after :
    (∀ {σ : Type} [Host σ] {accepts : Flavor → Delims → Prop}, Host.Lawful σ accepts →
      ∀ (host : σ) (keywords : PerFlavor Text),
        (∀ flavor, accepts flavor ((Host.tags host).get flavor)) →
        ∀ commands : List Compiler.Command,
          Compiler.InStep (Host.tags host)
            (after Compiler.Command.run commands (.ofHost host keywords))) ∧
      ∀ options : Options, (∀ flavor, (options.tags.get flavor).Full) →
        ∀ (views : Views) (commands : List Site.Command),
          (∀ flavor tags, .setHostTags flavor tags ∉ commands) →
          Compiler.InStep options.tags
            (after Site.Command.run commands ⟨views, .ofOptions options⟩).renderer.compiler := by
  constructor
  · intro σ _ accepts lawful host keywords hhost commands
    refine Compiler.inStep_of_settles host keywords hhost ?_
    exact keeps_after (fun command _ => (Compiler.kept_settles lawful).run command) _
  · intro options hfull views commands hset
    exact Compiler.inStep_of_settles (Pipeline.ofTags options.tags) options.keywords hfull
      (Site.settles_after hset ⟨views, .ofOptions options⟩).compiler

/-- With the default tags: a pair that is accepted, one that is refused, and a rendering. -/
theorem inStep_after_refused :
    Host.Lawful Pipeline (fun _ tags => tags.Full) ∧
      (∀ flavor, (({} : Options).tags.get flavor).Full) ∧
      Compiler.InStep ({} : Options).tags
        (after Compiler.Command.run [.pushTags .plain ⟨['<'], ['>']⟩, .pushTags .escaped ⟨[], ['>']⟩]
          (.ofHost (Pipeline.ofTags ({} : Options).tags) ({} : Options).keywords)) ∧
      Compiler.InStep ({} : Options).tags
        (after Site.Command.run
          [.compiler (.pushTags .escaped ⟨[], ['>']⟩), .renderSource ['v'] ['<', 'a', '>'] .unit]
          ⟨.empty, .ofOptions {}⟩).renderer.compiler := by
  have hfull := Options.full_default
  obtain ⟨hcompiler, hsite⟩ := inStep_after
  exact ⟨Pipeline.lawful, hfull,
    hcompiler Pipeline.lawful (Pipeline.ofTags ({} : Options).tags) _ hfull _,
    hsite {} hfull .empty _ (by simp)⟩

end Stencil
