import Stencil.Proofs.Renderer.Siblings
import Stencil.Proofs.Site.Independent
import Stencil.Proofs.Subview.Calls

/-!
# Text that stands for itself

A source with no directive and no interpolation in it only has its hash signs doubled and its calls of
subviews compiled (`compile_of_bare`), and the reader of compiled text undoes the doubling. So a source
without calls is rendered as it stands, whatever it looks like otherwise, and nothing but a revert that
is due changes the tags (`renderSource_verbatim`).
-/

namespace Stencil

namespace Compiler

/-- A source without directives and interpolations changes no tags but those that a revert changes. -/
theorem compile_of_bare {c : Compiler Pipeline} {source : Text}
    (hfull : ∀ flavor, (c.setup.defaults.get flavor).Full)
    (hsteps : c.host.steps = [.echos, .includes])
    (hdirectives : ∀ flavor, Directive.find? (c.keywords.get flavor) source = none)
    (hbare : Segment.Bare c.startTags source) :
    ∃ c', compile source c = .ok (Subview.compileCalls (Text.double '#' source)) c' ∧
      c'.setup = c.setup ∧ c'.tags = c.startTags ∧ c'.histories = c.startHistories ∧
      c'.revertPending = false := by
  obtain ⟨start, happly, hsetup, htags, hhistories, hpending⟩ := applyRevert_of_full hfull
  have hkeywords : start.keywords = c.keywords := congrArg Setup.keywords hsetup
  have hfilter (flavor : Flavor) : filter flavor source start = .ok source start :=
    filter_of_none (hkeywords ▸ hdirectives flavor)
  have hhost : Host.compile start.host source =
      .ok (Subview.compileCalls (Text.double '#' source)) := by
    have hstart : start.host = Pipeline.ofTags c.startTags := by
      have hsame : start.host.steps = c.host.steps := congrArg Setup.steps hsetup
      show (⟨start.tags, start.host.steps⟩ : Pipeline) = ⟨c.startTags, [.echos, .includes]⟩
      rw [htags, hsame, hsteps]
    rw [hstart, ← Segment.compileEchos_of_bare hbare]
    exact Pipeline.compile_ofTags c.startTags source
  refine ⟨start, compile_of_pass_ok happly ?_, hsetup, htags, hhistories, hpending⟩
  rw [pass, bind_of_ok (hfilter .plain), bind_of_ok (hfilter .escaped), compileHost, hhost]

end Compiler

namespace Renderer

theorem filled_ofText {subview : Text → Action Page} {root : Value} (s : Text) :
    filled subview root (Node.ofText s) = pure s := by
  have hprepend : filled subview root (Node.prependText s []) = _ := filled_prependText s []
  rw [Node.prependText_of_separate (by simp), List.append_nil] at hprepend
  rw [hprepend]
  simp [filled, expand, Page.fill]

/-- A rendering of a source without directives and interpolations fills the calls of the source, from a
settled renderer. -/
theorem renderSource_of_bare {r : Renderer} {options : Options} (hr : r.Coherent)
    (hsetup : Lift Compiler.SameSetup (.ofOptions options) r)
    (hfull : ∀ flavor, (options.tags.get flavor).Full) {params : Param} {root : Value}
    (hparams : params.toValue = .ok root) (views : Views) (name : Text) {source : Text}
    (hdirectives : ∀ flavor, Directive.find? (options.keywords.get flavor) source = none)
    (hbare : Segment.Bare r.begun.compiler.startTags source) :
    ∃ start, Settled r start ∧ start.compiler.tags = r.begun.compiler.startTags ∧
      start.compiler.histories = r.begun.compiler.startHistories ∧
      renderSource views name source params r =
        filled (expandSubview views options.maxIncludeDepth) root
          (Node.ofCompiled (Subview.compileCalls (Text.double '#' source))) start := by
  obtain rfl : r.options = options := hsetup.options
  have hsame : r.begun.compiler.setup = (ofOptions r.options).compiler.setup := hsetup.compiler
  have hkeywords : r.begun.compiler.keywords = r.options.keywords :=
    congrArg Compiler.Setup.keywords hsame
  obtain ⟨c, hcompile, hc, htags, hhistories, hpending⟩ := Compiler.compile_of_bare
    (c := r.begun.compiler) (hsame ▸ hfull) (congrArg Compiler.Setup.steps hsame)
    (hkeywords ▸ hdirectives) hbare
  obtain ⟨cache, hview, hcoherent⟩ := compileView_of_ok (r := r.begun) hr hcompile name
  refine ⟨{ r with compiler := c, cache := cache }, ⟨hcoherent, hpending, hc, rfl⟩, htags,
    hhistories, ?_⟩
  have hpage := page_eq views name source r
  rw [bind_of_ok hview] at hpage
  rw [renderSource, hparams]
  exact map_congr_state hpage (Page.fill root)

end Renderer

open Site (Command)

/-- **Text without template syntax is rendered as it stands**, whatever the site was asked before, new
steps apart. A revert that is due records the defaults, and no other tags are recorded. -/
theorem renderSource_verbatim {options : Options}
    (hfull : ∀ flavor, (options.tags.get flavor).Full) (views : Views) (commands : List Command)
    (hregister : ∀ step, .registerStep step ∉ commands) (name : Text) {source : Text}
    {params : Param} {root : Value} (hparams : params.toValue = .ok root) :
    let site := after Command.run commands ⟨views, .ofOptions options⟩
    let c := site.renderer.compiler
    let reverts := options.revertPerView || c.revertPending
    let tags := if reverts then options.tags else c.tags
    let render := Renderer.renderSource site.views name source params
    ¬Subview.keyword <:+: source →
    (∀ flavor, Directive.find? (options.keywords.get flavor) source = none) →
    Segment.Bare tags source →
    answer render site.renderer = .ok source ∧
      (final render site.renderer).compiler.tags = tags ∧
      (final render site.renderer).compiler.histories =
        if reverts then c.histories.map fun h => h.push h.first else c.histories := by
  intro site c reverts tags render hcalls hdirectives hbare
  have hsame : Renderer.Lift Compiler.SameSetup (.ofOptions options) site.renderer :=
    Site.sameSetup_after hregister ⟨views, .ofOptions options⟩
  have hoptions : site.renderer.options = options := hsame.options
  have hbegun : site.renderer.begun.compiler = { c with revertPending := reverts } := by
    rw [Renderer.begun, hoptions]
  have htags : site.renderer.begun.compiler.startTags = tags := by
    rw [hbegun]
    show (if reverts then c.setup.defaults else c.tags) = tags
    rw [show c.setup.defaults = options.tags from congrArg Compiler.Setup.defaults hsame.compiler]
  obtain ⟨start, -, hstart, hhistories, hrender⟩ := Renderer.renderSource_of_bare
    (Site.coherent_after hregister views options) hsame hfull hparams site.views name hdirectives
    (htags ▸ hbare)
  -- the one text node is the source
  rw [Subview.compileCalls_of_absent hcalls, Node.ofCompiled_text, Renderer.filled_ofText]
    at hrender
  replace hrender : render site.renderer = .ok source start := hrender
  rw [answer_of_ok hrender, final_of_ok hrender]
  refine ⟨rfl, hstart.trans htags, hhistories.trans ?_⟩
  rw [hbegun]
  rfl

/-- After other plain tags were put in force: the default ones around a name, those in force around a
blank and one that nothing closes, and the beginnings of marks and of a call. -/
theorem renderSource_verbatim_marks :
    let options : Options := { revertPerView := false }
    let commands : List Command :=
      [.compiler (.pushTags .plain ⟨['<'], ['>']⟩), .renderSource ['v'] ['<', 'a', '>'] .unit]
    let site := after Command.run commands ⟨.empty, .ofOptions options⟩
    let c := site.renderer.compiler
    let source := "#\x7b# ##[é] \x7b\x7ba\x7d\x7d < > #!\x7bb\x7d <b @inclu\x7b".toList
    let render := Renderer.renderSource site.views ['v'] source .unit
    (∀ flavor, (options.tags.get flavor).Full) ∧ (∀ step, .registerStep step ∉ commands) ∧
      Param.unit.toValue = .ok .null ∧ ¬Subview.keyword <:+: source ∧
      (∀ flavor, Directive.find? (options.keywords.get flavor) source = none) ∧
      c.tags = ⟨⟨['<'], ['>']⟩, options.tags.escaped⟩ ∧ Segment.Bare c.tags source ∧
      ¬Segment.Bare options.tags source ∧
      answer render site.renderer = .ok source ∧
      (final render site.renderer).compiler.histories = c.histories := by
  intro options commands site c source render
  have hfull : ∀ flavor, (options.tags.get flavor).Full := Options.full_default
  have hregister : ∀ step, .registerStep step ∉ commands := by simp [commands]
  have hcalls : ¬Subview.keyword <:+: source := by decide +kernel
  have hdirectives : ∀ flavor, Directive.find? (options.keywords.get flavor) source = none := by
    intro flavor
    cases flavor <;> decide +kernel
  have htags : c.tags = ⟨⟨['<'], ['>']⟩, options.tags.escaped⟩ := by decide +kernel
  have hbare : Segment.Bare c.tags source := by decide +kernel
  have hreverts : (options.revertPerView || c.revertPending) = false := by decide +kernel
  have hparams : Param.unit.toValue = .ok .null := rfl
  obtain ⟨hanswer, -, hhistories⟩ := renderSource_verbatim hfull .empty commands hregister ['v']
    hparams hcalls hdirectives (hreverts ▸ hbare)
  replace hhistories : (final render site.renderer).compiler.histories =
    if options.revertPerView || c.revertPending then _ else c.histories := hhistories
  rw [hreverts] at hhistories
  exact ⟨hfull, hregister, hparams, hcalls, hdirectives, htags, hbare, by decide +kernel, hanswer,
    hhistories⟩

end Stencil
