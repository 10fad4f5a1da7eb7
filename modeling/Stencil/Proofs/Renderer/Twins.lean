import Stencil.Proofs.Renderer.Cache

/-!
# Renderers that differ in their histories and kept views

Neither the histories above their bottoms nor the kept views, nor whether views are kept at all, have
a say in what a renderer does (`alike_render`).
-/

namespace Stencil

namespace Renderer

/-- Two renderers over twin compilers, with the same options but for the keeping of views, and with
faithful views only. Before the first rendering (`early`) no view is kept. -/
structure Twins (early : Prop) (h h' : PerFlavor History) (r r' : Renderer) : Prop where
  compiler : Compiler.Twins h h' r.compiler r'.compiler
  options : r.options = { r'.options with cacheEnabled := r.options.cacheEnabled }
  coherent : r.Coherent
  coherent' : r'.Coherent
  empty : early → r.cache = .empty ∧ r'.cache = .empty

variable {early : Prop} {h h' : PerFlavor History} {r r' : Renderer} {c c' : Compiler Pipeline}

theorem Twins.revertPerView_eq (ht : Twins early h h' r r') :
    r.options.revertPerView = r'.options.revertPerView := by
  rw [ht.options]

theorem Twins.maxIncludeDepth_eq (ht : Twins early h h' r r') :
    r.options.maxIncludeDepth = r'.options.maxIncludeDepth := by
  rw [ht.options]

theorem Twins.viewExtension_eq (ht : Twins early h h' r r') :
    r.options.viewExtension = r'.options.viewExtension := by
  rw [ht.options]

theorem Twins.onCompiler (ht : Twins early h h' r r') (hc : Compiler.Twins h h' c c')
    (hsetup : c.setup = r.compiler.setup) (hsetup' : c'.setup = r'.compiler.setup) :
    Twins early h h' { r with compiler := c } { r' with compiler := c' } :=
  ⟨hc, ht.options, ht.coherent.onCompiler hsetup, ht.coherent'.onCompiler hsetup', ht.empty⟩

theorem alike_onCompiler {α : Type} {action : Compiler.Action Pipeline α}
    (halike : Alike (Compiler.Twins h h') action action) (hkeeps : Keeps Compiler.SameSetup action) :
    Alike (Twins early h h') (onCompiler action) (onCompiler action) := by
  intro r r' ht
  have hsetup := hkeeps r.compiler
  have hsetup' := hkeeps r'.compiler
  rcases halike _ _ ht.compiler with ⟨a, c, c', hr, hr', hc⟩ | ⟨e, c, c', hr, hr', hc⟩
  · rw [final_of_ok hr] at hsetup
    rw [final_of_ok hr'] at hsetup'
    exact .inl ⟨a, _, _, onCompiler_of_ok hr, onCompiler_of_ok hr', ht.onCompiler hc hsetup hsetup'⟩
  · rw [final_of_error hr] at hsetup
    rw [final_of_error hr'] at hsetup'
    exact .inr ⟨e, _, _, onCompiler_of_error hr, onCompiler_of_error hr',
      ht.onCompiler hc hsetup hsetup'⟩

theorem alike_registerStep (hearly : early) (step : Step) :
    Alike (Twins early h h') (registerStep step) (registerStep step) := by
  intro r r' ht
  obtain ⟨hempty, hempty'⟩ := ht.empty hearly
  refine .inl ⟨(), _, _, rfl, rfl, ?_, ht.options, coherent_of_empty hempty,
    coherent_of_empty hempty', ht.empty⟩
  refine ⟨?_, ht.compiler.keywords, ht.compiler.revertPending, ht.compiler.bottoms,
    ht.compiler.grown⟩
  show r.compiler.host.register step = r'.compiler.host.register step
  rw [ht.compiler.host]

theorem alike_forget (name : Text) :
    Alike (Twins early h h') (forget name) (forget name) := by
  intro r r' ht
  refine .inl ⟨(), _, _, rfl, rfl, ht.compiler, ht.options, ht.coherent.erase name,
    ht.coherent'.erase name, fun hearly => ?_⟩
  obtain ⟨hempty, hempty'⟩ := ht.empty hearly
  show r.cache.erase name = _ ∧ r'.cache.erase name = _
  rw [hempty, hempty']
  exact ⟨rfl, rfl⟩

theorem alike_flush : Alike (Twins early h h') flush flush := fun _ _ ht =>
  .inl ⟨(), _, _, rfl, rfl, ht.compiler, ht.options, coherent_of_empty rfl, coherent_of_empty rfl,
    fun _ => ⟨rfl, rfl⟩⟩

/-! ## Rendering -/

section Rendering

variable (hlate : ¬early)

include hlate

/-- Both compile the view, whatever is kept. -/
theorem alike_compileView (name source : Text) :
    Alike (Twins early h h') (compileView name source) (compileView name source) := by
  intro r r' ht
  rcases Compiler.alike_compile source _ _ ht.compiler with
    ⟨text, c, c', hc, hc', htwins⟩ | ⟨e, c, c', hc, hc', htwins⟩
  · obtain ⟨cache, hview, hcoherent⟩ := compileView_of_ok ht.coherent hc name
    obtain ⟨cache', hview', hcoherent'⟩ := compileView_of_ok ht.coherent' hc' name
    exact .inl ⟨_, _, _, hview, hview', htwins, ht.options, hcoherent, hcoherent',
      fun hearly => absurd hearly hlate⟩
  · have hsetup := Compiler.kept_sameSetup.compile source r.compiler
    have hsetup' := Compiler.kept_sameSetup.compile source r'.compiler
    rw [final_of_error hc] at hsetup
    rw [final_of_error hc'] at hsetup'
    exact .inr ⟨_, _, _, compileView_of_error ht.coherent hc name,
      compileView_of_error ht.coherent' hc' name, ht.onCompiler htwins hsetup hsetup'⟩

omit hlate in
theorem alike_expand {subview : Text → Action Page}
    (hsub : ∀ name, Alike (Twins early h h') (subview name) (subview name)) (nodes : List Node) :
    Alike (Twins early h h') (expand subview nodes) (expand subview nodes) := by
  induction nodes with
  | nil => exact .pure _
  | cons node nodes ih =>
    cases node with
    | text s => exact ih.bind fun _ => .pure _
    | echo flavor expr => exact ih.bind fun _ => .pure _
    | subview name => exact (hsub name).bind fun _ => ih.bind fun _ => .pure _

/-- Tags flow from one subview to the next, so the two compilers are followed through all levels. -/
theorem alike_expandSubview (views : Views) (levels : Nat) (name : Text) :
    Alike (Twins early h h') (expandSubview views levels name)
      (expandSubview views levels name) := by
  induction levels generalizing name with
  | zero =>
    refine Alike.get_bind fun r r' ht => ?_
    rw [ht.maxIncludeDepth_eq]
    exact .throw _
  | succ levels ih =>
    unfold expandSubview
    split
    · exact .throw _
    · exact (alike_compileView hlate _ _).bind fun nodes => alike_expand ih nodes

theorem alike_expandView (views : Views) (levels : Nat) (name source : Text) :
    Alike (Twins early h h')
      (compileView name source >>= fun nodes => expand (expandSubview views levels) nodes)
      (compileView name source >>= fun nodes => expand (expandSubview views levels) nodes) :=
  (alike_compileView hlate name source).bind fun nodes =>
    alike_expand (alike_expandSubview hlate views levels) nodes

theorem alike_page (views : Views) (name source : Text) :
    Alike (Twins early h h') (page views name source) (page views name source) := by
  refine Alike.get_bind fun r r' ht => ?_
  rw [ht.revertPerView_eq, ht.maxIncludeDepth_eq]
  have hview : Alike (Twins early h h') _ _ :=
    alike_expandView hlate views r'.options.maxIncludeDepth name source
  show Alike _ (if r'.options.revertPerView then _ else _) (if r'.options.revertPerView then _ else _)
  split
  · exact (alike_onCompiler (Compiler.alike_requestRevert true) fun _ => rfl).bind fun _ => hview
  · exact hview

theorem alike_renderSource (views : Views) (name source : Text) (params : Param) :
    Alike (Twins early h h') (renderSource views name source params)
      (renderSource views name source params) := by
  unfold renderSource
  split
  · exact .throw _
  · exact (alike_page hlate views name source).map _

/-- **Renderings do not depend on kept views**, nor on what stands above the bottoms of the
histories. -/
theorem alike_render (views : Views) (name : Text) (params : Param) :
    Alike (Twins early h h') (render views name params) (render views name params) := by
  unfold render
  split
  · exact .throw _
  · exact alike_renderSource hlate views name _ params

end Rendering

/-! ## Renderings that begin with the defaults -/

/-- A renderer where the compilation of a page begins: the revert is due that the options ask for. -/
def begun (r : Renderer) : Renderer :=
  { r with compiler.revertPending := r.options.revertPerView || r.compiler.revertPending }

theorem page_eq (views : Views) (name source : Text) (r : Renderer) :
    page views name source r = (compileView name source >>= fun nodes =>
      expand (expandSubview views r.options.maxIncludeDepth) nodes) r.begun := by
  have hrequest : onCompiler (Compiler.requestRevert true) r =
      .ok () { r with compiler := { r.compiler with revertPending := true } } := rfl
  rw [page]
  refine (bind_of_ok rfl _).trans ?_
  show (if r.options.revertPerView then _ else _ : Action Page) r = _
  cases hrevert : r.options.revertPerView with
  | false =>
    have hbegun : r.begun = r := by rw [begun, hrevert]; rfl
    rw [hbegun]
    rfl
  | true =>
    have hbegun : r.begun = { r with compiler := { r.compiler with revertPending := true } } := by
      rw [begun, hrevert]
      rfl
    rw [hbegun, if_pos rfl, bind_of_ok hrequest]

theorem page_of_applyRevert_ok {r : Renderer} {c : Compiler Pipeline}
    (h : Compiler.applyRevert r.begun.compiler = .ok () c) (views : Views) (name source : Text) :
    page views name source r = (compileView name source >>= fun nodes =>
      expand (expandSubview views r.options.maxIncludeDepth) nodes) { r with compiler := c } := by
  rw [page_eq]
  exact bind_congr_state (compileView_of_applyRevert_ok h name source) _

theorem begun_of_revertPerView {r : Renderer} (h : r.options.revertPerView = true) :
    r.begun.compiler = { r.compiler with revertPending := true } := by
  rw [begun, h]
  rfl

/-- **A rendering that begins with the defaults depends on the setup and the options only**, with
faithful views. -/
theorem renderSource_of_setup_eq (hr : r.Coherent) (hr' : r'.Coherent)
    (hsetup : r.compiler.setup = r'.compiler.setup) (hoptions : r.options = r'.options)
    (hrevert : r'.options.revertPerView = true)
    (hfull : ∀ flavor, (r'.compiler.setup.defaults.get flavor).Full) (views : Views)
    (name source : Text) {params : Param} {root : Value} (hparams : params.toValue = .ok root) :
    answer (renderSource views name source params) r =
        answer (renderSource views name source params) r' ∧
      (final (renderSource views name source params) r).compiler.tags =
        (final (renderSource views name source params) r').compiler.tags := by
  have hrevert' : r.options.revertPerView = true := hoptions ▸ hrevert
  obtain ⟨c, happly, hc, htags, -, hpending⟩ := Compiler.applyRevert_of_full
    (c := { r.compiler with revertPending := true }) (hsetup ▸ hfull)
  obtain ⟨c', happly', hc', htags', -, hpending'⟩ := Compiler.applyRevert_of_full
    (c := { r'.compiler with revertPending := true }) hfull
  have hsetups : c'.setup = c.setup := hc'.trans (hsetup.symm.trans hc.symm)
  have htwins : Twins False c.histories c'.histories { r with compiler := c }
      { r' with compiler := c' } := by
    refine ⟨Compiler.twins_of_setup_eq hsetups ?_ (hpending'.trans hpending.symm), ?_,
      hr.onCompiler hc, hr'.onCompiler hc', False.elim⟩
    · rw [htags, htags']
      exact congrArg Compiler.Setup.defaults hsetup.symm
    · show r.options = { r'.options with cacheEnabled := r.options.cacheEnabled }
      rw [hoptions]
  have hrender : renderSource views name source params = Page.fill root <$> page views name source := by
    rw [renderSource, hparams]
  have hpage := page_of_applyRevert_ok (begun_of_revertPerView hrevert' ▸ happly) views name source
  have hpage' := page_of_applyRevert_ok (begun_of_revertPerView hrevert ▸ happly') views name source
  rw [show r'.options.maxIncludeDepth = r.options.maxIncludeDepth by rw [hoptions]] at hpage'
  have halike := (alike_expandView not_false views r.options.maxIncludeDepth name source).map
    (Page.fill root) (R := Twins False c.histories c'.histories)
  rw [hrender, answer_congr (map_congr_state hpage _), answer_congr (map_congr_state hpage' _),
    final_congr (map_congr_state hpage _), final_congr (map_congr_state hpage' _)]
  refine ⟨halike.answer_eq htwins, ?_⟩
  show Host.tags _ = Host.tags _
  rw [(halike.final htwins).compiler.host]

end Renderer

end Stencil
