import Stencil.Proofs.Compiler.Setup
import Stencil.Proofs.Compiler.Twins
import Stencil.Proofs.Renderer.Lift

/-!
# Kept views

A kept view is faithful if compiling its source again, wherever the view may be used instead, gives its
nodes and makes its changes. With faithful views only, a view is compiled as if none were kept
(`compileView_of_ok`, `compileView_of_error`).
-/

namespace Stencil

open TagChange (apply record grouped)

/-- Wherever a kept view may be used, compiling its source gives its nodes and makes its changes. -/
def CachedView.Faithful (setup : Compiler.Setup) (view : CachedView) : Prop :=
  ∀ c : Compiler Pipeline, c.setup = setup → c.tags = view.before → c.revertPending = false →
    ∃ text c' changes, Compiler.compile view.source c = .ok text c' ∧
      Compiler.Moved changes c c' ∧ view.nodes = Node.ofCompiled text ∧ view.pushed = grouped changes

namespace Compiler

/-- Two compilers over pipelines that a compilation cannot tell apart. -/
theorem twins_of_setup_eq {c c' : Compiler Pipeline} (hsetup : c'.setup = c.setup)
    (htags : c'.tags = c.tags) (hrevert : c'.revertPending = c.revertPending) :
    Twins c.histories c'.histories c c' := by
  have hhost : c.host = c'.host := by
    have hsteps : c'.host.steps = c.host.steps := congrArg Setup.steps hsetup
    show (⟨c.tags, c.host.steps⟩ : Pipeline) = ⟨c'.tags, c'.host.steps⟩
    rw [htags, hsteps]
  exact .of_now hhost (congrArg Setup.keywords hsetup).symm hrevert.symm
    fun flavor => (first_eq_of_setup hsetup flavor).symm

theorem reached_of_compile_ok {c c' : Compiler Pipeline} {source text : Text}
    (hrevert : c.revertPending = false) (h : compile source c = .ok text c') : Reached c c' := by
  have hc : { c with revertPending := false } = c := by rw [← hrevert]
  rcases compile_cases source c with ⟨_, d, hcompile, hr⟩ | ⟨_, _, hcompile, -⟩ |
    ⟨_, _, _, -, -, hcompile⟩
  · rw [hcompile] at h
    cases h
    rwa [hc] at hr
  · rw [hcompile] at h
    cases h
  · rw [hcompile] at h
    cases h

/-- What a compilation gives is given again by every compiler that could use it. -/
theorem faithful_of_compile {start c : Compiler Pipeline} {source text : Text}
    {changes : List TagChange} (hrevert : start.revertPending = false)
    (h : compile source start = .ok text c) (hrecord : c.histories = record changes start.histories) :
    CachedView.Faithful start.setup
      ⟨Node.ofCompiled text, source, start.tags, grouped changes⟩ := by
  intro c₁ hsetup htags hrevert₁
  have htwins := twins_of_setup_eq hsetup htags (hrevert₁.trans hrevert.symm)
  rcases alike_compile source start c₁ htwins with ⟨text', d, c₁', hd, hc₁, htw⟩ | ⟨e, d, _, hd, -⟩
  · rw [h] at hd
    cases hd
    -- the changes that `c₁` makes are those that `start` has made
    obtain ⟨changes', hmoved⟩ := reached_of_compile_ok hrevert₁ hc₁
    obtain ⟨common, hcommon, hcommon₁⟩ := htw.grown
    refine ⟨text, c₁', changes', hc₁, hmoved, rfl, ?_⟩
    have hpairs : ∀ flavor, TagChange.pairs flavor changes = TagChange.pairs flavor changes' := by
      intro flavor
      rw [TagChange.pairs_eq_of_record_eq (hrecord.symm.trans hcommon) flavor,
        TagChange.pairs_eq_of_record_eq (hmoved.histories.symm.trans hcommon₁) flavor]
    simp only [grouped, hpairs]
  · rw [h] at hd
    cases hd

end Compiler

namespace Renderer

/-! ## Making changes again -/

theorem pushAll_of_full {pushed : List (Flavor × Delims)} (h : ∀ pair ∈ pushed, pair.2.Full)
    (r : Renderer) :
    (pushed.forM fun (flavor, tags) => onCompiler (Compiler.pushTags flavor tags) : Action Unit) r =
      .ok () { r with compiler := { r.compiler with
        host := { r.compiler.host with
          tags := apply (pushed.map TagChange.ofPair) r.compiler.host.tags }
        histories := record (pushed.map TagChange.ofPair) r.compiler.histories } } := by
  induction pushed generalizing r with
  | nil =>
    rw [List.map_nil, TagChange.record_nil]
    rfl
  | cons pair pushed ih =>
    obtain ⟨flavor, tags⟩ := pair
    have hset := Pipeline.setTags_of_full (h _ List.mem_cons_self) flavor r.compiler.host
    have hpush := onCompiler_of_ok (r := r) (Compiler.pushTags_of_ok hset)
    refine (bind_of_ok hpush _).trans ?_
    rw [ih (fun pair hp => h pair (List.mem_cons_of_mem _ hp)), List.map_cons,
      TagChange.record_cons _ (pushed.map TagChange.ofPair)]
    rfl

/-- Making the changes of a compilation again, grouped by flavor, leaves what the compilation
leaves. -/
theorem pushAll_of_moved {changes : List TagChange} {r : Renderer} {c : Compiler Pipeline}
    (h : Compiler.Moved changes r.compiler c) :
    ((grouped changes).forM fun (flavor, tags) => onCompiler (Compiler.pushTags flavor tags) :
      Action Unit) r = .ok () { r with compiler := c } := by
  have hfull : ∀ pair ∈ grouped changes, pair.2.Full := fun pair hp =>
    h.host.accepts Pipeline.lawful _ (TagChange.mem_of_mem_grouped hp)
  have hpairs := fun flavor => TagChange.pairs_grouped flavor changes
  have hhost := Pipeline.eq_of_granted h.host
  obtain ⟨host, histories, revertPending, keywords⟩ := c
  obtain ⟨-, rfl, rfl, rfl⟩ := h
  rw [pushAll_of_full hfull, TagChange.apply_congr hpairs, TagChange.record_congr hpairs, ← hhost]

/-! ## Coherent renderers -/

/-- All kept views are faithful. -/
def Coherent (r : Renderer) : Prop :=
  ∀ name view, r.cache.find? name = some view → view.Faithful r.compiler.setup

theorem coherent_of_empty {r : Renderer} (h : r.cache = .empty) : r.Coherent := by
  intro name view hfind
  rw [h] at hfind
  cases hfind

theorem Coherent.onCompiler {r : Renderer} {c : Compiler Pipeline} (hr : r.Coherent)
    (h : c.setup = r.compiler.setup) : Coherent { r with compiler := c } :=
  fun name view hfind => h ▸ hr name view hfind

theorem Coherent.insert {r : Renderer} (hr : r.Coherent) {view : CachedView}
    (h : view.Faithful r.compiler.setup) (name : Text) :
    Coherent { r with cache := r.cache.insert name view } := by
  intro key found hfind
  rw [Table.find?_insert] at hfind
  split at hfind
  · cases hfind
    exact h
  · exact hr key found hfind

theorem Coherent.erase {r : Renderer} (hr : r.Coherent) (name : Text) :
    Coherent { r with cache := r.cache.erase name } := by
  intro key found hfind
  rw [Table.find?_erase] at hfind
  split at hfind
  · cases hfind
  · exact hr key found hfind

/-! ## Compiling views -/

theorem cached?_eq_some {r : Renderer} {name source : Text} {view : CachedView}
    (h : r.cached? name source = some view) :
    r.cache.find? name = some view ∧ view.source = source ∧ view.before = r.compiler.tags := by
  rw [cached?, Option.filter_eq_some_iff] at h
  exact ⟨h.1, by simpa using h.2⟩

theorem pushedSince_of_record (start r : Renderer) {changes : List TagChange}
    (h : r.compiler.histories = record changes start.compiler.histories) :
    pushedSince start r = grouped changes := by
  have habove : ∀ flavor, (r.compiler.histories.get flavor).above
      (start.compiler.histories.get flavor).size = TagChange.pairs flavor changes := by
    intro flavor
    rw [h, TagChange.get_record, History.above_extend]
  simp only [pushedSince, habove, grouped]

theorem compileFresh_of_ok {r : Renderer} {source text : Text} {c : Compiler Pipeline}
    (h : Compiler.compile source r.compiler = .ok text c) (name : Text) :
    compileFresh name source r = .ok (Node.ofCompiled text) { r with
      compiler := c
      cache := r.cache.insert name
        ⟨Node.ofCompiled text, source, r.compiler.tags, pushedSince r { r with compiler := c }⟩ } := by
  rw [compileFresh]
  refine (bind_of_ok rfl _).trans ?_
  rw [bind_of_ok (onCompiler_of_ok h)]
  rfl

theorem compileFresh_of_error {r : Renderer} {source : Text} {e : Error} {c : Compiler Pipeline}
    (h : Compiler.compile source r.compiler = .error e c) (name : Text) :
    compileFresh name source r = .error e { r with compiler := c } := by
  rw [compileFresh]
  refine (bind_of_ok rfl _).trans ?_
  rw [bind_of_error (onCompiler_of_error h)]

theorem compileView_of_not_pending {r : Renderer} (h : r.compiler.revertPending = false)
    (name source : Text) :
    compileView name source r =
      (if r.options.cacheEnabled then
        match r.cached? name source with
        | some view => do
          view.pushed.forM fun (flavor, tags) => onCompiler (Compiler.pushTags flavor tags)
          return view.nodes
        | none => compileFresh name source
      else return Node.ofCompiled (← onCompiler (Compiler.compile source)) : Action (List Node)) r := by
  rw [compileView, bind_of_ok (onCompiler_of_ok (Compiler.applyRevert_of_not_pending h))]
  rfl

theorem compileView_of_applyRevert_ok {r : Renderer} {c : Compiler Pipeline}
    (h : Compiler.applyRevert r.compiler = .ok () c) (name source : Text) :
    compileView name source r = compileView name source { r with compiler := c } := by
  have hc : c.revertPending = false := by
    rw [← final_of_ok h]
    exact Compiler.revertPending_applyRevert r.compiler
  rw [compileView, bind_of_ok (onCompiler_of_ok h),
    bind_of_ok (onCompiler_of_ok (Compiler.applyRevert_of_not_pending hc))]

theorem compileView_of_ok_of_not_pending {r : Renderer} {source text : Text}
    {c : Compiler Pipeline} (hr : r.Coherent) (hrevert : r.compiler.revertPending = false)
    (h : Compiler.compile source r.compiler = .ok text c) (name : Text) :
    ∃ cache, compileView name source r =
        .ok (Node.ofCompiled text) { r with compiler := c, cache := cache } ∧
      Coherent { r with compiler := c, cache := cache } := by
  have hsetup := Compiler.kept_sameSetup.compile source r.compiler
  rw [final_of_ok h] at hsetup
  rw [compileView_of_not_pending hrevert]
  split
  · cases hcached : r.cached? name source with
    | none =>
      obtain ⟨changes, hmoved⟩ := Compiler.reached_of_compile_ok hrevert h
      have hview := Compiler.faithful_of_compile hrevert h hmoved.histories
      refine ⟨_, compileFresh_of_ok h name, ?_⟩
      rw [pushedSince_of_record r { r with compiler := c } hmoved.histories]
      exact (hr.onCompiler hsetup).insert (hsetup ▸ hview) name
    | some view =>
      obtain ⟨hfind, hsource, hbefore⟩ := cached?_eq_some hcached
      obtain ⟨text', c', changes, hok, hmoved, hnodes, hpushed⟩ :=
        hr name view hfind r.compiler rfl hbefore.symm hrevert
      rw [hsource, h] at hok
      cases hok
      refine ⟨r.cache, ?_, hr.onCompiler hsetup⟩
      show (view.pushed.forM _ >>= fun _ => pure view.nodes : Action (List Node)) r = _
      rw [hpushed, bind_of_ok (pushAll_of_moved hmoved), hnodes]
      rfl
  · refine ⟨r.cache, ?_, hr.onCompiler hsetup⟩
    rw [bind_of_ok (onCompiler_of_ok h)]
    rfl

theorem compileView_of_error_of_not_pending {r : Renderer} {source : Text} {e : Error}
    {c : Compiler Pipeline} (hr : r.Coherent) (hrevert : r.compiler.revertPending = false)
    (h : Compiler.compile source r.compiler = .error e c) (name : Text) :
    compileView name source r = .error e { r with compiler := c } := by
  rw [compileView_of_not_pending hrevert]
  split
  · cases hcached : r.cached? name source with
    | none => exact compileFresh_of_error h name
    | some view =>
      -- a view that is kept has been compiled, so compiling it does not fail
      obtain ⟨hfind, hsource, hbefore⟩ := cached?_eq_some hcached
      obtain ⟨text, c', changes, hok, -⟩ := hr name view hfind r.compiler rfl hbefore.symm hrevert
      rw [hsource, h] at hok
      cases hok
  · rw [bind_of_error (onCompiler_of_error h)]

/-- **With faithful views only, a view is compiled as if none were kept**, and all stay faithful. -/
theorem compileView_of_ok {r : Renderer} {source text : Text} {c : Compiler Pipeline}
    (hr : r.Coherent) (h : Compiler.compile source r.compiler = .ok text c) (name : Text) :
    ∃ cache, compileView name source r =
        .ok (Node.ofCompiled text) { r with compiler := c, cache := cache } ∧
      Coherent { r with compiler := c, cache := cache } := by
  have hsetup := Compiler.kept_sameSetup.applyRevert r.compiler
  have hrevert := Compiler.revertPending_applyRevert r.compiler
  cases happly : Compiler.applyRevert r.compiler with
  | error e start =>
    rw [Compiler.compile_of_applyRevert_error happly] at h
    cases h
  | ok _ start =>
    rw [final_of_ok happly] at hsetup hrevert
    rw [Compiler.compile_of_applyRevert_ok happly] at h
    rw [compileView_of_applyRevert_ok happly]
    exact compileView_of_ok_of_not_pending (hr.onCompiler hsetup) hrevert h name

theorem compileView_of_error {r : Renderer} {source : Text} {e : Error} {c : Compiler Pipeline}
    (hr : r.Coherent) (h : Compiler.compile source r.compiler = .error e c) (name : Text) :
    compileView name source r = .error e { r with compiler := c } := by
  have hsetup := Compiler.kept_sameSetup.applyRevert r.compiler
  have hrevert := Compiler.revertPending_applyRevert r.compiler
  cases happly : Compiler.applyRevert r.compiler with
  | error e' start =>
    rw [Compiler.compile_of_applyRevert_error happly] at h
    cases h
    rw [compileView, bind_of_error (onCompiler_of_error happly)]
  | ok _ start =>
    rw [final_of_ok happly] at hsetup hrevert
    rw [Compiler.compile_of_applyRevert_ok happly] at h
    rw [compileView_of_applyRevert_ok happly]
    exact compileView_of_error_of_not_pending (hr.onCompiler hsetup) hrevert h name

end Renderer

end Stencil
