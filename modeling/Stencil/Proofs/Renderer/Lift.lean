import Stencil.Compiler.Command
import Stencil.Proofs.Action
import Stencil.Renderer

/-!
# From compilers to renderers

A renderer changes its compiler by commands, and never its options. So what every command to a
compiler keeps is kept by the compiling of a view (`keeps_compileView`), and a rendering keeps what is
kept by the compiling of every view (`keeps_render`).
-/

namespace Stencil

namespace Renderer

theorem onCompiler_of_ok {α : Type} {action : Compiler.Action Pipeline α} {r : Renderer}
    {c : Compiler Pipeline} {a : α} (h : action r.compiler = .ok a c) :
    onCompiler action r = .ok a { r with compiler := c } := by
  rw [onCompiler, h]

theorem onCompiler_of_error {α : Type} {action : Compiler.Action Pipeline α} {r : Renderer}
    {c : Compiler Pipeline} {e : Error} (h : action r.compiler = .error e c) :
    onCompiler action r = .error e { r with compiler := c } := by
  rw [onCompiler, h]

theorem final_onCompiler {α : Type} (action : Compiler.Action Pipeline α) (r : Renderer) :
    final (onCompiler action) r = { r with compiler := final action r.compiler } := by
  cases h : action r.compiler with
  | ok a c => rw [final_of_ok (onCompiler_of_ok h), final_of_ok h]
  | error e c => rw [final_of_error (onCompiler_of_error h), final_of_error h]

/-- The compilers are related, and the options are the same. -/
structure Lift (R : Compiler Pipeline → Compiler Pipeline → Prop) (r r' : Renderer) : Prop where
  compiler : R r.compiler r'.compiler
  options : r'.options = r.options

variable {R : Compiler Pipeline → Compiler Pipeline → Prop} [IsPreorder (Compiler Pipeline) R]

instance : IsPreorder Renderer (Lift R) where
  refl r := ⟨refl_of R r.compiler, rfl⟩
  trans _ _ _ hf hs := ⟨trans_of R hf.compiler hs.compiler, hs.options.trans hf.options⟩

omit [IsPreorder (Compiler Pipeline) R] in
theorem keeps_onCompiler {α : Type} {action : Compiler.Action Pipeline α} (h : Keeps R action) :
    Keeps (Lift R) (onCompiler action) := by
  intro r
  rw [final_onCompiler]
  exact ⟨h r.compiler, rfl⟩

/-- A change of the kept views. -/
theorem keeps_modifyCache (f : Renderer → Table CachedView) :
    Keeps (Lift R) (modify fun r => { r with cache := f r } : Action Unit) := fun r =>
  ⟨refl_of R r.compiler, rfl⟩

section Compiling

variable (h : ∀ command : Compiler.Command, Keeps R command.run)

include h

omit [IsPreorder (Compiler Pipeline) R] in
theorem keeps_onCompiler_compile (source : Text) :
    Keeps (Lift R) (onCompiler (Compiler.compile source)) :=
  keeps_onCompiler (Keeps.of_map (h (.compile source)))

theorem keeps_compileFresh (name source : Text) : Keeps (Lift R) (compileFresh name source) := by
  refine Keeps.get.bind fun start => (keeps_onCompiler_compile h source).bind fun text => ?_
  exact (keeps_modifyCache _).bind fun _ => .pure _

end Compiling

/-! ## Rendering

What is kept by the compiling of every view is kept by a rendering, whatever it says of a renderer. -/

section Rendering

variable {Q : Renderer → Renderer → Prop} [IsPreorder Renderer Q]

theorem keeps_pushAll
    (hpush : ∀ flavor tags, Keeps Q (onCompiler (Compiler.pushTags flavor tags)))
    (pushed : List (Flavor × Delims)) :
    Keeps Q (pushed.forM fun (flavor, tags) => onCompiler (Compiler.pushTags flavor tags)) :=
  .forM fun _ _ => hpush _ _

/-- Going through the nodes of a view, by induction on the nodes. -/
theorem keeps_expand {subview : Text → Action Page} (hsub : ∀ name, Keeps Q (subview name))
    (nodes : List Node) : Keeps Q (expand subview nodes) := by
  induction nodes with
  | nil => exact .pure _
  | cons node nodes ih =>
    cases node with
    | text s => exact ih.bind fun _ => .pure _
    | echo flavor expr => exact ih.bind fun _ => .pure _
    | subview name => exact (hsub name).bind fun _ => ih.bind fun _ => .pure _

variable (hview : ∀ name source, Keeps Q (compileView name source))

include hview

/-- A subview, by induction on the levels that are left. -/
theorem keeps_expandSubview (views : Views) (levels : Nat) (name : Text) :
    Keeps Q (expandSubview views levels name) := by
  induction levels generalizing name with
  | zero => exact Keeps.get.bind fun _ => .throw _
  | succ levels ih =>
    unfold expandSubview
    split
    · exact .throw _
    · exact (hview _ _).bind fun nodes => keeps_expand ih nodes

variable (hrequest : Keeps Q (onCompiler (Compiler.requestRevert true)))

include hrequest

theorem keeps_page (views : Views) (name source : Text) : Keeps Q (page views name source) := by
  refine Keeps.get.bind fun r => ?_
  have hpage : Keeps Q (compileView name source >>= fun nodes =>
      expand (expandSubview views r.options.maxIncludeDepth) nodes) :=
    (hview name source).bind fun nodes => keeps_expand (keeps_expandSubview hview views _) nodes
  show Keeps Q (if r.options.revertPerView then _ else _)
  split
  · exact hrequest.bind fun _ => hpage
  · exact hpage

theorem keeps_renderSource (views : Views) (name source : Text) (params : Param) :
    Keeps Q (renderSource views name source params) := by
  unfold renderSource
  split
  · exact .throw _
  · exact (keeps_page hview hrequest views name source).map _

theorem keeps_render (views : Views) (name : Text) (params : Param) :
    Keeps Q (render views name params) := by
  unfold render
  split
  · exact .throw _
  · exact keeps_renderSource hview hrequest views name _ params

end Rendering

/-- **The compiling of a view keeps what every command to the compiler keeps.** -/
theorem keeps_compileView (h : ∀ command : Compiler.Command, Keeps R command.run)
    (name source : Text) : Keeps (Lift R) (compileView name source) := by
  have hpush (flavor : Flavor) (tags : Delims) :
      Keeps (Lift R) (onCompiler (Compiler.pushTags flavor tags)) :=
    keeps_onCompiler (Keeps.of_bind_pure (h (.pushTags flavor tags)))
  refine (keeps_onCompiler (Keeps.of_bind_pure (h .applyRevert))).bind fun _ => Keeps.get.bind fun r => ?_
  split
  · split
    · exact (keeps_pushAll hpush _).bind fun _ => .pure _
    · exact keeps_compileFresh h name source
  · exact (keeps_onCompiler_compile h source).bind fun _ => .pure _

end Renderer

end Stencil
