import Stencil.Proofs.Node.Normal
import Stencil.Proofs.Renderer.Twins

/-!
# One part of a view after another

The parts of a view are expanded in order, and the tags in force flow from each to the next
(`filled_append`). Nothing else does: what comes after a part that leaves the tags as they were is what
it is alone (`filled_append_of_settled`).
-/

namespace Stencil

theorem Page.fill_append (root : Value) (page more : Page) :
    Page.fill root (page ++ more) = Page.fill root page ++ Page.fill root more :=
  List.flatMap_append

namespace Renderer

/-! ## Filled parts -/

variable {subview : Text → Action Page} {root : Value}

theorem expand_append (first second : List Node) :
    expand subview (first ++ second) = do
      let page ← expand subview first
      let more ← expand subview second
      return page ++ more := by
  induction first with
  | nil => simp [expand]
  | cons node first ih =>
    cases node <;>
      simp only [List.cons_append, expand, ih, bind_assoc, pure_bind, List.append_assoc]

/-- The text of some nodes, with `subview` for the calls of subviews. -/
def filled (subview : Text → Action Page) (root : Value) (nodes : List Node) : Action Text :=
  Page.fill root <$> expand subview nodes

theorem filled_append (first second : List Node) :
    filled subview root (first ++ second) = do
      let text ← filled subview root first
      let more ← filled subview root second
      return text ++ more := by
  simp only [filled, expand_append, map_bind, map_pure, bind_map_left, Page.fill_append]

theorem filled_prepend (c : Char) (nodes : List Node) :
    filled subview root (Node.prepend c nodes) = (c :: ·) <$> filled subview root nodes := by
  unfold Node.prepend
  split
  · simp [filled, expand, Page.fill, Page.Part.fill]
  · simp [filled, expand, Page.fill, Page.Part.fill]

/-- Text before nodes is text before what they give. -/
theorem filled_prependText (s : Text) (nodes : List Node) :
    filled subview root (Node.prependText s nodes) = (s ++ ·) <$> filled subview root nodes := by
  induction s with
  | nil => simp [Node.prependText]
  | cons c s ih =>
    show filled subview root (Node.prepend c (Node.prependText s nodes)) = _
    rw [filled_prepend, ih]
    simp

/-! ## Settled renderers -/

/-- A renderer with the setup and the options of `start`, with faithful views only and no revert
due. -/
structure Settled (start r : Renderer) : Prop where
  coherent : r.Coherent
  revertPending : r.compiler.revertPending = false
  setup : r.compiler.setup = start.compiler.setup
  options : r.options = start.options

def StaysSettled (r r' : Renderer) : Prop := ∀ start, Settled start r → Settled start r'

instance : IsPreorder Renderer StaysSettled where
  refl _ _ := id
  trans _ _ _ hf hs start := hs start ∘ hf start

theorem staysSettled_compileView (name source : Text) :
    Keeps StaysSettled (compileView name source) := by
  intro r start hr
  have hrevert := Compiler.revertPending_compile source r.compiler
  have hsetup := Compiler.kept_sameSetup.compile source r.compiler
  cases hcompile : Compiler.compile source r.compiler with
  | ok text c =>
    rw [final_of_ok hcompile] at hrevert hsetup
    obtain ⟨cache, hview, hcoherent⟩ := compileView_of_ok hr.coherent hcompile name
    rw [final_of_ok hview]
    exact ⟨hcoherent, hrevert, hsetup.trans hr.setup, hr.options⟩
  | error e c =>
    rw [final_of_error hcompile] at hrevert hsetup
    rw [final_of_error (compileView_of_error hr.coherent hcompile name)]
    exact ⟨hr.coherent.onCompiler hsetup, hrevert, hsetup.trans hr.setup, hr.options⟩

theorem staysSettled_filled (root : Value) (views : Views) (levels : Nat) (nodes : List Node) :
    Keeps StaysSettled (filled (expandSubview views levels) root nodes) :=
  (keeps_expand (keeps_expandSubview staysSettled_compileView views levels) nodes).map _

/-- Settled renderers with the same tags in force are twins. -/
theorem Settled.twins {start r r' : Renderer} (h : Settled start r) (h' : Settled start r')
    (htags : r'.compiler.tags = r.compiler.tags) :
    Twins False r.compiler.histories r'.compiler.histories r r' := by
  refine ⟨Compiler.twins_of_setup_eq (h'.setup.trans h.setup.symm) htags
    (h'.revertPending.trans h.revertPending.symm), ?_, h.coherent, h'.coherent, False.elim⟩
  rw [h.options, h'.options]

theorem alike_filled {h h' : PerFlavor History} (views : Views) (levels : Nat) (nodes : List Node) :
    Alike (Twins False h h') (filled (expandSubview views levels) root nodes)
      (filled (expandSubview views levels) root nodes) :=
  (alike_expand (alike_expandSubview not_false views levels) nodes).map _

/-- **What comes after a part that leaves the tags as they were is as it is alone.** -/
theorem filled_append_of_settled {start r₁ r₁' r₂ r₂' r : Renderer} (h₁ : Settled start r₁)
    (h₂ : Settled start r₂) (h : Settled start r) (htags : r.compiler.tags = r₁.compiler.tags)
    {views : Views} {levels : Nat} {first second : List Node} {x y : Text}
    (hx : filled (expandSubview views levels) root first r₁ = .ok x r₁')
    (hy : filled (expandSubview views levels) root second r₂ = .ok y r₂')
    (hback : r₂.compiler.tags = r₁'.compiler.tags) :
    answer (filled (expandSubview views levels) root (first ++ second)) r = .ok (x ++ y) := by
  rcases alike_filled views levels first r₁ r (h₁.twins h htags) with
    ⟨a, s, r', hs, hr', htwins⟩ | ⟨e, s, r', hs, -⟩
  · obtain ⟨rfl, rfl⟩ : x = a ∧ r₁' = s := by simpa using hx.symm.trans hs
    -- the first part leaves `r'`, from where the second one starts
    have hsettled : Settled start r' := by
      have hkeeps := staysSettled_filled root views levels first r start h
      rwa [final_of_ok hr'] at hkeeps
    have htags' : r'.compiler.tags = r₂.compiler.tags := by
      rw [hback]
      exact congrArg Pipeline.tags htwins.compiler.host.symm
    rcases alike_filled views levels second r₂ r' (h₂.twins hsettled htags') with
      ⟨b, s', r'', hs', hr'', -⟩ | ⟨e, s', r'', hs', -⟩
    · obtain ⟨rfl, rfl⟩ : y = b ∧ r₂' = s' := by simpa using hy.symm.trans hs'
      rw [filled_append, answer, bind_of_ok hr', bind_of_ok hr'']
      rfl
    · cases hy.symm.trans hs'
  · cases hx.symm.trans hs

end Renderer

end Stencil
