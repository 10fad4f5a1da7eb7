import Stencil.Proofs.Renderer.Cache

/-!
# Kept views that are newer than a state

A view is kept from an earlier state of a renderer on, or it was compiled since. If the steps have not
changed since, the ones of the second kind are faithful, whatever is to be said of the others
(`keeps_refreshed_compileView`). So views that were kept too long do no harm once they are gone.
-/

namespace Stencil

namespace Renderer

/-- With the same setup, all views that are kept were kept before or are faithful. -/
structure Refreshed (r r' : Renderer) : Prop where
  setup : r'.compiler.setup = r.compiler.setup
  kept : ∀ name view, r'.cache.find? name = some view →
    r.cache.find? name = some view ∨ view.Faithful r.compiler.setup

instance : IsPreorder Renderer Refreshed where
  refl _ := ⟨rfl, fun _ _ => .inl⟩
  trans r _ _ hf hs := by
    refine ⟨hs.setup.trans hf.setup, fun name view hfind => ?_⟩
    rcases hs.kept name view hfind with hmiddle | hfaithful
    · exact hf.kept name view hmiddle
    · exact .inr (hf.setup ▸ hfaithful)

theorem refreshed_of_onCompiler {r : Renderer} {c : Compiler Pipeline}
    (h : c.setup = r.compiler.setup) : Refreshed r { r with compiler := c } :=
  ⟨h, fun _ _ => .inl⟩

theorem keeps_refreshed_onCompiler {α : Type} {action : Compiler.Action Pipeline α}
    (h : Keeps Compiler.SameSetup action) : Keeps Refreshed (onCompiler action) := by
  intro r
  rw [final_onCompiler]
  exact refreshed_of_onCompiler (h r.compiler)

theorem keeps_refreshed_forget (name : Text) : Keeps Refreshed (forget name) := by
  refine fun r => ⟨rfl, fun key view hfind => .inl ?_⟩
  replace hfind : (r.cache.erase name).find? key = some view := hfind
  rw [Table.find?_erase] at hfind
  split at hfind
  · cases hfind
  · exact hfind

theorem keeps_refreshed_flush : Keeps Refreshed flush := fun _ =>
  ⟨rfl, fun _ _ hfind => nomatch hfind⟩

/-! ## Compiling views -/

/-- The view that is kept now is faithful, and no other one has changed. -/
theorem refreshed_compileFresh {r : Renderer} (hrevert : r.compiler.revertPending = false)
    (name source : Text) : Refreshed r (final (compileFresh name source) r) := by
  have hsetup := Compiler.kept_sameSetup.compile source r.compiler
  cases hcompile : Compiler.compile source r.compiler with
  | error e c =>
    rw [final_of_error hcompile] at hsetup
    rw [final_of_error (compileFresh_of_error hcompile name)]
    exact refreshed_of_onCompiler hsetup
  | ok text c =>
    rw [final_of_ok hcompile] at hsetup
    obtain ⟨changes, hmoved⟩ := Compiler.reached_of_compile_ok hrevert hcompile
    rw [final_of_ok (compileFresh_of_ok hcompile name),
      pushedSince_of_record r { r with compiler := c } hmoved.histories]
    refine ⟨hsetup, fun key view hfind => ?_⟩
    replace hfind : (r.cache.insert name _).find? key = some view := hfind
    rw [Table.find?_insert] at hfind
    split at hfind
    · cases hfind
      exact .inr (Compiler.faithful_of_compile hrevert hcompile hmoved.histories)
    · exact .inl hfind

/-- **A view that is compiled and kept is faithful**, even if views that are not are used on the
way. -/
theorem keeps_refreshed_compileView (name source : Text) :
    Keeps Refreshed (compileView name source) := by
  intro r
  have hsetup := Compiler.kept_sameSetup.applyRevert r.compiler
  have hrevert := Compiler.revertPending_applyRevert r.compiler
  cases happly : Compiler.applyRevert r.compiler with
  | error e c =>
    rw [final_of_error happly] at hsetup
    rw [compileView, final, bind_of_error (onCompiler_of_error happly)]
    exact refreshed_of_onCompiler hsetup
  | ok _ c =>
    rw [final_of_ok happly] at hsetup hrevert
    refine trans_of Refreshed (refreshed_of_onCompiler hsetup) ?_
    rw [final_congr (compileView_of_applyRevert_ok happly name source),
      final_congr (compileView_of_not_pending (r := { r with compiler := c }) hrevert name source)]
    split
    · split
      · have hpush (flavor : Flavor) (tags : Delims) :
            Keeps Refreshed (onCompiler (Compiler.pushTags flavor tags)) :=
          keeps_refreshed_onCompiler
            (Keeps.of_bind_pure (Compiler.kept_sameSetup.run (.pushTags flavor tags)))
        exact (keeps_pushAll hpush _).bind (fun _ => .pure _) _
      · exact refreshed_compileFresh hrevert name source
    · exact (keeps_refreshed_onCompiler (Compiler.kept_sameSetup.compile source)).bind
        (fun _ => .pure _) _

end Renderer

end Stencil
