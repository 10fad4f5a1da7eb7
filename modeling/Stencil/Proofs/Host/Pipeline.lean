import Stencil.Host.Pipeline
import Stencil.Proofs.Host.Requests

/-!
# Requests to a pipeline

A pipeline decides by the pair alone, so it is lawful (`lawful`): it accepts the pairs without an empty
tag. Requests set its tags and nothing else (`eq_of_granted`, `steps_restore`), so nothing but these
matters (`tagsOnly`).
-/

namespace Stencil

open TagChange (apply)

/-- Neither tag is empty. -/
def Delims.Full (tags : Delims) : Prop := tags.opening ≠ [] ∧ tags.closing ≠ []

instance (tags : Delims) : Decidable tags.Full := inferInstanceAs (Decidable (_ ∧ _))

theorem Delims.Full.ne_empty {tags : Delims} (h : tags.Full) : tags ≠ ⟨[], []⟩ :=
  fun heq => h.1 (congrArg Delims.opening heq)

namespace Pipeline

theorem setTags_of_full {tags : Delims} (h : tags.Full) (flavor : Flavor) (p : Pipeline) :
    Host.setTags flavor tags p = .ok () { p with tags := p.tags.set flavor tags } := by
  show setTags flavor tags p = _
  rw [setTags, if_neg (not_or.mpr h)]
  rfl

theorem setTags_of_not_full {tags : Delims} (h : ¬tags.Full) (flavor : Flavor) (p : Pipeline) :
    Host.setTags flavor tags p = .error (.tags (.emptyTag flavor tags)) p := by
  have hempty : tags.opening = [] ∨ tags.closing = [] :=
    Decidable.byContradiction fun hn => h (not_or.mp hn)
  show setTags flavor tags p = _
  rw [setTags, if_pos hempty]
  rfl

/-- **A pipeline accepts exactly the pairs without an empty tag.** -/
theorem lawful : Host.Lawful Pipeline fun _ tags => tags.Full where
  ok {flavor tags p p'} h := by
    by_cases hfull : tags.Full
    · rw [setTags_of_full hfull] at h
      cases h
      rfl
    · rw [setTags_of_not_full hfull] at h
      cases h
  error {flavor tags e p p'} h := by
    by_cases hfull : tags.Full
    · rw [setTags_of_full hfull] at h
      cases h
    · rw [setTags_of_not_full hfull] at h
      cases h
      rfl
  decides flavor tags p := by
    by_cases hfull : tags.Full
    · exact ⟨fun _ => hfull, fun _ => ⟨_, setTags_of_full hfull flavor p⟩⟩
    · refine ⟨fun ⟨p', h⟩ => ?_, fun h => absurd h hfull⟩
      rw [setTags_of_not_full hfull] at h
      cases h

theorem steps_setTags (flavor : Flavor) (tags : Delims) (p : Pipeline) :
    (final (Host.setTags flavor tags) p).steps = p.steps := by
  by_cases hfull : tags.Full
  · rw [final_of_ok (setTags_of_full hfull flavor p)]
  · rw [final_of_error (setTags_of_not_full hfull flavor p)]

theorem tags_setTags (flavor : Flavor) (tags : Delims) (p : Pipeline) :
    (final (Host.setTags flavor tags) p).tags =
      if tags.Full then p.tags.set flavor tags else p.tags := by
  by_cases hfull : tags.Full
  · rw [final_of_ok (setTags_of_full hfull flavor p), if_pos hfull]
  · rw [final_of_error (setTags_of_not_full hfull flavor p), if_neg hfull]

/-- Of earlier tags only those are in force again that are full. -/
theorem get_restore (tags : Tags) (p : Pipeline) (flavor : Flavor) :
    (Host.restore tags p).tags.get flavor =
      if (tags.get flavor).Full then tags.get flavor else p.tags.get flavor := by
  have hstep (other : Flavor) (p : Pipeline) :
      (final (Host.setTags other (tags.get other)) p).tags.get flavor =
        if flavor = other ∧ (tags.get other).Full then tags.get other else p.tags.get flavor := by
    rw [tags_setTags]
    by_cases hfull : (tags.get other).Full <;> simp [hfull]
  show (final (Host.setTags .escaped (tags.get .escaped))
    (final (Host.setTags .plain (tags.get .plain)) p)).tags.get flavor = _
  rw [hstep, hstep]
  cases flavor <;> simp

theorem steps_restore (tags : Tags) (p : Pipeline) : (Host.restore tags p).steps = p.steps := by
  rw [Host.restore, steps_setTags, steps_setTags]

theorem steps_of_granted {p p' : Pipeline} {changes : List TagChange}
    (h : Host.Granted p changes p') : p'.steps = p.steps := by
  induction h with
  | nil => rfl
  | accepted _ set ih => rw [← ih, ← final_of_ok set, steps_setTags]
  | refused _ set ih => rw [← ih, ← final_of_error set, steps_setTags]

/-- Requests set the tags and nothing else. -/
theorem eq_of_granted {p p' : Pipeline} {changes : List TagChange}
    (h : Host.Granted p changes p') : p' = { p with tags := apply changes p.tags } := by
  have htags : p'.tags = apply changes p.tags := h.tags_eq lawful.toExact
  rw [← htags, ← steps_of_granted h]

theorem tagsOnly (p : Pipeline) : Host.TagsOnly p := by
  refine .of_unique ?_
  rintro q q' ⟨first, hq⟩ ⟨second, hq'⟩ htags
  have hsteps : q.steps = q'.steps := by rw [steps_of_granted hq, steps_of_granted hq']
  show (⟨q.tags, q.steps⟩ : Pipeline) = ⟨q'.tags, q'.steps⟩
  rw [show q.tags = q'.tags from htags, hsteps]

end Pipeline

end Stencil
