import Stencil.Proofs.Compiler.Steps
import Stencil.Proofs.Host.Pipeline

/-!
# The setup of a compiler over a pipeline

The keywords, the steps of the host and the bottoms of the histories are there from the start, and no
action of a compiler changes them (`kept_sameSetup`). They say with which tags the next source is
compiled if a revert is due (`applyRevert_of_full`).
-/

namespace Stencil

open TagChange (apply record)

namespace Compiler

/-- What a compiler over a pipeline is made from. -/
structure Setup where
  keywords : PerFlavor Text
  steps : List Step
  defaults : Tags

def setup (c : Compiler Pipeline) : Setup where
  keywords := c.keywords
  steps := c.host.steps
  defaults := c.histories.map (·.first)

def SameSetup (c c' : Compiler Pipeline) : Prop := c'.setup = c.setup

instance : IsPreorder (Compiler Pipeline) SameSetup where
  refl _ := rfl
  trans _ _ _ hf hs := Eq.trans hs hf

/-- From the same setup, the bottoms of the histories are the same. -/
theorem first_eq_of_setup {c c' : Compiler Pipeline} (h : c'.setup = c.setup) (flavor : Flavor) :
    (c'.histories.get flavor).first = (c.histories.get flavor).first := by
  have hdefaults : c'.histories.map (·.first) = c.histories.map (·.first) :=
    congrArg Setup.defaults h
  have hget := congrArg (·.get flavor) hdefaults
  rw [PerFlavor.get_map, PerFlavor.get_map] at hget
  exact hget

theorem Moved.setup_eq {changes : List TagChange} {c c' : Compiler Pipeline}
    (h : Moved changes c c') : c'.setup = c.setup := by
  have hdefaults : c'.histories.map (·.first) = c.histories.map (·.first) := by
    rw [h.histories]
    rfl
  rw [setup, setup, h.keywords, Pipeline.steps_of_granted h.host, hdefaults]

theorem keepsSetup_setHostTags (flavor : Flavor) (tags : Delims) :
    Keeps SameSetup (setHostTags flavor tags : Action Pipeline Unit) := by
  intro c
  have hsteps := Pipeline.steps_setTags flavor tags c.host
  cases hset : Host.setTags flavor tags c.host with
  | ok _ host =>
    rw [final_of_ok hset] at hsteps
    rw [final_of_ok (setHostTags_of_ok hset), SameSetup, setup, hsteps]
    rfl
  | error e host =>
    rw [final_of_error hset] at hsteps
    rw [final_of_error (setHostTags_of_error hset), SameSetup, setup, hsteps]
    rfl

/-- **No command changes the setup of a compiler.** -/
theorem kept_sameSetup : Kept SameSetup where
  reached := by
    rintro c c' ⟨changes, hm⟩
    exact hm.setup_eq
  request _ _ := rfl
  restore := by
    rintro start c' ⟨changes, hm⟩
    have hsteps : (Host.restore start.tags c'.host).steps = start.host.steps := by
      rw [Pipeline.steps_restore, Pipeline.steps_of_granted hm.host]
    rw [SameSetup, setup, hsteps]
    rfl

/-! ## The revert -/

/-- The tags that the next source is compiled with. -/
def startTags (c : Compiler Pipeline) : Tags := if c.revertPending then c.setup.defaults else c.tags

/-- The histories before the next source: a revert that is due records the defaults. -/
def startHistories (c : Compiler Pipeline) : PerFlavor History :=
  if c.revertPending then c.histories.map fun h => h.push h.first else c.histories

/-- A revert to full tags puts them in force and records them, if it is due. -/
theorem applyRevert_of_full {c : Compiler Pipeline}
    (hfull : ∀ flavor, (c.setup.defaults.get flavor).Full) :
    ∃ c', applyRevert c = .ok () c' ∧ c'.setup = c.setup ∧ c'.tags = c.startTags ∧
      c'.histories = c.startHistories ∧ c'.revertPending = false := by
  cases hrevert : c.revertPending with
  | false =>
    refine ⟨c, applyRevert_of_not_pending hrevert, rfl, ?_, ?_, hrevert⟩
    · rw [startTags, hrevert]
      rfl
    · rw [startHistories, hrevert]
      rfl
  | true =>
    have hplain : c.histories.plain.first.Full := hfull .plain
    have hescaped : c.histories.escaped.first.Full := hfull .escaped
    have happly := applyRevert_of_pending hrevert
    rw [bind_of_ok (pushTags_of_ok (Pipeline.setTags_of_full hplain _ _)),
      pushTags_of_ok (Pipeline.setTags_of_full hescaped _ _), ← TagChange.record_cons] at happly
    have hsetup := kept_sameSetup.applyRevert c
    have hpending := revertPending_applyRevert c
    rw [final_of_ok happly] at hsetup hpending
    refine ⟨_, happly, hsetup, ?_, ?_, hpending⟩
    · rw [startTags, hrevert]
      rfl
    · rw [startHistories, hrevert]
      rfl

end Compiler

end Stencil
