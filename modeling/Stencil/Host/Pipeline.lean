import Stencil.Host
import Stencil.Host.Step

/-!
# Pipelines

A pipeline is a host that runs a list of steps in order. It refuses a pair with an empty tag.
-/

namespace Stencil

/-- A host that runs steps in order. -/
structure Pipeline where
  tags : Tags
  steps : List Step

namespace Pipeline

/-- The pipeline of the two steps that are always there, with these tags in force. -/
def ofTags (tags : Tags) : Pipeline := ⟨tags, [.echos, .includes]⟩

/-- Adds a step: in the place of the step of that name, or else at the end. -/
def register (p : Pipeline) (step : Step) : Pipeline :=
  if p.steps.any (·.name = step.name) then
    { p with steps := p.steps.map fun s => if s.name = step.name then step else s }
  else { p with steps := p.steps ++ [step] }

def stepNames (p : Pipeline) : List Text := p.steps.map (·.name)

/-- Puts a pair in force unless one of its tags is empty. -/
def setTags (flavor : Flavor) (tags : Delims) : EStateM Error Pipeline Unit := do
  if tags.opening = [] ∨ tags.closing = [] then throw (.tags (.emptyTag flavor tags))
  modify fun p => { p with tags := p.tags.set flavor tags }

/-- Runs the steps in order, each on what the one before it gave. -/
def compile (p : Pipeline) (source : Text) : Except Error Text :=
  p.steps.foldlM (fun s step => step.run p.tags s) source

instance : Host Pipeline where
  tags := Pipeline.tags
  setTags := setTags
  compile := compile

end Pipeline

end Stencil
