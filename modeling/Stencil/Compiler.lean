import Stencil.Compiler.TagChange
import Stencil.Directive
import Stencil.Host
import Stencil.Tags.History

/-!
# Compilers

A compiler works over a host. It takes the directives that change tags out of a source, puts the
tags they ask for in force, and has the host compile the rest. For each flavor it keeps the history
of the pairs put in force; the defaults at the bottom can be put in force again before the next
source.
-/

namespace Stencil

/-- A host with the histories of its tags. -/
structure Compiler (σ : Type) where
  host : σ
  /-- For each flavor, the pairs put in force so far. -/
  histories : PerFlavor History
  /-- Whether the defaults are to be put in force before the next source. -/
  revertPending : Bool := false
  /-- For each flavor, the keyword of the directive that changes its tags. -/
  keywords : PerFlavor Text

namespace Compiler

variable {σ : Type}

/-- What a compiler does: it may fail, and the compiler it leaves is known in either case. -/
abbrev Action (σ α : Type) := EStateM Error (Compiler σ) α

variable [Host σ]

/-- A compiler over a host. The pairs in force are its defaults. -/
def ofHost (host : σ) (keywords : PerFlavor Text) : Compiler σ where
  host := host
  histories := (Host.tags host).map fun tags => ⟨tags, []⟩
  keywords := keywords

def tags (c : Compiler σ) : Tags := Host.tags c.host

/-- Asks the host to put a pair in force for a flavor. The histories stay as they are. -/
def setHostTags (flavor : Flavor) (tags : Delims) : Action σ Unit := fun c =>
  match Host.setTags flavor tags c.host with
  | .ok _ host => .ok () { c with host := host }
  | .error e host => .error e { c with host := host }

/-- Puts a pair in force for a flavor, and records it unless the host refuses it. -/
def pushTags (flavor : Flavor) (tags : Delims) : Action σ Unit := do
  setHostTags flavor tags
  modify fun c => { c with
    histories := c.histories.set flavor ((c.histories.get flavor).push tags) }

/-- Whether the defaults are put in force before the next source. -/
def requestRevert (revert : Bool) : Action σ Unit :=
  modify fun c => { c with revertPending := revert }

/-- Puts the defaults in force again if that is asked for. The request is used up in any case. -/
def applyRevert : Action σ Unit := do
  let c ← get
  if c.revertPending then
    set { c with revertPending := false }
    pushTags .plain c.histories.plain.first
    pushTags .escaped c.histories.escaped.first

/-- Makes the change that the arguments of a directive for `flavor` ask for. -/
def change (flavor : Flavor) (args : List Text) : Action σ Unit :=
  match TagChange.ofArgs flavor args with
  | .ok change => pushTags change.flavor change.tags
  | .error e => throw (.tags e)

/-- Takes the first directive of a flavor out of a source and makes its change. -/
def filter (flavor : Flavor) (source : Text) : Action σ Text := do
  let c ← get
  match Directive.find? (c.keywords.get flavor) source with
  | none => return source
  | some found =>
    change flavor found.args
    return Directive.strip found.text source

def compileHost (source : Text) : Action σ Text := fun c =>
  match Host.compile c.host source with
  | .ok s => .ok s c
  | .error e => .error e c

/-- Compiles a source: first the directive for plain tags, then the one for escaped tags, then the
steps of the host. -/
def pass (source : Text) : Action σ Text := do
  let source ← filter .plain source
  let source ← filter .escaped source
  compileHost source

/-- Runs an action, whether it fails or not. -/
def attempt (action : Action σ Unit) : Action σ Unit := fun c =>
  match action c with
  | .ok _ c => .ok () c
  | .error _ c => .ok () c

/-- Goes back to what was in force at an earlier time: takes the pairs recorded since then off the
histories, and asks the host for the earlier tags. -/
def rollback (start : Compiler σ) : Action σ Unit := do
  modify fun c => { c with
    histories :=
      .of fun flavor => (c.histories.get flavor).truncate (start.histories.get flavor).size }
  attempt (setHostTags .plain start.tags.plain)
  attempt (setHostTags .escaped start.tags.escaped)

/-- Compiles a source, after the revert if there is one. When it fails, the changes of tags that
were made for the source are taken back. -/
def compile (source : Text) : Action σ Text := do
  applyRevert
  let start ← get
  tryCatch (pass source) fun e => do
    rollback start
    throw e

end Compiler

end Stencil
