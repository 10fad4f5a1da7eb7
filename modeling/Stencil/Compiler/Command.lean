import Stencil.Compiler

/-!
# Commands to a compiler

All that can be asked of a compiler from outside. A run of a compiler is a list of commands.
-/

namespace Stencil.Compiler

/-- A request to a compiler. -/
inductive Command where
  | compile (source : Text)
  | filter (flavor : Flavor) (source : Text)
  | pushTags (flavor : Flavor) (tags : Delims)
  | requestRevert (revert : Bool)
  | applyRevert
deriving DecidableEq, Repr

/-- Carries out a command. The answer is the text that it gives, if it gives one. -/
def Command.run {σ : Type} [Host σ] : Command → Action σ (Option Text)
  | .compile source => some <$> Compiler.compile source
  | .filter flavor source => some <$> Compiler.filter flavor source
  | .pushTags flavor tags => do Compiler.pushTags flavor tags; return none
  | .requestRevert revert => do Compiler.requestRevert revert; return none
  | .applyRevert => do Compiler.applyRevert; return none

end Stencil.Compiler
