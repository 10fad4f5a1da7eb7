import Stencil.Error

/-!
# Hosts

A host turns a source into compiled text. It has a pair of tags in force for each flavor, and it may
refuse another pair. A refusal is an error, and what it leaves of the host is up to the host.
-/

namespace Stencil

/-- What a compiler needs from its host. -/
class Host (σ : Type) where
  /-- The tags in force. -/
  tags : σ → Tags
  /-- Puts a pair in force for a flavor. -/
  setTags : Flavor → Delims → EStateM Error σ Unit
  /-- Compiles a source with the tags in force. -/
  compile : σ → Text → Except Error Text

end Stencil
