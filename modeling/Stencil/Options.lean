import Stencil.Tags

/-!
# Options

What can be chosen for a renderer, with the defaults.
-/

namespace Stencil

/-- The choices for a renderer. No tags and no keywords are ruled out. -/
structure Options where
  /-- For each flavor, the keyword of the directive that changes its tags. -/
  keywords : PerFlavor Text := ⟨"changecontenttags".toList, "changeescapedtags".toList⟩
  /-- The default tags. -/
  tags : Tags := ⟨⟨['{', '{'], ['}', '}']⟩, ⟨['{', '{', '{'], ['}', '}', '}']⟩⟩
  /-- Whether every rendering begins with the default tags. -/
  revertPerView : Bool := true
  /-- Whether compiled views are kept. -/
  cacheEnabled : Bool := true
  /-- How deep subviews may be nested. -/
  maxIncludeDepth : Nat := 32
  /-- The extension of the files that hold views. -/
  viewExtension : Text := "html".toList
deriving DecidableEq, Repr

end Stencil
