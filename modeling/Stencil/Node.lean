import Stencil.Segment
import Stencil.Subview

/-!
# Nodes

A compiled view is a list of nodes: text, interpolated expressions and calls of subviews. `print`
writes nodes in compiled form, where a hash sign begins a mark.
-/

namespace Stencil

/-- A part of a compiled view. -/
inductive Node where
  /-- Text that stands for itself. -/
  | text (text : Text)
  /-- The value of an expression. -/
  | echo (flavor : Flavor) (expr : Text)
  /-- The view of a name. -/
  | subview (name : Text)
deriving DecidableEq, Repr

namespace Node

/-- A node in compiled form. -/
def print : Node → Text
  | .text s => Text.double '#' s
  | .echo flavor expr => Segment.mark flavor ++ Text.double '}' expr ++ ['}']
  | .subview name => Subview.mark ++ name ++ [']']

/-- Puts a character before nodes, as a part of the text with which they begin. -/
def prepend (c : Char) : List Node → List Node
  | .text s :: nodes => .text (c :: s) :: nodes
  | nodes => .text [c] :: nodes

end Node

end Stencil
