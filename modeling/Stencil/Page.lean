import Stencil.Tags
import Stencil.Text.Markup
import Stencil.Value

/-!
# Pages

A page is a view with all its subviews in their places. Only the values of its expressions are
missing; `fill` puts them in.
-/

namespace Stencil

namespace Page

/-- A part of a page. -/
inductive Part where
  /-- Text that stands for itself. -/
  | text (text : Text)
  /-- The value of an expression. -/
  | echo (flavor : Flavor) (expr : Text)
deriving DecidableEq, Repr

/-- A text as an interpolation writes it. -/
def written : Flavor → Text → Text
  | .plain, s => s
  | .escaped, s => Text.escapeMarkup s

def Part.fill (root : Value) : Part → Text
  | .text s => s
  | .echo flavor expr => written flavor (root.lookup expr).text

end Page

abbrev Page := List Page.Part

def Page.fill (root : Value) (page : Page) : Text := page.flatMap (Part.fill root)

end Stencil
