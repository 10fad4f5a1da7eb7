import Stencil.Text

/-!
# Markup text

A text is written into markup with each of the five markup characters replaced by an entity.
-/

namespace Stencil.Text

/-- The entity of a markup character. -/
def entity? : Char → Option Text
  | '&' => some "&amp;".toList
  | '<' => some "&lt;".toList
  | '>' => some "&gt;".toList
  | '"' => some "&quot;".toList
  | '\'' => some "&#39;".toList
  | _ => none

/-- A text as it is written into markup. -/
def escapeMarkup (s : Text) : Text := s.flatMap fun c => (entity? c).getD [c]

end Stencil.Text
