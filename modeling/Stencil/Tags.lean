import Stencil.Text

/-!
# Tags

An interpolation stands between an opening and a closing tag. There are two flavors of it, each with
a pair of tags of its own: a plain one writes a value as it is, an escaped one writes it as markup
text.
-/

namespace Stencil

/-- How an interpolation writes its value. -/
inductive Flavor where
  /-- The text of the value as it is. -/
  | plain
  /-- The text of the value, with the markup characters escaped. -/
  | escaped
deriving DecidableEq, Repr

/-- The word by which messages name a flavor. -/
def Flavor.name : Flavor → Text
  | .plain => "content".toList
  | .escaped => "escaped".toList

structure Delims where
  opening : Text
  closing : Text
deriving DecidableEq, Repr

/-- The two tags with a blank between them. -/
def Delims.text (tags : Delims) : Text := tags.opening ++ ' ' :: tags.closing

/-- One thing for each flavor. -/
structure PerFlavor (α : Type) where
  plain : α
  escaped : α
deriving DecidableEq, Repr

namespace PerFlavor

variable {α β : Type}

def get (p : PerFlavor α) : Flavor → α
  | .plain => p.plain
  | .escaped => p.escaped

def set (p : PerFlavor α) : Flavor → α → PerFlavor α
  | .plain, a => { p with plain := a }
  | .escaped, a => { p with escaped := a }

def map (f : α → β) (p : PerFlavor α) : PerFlavor β := ⟨f p.plain, f p.escaped⟩

def of (f : Flavor → α) : PerFlavor α := ⟨f .plain, f .escaped⟩

@[simp] theorem get_set (p : PerFlavor α) (i : Flavor) (a : α) (j : Flavor) :
    (p.set i a).get j = if j = i then a else p.get j := by
  cases i <;> cases j <;> rfl

@[simp] theorem get_map (f : α → β) (p : PerFlavor α) (i : Flavor) :
    (p.map f).get i = f (p.get i) := by
  cases i <;> rfl

@[simp] theorem get_of (f : Flavor → α) (i : Flavor) : (of f).get i = f i := by
  cases i <;> rfl

@[ext] theorem ext_get {p q : PerFlavor α} (h : ∀ i, p.get i = q.get i) : p = q := by
  obtain ⟨a, b⟩ := p
  obtain ⟨c, d⟩ := q
  exact congr (congrArg mk (h .plain)) (h .escaped)

end PerFlavor

abbrev Tags := PerFlavor Delims

end Stencil
