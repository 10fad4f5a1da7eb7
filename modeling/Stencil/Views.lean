import Stencil.Error
import Stencil.Table

/-!
# View stores

A view store binds names to the sources of views. A name that is bound is never bound to another
source without being removed first. Views that come from files are named after their paths.
-/

namespace Stencil

/-- The sources of views, by name. -/
abbrev Views := Table Text

namespace Views

/-- The name of the view at a path: the parts of the path with dots between them, without the
extensions of the last one. Both kinds of slash separate parts. -/
def nameOf (path : Text) : Text :=
  let parts := (Text.pieces (fun c => c == '/' || c == '\\') path).filter fun part =>
    part ≠ [] ∧ part ≠ ['.']
  let stem := parts.getLast?.map fun part => part.takeWhile (· ≠ '.')
  ['.'].intercalate (parts.dropLast ++ stem.toList)

/-- Binds a name to a source. A name that is bound to another source is a duplicate. -/
def register (name source : Text) (duplicate : LoadError) : EStateM LoadError Views Unit := do
  let views ← get
  match views.find? name with
  | none => set (views.insert name source)
  | some bound => if bound ≠ source then throw duplicate

def add (name source : Text) : EStateM LoadError Views Unit :=
  register name source (.duplicate name)

def remove (name : Text) : EStateM LoadError Views Unit := modify (Table.erase · name)

def addAssets (assets : List (Text × Text)) : EStateM LoadError Views Unit :=
  assets.forM fun (path, source) =>
    register (nameOf path) source (.duplicateAsset path (nameOf path))

end Views

end Stencil
