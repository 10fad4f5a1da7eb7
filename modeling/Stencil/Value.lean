import Stencil.Decimal
import Stencil.Table

/-!
# Values

What views can interpolate. A value has a text, and a value with parts has paths: `lookup` finds the
value of an expression, first as a whole name, then part by part between dots.
-/

namespace Stencil

/-- A value that a view can interpolate. The entries of a map stand in the order of their names. -/
inductive Value where
  | null
  | bool (b : Bool)
  | signed (n : Int64)
  | unsigned (n : UInt64)
  /-- A double, by its bits. -/
  | double (bits : UInt64)
  | str (s : Text)
  | list (items : List Value)
  | map (entries : List (Text × Value))

namespace Value

/-! ## The text of a value -/

mutual

/-- The text that an interpolation writes for a value. -/
def text : Value → Text
  | .null => []
  | .bool true => "true".toList
  | .bool false => "false".toList
  | .signed n => Text.ofInt n.toInt
  | .unsigned n => Text.ofNat n.toNat
  | .double bits => Decimal.text bits
  | .str s => s
  | .list items => [',', ' '].intercalate (itemTexts items)
  | .map entries => '{' :: [',', ' '].intercalate (entryTexts entries) ++ ['}']

def itemTexts : List Value → List Text
  | [] => []
  | v :: items => v.text :: itemTexts items

def entryTexts : List (Text × Value) → List Text
  | [] => []
  | (name, v) :: entries => (name ++ ':' :: ' ' :: v.text) :: entryTexts entries

end

/-! ## Look-up -/

/-- The entry of a map with a name. -/
def entry? : Value → Text → Option Value
  | .map entries, name => entries.lookup name
  | _, _ => none

/-- The part of a value with a name: the item of a list at a position, or the entry of a map. -/
def part? : Value → Text → Option Value
  | .list items, name => (Text.toNat? name).bind (items[·]?)
  | v, name => v.entry? name

/-- The value that a path of names leads to. -/
def walk? (v : Value) : List Text → Option Value
  | [] => some v
  | name :: path => (v.part? name).bind (walk? · path)

/-- The value that an expression stands for in `root`: the entry of that name, or else what the
names between its dots lead to, or else nothing. -/
def lookup (root : Value) (expr : Text) : Value :=
  match root.entry? expr with
  | some v => v
  | none =>
    match Text.pieces (· == '.') expr with
    | head :: next :: path => ((root.entry? head).bind (walk? · (next :: path))).getD .null
    | _ => .null

end Value

end Stencil
