import Stencil.Error
import Stencil.Value

/-!
# Parameters

The parameters of a view are given as structured data of the program that asks for it. `toValue`
keeps what a view can use and refuses the rest, with the first thing in order that it cannot use;
`ofValue` gives a value as data again.
-/

namespace Stencil

/-- The two halves in which an entry of a map is given. -/
inductive Slot where
  | key
  | value
deriving DecidableEq, Repr

inductive Param where
  | unit
  | bool (b : Bool)
  | signed (n : Int64)
  | unsigned (n : UInt64)
  /-- An integer of 128 bits, by the name of its type. -/
  | wide (type : Text)
  | single (bits : UInt32)
  | double (bits : UInt64)
  | char (c : Char)
  | str (s : Text)
  | bytes (content : List UInt8)
  | absent
  | present (p : Param)
  /-- A structure without fields. -/
  | emptyRecord (type : Text)
  /-- A structure around one thing. -/
  | wrapper (type : Text) (p : Param)
  /-- A variant of a sum without content, and one with one thing in it. -/
  | variant (name : Text)
  | variantOf (name : Text) (p : Param)
  | tupleVariant (name : Text) (items : List Param)
  | structVariant (name : Text) (fields : List (Text × Param))
  /-- A sequence or a tuple. -/
  | list (items : List Param)
  /-- A map, as the keys and values that are given for it. -/
  | map (halves : List (Slot × Param))
  | record (type : Text) (fields : List (Text × Param))
  /-- Data that fails with a message of its own. -/
  | failure (message : Text)

namespace Param

/-! ## To values -/

/-- The name under which a map holds an entry with this key. -/
def keyName? : Value → Option Text
  | .str s => some s
  | .signed n => some (Text.ofInt n.toInt)
  | .unsigned n => some (Text.ofNat n.toNat)
  | _ => none

mutual

def toValue : Param → Except ParamError Value
  | .unit => .ok .null
  | .bool b => .ok (.bool b)
  | .signed n => .ok (.signed n)
  | .unsigned n => .ok (.unsigned n)
  | .wide type => .error (.wideInteger type)
  | .single bits => .ok (.double (Decimal.widen bits))
  | .double bits => .ok (.double bits)
  | .char c => .ok (.str [c])
  | .str s => .ok (.str s)
  | .bytes _ => .error .bytes
  | .absent => .ok .null
  | .present p => toValue p
  | .emptyRecord _ => .ok .null
  | .wrapper _ p => toValue p
  | .variant name => .ok (.str name)
  | .variantOf name p => (toValue p).map fun v => .map [(name, v)]
  | .tupleVariant name _ => .error (.tupleVariant name)
  | .structVariant name _ => .error (.structVariant name)
  | .list items => (toValues items).map .list
  | .map halves => (toEntries [] none halves).map .map
  | .record _ fields => (toFields [] fields).map .map
  | .failure message => .error (.custom message)

def toValues : List Param → Except ParamError (List Value)
  | [] => .ok []
  | p :: items => do
    let v ← toValue p
    let values ← toValues items
    return v :: values

/-- Adds to the entries of a map what the halves give. A value belongs to the key given last, which
it uses up; a later entry replaces an earlier one of the same name. -/
def toEntries (entries : Entries Value) (pending : Option Text) :
    List (Slot × Param) → Except ParamError (Entries Value)
  | [] => .ok entries
  | (.key, p) :: halves => do
    match keyName? (← toValue p) with
    | some name => toEntries entries (some name) halves
    | none => .error .mapKey
  | (.value, p) :: halves => do
    match pending with
    | some name =>
      let v ← toValue p
      toEntries (entries.insert name v) none halves
    | none => .error .valueWithoutKey

/-- Adds to the entries of a map the fields of a structure. -/
def toFields (entries : Entries Value) :
    List (Text × Param) → Except ParamError (Entries Value)
  | [] => .ok entries
  | (name, p) :: fields => do
    let v ← toValue p
    toFields (entries.insert name v) fields

end

/-! ## From values -/

mutual

def ofValue : Value → Param
  | .null => .unit
  | .bool b => .bool b
  | .signed n => .signed n
  | .unsigned n => .unsigned n
  | .double bits => .double bits
  | .str s => .str s
  | .list items => .list (ofValues items)
  | .map entries => .map (ofEntries entries)

def ofValues : List Value → List Param
  | [] => []
  | v :: items => ofValue v :: ofValues items

/-- The entries of a map as keys and values in turn. -/
def ofEntries : List (Text × Value) → List (Slot × Param)
  | [] => []
  | (name, v) :: entries => (.key, .str name) :: (.value, ofValue v) :: ofEntries entries

end

end Param

end Stencil
