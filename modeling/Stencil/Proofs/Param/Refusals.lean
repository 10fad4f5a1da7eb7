import Stencil.Param

/-!
# Parameters that are refused

`refusals` lists everything about some parameters that a view cannot use, in the order in which it is
given and without stopping at the first. Conversion fails exactly if there is something, and then with
the first thing of the list (`toValue_eq_error_iff`).
-/

namespace Stencil

/-! ## The first of some errors -/

/-- A result that is an error if there are some, and then the first of these. -/
def TellsFirst {ε α : Type} (x : Except ε α) : List ε → Prop
  | [] => ∃ a, x = .ok a
  | e :: _ => x = .error e

namespace TellsFirst

variable {ε α β : Type} {x : Except ε α} {errors more : List ε}

theorem ok (a : α) : TellsFirst (.ok a : Except ε α) [] := ⟨a, rfl⟩

theorem error (e : ε) (errors : List ε) : TellsFirst (.error e : Except ε α) (e :: errors) := rfl

theorem bind {f : α → Except ε β} (hx : TellsFirst x errors)
    (hf : ∀ a, x = .ok a → TellsFirst (f a) more) : TellsFirst (x >>= f) (errors ++ more) := by
  cases errors with
  | nil =>
    obtain ⟨a, rfl⟩ := hx
    exact hf a rfl
  | cons e errors =>
    obtain rfl : x = .error e := hx
    exact .error e _

theorem map (hx : TellsFirst x errors) (f : α → β) : TellsFirst (x.map f) errors := by
  cases errors with
  | nil =>
    obtain ⟨a, rfl⟩ := hx
    exact ⟨f a, rfl⟩
  | cons e errors =>
    obtain rfl : x = .error e := hx
    exact .error e _

theorem eq_error_iff (hx : TellsFirst x errors) (e : ε) :
    x = .error e ↔ errors.head? = some e := by
  cases errors with
  | nil =>
    obtain ⟨a, rfl⟩ := hx
    simp
  | cons first errors =>
    obtain rfl : x = .error first := hx
    simp

theorem exists_ok_iff (hx : TellsFirst x errors) : (∃ a, x = .ok a) ↔ errors = [] := by
  cases errors with
  | nil => exact iff_of_true hx rfl
  | cons first errors =>
    obtain rfl : x = .error first := hx
    simp

end TellsFirst

namespace Param

/-! ## Names -/

/-- A string or an integer, possibly with wrappers around it. -/
def isName : Param → Bool
  | .signed _ | .unsigned _ | .char _ | .str _ | .variant _ => true
  | .present p | .wrapper _ p => isName p
  | _ => false

theorem keyName?_of_map_eq_ok {ε α : Type} {x : Except ε α} {f : α → Value} {v : Value}
    (h : x.map f = .ok v) (hf : ∀ a, keyName? (f a) = none) : keyName? v = none := by
  cases x with
  | ok a =>
    cases h
    exact hf a
  | error e => cases h

/-- What is given as a name is converted to a string or an integer, and nothing else is. -/
theorem isName_eq_of_toValue {p : Param} {v : Value} (h : toValue p = .ok v) :
    p.isName = (keyName? v).isSome := by
  fun_induction isName p with
  | case1 | case2 | case3 | case4 | case5 =>
    cases h
    rfl
  | case6 p ih | case7 _ p ih => exact ih h
  | case8 p =>
    have hnone : keyName? v = none := by
      cases p with
      | signed | unsigned | char | str | variant | present | wrapper => simp_all
      | wide | bytes | tupleVariant | structVariant | failure => cases h
      | variantOf | list | map | record => exact keyName?_of_map_eq_ok h fun _ => rfl
      | unit | bool | single | double | absent | emptyRecord =>
        cases h
        rfl
    rw [hnone]
    rfl

/-! ## What is refused -/

mutual

/-- All that is refused of some data, in the order in which it is given. -/
def refusals : Param → List ParamError
  | .wide type => [.wideInteger type]
  | .bytes _ => [.bytes]
  -- the content of these is not looked into
  | .tupleVariant name _ => [.tupleVariant name]
  | .structVariant name _ => [.structVariant name]
  | .failure message => [.custom message]
  | .present p | .wrapper _ p | .variantOf _ p => refusals p
  | .list items => refusalsOfItems items
  | .map halves => refusalsOfHalves false halves
  | .record _ fields => refusalsOfFields fields
  | _ => []

def refusalsOfItems : List Param → List ParamError
  | [] => []
  | p :: items => refusals p ++ refusalsOfItems items

/-- `pending` says whether a key waits for its value. A value without one is not looked into. -/
def refusalsOfHalves (pending : Bool) : List (Slot × Param) → List ParamError
  | [] => []
  | (.key, p) :: halves =>
    refusals p ++ ((if p.isName then [] else [.mapKey]) ++ refusalsOfHalves true halves)
  | (.value, p) :: halves =>
    (if pending then refusals p else [.valueWithoutKey]) ++ refusalsOfHalves false halves

def refusalsOfFields : List (Text × Param) → List ParamError
  | [] => []
  | (_, p) :: fields => refusals p ++ refusalsOfFields fields

end

mutual

theorem tellsFirst_toValue : ∀ p : Param, TellsFirst (toValue p) (refusals p)
  | .unit | .bool _ | .signed _ | .unsigned _ | .single _ | .double _ | .char _ | .str _ | .absent
  | .emptyRecord _ | .variant _ => .ok _
  | .wide _ | .bytes _ | .tupleVariant _ _ | .structVariant _ _ | .failure _ => .error _ _
  | .present p | .wrapper _ p => tellsFirst_toValue p
  | .variantOf _ p => (tellsFirst_toValue p).map _
  | .list items => (tellsFirst_toValues items).map _
  | .map halves => (tellsFirst_toEntries [] none halves).map _
  | .record _ fields => (tellsFirst_toFields [] fields).map _

theorem tellsFirst_toValues : ∀ items : List Param,
    TellsFirst (toValues items) (refusalsOfItems items)
  | [] => .ok _
  | p :: items =>
    (tellsFirst_toValue p).bind fun v _ => (tellsFirst_toValues items).map (v :: ·)

/-- The entries that are there already make no difference, and of the key that waits for its value only
that there is one. -/
theorem tellsFirst_toEntries (entries : Entries Value) (pending : Option Text) :
    ∀ halves : List (Slot × Param),
      TellsFirst (toEntries entries pending halves) (refusalsOfHalves pending.isSome halves)
  | [] => .ok _
  | (.key, p) :: halves => by
    refine (tellsFirst_toValue p).bind fun v hv => ?_
    rw [isName_eq_of_toValue hv]
    cases keyName? v with
    | none => exact .error _ _
    | some name => exact tellsFirst_toEntries entries (some name) halves
  | (.value, p) :: halves => by
    cases pending with
    | none => exact .error _ _
    | some name =>
      exact (tellsFirst_toValue p).bind fun v _ =>
        tellsFirst_toEntries (entries.insert name v) none halves

theorem tellsFirst_toFields (entries : Entries Value) : ∀ fields : List (Text × Param),
    TellsFirst (toFields entries fields) (refusalsOfFields fields)
  | [] => .ok _
  | (name, p) :: fields =>
    (tellsFirst_toValue p).bind fun v _ => tellsFirst_toFields (entries.insert name v) fields

end

theorem isSome_keyName?_iff (v : Value) : (keyName? v).isSome ↔
    (∃ s, v = .str s) ∨ (∃ n, v = .signed n) ∨ ∃ n, v = .unsigned n := by
  cases v <;> simp [keyName?]

/-- **Conversion fails with the first thing that is refused, and only if there is one**, at whatever
depth it is, in keys and in values that a later entry would replace too. A key is let through if it is
converted to a string or an integer. -/
theorem toValue_eq_error_iff (p : Param) :
    (∀ e, p.toValue = .error e ↔ p.refusals.head? = some e) ∧
      ((∃ v, p.toValue = .ok v) ↔ p.refusals = []) ∧
      ∀ v, p.toValue = .ok v →
        (p.isName = true ↔ (∃ s, v = .str s) ∨ (∃ n, v = .signed n) ∨ ∃ n, v = .unsigned n) := by
  have h := tellsFirst_toValue p
  refine ⟨h.eq_error_iff, h.exists_ok_iff, fun v hv => ?_⟩
  rw [isName_eq_of_toValue hv]
  exact isSome_keyName?_iff v

/-- A value that a later entry would replace, in a map in a key. -/
example : toValue (.map [(.key, .present (.list [.map [(.key, .char 'a'), (.value, .bytes []),
    (.key, .char 'a'), (.value, .unit)]])), (.value, .wide "u128".toList)]) = .error .bytes := rfl

end Param

end Stencil
