import Stencil.Value

/-!
# Parts of values

A list holds its items and a map the values of its entries. `Everywhere` says a property of a value and
of all values in it, at whatever depth; `part?` leads to a value that is held (`holds_of_part?`).
-/

namespace Stencil.Value

/-- A value has another one directly in it. -/
inductive Holds : Value → Value → Prop
  | item {items : List Value} {v : Value} (h : v ∈ items) : Holds (.list items) v
  | entry {entries : Entries Value} {name : Text} {v : Value} (h : (name, v) ∈ entries) :
      Holds (.map entries) v

/-- A value and all values in it have a property. -/
inductive Everywhere (P : Value → Prop) : Value → Prop
  | intro {v : Value} (here : P v) (inside : ∀ w, Holds v w → Everywhere P w) : Everywhere P v

/-- The entries of all maps stand in the order of their names. -/
def Ordered : Value → Prop :=
  Everywhere fun v => ∀ entries, v = .map entries → Entries.Sorted entries

/-- No list has more than a number of items. -/
def Fits (bound : Nat) : Value → Prop :=
  Everywhere fun v => ∀ items, v = .list items → items.length ≤ bound

variable {P : Value → Prop}

theorem Everywhere.here {v : Value} : Everywhere P v → P v
  | .intro here _ => here

theorem Everywhere.inside {v w : Value} : Everywhere P v → Holds v w → Everywhere P w
  | .intro _ inside, h => inside w h

theorem everywhere_list_iff {items : List Value} :
    Everywhere P (.list items) ↔ P (.list items) ∧ ∀ v ∈ items, Everywhere P v := by
  constructor
  · intro h
    exact ⟨h.here, fun v hmem => h.inside (.item hmem)⟩
  · rintro ⟨here, hitems⟩
    refine .intro here ?_
    rintro w ⟨hmem⟩
    exact hitems w hmem

theorem everywhere_map_iff {entries : Entries Value} :
    Everywhere P (.map entries) ↔ P (.map entries) ∧ ∀ entry ∈ entries, Everywhere P entry.2 := by
  constructor
  · intro h
    exact ⟨h.here, fun entry hmem => h.inside (.entry hmem)⟩
  · rintro ⟨here, hentries⟩
    refine .intro here ?_
    rintro w (_ | hmem)
    exact hentries _ hmem

/-- A value without parts. -/
theorem everywhere_of_not_holds {v : Value} (hv : ∀ w, ¬Holds v w) (here : P v) : Everywhere P v :=
  .intro here fun w h => absurd h (hv w)

theorem ordered_list_iff {items : List Value} :
    (list items).Ordered ↔ ∀ v ∈ items, v.Ordered :=
  everywhere_list_iff.trans (and_iff_right nofun)

theorem ordered_map_iff {entries : Entries Value} :
    (map entries).Ordered ↔ entries.Sorted ∧ ∀ entry ∈ entries, entry.2.Ordered := by
  refine everywhere_map_iff.trans (and_congr_left' ⟨fun h => h entries rfl, ?_⟩)
  rintro h _ ⟨⟩
  exact h

theorem fits_list_iff {bound : Nat} {items : List Value} :
    (list items).Fits bound ↔ items.length ≤ bound ∧ ∀ v ∈ items, v.Fits bound := by
  refine everywhere_list_iff.trans (and_congr_left' ⟨fun h => h items rfl, ?_⟩)
  rintro h _ ⟨⟩
  exact h

theorem fits_map_iff {bound : Nat} {entries : Entries Value} :
    (map entries).Fits bound ↔ ∀ entry ∈ entries, entry.2.Fits bound :=
  everywhere_map_iff.trans (and_iff_right nofun)

@[simp] theorem fits_null (bound : Nat) : null.Fits bound :=
  everywhere_of_not_holds (by rintro w ⟨⟩) (by rintro items ⟨⟩)

@[simp] theorem fits_str (bound : Nat) (s : Text) : (str s).Fits bound :=
  everywhere_of_not_holds (by rintro w ⟨⟩) (by rintro items ⟨⟩)

/-! ## The parts that names lead to -/

theorem holds_of_part? {v w : Value} {name : Text} (h : v.part? name = some w) : Holds v w := by
  cases v with
  | list items =>
    obtain ⟨n, -, hitem⟩ := Option.bind_eq_some_iff.mp h
    exact .item (List.mem_of_getElem? hitem)
  | map entries =>
    obtain ⟨before, after, rfl, -⟩ := List.lookup_eq_some_iff.mp h
    exact .entry (List.mem_append_right _ List.mem_cons_self)
  | null | bool | signed | unsigned | double | str => cases h

theorem holds_of_entry {v w : Value} {name : Text} (h : v.entry? name = some w) : Holds v w := by
  cases v with
  | map entries => exact holds_of_part? h
  | null | bool | signed | unsigned | double | str | list => cases h

end Stencil.Value
