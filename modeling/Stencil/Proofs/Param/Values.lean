import Stencil.Param
import Stencil.Proofs.Value.Parts

/-!
# Values given as parameters

Conversion gives values whose maps are in order, at whatever depth (`ordered_toValue`), and such a value
given as data again is converted to itself (`toValue_ofValue`). So conversion changes nothing that has
been converted already (`toValue_again`).
-/

namespace Stencil

/-- A result has a property, if there is one. -/
def IfOk {ε α : Type} (P : α → Prop) (x : Except ε α) : Prop := ∀ a, x = .ok a → P a

namespace IfOk

variable {ε α β : Type} {P : α → Prop} {Q : β → Prop} {x : Except ε α}

theorem ok {a : α} (h : P a) : IfOk P (.ok a : Except ε α) := by
  rintro _ ⟨⟩
  exact h

theorem error (e : ε) : IfOk P (.error e : Except ε α) := nofun

theorem bind {f : α → Except ε β} (hx : IfOk P x) (hf : ∀ a, P a → IfOk Q (f a)) :
    IfOk Q (x >>= f) := by
  cases x with
  | ok a => exact hf a (hx a rfl)
  | error e => exact error e

theorem map {f : α → β} (hx : IfOk P x) (hf : ∀ a, P a → Q (f a)) : IfOk Q (x.map f) := by
  cases x with
  | ok a => exact ok (hf a (hx a rfl))
  | error e => exact error e

end IfOk

namespace Value

theorem Ordered.insert {entries : Entries Value} {v : Value} (h : (map entries).Ordered)
    (hv : v.Ordered) (name : Text) : (map (entries.insert name v)).Ordered := by
  obtain ⟨hsorted, hentries⟩ := ordered_map_iff.mp h
  refine ordered_map_iff.mpr ⟨Entries.sorted_insert hsorted, fun entry hmem => ?_⟩
  rcases Entries.mem_insert hmem with rfl | hmem
  · exact hv
  · exact hentries entry hmem

theorem ordered_map_nil : (map []).Ordered :=
  ordered_map_iff.mpr ⟨List.Pairwise.nil, nofun⟩

end Value

namespace Param

/-! ## What is converted is in order -/

mutual

theorem ordered_toValue : ∀ p : Param, IfOk Value.Ordered (toValue p)
  | .unit | .bool _ | .signed _ | .unsigned _ | .single _ | .double _ | .char _ | .str _ | .absent
  | .emptyRecord _ | .variant _ => .ok (Value.everywhere_of_not_holds nofun nofun)
  | .wide _ | .bytes _ | .tupleVariant _ _ | .structVariant _ _ | .failure _ => .error _
  | .present p | .wrapper _ p => ordered_toValue p
  | .variantOf name p =>
    (ordered_toValue p).map fun _ hv => Value.Ordered.insert Value.ordered_map_nil hv name
  | .list items => (ordered_toValues items).map fun _ => Value.ordered_list_iff.mpr
  | .map halves => (ordered_toEntries Value.ordered_map_nil none halves).map fun _ h => h
  | .record _ fields => (ordered_toFields Value.ordered_map_nil fields).map fun _ h => h

theorem ordered_toValues : ∀ items : List Param,
    IfOk (fun values => ∀ v ∈ values, Value.Ordered v) (toValues items)
  | [] => .ok nofun
  | p :: items => (ordered_toValue p).bind fun _ hv =>
      (ordered_toValues items).map fun _ hvalues => List.forall_mem_cons.mpr ⟨hv, hvalues⟩

theorem ordered_toEntries {entries : Entries Value} (h : (Value.map entries).Ordered)
    (pending : Option Text) : ∀ halves : List (Slot × Param),
      IfOk (fun out => (Value.map out).Ordered) (toEntries entries pending halves)
  | [] => .ok h
  | (.key, p) :: halves => by
    refine (ordered_toValue p).bind fun v _ => ?_
    cases keyName? v with
    | none => exact .error _
    | some name => exact ordered_toEntries h (some name) halves
  | (.value, p) :: halves => by
    cases pending with
    | none => exact .error _
    | some name =>
      exact (ordered_toValue p).bind fun v hv => ordered_toEntries (h.insert hv name) none halves

theorem ordered_toFields {entries : Entries Value} (h : (Value.map entries).Ordered) :
    ∀ fields : List (Text × Param),
      IfOk (fun out => (Value.map out).Ordered) (toFields entries fields)
  | [] => .ok h
  | (name, p) :: fields =>
    (ordered_toValue p).bind fun _ hv => ordered_toFields (h.insert hv name) fields

end

/-! ## What is in order is converted to itself -/

mutual

theorem toValue_ofValue : ∀ v : Value, v.Ordered → toValue (ofValue v) = .ok v
  | .null, _ | .bool _, _ | .signed _, _ | .unsigned _, _ | .double _, _ | .str _, _ => rfl
  | .list items, h =>
    congrArg (Except.map Value.list) (toValues_ofValues items (Value.ordered_list_iff.mp h))
  | .map entries, h =>
    have ⟨hsorted, hentries⟩ := Value.ordered_map_iff.mp h
    congrArg (Except.map Value.map) (toEntries_ofEntries [] entries hsorted hentries)

theorem toValues_ofValues : ∀ items : List Value, (∀ v ∈ items, v.Ordered) →
    toValues (ofValues items) = .ok items
  | [], _ => rfl
  | v :: items, h => by
    obtain ⟨hv, hitems⟩ := List.forall_mem_cons.mp h
    rw [ofValues, toValues, toValue_ofValue v hv, toValues_ofValues items hitems]
    rfl

/-- The entries come in the order of their names, so each is added at the end. -/
theorem toEntries_ofEntries (before : Entries Value) : ∀ entries : Entries Value,
    Entries.Sorted (before ++ entries) → (∀ entry ∈ entries, entry.2.Ordered) →
      toEntries before none (ofEntries entries) = .ok (before ++ entries)
  | [], _, _ => by
    rw [List.append_nil]
    rfl
  | (name, v) :: entries, hsorted, h => by
    obtain ⟨hv, hentries⟩ := List.forall_mem_cons.mp h
    have hlast : ∀ entry ∈ before, entry.1 < name := fun entry hmem =>
      (List.pairwise_append.mp hsorted).2.2 entry hmem _ List.mem_cons_self
    have hinsert := Entries.insert_of_forall_lt v hlast
    have hrest := toEntries_ofEntries (before ++ [(name, v)]) entries
      (by rwa [List.append_assoc]) hentries
    rw [ofEntries]
    show (toValue (ofValue v) >>= fun w =>
      toEntries (before.insert name w) none (ofEntries entries)) = _
    rw [toValue_ofValue v hv]
    show toEntries (before.insert name v) none (ofEntries entries) = _
    rw [hinsert, hrest, List.append_assoc]
    rfl

end

/-- **Conversion changes nothing that has been converted.** A value is converted to itself exactly if
its maps are in order, at whatever depth; and what any data has been converted to is converted to
itself. -/
theorem toValue_again :
    (∀ v : Value, (ofValue v).toValue = .ok v ↔ v.Ordered) ∧
      ∀ (p : Param) (v : Value), p.toValue = .ok v → (ofValue v).toValue = .ok v :=
  ⟨fun v => ⟨ordered_toValue (ofValue v) v, toValue_ofValue v⟩,
    fun p v h => toValue_ofValue v (ordered_toValue p v h)⟩

/-- A list in a map in a structure, with numbers that are not finite and a name that is a number. -/
theorem toValue_again_nested :
    let p : Param := .record [] [(['b'], .single 0x7FC00000),
      (['a'], .map [(.key, .unsigned 7), (.value, .list [.signed (-1), .double 0xFFF8000000000001])])]
    let v : Value := .map [(['a'], .map [(['7'], .list [.signed (-1), .double 0xFFF8000000000001])]),
      (['b'], .double 0x7FF8000000000000)]
    p.toValue = .ok v ∧ (ofValue v).toValue = .ok v ∧ v.Ordered := by
  intro p v
  have hp : p.toValue = .ok v := rfl
  have hagain := toValue_again.2 p v hp
  exact ⟨hp, hagain, (toValue_again.1 v).mp hagain⟩

end Param

end Stencil
