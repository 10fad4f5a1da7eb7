import Mathlib.Data.List.Nodup
import Mathlib.Data.Option.Basic
import Stencil.Param

/-!
# What a map binds

A map is given as keys and values in turn, and a value belongs to the key that stands right before it:
between the two, another key would have replaced the first one and another value would have used it up.
So a map binds the name of each key that a value uses up to the last such value, and nothing else
(`toValue_map_binds`). Conversion goes through the keys and values with a pending name; what it does is
what a structure does that has a field for each key that is used up (`toFields_given`).
-/

namespace Stencil

/-- A value is a map that binds exactly the given names to the given values. -/
def Value.BindsExactly (v : Value) (bound : Text → Value → Prop) : Prop :=
  ∃ entries, v = .map entries ∧ Entries.Sorted entries ∧
    ∀ name w, entries.lookup name = some w ↔ bound name w

namespace Param

/-- The name that a key stands for. -/
def name? (key : Param) : Option Text := key.toValue.toOption.bind keyName?

/-- A value uses up a key: it stands right after it. The rest is what follows. -/
def Uses (halves : List (Slot × Param)) (key p : Param) (rest : List (Slot × Param)) : Prop :=
  ∃ before, halves = before ++ (.key, key) :: (.value, p) :: rest

/-- The last value for which a key of some name is used up. -/
def LastGiven (halves : List (Slot × Param)) (name : Text) (w : Value) : Prop :=
  ∃ key p rest, Uses halves key p rest ∧ key.name? = some name ∧ p.toValue = .ok w ∧
    ∀ key' p' rest', Uses rest key' p' rest' → key'.name? ≠ some name

/-- The value of the last field of some name. -/
def LastField (fields : List (Text × Param)) (name : Text) (w : Value) : Prop :=
  ∃ earlier p later, fields = earlier ++ (name, p) :: later ∧ p.toValue = .ok w ∧
    ∀ q, (name, q) ∉ later

/-- Whole entries as keys and values in turn. -/
def halvesOf (whole : List (Param × Param)) : List (Slot × Param) :=
  whole.flatMap fun entry => [(.key, entry.1), (.value, entry.2)]

/-! ## One step -/

section Step

variable {entries out : Entries Value} {pending : Option Text} {halves : List (Slot × Param)}

theorem bind_eq_ok_iff {ε α β : Type} {x : Except ε α} {f : α → Except ε β} {b : β} :
    x >>= f = .ok b ↔ ∃ a, x = .ok a ∧ f a = .ok b := by
  cases x with
  | ok a => exact ⟨fun h => ⟨a, rfl, h⟩, fun ⟨_, ha, h⟩ => by cases ha; exact h⟩
  | error e => exact ⟨nofun, fun ⟨_, ha, _⟩ => nomatch ha⟩

theorem name?_eq_some_iff {key : Param} {name : Text} :
    key.name? = some name ↔ ∃ v, key.toValue = .ok v ∧ keyName? v = some name := by
  rw [name?, Option.bind_eq_some_iff]
  cases key.toValue with
  | ok v => simp [Except.toOption]
  | error e => simp [Except.toOption]

/-- A key takes the place of the pending one. -/
theorem toEntries_of_name? {key : Param} {name : Text} (h : key.name? = some name) :
    toEntries entries pending ((.key, key) :: halves) = toEntries entries (some name) halves := by
  obtain ⟨v, hkey, hname⟩ := name?_eq_some_iff.mp h
  simp only [toEntries, hkey, bind, Except.bind, hname]

/-- Where a key has no name, nothing else is looked at. -/
theorem toEntries_of_name?_eq_none {key : Param} (h : key.name? = none) :
    ∃ e, ∀ entries pending halves,
      toEntries entries pending ((.key, key) :: halves) = .error e := by
  rw [name?] at h
  cases hkey : key.toValue with
  | error e => exact ⟨e, fun _ _ _ => by simp only [toEntries, hkey, bind, Except.bind]⟩
  | ok v =>
    have hname : keyName? v = none := by simpa [hkey, Except.toOption] using h
    exact ⟨.mapKey, fun _ _ _ => by simp only [toEntries, hkey, bind, Except.bind, hname]⟩

theorem toEntries_key_eq_ok_iff {key : Param} :
    toEntries entries pending ((.key, key) :: halves) = .ok out ↔
      ∃ name, key.name? = some name ∧ toEntries entries (some name) halves = .ok out := by
  cases hname : key.name? with
  | none =>
    obtain ⟨e, herror⟩ := toEntries_of_name?_eq_none hname
    simp [herror]
  | some name => simp [toEntries_of_name? hname]

/-- A value is bound to the pending name. -/
theorem toEntries_value_eq_ok_iff {p : Param} :
    toEntries entries pending ((.value, p) :: halves) = .ok out ↔
      ∃ name v, pending = some name ∧ p.toValue = .ok v ∧
        toEntries (entries.insert name v) none halves = .ok out := by
  cases pending with
  | none =>
    refine ⟨fun h => ?_, fun ⟨_, _, hpending, _⟩ => nomatch hpending⟩
    cases h
  | some name =>
    rw [toEntries]
    refine bind_eq_ok_iff.trans ⟨?_, ?_⟩
    · rintro ⟨v, hp, h⟩
      exact ⟨name, v, rfl, hp, h⟩
    · rintro ⟨_, v, ⟨⟩, hp, h⟩
      exact ⟨v, hp, h⟩

theorem toEntries_whole_eq_ok_iff {key p : Param} :
    toEntries entries pending ((.key, key) :: (.value, p) :: halves) = .ok out ↔
      ∃ name v, key.name? = some name ∧ p.toValue = .ok v ∧
        toEntries (entries.insert name v) none halves = .ok out := by
  simp only [toEntries_key_eq_ok_iff, toEntries_value_eq_ok_iff, Option.some.injEq]
  constructor
  · rintro ⟨_, hname, name, v, rfl, hp, h⟩
    exact ⟨_, v, hname, hp, h⟩
  · rintro ⟨name, v, hname, hp, h⟩
    exact ⟨name, hname, name, v, rfl, hp, h⟩

theorem toFields_cons_eq_ok_iff {name : Text} {p : Param} {fields : List (Text × Param)} :
    toFields entries ((name, p) :: fields) = .ok out ↔
      ∃ v, p.toValue = .ok v ∧ toFields (entries.insert name v) fields = .ok out := by
  rw [toFields, bind_eq_ok_iff]

end Step

/-! ## Structures -/

theorem lastField_cons_iff {fields : List (Text × Param)} {n name : Text} {p : Param} {w : Value} :
    LastField ((n, p) :: fields) name w ↔
      LastField fields name w ∨ name = n ∧ p.toValue = .ok w ∧ ∀ q, (name, q) ∉ fields := by
  constructor
  · rintro ⟨_ | ⟨first, earlier⟩, p', later, hfields, hp, hlater⟩
    · cases hfields
      exact .inr ⟨rfl, hp, hlater⟩
    · cases hfields
      exact .inl ⟨earlier, p', later, rfl, hp, hlater⟩
  · rintro (⟨earlier, p', later, rfl, hp, hlater⟩ | ⟨rfl, hp, hnot⟩)
    · exact ⟨(n, p) :: earlier, p', later, rfl, hp, hlater⟩
    · exact ⟨[], p, fields, rfl, hp, hnot⟩

/-- Fields keep the order of the entries, and the last one of a name is what it is bound to. By
induction on the fields, for whatever entries are there already. -/
theorem toFields_binds {fields : List (Text × Param)} {entries out : Entries Value}
    (hsorted : entries.Sorted) (h : toFields entries fields = .ok out) :
    out.Sorted ∧ ∀ name w, out.lookup name = some w ↔
      LastField fields name w ∨ (∀ q, (name, q) ∉ fields) ∧ entries.lookup name = some w := by
  induction fields generalizing entries with
  | nil =>
    cases h
    refine ⟨hsorted, fun name w => ?_⟩
    have hnot : ¬LastField [] name w := by
      rintro ⟨_, _, _, hfields, -⟩
      simp at hfields
    simp [hnot]
  | cons field fields ih =>
    obtain ⟨n, p⟩ := field
    obtain ⟨v, hp, h⟩ := toFields_cons_eq_ok_iff.mp h
    obtain ⟨hout, hlookup⟩ := ih (Entries.sorted_insert hsorted) h
    refine ⟨hout, fun name w => ?_⟩
    rw [hlookup, Entries.lookup_insert, lastField_cons_iff, or_assoc]
    by_cases hname : name = n
    · subst hname
      have hnot : ¬∀ q, (name, q) ∉ (name, p) :: fields := fun h => h p List.mem_cons_self
      simp only [if_true, Option.some.injEq, hp, Except.ok.injEq, true_and, hnot, false_and, or_false,
        and_comm]
    · simp [hname]

/-! ## Keys that are used up -/

/-- The fields that some keys and values amount to, where a name may be pending. -/
def given (pending : Option Text) : List (Slot × Param) → List (Text × Param)
  | [] => []
  | (.key, key) :: halves => given key.name? halves
  | (.value, p) :: halves => (pending.map (·, p)).toList ++ given none halves

theorem toFields_given {halves : List (Slot × Param)} {entries out : Entries Value}
    {pending : Option Text} (h : toEntries entries pending halves = .ok out) :
    toFields entries (given pending halves) = .ok out := by
  induction halves generalizing entries pending with
  | nil => exact h
  | cons half halves ih =>
    match half with
    | (.key, key) =>
      obtain ⟨name, hname, h⟩ := toEntries_key_eq_ok_iff.mp h
      rw [given, hname]
      exact ih h
    | (.value, p) =>
      obtain ⟨name, v, rfl, hp, h⟩ := toEntries_value_eq_ok_iff.mp h
      exact toFields_cons_eq_ok_iff.mpr ⟨v, hp, ih h⟩

/-- What comes before a key has no influence on what comes after it. -/
theorem given_append_key (pending : Option Text) (before : List (Slot × Param)) (key : Param)
    (halves : List (Slot × Param)) :
    given pending (before ++ (.key, key) :: halves) =
      given pending before ++ given key.name? halves := by
  induction before generalizing pending with
  | nil => rfl
  | cons half before ih =>
    match half with
    | (.key, other) => exact ih _
    | (.value, p) => rw [List.cons_append, given, given, ih, List.append_assoc]

theorem Uses.cons {halves rest : List (Slot × Param)} {key p : Param} (h : Uses halves key p rest)
    (half : Slot × Param) : Uses (half :: halves) key p rest := by
  obtain ⟨before, rfl⟩ := h
  exact ⟨half :: before, rfl⟩

/-- Each of the fields comes from a key that is used up, or from the pending name. -/
theorem uses_of_given {halves : List (Slot × Param)} {pending : Option Text} {name : Text} {p : Param}
    {earlier later : List (Text × Param)} (h : given pending halves = earlier ++ (name, p) :: later) :
    (∃ key rest, Uses halves key p rest ∧ key.name? = some name ∧ given none rest = later) ∨
      ∃ rest, pending = some name ∧ halves = (.value, p) :: rest ∧ given none rest = later := by
  induction halves generalizing pending earlier with
  | nil => simp [given] at h
  | cons half halves ih =>
    match half with
    | (.key, key) =>
      rcases ih h with ⟨key', rest, huses, hname, hrest⟩ | ⟨rest, hname, rfl, hrest⟩
      · exact .inl ⟨key', rest, huses.cons _, hname, hrest⟩
      · exact .inl ⟨key, rest, ⟨[], rfl⟩, hname, hrest⟩
    | (.value, q) =>
      have later_uses {earlier : List (Text × Param)}
          (h : given none halves = earlier ++ (name, p) :: later) :
          ∃ key rest, Uses ((.value, q) :: halves) key p rest ∧ key.name? = some name ∧
            given none rest = later := by
        rcases ih h with ⟨key, rest, huses, hname, hrest⟩ | ⟨_, hpending, -⟩
        · exact ⟨key, rest, huses.cons _, hname, hrest⟩
        · cases hpending
      cases pending with
      | none => exact .inl (later_uses h)
      | some n =>
        cases earlier with
        | nil =>
          obtain ⟨hfirst, hlater⟩ := List.cons.inj h
          cases hfirst
          exact .inr ⟨halves, rfl, rfl, hlater⟩
        | cons first earlier => exact .inl (later_uses (List.cons.inj h).2)

theorem given_of_uses {halves rest : List (Slot × Param)} {key p : Param} {name : Text}
    (h : Uses halves key p rest) (hname : key.name? = some name) :
    ∃ earlier, given none halves = earlier ++ (name, p) :: given none rest := by
  obtain ⟨before, rfl⟩ := h
  refine ⟨given none before, ?_⟩
  rw [given_append_key, hname]
  rfl

theorem mem_given_iff {halves : List (Slot × Param)} {name : Text} {p : Param} :
    (name, p) ∈ given none halves ↔ ∃ key rest, Uses halves key p rest ∧ key.name? = some name := by
  constructor
  · intro h
    obtain ⟨earlier, later, hsplit⟩ := List.append_of_mem h
    rcases uses_of_given hsplit with ⟨key, rest, huses, hname, -⟩ | ⟨_, hpending, -⟩
    · exact ⟨key, rest, huses, hname⟩
    · cases hpending
  · rintro ⟨key, rest, huses, hname⟩
    obtain ⟨earlier, hgiven⟩ := given_of_uses huses hname
    rw [hgiven]
    exact List.mem_append_right _ List.mem_cons_self

/-- The last field of a name is the last value for which a key of this name is used up. -/
theorem lastField_given_iff {halves : List (Slot × Param)} {name : Text} {w : Value} :
    LastField (given none halves) name w ↔ LastGiven halves name w := by
  constructor
  · rintro ⟨earlier, p, later, hsplit, hp, hlater⟩
    rcases uses_of_given hsplit with ⟨key, rest, huses, hname, rfl⟩ | ⟨_, hpending, -⟩
    · refine ⟨key, p, rest, huses, hname, hp, fun key' p' rest' huses' hname' => ?_⟩
      exact hlater p' (mem_given_iff.mpr ⟨key', rest', huses', hname'⟩)
    · cases hpending
  · rintro ⟨key, p, rest, huses, hname, hp, hlast⟩
    obtain ⟨earlier, hgiven⟩ := given_of_uses huses hname
    refine ⟨earlier, p, given none rest, hgiven, hp, fun q hmem => ?_⟩
    obtain ⟨key', rest', huses', hname'⟩ := mem_given_iff.mp hmem
    exact hlast key' q rest' huses' hname'

/-! ## Rearrangements -/

theorem toFields_eq_toEntries (entries : Entries Value) (fields : List (Text × Param)) :
    toFields entries fields =
      toEntries entries none (halvesOf (fields.map fun field => (.str field.1, field.2))) := by
  induction fields generalizing entries with
  | nil => rfl
  | cons field fields ih =>
    obtain ⟨name, p⟩ := field
    exact bind_congr fun v => ih (entries.insert name v)

/-- Two ends of some keys and values may take each other's place if a relation holds of what they are
converted to, from whatever the beginning has left. -/
theorem toEntries_append_rel
    {R : Except ParamError (Entries Value) → Except ParamError (Entries Value) → Prop} [Std.Refl R]
    {halves halves' : List (Slot × Param)}
    (h : ∀ entries pending, Entries.Sorted entries →
      R (toEntries entries pending halves) (toEntries entries pending halves'))
    (before : List (Slot × Param)) {entries : Entries Value} (hsorted : entries.Sorted)
    (pending : Option Text) :
    R (toEntries entries pending (before ++ halves))
      (toEntries entries pending (before ++ halves')) := by
  induction before generalizing entries pending with
  | nil => exact h entries pending hsorted
  | cons half before ih =>
    match half with
    | (.key, key) =>
      rw [List.cons_append, List.cons_append]
      cases hname : key.name? with
      | none =>
        obtain ⟨e, herror⟩ := toEntries_of_name?_eq_none hname
        rw [herror, herror]
        exact Std.Refl.refl _
      | some name =>
        rw [toEntries_of_name? hname, toEntries_of_name? hname]
        exact ih hsorted _
    | (.value, p) =>
      cases pending with
      | none => exact Std.Refl.refl (Except.error ParamError.valueWithoutKey)
      | some name =>
        rw [List.cons_append, List.cons_append, toEntries, toEntries]
        cases p.toValue with
        | error e => exact Std.Refl.refl _
        | ok v => exact ih (Entries.sorted_insert hsorted) none

/-- If the first of two conversions succeeds, the second one gives the same. -/
def Agrees {α : Type} (x y : Except ParamError α) : Prop := ∀ a, x = .ok a → y = .ok a

instance {α : Type} : Std.Refl (@Agrees α) := ⟨fun _ _ => id⟩

theorem Agrees.map {α β : Type} {x y : Except ParamError α} (h : Agrees x y) (f : α → β) :
    Agrees (x.map f) (y.map f) := by
  intro b hb
  cases x with
  | ok a =>
    rw [h a rfl]
    exact hb
  | error e => cases hb

/-- A key that no value follows is not used up. -/
theorem agrees_idle {after : List (Slot × Param)} (h : ∀ half ∈ after.head?, half.1 = .key)
    (entries : Entries Value) (pending : Option Text) (key : Param) :
    Agrees (toEntries entries pending ((.key, key) :: after)) (toEntries entries pending after) := by
  intro out hout
  obtain ⟨name, -, hafter⟩ := toEntries_key_eq_ok_iff.mp hout
  match after with
  | [] => exact hafter
  | (.key, other) :: after =>
    exact toEntries_key_eq_ok_iff.mpr (toEntries_key_eq_ok_iff.mp hafter)
  | (.value, p) :: after => cases h _ rfl

/-- Whole entries with different names can be given in any order. By induction on the permutation: two
neighbours that change places are bound in either order. -/
theorem agrees_perm {whole whole' : List (Param × Param)} (hperm : whole.Perm whole')
    (hnames : (whole.map fun entry => entry.1.name?).Nodup) (after : List (Slot × Param))
    {entries : Entries Value} (hsorted : entries.Sorted) (pending : Option Text) :
    Agrees (toEntries entries pending (halvesOf whole ++ after))
      (toEntries entries pending (halvesOf whole' ++ after)) := by
  induction hperm generalizing entries pending with
  | nil => exact fun _ => id
  | cons entry _ ih =>
    intro out hout
    obtain ⟨name, v, hname, hp, hrest⟩ := toEntries_whole_eq_ok_iff.mp hout
    refine toEntries_whole_eq_ok_iff.mpr ⟨name, v, hname, hp, ?_⟩
    exact ih (List.nodup_cons.mp hnames).2 (Entries.sorted_insert hsorted) none out hrest
  | swap first second rest =>
    intro out hout
    obtain ⟨name, v, hname, hp, hout⟩ := toEntries_whole_eq_ok_iff.mp hout
    obtain ⟨name', v', hname', hp', hrest⟩ := toEntries_whole_eq_ok_iff.mp hout
    have hne : name ≠ name' := by
      rintro rfl
      exact (List.nodup_cons.mp hnames).1 (by simp [hname, hname'])
    refine toEntries_whole_eq_ok_iff.mpr ⟨name', v', hname', hp', ?_⟩
    refine toEntries_whole_eq_ok_iff.mpr ⟨name, v, hname, hp, ?_⟩
    rw [← Entries.insert_comm hsorted hne]
    exact hrest
  | trans hfirst _ ih ih' =>
    intro out hout
    exact ih' ((hfirst.map _).nodup_iff.mp hnames) hsorted pending out
      (ih hnames hsorted pending out hout)

/-! ## Maps and structures -/

theorem toFields_bindsExactly {fields : List (Text × Param)} {out : Entries Value}
    (h : toFields [] fields = .ok out) : (Value.map out).BindsExactly (LastField fields) := by
  obtain ⟨hsorted, hlookup⟩ := toFields_binds List.Pairwise.nil h
  refine ⟨out, rfl, hsorted, fun name w => (hlookup name w).trans (or_iff_left ?_)⟩
  rintro ⟨-, hnone⟩
  cases hnone

theorem map_eq_ok_iff {x : Except ParamError (Entries Value)} {v : Value} :
    x.map Value.map = .ok v ↔ ∃ entries, x = .ok entries ∧ v = .map entries := by
  cases x with
  | ok entries => simp [Except.map, eq_comm]
  | error e => simp [Except.map]

theorem map_bindsExactly {halves : List (Slot × Param)} {v : Value}
    (h : (Param.map halves).toValue = .ok v) : v.BindsExactly (LastGiven halves) := by
  obtain ⟨out, hout, rfl⟩ := map_eq_ok_iff.mp h
  obtain ⟨_, ⟨⟩, hsorted, hlookup⟩ := toFields_bindsExactly (toFields_given hout)
  exact ⟨out, rfl, hsorted, fun name w => (hlookup name w).trans lastField_given_iff⟩

theorem record_bindsExactly {type : Text} {fields : List (Text × Param)} {v : Value}
    (h : (Param.record type fields).toValue = .ok v) : v.BindsExactly (LastField fields) := by
  obtain ⟨out, hout, rfl⟩ := map_eq_ok_iff.mp h
  exact toFields_bindsExactly hout

/-- Two ends of a map may take each other's place if they agree from whatever the beginning left. -/
theorem agrees_map {halves halves' : List (Slot × Param)}
    (h : ∀ entries pending, Entries.Sorted entries →
      Agrees (toEntries entries pending halves) (toEntries entries pending halves'))
    (before : List (Slot × Param)) :
    Agrees (Param.map (before ++ halves)).toValue (Param.map (before ++ halves')).toValue :=
  Agrees.map (toEntries_append_rel h before List.Pairwise.nil none) Value.map

theorem agrees_map_perm {whole whole' : List (Param × Param)} (hperm : whole.Perm whole')
    (hnames : (whole.map fun entry => entry.1.name?).Nodup) (before after : List (Slot × Param)) :
    Agrees (Param.map (before ++ halvesOf whole ++ after)).toValue
      (Param.map (before ++ halvesOf whole' ++ after)).toValue := by
  rw [List.append_assoc, List.append_assoc]
  exact agrees_map (fun _ pending h => agrees_perm hperm hnames after h pending) before

/-- A structure is a map of its fields. -/
theorem toValue_record (type : Text) (fields : List (Text × Param)) :
    (Param.record type fields).toValue =
      (Param.map (halvesOf (fields.map fun field => (.str field.1, field.2)))).toValue :=
  congrArg (Except.map Value.map) (toFields_eq_toEntries [] fields)

theorem agrees_record_perm {fields fields' : List (Text × Param)} (hperm : fields.Perm fields')
    (hnames : (fields.map Prod.fst).Nodup) (type : Text) (earlier later : List (Text × Param)) :
    Agrees (Param.record type (earlier ++ fields ++ later)).toValue
      (Param.record type (earlier ++ fields' ++ later)).toValue := by
  simp only [toValue_record, List.map_append, halvesOf, List.flatMap_append]
  refine agrees_map_perm (hperm.map _) ?_ _ _
  rw [List.map_map]
  have hsome : (fun entry : Param × Param => entry.1.name?) ∘
      (fun field : Text × Param => (Param.str field.1, field.2)) = some ∘ Prod.fst := rfl
  rw [hsome, ← List.map_map]
  exact hnames.map (Option.some_injective Text)

/-- Keys with the same name are one key. -/
theorem map_key_congr {key key' : Param} {name : Text} (h : key.name? = some name)
    (h' : key'.name? = some name) (before after : List (Slot × Param)) :
    (Param.map (before ++ (.key, key) :: after)).toValue =
      (Param.map (before ++ (.key, key') :: after)).toValue := by
  refine congrArg (Except.map Value.map)
    (toEntries_append_rel (R := Eq) (fun entries pending _ => ?_) before List.Pairwise.nil none)
  rw [toEntries_of_name? h, toEntries_of_name? h']

/-- **A map binds the name of each key that is used up to the last value given for it, and nothing
else**, and a structure the name of each field to its last value. So a key that no value follows makes
no difference, nor does the order of whole entries with different names, and an integer is the same key
as its decimal numeral. -/
theorem toValue_map_binds :
    (∀ halves v, (Param.map halves).toValue = .ok v → v.BindsExactly (LastGiven halves)) ∧
      (∀ type fields v, (Param.record type fields).toValue = .ok v →
        v.BindsExactly (LastField fields)) ∧
      (∀ before key after, (∀ half ∈ after.head?, half.1 = Slot.key) →
        Agrees (Param.map (before ++ (.key, key) :: after)).toValue
          (Param.map (before ++ after)).toValue) ∧
      (∀ before whole whole' after, whole.Perm whole' →
        (whole.map fun entry => entry.1.name?).Nodup →
        Agrees (Param.map (before ++ halvesOf whole ++ after)).toValue
          (Param.map (before ++ halvesOf whole' ++ after)).toValue) ∧
      (∀ type earlier fields fields' later, fields.Perm fields' → (fields.map Prod.fst).Nodup →
        Agrees (Param.record type (earlier ++ fields ++ later)).toValue
          (Param.record type (earlier ++ fields' ++ later)).toValue) ∧
      (∀ before n after, (Param.map (before ++ (.key, .signed n) :: after)).toValue =
        (Param.map (before ++ (.key, .str (Text.ofInt n.toInt)) :: after)).toValue) ∧
      ∀ before n after, (Param.map (before ++ (.key, .unsigned n) :: after)).toValue =
        (Param.map (before ++ (.key, .str (Text.ofNat n.toNat)) :: after)).toValue :=
  ⟨fun _ _ => map_bindsExactly, fun _ _ _ => record_bindsExactly,
    fun before key _ h => agrees_map (fun entries pending _ => agrees_idle h entries pending key) before,
    fun before _ _ after hperm hnames => agrees_map_perm hperm hnames before after,
    fun type earlier _ _ later hperm hnames => agrees_record_perm hperm hnames type earlier later,
    fun before _ after => map_key_congr rfl rfl before after,
    fun before _ after => map_key_congr rfl rfl before after⟩

/-- A key that is replaced, an entry, an entry with the same name as a string, and a key at the end;
fields in the other order. -/
theorem toValue_map_binds_seven :
    let halves : List (Slot × Param) := [(.key, .str ['a']), (.key, .signed 7), (.value, .bool true),
      (.key, .str ['7']), (.value, .unit), (.key, .char 'b')]
    let fields : List (Text × Param) := [(['a'], .unit), (['b'], .bool true)]
    let root : Value := .map [(['a'], .null), (['b'], .bool true)]
    (Param.map halves).toValue = .ok (.map [(['7'], .null)]) ∧
      (Value.map [(['7'], .null)]).BindsExactly (LastGiven halves) ∧
      (Param.record [] fields).toValue = .ok root ∧ root.BindsExactly (LastField fields) ∧
      (Param.record [] fields.reverse).toValue = .ok root := by
  intro halves fields root
  have hmap : (Param.map halves).toValue = .ok (.map [(['7'], .null)]) := rfl
  have hrecord : (Param.record [] fields).toValue = .ok root := rfl
  obtain ⟨hbinds, hfields, -, -, hperm, -, -⟩ := toValue_map_binds
  have hreverse := hperm [] [] fields fields.reverse [] fields.reverse_perm.symm (by decide)
  simp only [List.nil_append, List.append_nil] at hreverse
  exact ⟨hmap, hbinds _ _ hmap, hrecord, hfields _ _ _ hrecord, hreverse _ hrecord⟩

end Param

end Stencil
