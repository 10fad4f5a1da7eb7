import Stencil.Proofs.Action
import Stencil.Views

/-!
# What loading leaves

Loading adds pairs of a name and a source to a store. It succeeds exactly if no name gets two sources,
and then it leaves the union of the store and the pairs: `Loads` says this of an action, and it carries
over to actions one after the other (`Loads.bind`, `Loads.forM`). So neither the order of the pairs
matters nor how they are spread over the actions (`Loads.sameOutcome`).
-/

namespace Stencil

namespace Views

variable {views union : Views} {pairs more : List (Text × Text)}

/-! ## Unions -/

/-- A store binds a name to a source, or one of some pairs does. -/
def Bound (views : Views) (pairs : List (Text × Text)) (name source : Text) : Prop :=
  views.find? name = some source ∨ (name, source) ∈ pairs

/-- No name is bound to two sources. -/
def Consistent (views : Views) (pairs : List (Text × Text)) : Prop :=
  ∀ name first second, views.Bound pairs name first → views.Bound pairs name second → first = second

/-- A store binds what another store and some pairs bind, and nothing else. -/
def IsUnion (views : Views) (pairs : List (Text × Text)) (union : Views) : Prop :=
  ∀ name source, union.find? name = some source ↔ views.Bound pairs name source

theorem IsUnion.bound_iff (h : IsUnion views pairs union) {name source : Text} :
    union.Bound more name source ↔ views.Bound (pairs ++ more) name source := by
  rw [Bound, h name source, Bound, Bound, List.mem_append, or_assoc]

theorem IsUnion.consistent (h : IsUnion views pairs union) : views.Consistent pairs := by
  intro name first second hfirst hsecond
  have hfound := (h name first).mpr hfirst
  rw [(h name second).mpr hsecond] at hfound
  exact (Option.some.inj hfound).symm

theorem isUnion_nil (views : Views) : IsUnion views [] views := fun name source => by
  rw [Bound, or_iff_left List.not_mem_nil]

/-- There is at most one union, whatever the order of the pairs. -/
theorem IsUnion.unique {union' : Views} (h : IsUnion views pairs union)
    (h' : IsUnion views more union') (hpairs : ∀ pair, pair ∈ pairs ↔ pair ∈ more) :
    union = union' := by
  refine Table.ext_find? fun name => Option.ext fun source => ?_
  rw [h name source, h' name source, Bound, Bound, hpairs]

/-! ## Actions that load -/

/-- An action adds some pairs to whatever store: it leaves the union, or a name has two sources and it
fails. -/
def Loads (action : EStateM LoadError Views Unit) (pairs : List (Text × Text)) : Prop :=
  ∀ views, (∃ union, action views = .ok () union ∧ IsUnion views pairs union) ∨
    (∃ e left, action views = .error e left) ∧ ¬views.Consistent pairs

namespace Loads

variable {action next : EStateM LoadError Views Unit}

theorem pure : Loads (Pure.pure ()) [] := fun views => .inl ⟨views, rfl, isUnion_nil views⟩

theorem bind (ha : Loads action pairs) (hn : Loads next more) :
    Loads (action >>= fun _ => next) (pairs ++ more) := by
  intro views
  rcases ha views with ⟨union, haction, hunion⟩ | ⟨⟨e, left, haction⟩, hnot⟩
  · rw [bind_of_ok haction]
    rcases hn union with ⟨last, hnext, hlast⟩ | ⟨hfails, hnot⟩
    · exact .inl ⟨last, hnext, fun name source => (hlast name source).trans hunion.bound_iff⟩
    · refine .inr ⟨hfails, fun hconsistent => hnot fun name first second hfirst hsecond => ?_⟩
      exact hconsistent name first second (hunion.bound_iff.mp hfirst) (hunion.bound_iff.mp hsecond)
  · -- what two of the pairs do to a name is done by all of them
    refine .inr ⟨⟨e, left, bind_of_error haction _⟩, fun hconsistent => hnot ?_⟩
    have more_bound {name source : Text} (h : views.Bound pairs name source) :
        views.Bound (pairs ++ more) name source := h.imp_right (List.mem_append_left more)
    exact fun name first second hfirst hsecond =>
      hconsistent name first second (more_bound hfirst) (more_bound hsecond)

/-- Actions one after the other, by induction on the list. -/
theorem forM {ι : Type} {f : ι → EStateM LoadError Views Unit} {g : ι → List (Text × Text)}
    {items : List ι} (h : ∀ item ∈ items, Loads (f item) (g item)) :
    Loads (items.forM f) (items.flatMap g) := by
  induction items with
  | nil => exact pure
  | cons item items ih =>
    exact (h item List.mem_cons_self).bind
      (ih fun other hmem => h other (List.mem_cons_of_mem _ hmem))

theorem ok_iff (h : Loads action pairs) (views : Views) :
    (∃ union, action views = .ok () union) ↔ views.Consistent pairs := by
  rcases h views with ⟨union, haction, hunion⟩ | ⟨⟨e, left, haction⟩, hnot⟩
  · exact ⟨fun _ => hunion.consistent, fun _ => ⟨union, haction⟩⟩
  · refine ⟨fun ⟨union, hok⟩ => ?_, fun hconsistent => absurd hconsistent hnot⟩
    cases haction.symm.trans hok

theorem isUnion (h : Loads action pairs) (hok : action views = .ok () union) :
    IsUnion views pairs union := by
  rcases h views with ⟨union', haction, hunion⟩ | ⟨⟨e, left, haction⟩, -⟩
  · cases haction.symm.trans hok
    exact hunion
  · cases haction.symm.trans hok

end Loads

/-- Two actions leave the same store, or both fail. -/
def SameOutcome (first second : EStateM LoadError Views Unit) : Prop :=
  ∀ views, (∃ left, first views = .ok () left ∧ second views = .ok () left) ∨
    (∃ e left, first views = .error e left) ∧ ∃ e left, second views = .error e left

/-- **What is loaded matters, not in which order nor how often.** -/
theorem Loads.sameOutcome {first second : EStateM LoadError Views Unit} (h : Loads first pairs)
    (h' : Loads second more) (hpairs : ∀ pair, pair ∈ pairs ↔ pair ∈ more) :
    SameOutcome first second := by
  intro views
  have hconsistent : views.Consistent pairs ↔ views.Consistent more := by
    simp only [Consistent, Bound, hpairs]
  rcases h views with ⟨left, hfirst, hunion⟩ | ⟨hfails, hnot⟩
  · obtain ⟨left', hsecond⟩ := (h'.ok_iff views).mpr (hconsistent.mp hunion.consistent)
    obtain rfl := hunion.unique (h'.isUnion hsecond) hpairs
    exact .inl ⟨left, hfirst, hsecond⟩
  · rcases h' views with ⟨left, -, hunion⟩ | ⟨hfails', -⟩
    · exact absurd (hconsistent.mpr hunion.consistent) hnot
    · exact .inr ⟨hfails, hfails'⟩

/-! ## Nothing is overwritten -/

/-- What a store binds is bound to the same source by another one. -/
def Extends (views views' : Views) : Prop :=
  ∀ name source, views.find? name = some source → views'.find? name = some source

instance : IsPreorder Views Extends where
  refl _ _ _ := id
  trans _ _ _ hf hs name source := hs name source ∘ hf name source

/-- Loading again what a store has changes nothing. -/
theorem Loads.again {action : EStateM LoadError Views Unit} (h : Loads action pairs)
    (hok : action views = .ok () union) {later : Views} (hlater : Extends union later) :
    action later = .ok () later := by
  have hbound {name source : Text} :
      later.find? name = some source ↔ later.Bound pairs name source := by
    refine ⟨.inl, ?_⟩
    rintro (hfound | hmem)
    · exact hfound
    · exact hlater name source ((h.isUnion hok name source).mpr (.inr hmem))
  have hunion : IsUnion later pairs later := fun _ _ => hbound
  obtain ⟨left, hagain⟩ := (h.ok_iff later).mpr hunion.consistent
  rw [hagain, (h.isUnion hagain).unique hunion fun _ => Iff.rfl]

/-! ## Names and assets -/

theorem register_of_none {name source : Text} (h : views.find? name = none) (duplicate : LoadError) :
    register name source duplicate views = .ok () (views.insert name source) := by
  rw [register]
  refine (bind_of_ok rfl _).trans ?_
  rw [h]
  rfl

theorem register_of_some {name bound : Text} (h : views.find? name = some bound) (source : Text)
    (duplicate : LoadError) :
    register name source duplicate views =
      if bound = source then .ok () views else .error duplicate views := by
  rw [register]
  refine (bind_of_ok rfl _).trans ?_
  rw [h]
  by_cases heq : bound = source
  · simp only [heq, ne_eq, not_true_eq_false, if_false, if_true]
    rfl
  · simp only [heq, ne_eq, not_false_eq_true, if_false, if_true]
    rfl

/-- A name that is bound is left alone, and one that is not is bound. -/
theorem loads_register (name source : Text) (duplicate : LoadError) :
    Loads (register name source duplicate) [(name, source)] := by
  intro views
  cases hfind : views.find? name with
  | none =>
    refine .inl ⟨_, register_of_none hfind duplicate, fun key found => ?_⟩
    rw [Table.find?_insert, Bound, List.mem_singleton, Prod.mk.injEq]
    by_cases hkey : key = name
    · subst hkey
      simp [hfind, eq_comm]
    · simp [hkey]
  | some bound =>
    have hregister := register_of_some hfind source duplicate
    by_cases heq : bound = source
    · subst heq
      refine .inl ⟨views, hregister.trans (if_pos rfl), fun key found => ⟨.inl, ?_⟩⟩
      rintro (hfound | hmem)
      · exact hfound
      · cases List.mem_singleton.mp hmem
        exact hfind
    · refine .inr ⟨⟨duplicate, views, hregister.trans (if_neg heq)⟩, fun hconsistent => heq ?_⟩
      exact hconsistent name bound source (.inl hfind) (.inr List.mem_cons_self)

theorem extends_register (name source : Text) (duplicate : LoadError) :
    Keeps Extends (register name source duplicate) := by
  intro views
  cases hfind : views.find? name with
  | none =>
    rw [final_of_ok (register_of_none hfind duplicate)]
    intro key found hfound
    rw [Table.find?_insert, if_neg, hfound]
    rintro rfl
    rw [hfind] at hfound
    cases hfound
  | some bound =>
    have hregister := register_of_some hfind source duplicate
    split at hregister
    · rw [final_of_ok hregister]
      exact refl_of Extends views
    · rw [final_of_error hregister]
      exact refl_of Extends views

/-- The pair that an asset adds. -/
def pairOf (asset : Text × Text) : Text × Text := (nameOf asset.1, asset.2)

theorem loads_addAssets (assets : List (Text × Text)) :
    Loads (addAssets assets) (assets.map pairOf) := by
  rw [List.map_eq_flatMap]
  exact .forM fun asset _ => loads_register _ _ _

/-- Assets keep what a registration keeps. -/
theorem keeps_addAssets {V : Views → Views → Prop} [IsPreorder Views V]
    (hregister : ∀ name source duplicate, Keeps V (register name source duplicate))
    (assets : List (Text × Text)) : Keeps V (addAssets assets) :=
  .forM fun _ _ => hregister _ _ _

end Views

end Stencil
