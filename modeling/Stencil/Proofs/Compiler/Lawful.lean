import Stencil.Proofs.Compiler.Steps

/-!
# Compilers over lawful hosts

Over a host that decides by a fixed predicate, every action of a compiler amounts to a list of
accepted changes, a failed compilation too (`kept_settles`). So the pair in force for a flavor
stays the last of its history, and the first of the history stays what it was (`inStep_of_settles`).
-/

namespace Stencil

open TagChange (apply record)

namespace Compiler

variable {σ : Type} [Host σ]

/-- From one state of a compiler to another by changes that are accepted, each put in force and
recorded. -/
structure Shifted (accepts : Flavor → Delims → Prop) (changes : List TagChange)
    (c c' : Compiler σ) : Prop where
  tags : c'.tags = apply changes c.tags
  histories : c'.histories = record changes c.histories
  accepted : ∀ change ∈ changes, accepts change.flavor change.tags

variable {accepts : Flavor → Delims → Prop}

theorem Moved.shifted (lawful : Host.Lawful σ accepts) {changes : List TagChange}
    {c c' : Compiler σ} (h : Moved changes c c') : Shifted accepts changes c c' :=
  ⟨h.host.tags_eq lawful.toExact, h.histories, h.host.accepts lawful⟩

theorem Shifted.none {c c' : Compiler σ} (htags : c'.tags = c.tags)
    (hhistories : c'.histories = c.histories) : Shifted accepts [] c c' :=
  ⟨htags, hhistories.trans (TagChange.record_nil _).symm, fun _ h => absurd h List.not_mem_nil⟩

theorem Shifted.trans {first second : List TagChange} {c c' c'' : Compiler σ}
    (hf : Shifted accepts first c c') (hs : Shifted accepts second c' c'') :
    Shifted accepts (first ++ second) c c'' := by
  refine ⟨?_, ?_, ?_⟩
  · rw [hs.tags, hf.tags, TagChange.apply_append]
  · rw [hs.histories, hf.histories, TagChange.record_append]
  · intro change hmem
    rcases List.mem_append.mp hmem with hmem | hmem
    · exact hf.accepted change hmem
    · exact hs.accepted change hmem

/-- The host would accept the tags in force. -/
def Acceptable (accepts : Flavor → Delims → Prop) (c : Compiler σ) : Prop :=
  ∀ flavor, accepts flavor (c.tags.get flavor)

theorem Shifted.acceptable {changes : List TagChange} {c c' : Compiler σ}
    (h : Shifted accepts changes c c') (hc : Acceptable accepts c) : Acceptable accepts c' := by
  intro flavor
  rw [h.tags]
  rcases TagChange.get_apply_cases changes c.tags flavor with hsame | hmem
  · rw [hsame]
    exact hc flavor
  · exact h.accepted _ hmem

/-- From acceptable tags, a state is reached by accepted changes. -/
def Settles (accepts : Flavor → Delims → Prop) (c c' : Compiler σ) : Prop :=
  Acceptable accepts c → ∃ changes, Shifted accepts changes c c'

instance : IsPreorder (Compiler σ) (Settles accepts) where
  refl _ _ := ⟨[], .none rfl rfl⟩
  trans _ _ _ hf hs hc := by
    obtain ⟨first, hf⟩ := hf hc
    obtain ⟨second, hs⟩ := hs (hf.acceptable hc)
    exact ⟨first ++ second, hf.trans hs⟩

/-- **Whatever a compiler is asked amounts to accepted changes**, whether it fails or not. -/
theorem kept_settles (lawful : Host.Lawful σ accepts) :
    Kept (Settles accepts : Compiler σ → Compiler σ → Prop) where
  reached := by
    rintro c c' ⟨changes, hm⟩ -
    exact ⟨changes, hm.shifted lawful⟩
  request c revert _ := ⟨[], .none rfl rfl⟩
  -- the tags before the pass are accepted, so they are in force again
  restore _ hc := ⟨[], .none (lawful.tags_restore hc _) rfl⟩

/-! ### Histories and tags in step -/

/-- No history is empty, each begins with the initial pair and ends with the pair in force. -/
structure InStep (initial : Tags) (c : Compiler σ) : Prop where
  nonempty : ∀ flavor, (c.histories.get flavor).toList ≠ []
  bottom : ∀ flavor, (c.histories.get flavor).toList.head? = some (initial.get flavor)
  top : ∀ flavor, (c.histories.get flavor).toList.getLast? = some (c.tags.get flavor)

theorem inStep_iff {initial : Tags} {c : Compiler σ} :
    InStep initial c ↔ ∀ flavor, (c.histories.get flavor).first = initial.get flavor ∧
      (c.histories.get flavor).last = c.tags.get flavor := by
  constructor
  · intro h flavor
    have htop := h.top flavor
    rw [History.getLast?_toList] at htop
    exact ⟨Option.some.inj (h.bottom flavor), Option.some.inj htop⟩
  · intro h
    refine ⟨fun _ => List.cons_ne_nil _ _, fun flavor => congrArg some (h flavor).1, fun flavor => ?_⟩
    rw [History.getLast?_toList, (h flavor).2]

theorem inStep_ofHost (host : σ) (keywords : PerFlavor Text) :
    InStep (Host.tags host) (ofHost host keywords) := by
  refine inStep_iff.mpr fun flavor => ?_
  show (((Host.tags host).map fun tags => (⟨tags, []⟩ : History)).get flavor).first = _ ∧
    (((Host.tags host).map fun tags => (⟨tags, []⟩ : History)).get flavor).last = _
  rw [PerFlavor.get_map]
  exact ⟨rfl, rfl⟩

theorem Shifted.inStep {changes : List TagChange} {c c' : Compiler σ} {initial : Tags}
    (h : Shifted accepts changes c c') (hc : InStep initial c) : InStep initial c' := by
  refine inStep_iff.mpr fun flavor => ?_
  obtain ⟨hfirst, hlast⟩ := inStep_iff.mp hc flavor
  rw [h.histories, h.tags, TagChange.get_record, History.last_extend, TagChange.get_apply, hlast]
  exact ⟨hfirst, rfl⟩

/-- Whatever amounts to accepted changes keeps histories and tags in step. -/
theorem inStep_of_settles (host : σ) (keywords : PerFlavor Text)
    (hhost : ∀ flavor, accepts flavor ((Host.tags host).get flavor)) {c : Compiler σ}
    (h : Settles accepts (ofHost host keywords) c) : InStep (Host.tags host) c := by
  obtain ⟨changes, hs⟩ := h hhost
  exact hs.inStep (inStep_ofHost host keywords)

end Compiler

end Stencil
