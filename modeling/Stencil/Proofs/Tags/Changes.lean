import Stencil.Compiler.TagChange
import Stencil.Tags.History

/-!
# Lists of changes

Changes of tags, made one after the other, put pairs in force (`apply`) and are recorded in the
histories (`record`). Both depend for each flavor on its own pairs only: the pair in force is the last
of them (`get_apply`), and the history grows by all of them (`get_record`).
-/

namespace Stencil

/-! ## Histories -/

/-- A history with more pairs on its top. -/
def History.extend (h : History) (pairs : List Delims) : History :=
  { h with later := h.later ++ pairs }

theorem History.truncate_extend (h : History) (pairs : List Delims) :
    (h.extend pairs).truncate h.size = h := by
  show ({ first := h.first, later := (h.later ++ pairs).take h.later.length } : History) = h
  rw [List.take_left]

theorem History.last_extend (h : History) (pairs : List Delims) :
    (h.extend pairs).last = pairs.getLastD h.last := by
  show (h.later ++ pairs).getLastD h.first = pairs.getLastD (h.later.getLastD h.first)
  cases pairs with
  | nil => rw [List.append_nil]; rfl
  | cons tags pairs => simp [List.getLastD_eq_getLast?, List.getLast?_append, List.getLast?_cons]

theorem History.above_extend (h : History) (pairs : List Delims) :
    (h.extend pairs).above h.size = pairs := by
  show ((h.first :: h.later) ++ pairs).drop (h.first :: h.later).length = pairs
  rw [List.drop_left]

theorem History.size_extend (h : History) (pairs : List Delims) :
    (h.extend pairs).size = h.size + pairs.length := by
  show (h.toList ++ pairs).length = h.toList.length + pairs.length
  rw [List.length_append]

theorem History.getLast?_toList (h : History) : h.toList.getLast? = some h.last := by
  rw [toList, List.getLast?_cons, last, List.getLastD_eq_getLast?]

/-! ## Lists of changes -/

namespace TagChange

/-- The pairs that some changes put in force for a flavor. -/
def pairs (flavor : Flavor) (changes : List TagChange) : List Delims :=
  (changes.filter (·.flavor = flavor)).map (·.tags)

/-- The tags in force after some changes. -/
def apply (changes : List TagChange) (tags : Tags) : Tags :=
  changes.foldl (fun tags change => tags.set change.flavor change.tags) tags

/-- The histories after some changes. -/
def record (changes : List TagChange) (histories : PerFlavor History) : PerFlavor History :=
  .of fun flavor => (histories.get flavor).extend (pairs flavor changes)

@[simp] theorem pairs_append (flavor : Flavor) (first second : List TagChange) :
    pairs flavor (first ++ second) = pairs flavor first ++ pairs flavor second := by
  rw [pairs, List.filter_append, List.map_append]
  rfl

theorem apply_append (first second : List TagChange) (tags : Tags) :
    apply (first ++ second) tags = apply second (apply first tags) := List.foldl_append

@[simp] theorem get_record (changes : List TagChange) (histories : PerFlavor History)
    (flavor : Flavor) :
    (record changes histories).get flavor =
      (histories.get flavor).extend (pairs flavor changes) := PerFlavor.get_of _ _

theorem record_nil (histories : PerFlavor History) : record [] histories = histories := by
  refine PerFlavor.ext_get fun flavor => ?_
  rw [get_record]
  show ({ first := _, later := (histories.get flavor).later ++ [] } : History) = _
  rw [List.append_nil]

theorem record_append (first second : List TagChange) (histories : PerFlavor History) :
    record (first ++ second) histories = record second (record first histories) := by
  refine PerFlavor.ext_get fun flavor => ?_
  rw [get_record, get_record, get_record, pairs_append]
  simp only [History.extend, List.append_assoc]

theorem record_cons (change : TagChange) (changes : List TagChange)
    (histories : PerFlavor History) :
    record (change :: changes) histories = record changes (record [change] histories) :=
  record_append [change] changes histories

theorem record_singleton (change : TagChange) (histories : PerFlavor History) :
    record [change] histories =
      histories.set change.flavor ((histories.get change.flavor).push change.tags) := by
  refine PerFlavor.ext_get fun flavor => ?_
  rw [get_record, PerFlavor.get_set]
  by_cases h : change.flavor = flavor
  · subst h
    rw [if_pos rfl]
    simp [pairs, History.extend, History.push]
  · rw [if_neg (Ne.symm h)]
    simp [pairs, h, History.extend]

/-- The pair in force for a flavor is the one set last. -/
theorem get_apply (changes : List TagChange) (tags : Tags) (flavor : Flavor) :
    (apply changes tags).get flavor = (pairs flavor changes).getLastD (tags.get flavor) := by
  induction changes generalizing tags with
  | nil => rfl
  | cons change changes ih =>
    show (apply changes (tags.set change.flavor change.tags)).get flavor = _
    rw [ih, PerFlavor.get_set]
    by_cases h : change.flavor = flavor
    · rw [if_pos h.symm, pairs, pairs, List.filter_cons_of_pos (by simpa using h), List.map_cons,
        List.getLastD_cons]
    · rw [if_neg (Ne.symm h), pairs, pairs, List.filter_cons_of_neg (by simpa using h)]

theorem mem_of_mem_pairs {flavor : Flavor} {changes : List TagChange} {tags : Delims}
    (h : tags ∈ pairs flavor changes) : ⟨flavor, tags⟩ ∈ changes := by
  obtain ⟨⟨f, t⟩, hfilter, rfl⟩ := List.mem_map.mp h
  obtain ⟨hmem, hflavor⟩ := List.mem_filter.mp hfilter
  obtain rfl : f = flavor := by simpa using hflavor
  exact hmem

/-- The pair in force for a flavor is the one of before or that of a change. -/
theorem get_apply_cases (changes : List TagChange) (tags : Tags) (flavor : Flavor) :
    (apply changes tags).get flavor = tags.get flavor ∨
      ⟨flavor, (apply changes tags).get flavor⟩ ∈ changes := by
  rw [get_apply, List.getLastD_eq_getLast?]
  cases hlast : (pairs flavor changes).getLast? with
  | none => exact .inl rfl
  | some last => exact .inr (mem_of_mem_pairs (List.mem_of_getLast? hlast))

/-! ## Changes in another order -/

theorem apply_congr {first second : List TagChange}
    (h : ∀ flavor, pairs flavor first = pairs flavor second) (tags : Tags) :
    apply first tags = apply second tags := by
  refine PerFlavor.ext_get fun flavor => ?_
  rw [get_apply, get_apply, h]

theorem record_congr {first second : List TagChange}
    (h : ∀ flavor, pairs flavor first = pairs flavor second) (histories : PerFlavor History) :
    record first histories = record second histories := by
  refine PerFlavor.ext_get fun flavor => ?_
  rw [get_record, get_record, h]

theorem pairs_eq_of_record_eq {first second : List TagChange} {histories : PerFlavor History}
    (h : record first histories = record second histories) (flavor : Flavor) :
    pairs flavor first = pairs flavor second := by
  have hget := congrArg (fun histories => (histories.get flavor).later) h
  rw [get_record, get_record] at hget
  exact List.append_cancel_left hget

/-- The pairs of some changes, those for plain tags first. -/
def grouped (changes : List TagChange) : List (Flavor × Delims) :=
  [Flavor.plain, Flavor.escaped].flatMap fun flavor => (pairs flavor changes).map (flavor, ·)

def ofPair (pair : Flavor × Delims) : TagChange := ⟨pair.1, pair.2⟩

theorem grouped_eq (changes : List TagChange) :
    grouped changes = (pairs .plain changes).map (Flavor.plain, ·) ++
      (pairs .escaped changes).map (Flavor.escaped, ·) := by
  rw [grouped, List.flatMap_cons, List.flatMap_cons, List.flatMap_nil, List.append_nil]

theorem pairs_map_ofPair (flavor other : Flavor) (tags : List Delims) :
    pairs flavor ((tags.map (other, ·)).map ofPair) = if other = flavor then tags else [] := by
  induction tags with
  | nil => simp [pairs]
  | cons t tags ih =>
    rw [pairs] at ih ⊢
    by_cases h : other = flavor <;> simp_all [ofPair]

/-- Grouping keeps the pairs of each flavor in order. -/
theorem pairs_grouped (flavor : Flavor) (changes : List TagChange) :
    pairs flavor ((grouped changes).map ofPair) = pairs flavor changes := by
  rw [grouped_eq, List.map_append, pairs_append, pairs_map_ofPair, pairs_map_ofPair]
  cases flavor <;> simp

theorem mem_of_mem_grouped {changes : List TagChange} {pair : Flavor × Delims}
    (h : pair ∈ grouped changes) : ofPair pair ∈ changes := by
  obtain ⟨flavor, -, hmem⟩ := List.mem_flatMap.mp h
  obtain ⟨tags, htags, rfl⟩ := List.mem_map.mp hmem
  exact mem_of_mem_pairs htags

end TagChange

end Stencil
