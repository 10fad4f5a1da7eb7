import Stencil.Text

/-!
# Tables

Finite maps from names to values, as lists of entries in the order of their names. `lookup_insert`
and `lookup_erase` say what the two updates do to a look-up, and `sorted_insert` and `sorted_erase`
that they keep the order, so that a `Table` never binds a name twice. Entries in order are determined
by their look-ups (`ext_lookup`).
-/

namespace Stencil

/-- Named values, in a list. -/
abbrev Entries (α : Type) := List (Text × α)

namespace Entries

variable {α : Type}

/-- The entries stand in strictly ascending order of their names. -/
def Sorted (entries : Entries α) : Prop := entries.Pairwise fun a b => a.1 < b.1

/-- Binds a name, in place of an earlier entry of that name if there is one. -/
def insert (name : Text) (a : α) : Entries α → Entries α
  | [] => [(name, a)]
  | (n, b) :: rest =>
    if name < n then (name, a) :: (n, b) :: rest
    else if name = n then (name, a) :: rest
    else (n, b) :: insert name a rest

/-- Unbinds a name. -/
def erase (name : Text) (entries : Entries α) : Entries α :=
  entries.filter fun entry => entry.1 ≠ name

/-! ## Look-up after an update -/

theorem lookup_cons_pair (n : Text) (b : α) (rest : Entries α) (key : Text) :
    List.lookup key ((n, b) :: rest) = if key = n then some b else List.lookup key rest := by
  by_cases h : key = n
  · simp [h]
  · have : (key == n) = false := by simpa using h
    simp [List.lookup_cons, this, h]

theorem lookup_insert (name : Text) (a : α) (entries : Entries α) (key : Text) :
    (insert name a entries).lookup key = if key = name then some a else entries.lookup key := by
  induction entries with
  | nil => simp [insert, lookup_cons_pair]
  | cons entry rest ih =>
    obtain ⟨n, b⟩ := entry
    simp only [insert]
    split
    · simp only [lookup_cons_pair]
    · split
      · next heq =>
        subst heq
        simp only [lookup_cons_pair]
        split <;> rfl
      · next hne =>
        simp only [lookup_cons_pair, ih]
        by_cases h : key = n
        · have : key ≠ name := fun e => hne (e ▸ h)
          simp [h, Ne.symm hne]
        · simp [h]

theorem lookup_erase (name : Text) (entries : Entries α) (key : Text) :
    (erase name entries).lookup key = if key = name then none else entries.lookup key := by
  induction entries with
  | nil => simp [erase]
  | cons entry rest ih =>
    obtain ⟨n, b⟩ := entry
    simp only [erase] at ih ⊢
    by_cases hn : n = name
    · subst hn
      simp only [ne_eq, not_true_eq_false, decide_false, List.filter_cons_of_neg,
        Bool.false_eq_true, not_false_eq_true, ih, lookup_cons_pair]
      split <;> simp_all
    · simp only [ne_eq, hn, not_false_eq_true, decide_true, List.filter_cons_of_pos,
        lookup_cons_pair]
      by_cases h : key = n
      · simp [h, hn]
      · simpa [h] using ih

/-! ## Order -/

theorem mem_insert {name : Text} {a : α} {entries : Entries α} {entry : Text × α}
    (h : entry ∈ insert name a entries) : entry = (name, a) ∨ entry ∈ entries := by
  induction entries with
  | nil => exact .inl (by simpa [insert] using h)
  | cons e rest ih =>
    obtain ⟨n, b⟩ := e
    simp only [insert] at h
    split at h
    · exact List.mem_cons.1 h
    · split at h
      · exact (List.mem_cons.1 h).imp_right (List.mem_cons_of_mem _)
      · rcases List.mem_cons.1 h with h | h
        · exact .inr (h ▸ List.mem_cons_self)
        · exact (ih h).imp_right (List.mem_cons_of_mem _)

theorem sorted_insert {name : Text} {a : α} {entries : Entries α} (h : Sorted entries) :
    Sorted (insert name a entries) := by
  induction entries with
  | nil => exact List.pairwise_singleton _ _
  | cons e rest ih =>
    obtain ⟨n, b⟩ := e
    obtain ⟨hn, hrest⟩ := List.pairwise_cons.1 h
    simp only [insert]
    split
    · next hlt =>
      refine List.pairwise_cons.2 ⟨fun entry he => ?_, h⟩
      rcases List.mem_cons.1 he with rfl | he
      · exact hlt
      · exact List.lt_trans hlt (hn _ he)
    · next hlt =>
      split
      · next heq => exact List.pairwise_cons.2 ⟨fun entry he => heq ▸ hn _ he, hrest⟩
      · next hne =>
        refine List.pairwise_cons.2 ⟨fun entry he => ?_, ih hrest⟩
        rcases mem_insert he with rfl | he
        · rcases Classical.em (n < name) with h | h
          · exact h
          · exact absurd (List.le_antisymm h hlt) hne
        · exact hn _ he

/-- Entries in order are found under their names. -/
theorem mem_iff_lookup {entries : Entries α} (h : Sorted entries) {name : Text} {a : α} :
    (name, a) ∈ entries ↔ entries.lookup name = some a := by
  induction entries with
  | nil => simp
  | cons e rest ih =>
    obtain ⟨n, b⟩ := e
    obtain ⟨hn, hrest⟩ := List.pairwise_cons.1 h
    rw [List.mem_cons, ih hrest, lookup_cons_pair]
    by_cases heq : name = n
    · subst heq
      have hnone : rest.lookup name ≠ some a := fun hfind =>
        List.lt_irrefl name (hn _ ((ih hrest).2 hfind))
      simp [hnone, eq_comm]
    · simp [heq]

theorem sorted_erase {name : Text} {entries : Entries α} (h : Sorted entries) :
    Sorted (erase name entries) :=
  List.Pairwise.filter _ h

/-- Entries in order with the same look-ups are the same. -/
theorem ext_lookup {entries entries' : Entries α} (h : Sorted entries) (h' : Sorted entries')
    (hlookup : ∀ name, entries.lookup name = entries'.lookup name) : entries = entries' := by
  have nodup {entries : Entries α} (h : Sorted entries) : entries.Nodup := by
    refine List.Pairwise.imp ?_ h
    rintro a b hlt rfl
    exact List.lt_irrefl a.1 hlt
  have hperm : entries.Perm entries' := by
    refine (List.perm_ext_iff_of_nodup (nodup h) (nodup h')).2 fun ⟨name, a⟩ => ?_
    rw [mem_iff_lookup h, mem_iff_lookup h', hlookup]
  exact hperm.eq_of_pairwise
    (fun a b _ _ hab hba => absurd (List.lt_trans hab hba) (List.lt_irrefl a.1)) h h'

/-- Different names can be bound in any order. -/
theorem insert_comm {entries : Entries α} (h : Sorted entries) {name name' : Text}
    (hne : name ≠ name') (a b : α) :
    insert name' b (insert name a entries) = insert name a (insert name' b entries) := by
  refine ext_lookup (sorted_insert (sorted_insert h)) (sorted_insert (sorted_insert h)) fun key => ?_
  simp only [lookup_insert]
  by_cases hkey : key = name
  · simp [hkey, hne]
  · simp [hkey]

/-- A name after all others is bound at the end. -/
theorem insert_of_forall_lt {name : Text} {entries : Entries α} (a : α)
    (h : ∀ entry ∈ entries, entry.1 < name) : insert name a entries = entries ++ [(name, a)] := by
  induction entries with
  | nil => rfl
  | cons entry rest ih =>
    obtain ⟨n, b⟩ := entry
    have hlt : n < name := h _ List.mem_cons_self
    have hne : name ≠ n := fun heq => List.lt_irrefl n (heq ▸ hlt)
    rw [insert, if_neg (List.lt_asymm hlt), if_neg hne,
      ih fun other hmem => h other (List.mem_cons_of_mem _ hmem)]
    rfl

end Entries

/-! ## Tables -/

/-- A finite map from names to values. -/
structure Table (α : Type) where
  entries : Entries α := []
  sorted : entries.Sorted := by exact List.Pairwise.nil

namespace Table

variable {α : Type}

def empty : Table α := {}

def find? (table : Table α) (name : Text) : Option α := table.entries.lookup name

/-- Binds a name, in place of an earlier binding. -/
def insert (table : Table α) (name : Text) (a : α) : Table α :=
  ⟨table.entries.insert name a, Entries.sorted_insert table.sorted⟩

def erase (table : Table α) (name : Text) : Table α :=
  ⟨Entries.erase name table.entries, Entries.sorted_erase table.sorted⟩

/-- Tables with the same look-ups are the same. -/
theorem ext_find? {table other : Table α} (h : ∀ name, table.find? name = other.find? name) :
    table = other := by
  obtain ⟨entries, sorted⟩ := table
  obtain ⟨entries', sorted'⟩ := other
  have heq : entries = entries' := Entries.ext_lookup sorted sorted' h
  subst heq
  rfl

@[simp] theorem find?_empty (name : Text) : (empty : Table α).find? name = none := rfl

@[simp] theorem find?_insert (table : Table α) (name : Text) (a : α) (key : Text) :
    (table.insert name a).find? key = if key = name then some a else table.find? key :=
  Entries.lookup_insert name a table.entries key

@[simp] theorem find?_erase (table : Table α) (name key : Text) :
    (table.erase name).find? key = if key = name then none else table.find? key :=
  Entries.lookup_erase name table.entries key

end Table

end Stencil
