import Stencil.Proofs.Text
import Stencil.Proofs.Value.Parts

/-!
# Look-up

The names of a path with dots between them are looked up as a whole first: the root may have an entry of
that name. Otherwise they lead from the root to a value, part by part, or nowhere. `Found` says this of a
list of names, and `lookup_dotted` that look-up does it.

Positions are numbers without a bound here. Where they are numbers of a bounded type, a numeral that is
too large is no position; this makes no difference to a value whose lists have no more items than there
are positions (`lookupWithin_eq`).
-/

namespace Stencil.Value

/-! ## Paths -/

/-- One name leads from a value to a part of it. -/
inductive Step : Value → Text → Value → Prop
  | entry {entries : Entries Value} {name : Text} {v : Value} (h : entries.lookup name = some v) :
      Step (.map entries) name v
  | item {items : List Value} {name : Text} {n : Nat} {v : Value} (hname : Text.Denotes name n)
      (h : items[n]? = some v) : Step (.list items) name v

/-- The names of a path lead from a value to another one. -/
inductive Leads : Value → List Text → Value → Prop
  | here (v : Value) : Leads v [] v
  | step {v w u : Value} {name : Text} {path : List Text} (hstep : Step v name w)
      (hrest : Leads w path u) : Leads v (name :: path) u

/-- Some names lead from a root to a value: the first is the name of an entry of the root. -/
inductive Reaches (root : Value) : List Text → Value → Prop
  | intro {entries : Entries Value} {head : Text} {path : List Text} {v w : Value}
      (hroot : root = .map entries) (hhead : entries.lookup head = some w) (hpath : Leads w path v) :
      Reaches root (head :: path) v

/-- Names with dots between them. -/
def dotted (names : List Text) : Text := ['.'].intercalate names

/-- What is found in a root under some names with dots between them. -/
inductive Found (root : Value) (names : List Text) : Value → Prop
  | whole {entries : Entries Value} {v : Value} (hroot : root = .map entries)
      (h : entries.lookup (dotted names) = some v) : Found root names v
  | parts {v : Value} (hwhole : root.entry? (dotted names) = none) (h : Reaches root names v) :
      Found root names v
  | nothing (hwhole : root.entry? (dotted names) = none) (h : ∀ v, ¬Reaches root names v) :
      Found root names .null

/-! ## Paths that are walked -/

theorem entry?_eq_some_iff {v w : Value} {name : Text} :
    v.entry? name = some w ↔ ∃ entries, v = .map entries ∧ entries.lookup name = some w := by
  cases v with
  | map entries =>
    constructor
    · intro h
      exact ⟨entries, rfl, h⟩
    · rintro ⟨_, ⟨⟩, h⟩
      exact h
  | null | bool | signed | unsigned | double | str | list => exact ⟨nofun, nofun⟩

theorem part?_eq_some_iff {v w : Value} {name : Text} : v.part? name = some w ↔ Step v name w := by
  constructor
  · intro h
    cases v with
    | list items =>
      obtain ⟨n, hn, hitem⟩ := Option.bind_eq_some_iff.mp h
      exact .item (Text.toNat?_eq_some_iff.mp hn) hitem
    | map entries => exact .entry h
    | null | bool | signed | unsigned | double | str => cases h
  · rintro (h | ⟨hname, h⟩)
    · exact h
    · exact Option.bind_eq_some_iff.mpr ⟨_, Text.toNat?_eq_some_iff.mpr hname, h⟩

theorem walk?_eq_some_iff {v w : Value} {path : List Text} :
    v.walk? path = some w ↔ Leads v path w := by
  induction path generalizing v with
  | nil =>
    rw [walk?, Option.some.injEq]
    constructor
    · rintro rfl
      exact .here v
    · rintro ⟨⟩
      rfl
  | cons name path ih =>
    rw [walk?, Option.bind_eq_some_iff]
    constructor
    · rintro ⟨u, hpart, hwalk⟩
      exact .step (part?_eq_some_iff.mp hpart) (ih.mp hwalk)
    · rintro (_ | ⟨hstep, hrest⟩)
      exact ⟨_, part?_eq_some_iff.mpr hstep, ih.mpr hrest⟩

theorem reaches_iff {root v : Value} {head : Text} {path : List Text} :
    (root.entry? head).bind (walk? · path) = some v ↔ Reaches root (head :: path) v := by
  rw [Option.bind_eq_some_iff]
  constructor
  · rintro ⟨w, hentry, hwalk⟩
    obtain ⟨entries, hroot, hhead⟩ := entry?_eq_some_iff.mp hentry
    exact .intro hroot hhead (walk?_eq_some_iff.mp hwalk)
  · rintro ⟨hroot, hhead, hpath⟩
    exact ⟨_, entry?_eq_some_iff.mpr ⟨_, hroot, hhead⟩, walk?_eq_some_iff.mpr hpath⟩

/-! ## Look-up by names -/

section Dotted

variable {root : Value} {head : Text} {path : List Text}

theorem lookup_of_whole {expr : Text} {v : Value} (h : root.entry? expr = some v) :
    root.lookup expr = v := by
  rw [lookup, h]

/-- What is not found as a whole is found by its parts or not at all. -/
theorem lookup_of_parts (hdots : ∀ name ∈ head :: path, '.' ∉ name)
    (h : root.entry? (dotted (head :: path)) = none) :
    root.lookup (dotted (head :: path)) =
      ((root.entry? head).bind (walk? · path)).getD .null := by
  rw [lookup, h, dotted, Text.pieces_intercalate (List.cons_ne_nil _ _) hdots]
  cases path with
  | nil =>
    have hhead : root.entry? head = none := by simpa [dotted] using h
    rw [hhead]
    rfl
  | cons next path => rfl

end Dotted

theorem lookup_dotted_iff {root v : Value} {names : List Text} (hne : names ≠ [])
    (hdots : ∀ name ∈ names, '.' ∉ name) :
    root.lookup (dotted names) = v ↔ Found root names v := by
  obtain ⟨head, path, rfl⟩ := List.exists_cons_of_ne_nil hne
  cases hwhole : root.entry? (dotted (head :: path)) with
  | some w =>
    rw [lookup_of_whole hwhole]
    obtain ⟨entries, hroot, hlookup⟩ := entry?_eq_some_iff.mp hwhole
    constructor
    · rintro rfl
      exact .whole hroot hlookup
    · rintro (⟨hroot', h⟩ | ⟨hnone, -⟩ | ⟨hnone, -⟩)
      · exact Option.some.inj (hwhole.symm.trans (entry?_eq_some_iff.mpr ⟨_, hroot', h⟩))
      · cases hwhole.symm.trans hnone
      · cases hwhole.symm.trans hnone
  | none =>
    rw [lookup_of_parts hdots hwhole]
    constructor
    · rintro rfl
      cases hparts : (root.entry? head).bind (walk? · path) with
      | some w => exact .parts hwhole (reaches_iff.mp hparts)
      | none => exact .nothing hwhole fun w h => nomatch hparts.symm.trans (reaches_iff.mpr h)
    · rintro (⟨hroot, h⟩ | ⟨-, h⟩ | ⟨-, h⟩)
      · cases hwhole.symm.trans (entry?_eq_some_iff.mpr ⟨_, hroot, h⟩)
      · rw [reaches_iff.mpr h, Option.getD_some]
      · rw [Option.eq_none_iff_forall_ne_some.mpr fun w hw => h w (reaches_iff.mp hw),
          Option.getD_none]

/-! ## Positions with a bound -/

/-- The part of a value with a name, where a position is a number below a bound. -/
def partWithin? (bound : Nat) : Value → Text → Option Value
  | .list items, name => ((Text.toNat? name).filter (· < bound)).bind (items[·]?)
  | v, name => v.entry? name

/-- Look-up with positions below a bound. What stands before the first dot is taken off, and the names
in the rest are followed one by one. -/
def lookupWithin (bound : Nat) (root : Value) (expr : Text) : Value :=
  (root.entry? expr).getD <|
    match Text.cut? ['.'] expr with
    | some (head, rest) =>
      ((root.entry? head).bind
        ((Text.pieces (· == '.') rest).foldlM (partWithin? bound))).getD .null
    | none => .null

variable {bound : Nat}

/-- A number that is not below the bound is no position of a list that fits. -/
theorem partWithin?_eq {v : Value} (h : v.Fits bound) (name : Text) :
    v.partWithin? bound name = v.part? name := by
  cases v with
  | list items =>
    have hlength : items.length ≤ bound := h.here items rfl
    rw [partWithin?, part?]
    cases Text.toNat? name with
    | none => rfl
    | some n =>
      rw [Option.filter_some]
      by_cases hn : n < bound
      · rw [if_pos (decide_eq_true hn)]
      · rw [if_neg (by simpa using hn), Option.bind_none, Option.bind_some,
          List.getElem?_eq_none (by omega)]
  | map | null | bool | signed | unsigned | double | str => rfl

theorem foldlM_partWithin? {v : Value} (h : v.Fits bound) (path : List Text) :
    path.foldlM (partWithin? bound) v = v.walk? path := by
  induction path generalizing v with
  | nil => rfl
  | cons name path ih =>
    rw [List.foldlM_cons, walk?, partWithin?_eq h]
    exact Option.bind_congr fun w hpart => ih (h.inside (holds_of_part? hpart))

/-- **Positions of a bounded type are enough** for values whose lists have no more items than that. -/
theorem lookupWithin_eq {root : Value} (h : root.Fits bound) (expr : Text) :
    root.lookupWithin bound expr = root.lookup expr := by
  rw [lookupWithin, lookup]
  cases hwhole : root.entry? expr with
  | some v => rfl
  | none =>
    rw [Option.getD_none]
    cases hcut : Text.cut? ['.'] expr with
    | none => rw [Text.pieces_of_cut?_eq_none hcut]
    | some parts =>
      obtain ⟨head, rest⟩ := parts
      show ((root.entry? head).bind
        ((Text.pieces (· == '.') rest).foldlM (partWithin? bound))).getD .null = _
      rw [Text.pieces_of_cut? hcut]
      obtain ⟨next, path, hrest⟩ := List.exists_cons_of_ne_nil (Text.pieces_ne_nil (· == '.') rest)
      rw [hrest]
      refine congrArg (Option.getD · Value.null) (Option.bind_congr fun w hentry => ?_)
      exact foldlM_partWithin? (h.inside (holds_of_entry hentry)) _

/-! ## Look-up as a whole -/

/-- **Look-up is the entry of the whole name, or else what its parts lead to, or else nothing.** With
positions of a bounded type it finds the same, if there are enough of them for the lists in the root. -/
theorem lookup_dotted {names : List Text} (hne : names ≠ []) (hdots : ∀ name ∈ names, '.' ∉ name)
    (root : Value) :
    (∀ v, root.lookup (dotted names) = v ↔ Found root names v) ∧
      ∀ bound, root.Fits bound →
        root.lookupWithin bound (dotted names) = root.lookup (dotted names) :=
  ⟨fun _ => lookup_dotted_iff hne hdots, fun _ h => lookupWithin_eq h _⟩

/-- The root has an entry for a name with a dot, which holds nothing; longer names with the same
beginning lead past it, to a position with a sign and a zero, and to the entry without a name. -/
theorem lookup_dotted_position :
    let root : Value := .map [(['a'], .map [(['b'], .list [.null, .map [([], .str ['x'])]])]),
      (['a', '.', 'b'], .null)]
    let whole : List Text := [['a'], ['b']]
    let names : List Text := [['a'], ['b'], ['+', '0', '1'], []]
    (whole ≠ [] ∧ ∀ name ∈ whole, '.' ∉ name) ∧ (names ≠ [] ∧ ∀ name ∈ names, '.' ∉ name) ∧
      root.Fits 2 ∧ Found root whole .null ∧ Found root names (.str ['x']) ∧
      root.lookupWithin 2 (dotted names) = .str ['x'] := by
  intro root whole names
  have hwhole : ∀ name ∈ whole, '.' ∉ name := by decide
  have hnames : ∀ name ∈ names, '.' ∉ name := by decide
  have hfits : root.Fits 2 := by simp [root, fits_map_iff, fits_list_iff]
  have hposition := lookup_dotted (List.cons_ne_nil _ _) hnames root
  refine ⟨⟨List.cons_ne_nil _ _, hwhole⟩, ⟨List.cons_ne_nil _ _, hnames⟩, hfits,
    ((lookup_dotted (List.cons_ne_nil _ _) hwhole root).1 _).mp rfl, (hposition.1 _).mp rfl, ?_⟩
  rw [hposition.2 2 hfits]
  rfl

end Stencil.Value
