import Mathlib.Data.List.Infix
import Stencil.Options
import Stencil.Proofs.Node.Normal

/-!
# Compiling the interpolations of a source

`Reading` is the reading of a source that the tags stand for, as a relation: an interpolation is
what stands between the tags of a pair and does not reach over a closing tag, the flavors are tried
in a fixed order, and what begins no interpolation is literal. Every source has exactly one reading,
and it is the one that `ofSource` gives (`reading_iff`), unless a pair of two empty tags is among the
tags: such a pair takes up nothing, and where it is tried a reading has no end (`not_exists_reading`).

The compiled form of a source is the printed form of the nodes of its reading (`print_ofSegments`).
So it is read back as these nodes whenever they are a normal list, and the only way in which they can
fail to be one is an interpolation that a closing brace follows (`normal_ofSegments_iff`).
-/

namespace Stencil

namespace Segment

/-! ## The reading of a source -/

/-- The tags of a pair stand at the beginning of a text, with `body` before the first closing tag and
`rest` after it. -/
structure Encloses (tags : Delims) (s body rest : Text) : Prop where
  parts : s = tags.opening ++ body ++ tags.closing ++ rest
  first : ∀ earlier later, body ++ tags.closing ++ rest = earlier ++ tags.closing ++ later →
    body.length ≤ earlier.length

/-- The tags of the one flavor are tried before those of the other. -/
def TriedBefore (tags : Tags) : Flavor → Flavor → Prop
  | .plain, .escaped => tags.escaped.opening.byteSize < tags.plain.opening.byteSize
  | .escaped, .plain => tags.plain.opening.byteSize ≤ tags.escaped.opening.byteSize
  | _, _ => False

/-- A text begins with an interpolation. -/
structure Begins (tags : Tags) (s : Text) (flavor : Flavor) (body rest : Text) : Prop where
  encloses : Encloses (tags.get flavor) s body rest
  first : ∀ other, TriedBefore tags other flavor → ∀ body rest,
    ¬Encloses (tags.get other) s body rest

/-- The readings of a source. -/
inductive Reading (tags : Tags) : Text → List Segment → Prop where
  | nil : Reading tags [] []
  | echo {s body rest : Text} {flavor : Flavor} {segments : List Segment}
      (h : Begins tags s flavor body rest) (hbody : Text.trim body ≠ [])
      (hrest : Reading tags rest segments) : Reading tags s (.echo flavor body :: segments)
  | blank {s body rest : Text} {flavor : Flavor} {segments : List Segment}
      (h : Begins tags s flavor body rest) (hbody : Text.trim body = [])
      (hrest : Reading tags rest segments) :
      Reading tags s
        (.literal ((tags.get flavor).opening ++ body ++ (tags.get flavor).closing) :: segments)
  | char {c : Char} {s : Text} {segments : List Segment}
      (h : ∀ flavor body rest, ¬Encloses (tags.get flavor) (c :: s) body rest)
      (hrest : Reading tags s segments) : Reading tags (c :: s) (.literal [c] :: segments)

theorem Reading.trim_ne_nil {tags : Tags} {s : Text} {segments : List Segment}
    (h : Reading tags s segments) :
    ∀ flavor body, .echo flavor body ∈ segments → Text.trim body ≠ [] := by
  induction h with
  | nil => nofun
  | echo _ hbody _ ih =>
    intro flavor body hmem
    rcases List.mem_cons.mp hmem with heq | hmem
    · cases heq
      exact hbody
    · exact ih flavor body hmem
  | blank _ _ _ ih | char _ _ ih =>
    intro flavor body hmem
    rcases List.mem_cons.mp hmem with heq | hmem
    · cases heq
    · exact ih flavor body hmem

/-! ## Pairs of two empty tags -/

theorem Encloses.unique {tags : Delims} {s body rest body' rest' : Text}
    (h : Encloses tags s body rest) (h' : Encloses tags s body' rest') :
    body = body' ∧ rest = rest' := by
  have hparts := h.parts.symm.trans h'.parts
  simp only [List.append_assoc] at hparts
  replace hparts := List.append_cancel_left hparts
  have hle : body.length ≤ body'.length := h.first _ _ (by simpa using hparts)
  have hge : body'.length ≤ body.length := h'.first _ _ (by simpa using hparts.symm)
  obtain ⟨hbody, hrest⟩ := List.append_inj hparts (Nat.le_antisymm hle hge)
  exact ⟨hbody, List.append_cancel_left hrest⟩

theorem triedBefore_of_ne (tags : Tags) {flavor other : Flavor} (h : flavor ≠ other) :
    TriedBefore tags flavor other ∨ TriedBefore tags other flavor := by
  cases flavor <;> cases other
  · exact absurd rfl h
  · exact Nat.lt_or_ge _ _
  · exact (Nat.lt_or_ge _ _).symm
  · exact absurd rfl h

/-- A text begins with at most one interpolation. -/
theorem Begins.unique {tags : Tags} {s body rest body' rest' : Text} {flavor flavor' : Flavor}
    (h : Begins tags s flavor body rest) (h' : Begins tags s flavor' body' rest') :
    flavor = flavor' ∧ body = body' ∧ rest = rest' := by
  by_cases heq : flavor = flavor'
  · subst heq
    exact ⟨rfl, h.encloses.unique h'.encloses⟩
  · rcases triedBefore_of_ne tags heq with hbefore | hbefore
    · exact absurd h.encloses (h'.first _ hbefore _ _)
    · exact absurd h'.encloses (h.first _ hbefore _ _)

/-- **Where a pair of two empty tags is tried, a reading does not come to an end**: the pair stands
there, encloses nothing and leaves all of the text to be read. -/
theorem not_exists_reading {tags : Tags} {s : Text} {flavor : Flavor}
    (hempty : tags.get flavor = ⟨[], []⟩) (hs : s ≠ [])
    (hfirst : ∀ other, TriedBefore tags other flavor → ∀ body rest,
      ¬Encloses (tags.get other) s body rest) : ¬∃ segments, Reading tags s segments := by
  rintro ⟨segments, hreading⟩
  have hbegins : Begins tags s flavor [] s := by
    refine ⟨⟨?_, fun _ _ _ => Nat.zero_le _⟩, hfirst⟩
    rw [hempty]
    rfl
  induction hreading with
  | nil => exact hs rfl
  | echo h hbody =>
    obtain ⟨-, rfl, -⟩ := h.unique hbegins
    exact hbody rfl
  | blank h _ _ ih =>
    -- what is left to be read is the same text
    obtain ⟨-, -, rfl⟩ := h.unique hbegins
    exact ih hs hfirst hbegins
  | char h => exact h _ _ _ hbegins.encloses

/-! ## It is the one that is computed -/

theorem encloses_of_enclosed? {tags : Delims} {s body rest : Text}
    (h : enclosed? tags s = some (body, rest)) : Encloses tags s body rest := by
  unfold enclosed? at h
  split at h
  · cases h
  · obtain ⟨inner, ho, hc⟩ := Option.bind_eq_some_iff.mp h
    obtain ⟨hinner, hfirst⟩ := Text.cut?_eq_some_iff.mp hc
    refine ⟨?_, hinner ▸ hfirst⟩
    rw [Text.after?_eq_some_iff.mp ho, hinner]
    simp only [List.append_assoc]

theorem enclosed?_eq_some_iff {tags : Delims} (hne : tags ≠ ⟨[], []⟩) {s body rest : Text} :
    enclosed? tags s = some (body, rest) ↔ Encloses tags s body rest := by
  refine ⟨encloses_of_enclosed?, ?_⟩
  have hcond : ¬(tags.opening = [] ∧ tags.closing = []) := by
    rintro ⟨ho, hc⟩
    obtain ⟨o, c⟩ := tags
    subst ho hc
    exact hne rfl
  rintro ⟨hparts, hfirst⟩
  rw [enclosed?, if_neg hcond, Option.bind_eq_some_iff]
  refine ⟨body ++ tags.closing ++ rest, Text.after?_eq_some_iff.mpr ?_,
    Text.cut?_eq_some_iff.mpr ⟨rfl, hfirst⟩⟩
  rw [hparts]
  simp only [List.append_assoc]

theorem order_eq (tags : Tags) : ∃ f g, order tags = [f, g] ∧ (∀ other, other = f ∨ other = g) ∧
    TriedBefore tags f g ∧ (∀ other, ¬TriedBefore tags other f) ∧
    ∀ other, TriedBefore tags other g → other = f := by
  unfold order
  split
  · next h =>
    refine ⟨.plain, .escaped, rfl, ?_, h, ?_, ?_⟩
    · rintro (_ | _) <;> simp
    · rintro (_ | _) hother
      · exact hother
      · exact absurd hother (by simp only [TriedBefore]; omega)
    · rintro (_ | _) hother
      · rfl
      · exact hother.elim
  · next h =>
    refine ⟨.escaped, .plain, rfl, ?_, Nat.le_of_not_lt h, ?_, ?_⟩
    · rintro (_ | _) <;> simp
    · rintro (_ | _) hother
      · exact h hother
      · exact hother
    · rintro (_ | _) hother
      · exact hother.elim
      · rfl

section Computed

variable {tags : Tags} (hne : ∀ flavor, tags.get flavor ≠ ⟨[], []⟩)
include hne

theorem enclosed?_eq_none_iff {flavor : Flavor} {s : Text} :
    enclosed? (tags.get flavor) s = none ↔ ∀ body rest, ¬Encloses (tags.get flavor) s body rest := by
  constructor
  · intro h body rest he
    rw [(enclosed?_eq_some_iff (hne flavor)).mpr he] at h
    cases h
  · intro h
    cases he : enclosed? (tags.get flavor) s with
    | none => rfl
    | some found => exact absurd ((enclosed?_eq_some_iff (hne flavor)).mp he) (h _ _)

theorem interpolation?_eq_some_iff {s rest : Text} {segment : Segment} :
    interpolation? tags s = some (segment, rest) ↔
      ∃ flavor body, Begins tags s flavor body rest ∧
        segment = ofBody flavor (tags.get flavor) body := by
  obtain ⟨f, g, horder, hall, hfg, hf, hg⟩ := order_eq tags
  rw [interpolation?, horder, List.findSome?_cons]
  rcases hef : enclosed? (tags.get f) s with _ | ⟨body, after⟩
  · -- the first flavor has no interpolation here, so the second one decides
    have hnone := (enclosed?_eq_none_iff hne).mp hef
    simp only [Option.map_none, List.findSome?_cons, List.findSome?_nil]
    constructor
    · intro h
      rcases heg : enclosed? (tags.get g) s with _ | ⟨body, after⟩
      · rw [heg] at h
        cases h
      · rw [heg] at h
        cases h
        refine ⟨g, body, ⟨(enclosed?_eq_some_iff (hne g)).mp heg, ?_⟩, rfl⟩
        intro other hother
        rw [hg other hother]
        exact hnone
    · rintro ⟨flavor, body, hbegins, rfl⟩
      rcases hall flavor with rfl | rfl
      · exact absurd hbegins.encloses (hnone _ _)
      · rw [(enclosed?_eq_some_iff (hne flavor)).mpr hbegins.encloses]
        rfl
  · have hsome := (enclosed?_eq_some_iff (hne f)).mp hef
    simp only [Option.map_some, Option.some.injEq, Prod.mk.injEq]
    constructor
    · rintro ⟨rfl, rfl⟩
      exact ⟨f, body, ⟨hsome, fun other hother => absurd hother (hf other)⟩, rfl⟩
    · rintro ⟨flavor, body', hbegins, rfl⟩
      rcases hall flavor with rfl | rfl
      · have he := (enclosed?_eq_some_iff (hne flavor)).mpr hbegins.encloses
        rw [hef] at he
        cases he
        exact ⟨rfl, rfl⟩
      · exact absurd hsome (hbegins.first f hfg _ _)

theorem interpolation?_eq_none_iff {s : Text} :
    interpolation? tags s = none ↔
      ∀ flavor body rest, ¬Encloses (tags.get flavor) s body rest := by
  obtain ⟨f, g, horder, hall, -⟩ := order_eq tags
  rw [interpolation?, horder, List.findSome?_eq_none_iff]
  constructor
  · intro h flavor
    have hflavor : flavor ∈ [f, g] := by simpa using hall flavor
    exact (enclosed?_eq_none_iff hne).mp (Option.map_eq_none_iff.mp (h flavor hflavor))
  · intro h flavor _
    exact Option.map_eq_none_iff.mpr ((enclosed?_eq_none_iff hne).mpr (h flavor))

theorem reading_ofSource (s : Text) : Reading tags s (ofSource tags s) := by
  fun_induction ofSource tags s with
  | case1 s segment rest h _ ih =>
    obtain ⟨flavor, body, hbegins, rfl⟩ := (interpolation?_eq_some_iff hne).mp h
    unfold ofBody
    split
    · next hbody => exact .blank hbegins hbody ih
    · next hbody => exact .echo hbegins hbody ih
  | case2 => exact .nil
  | case3 c s h ih => exact .char ((interpolation?_eq_none_iff hne).mp h) ih

theorem ofSource_of_begins {s body rest : Text} {flavor : Flavor}
    (h : Begins tags s flavor body rest) :
    ofSource tags s = ofBody flavor (tags.get flavor) body :: ofSource tags rest := by
  have hi := (interpolation?_eq_some_iff hne).mpr ⟨flavor, body, h, rfl⟩
  rw [ofSource]
  split
  · next hs =>
    rw [hi] at hs
    cases hs
    rfl
  · next hs => rw [hi] at hs; cases hs

theorem ofSource_cons {c : Char} {s : Text}
    (h : ∀ flavor body rest, ¬Encloses (tags.get flavor) (c :: s) body rest) :
    ofSource tags (c :: s) = .literal [c] :: ofSource tags s := by
  have hi := (interpolation?_eq_none_iff hne).mpr h
  rw [ofSource]
  split
  · next hs => rw [hi] at hs; cases hs
  · rfl

theorem ofSource_nil : ofSource tags [] = [] := by
  have hnone : interpolation? tags [] = none := by
    refine (interpolation?_eq_none_iff hne).mpr fun flavor body rest h => hne flavor ?_
    have hparts := h.parts
    simp only [List.nil_eq, List.append_eq_nil_iff] at hparts
    obtain ⟨⟨⟨ho, -⟩, hc⟩, -⟩ := hparts
    calc tags.get flavor = ⟨(tags.get flavor).opening, (tags.get flavor).closing⟩ := rfl
      _ = ⟨[], []⟩ := by rw [ho, hc]
  rw [ofSource]
  split
  · next hs => rw [hnone] at hs; cases hs
  · rfl

/-- **A source has exactly one reading**, the one that is computed. -/
theorem reading_iff {s : Text} {segments : List Segment} :
    Reading tags s segments ↔ segments = ofSource tags s := by
  constructor
  · intro h
    induction h with
    | nil => exact (ofSource_nil hne).symm
    | echo h hbody _ ih => rw [ofSource_of_begins hne h, ofBody, if_neg hbody, ih]
    | blank h hbody _ ih => rw [ofSource_of_begins hne h, ofBody, if_pos hbody, ih]
    | char h _ ih => rw [ofSource_cons hne h, ih]
  · rintro rfl
    exact reading_ofSource hne s

end Computed

/-! ## Sources without interpolations -/

/-- Wherever the tags of a pair stand in a source, only blanks are between the opening tag and the first
closing tag. -/
def Bare (tags : Tags) (s : Text) : Prop :=
  ∀ flavor place body rest, place <:+ s → Encloses (tags.get flavor) place body rest →
    ∀ c ∈ body, Text.isBlank c

theorem Bare.of_suffix {tags : Tags} {s t : Text} (h : Bare tags t) (hst : s <:+ t) : Bare tags s :=
  fun flavor place body rest hplace => h flavor place body rest (hplace.trans hst)

theorem bare_iff {tags : Tags} {s : Text} :
    Bare tags s ↔ s.tails.all fun place => [Flavor.plain, .escaped].all fun flavor =>
      (enclosed? (tags.get flavor) place).all fun found => found.1.all Text.isBlank := by
  simp only [List.all_eq_true, Option.all_eq_true_iff_get, List.mem_tails]
  constructor
  · intro h place hplace flavor _ hfound
    exact h flavor place _ _ hplace (encloses_of_enclosed? (Option.some_get hfound).symm)
  · intro h flavor place body rest hplace he
    have hflavor : flavor ∈ [Flavor.plain, .escaped] := by cases flavor <;> simp
    by_cases hne : tags.get flavor = ⟨[], []⟩
    · -- two empty tags have nothing between them
      have hbody : body.length ≤ 0 := he.first [] (body ++ rest) (by simp [hne])
      rw [List.length_eq_zero_iff.mp (Nat.le_zero.mp hbody)]
      nofun
    · have hfound := (enclosed?_eq_some_iff hne).mpr he
      simpa [hfound] using h place hplace flavor hflavor

instance (tags : Tags) (s : Text) : Decidable (Bare tags s) := decidable_of_iff _ bare_iff.symm

theorem bare_of_absent {tags : Tags} {s : Text} (h : ∀ flavor, ¬(tags.get flavor).opening <:+: s) :
    Bare tags s := by
  intro flavor place body rest hplace he
  refine absurd (List.IsInfix.trans ?_ hplace.isInfix) (h flavor)
  rw [he.parts, List.append_assoc, List.append_assoc]
  exact (List.prefix_append _ _).isInfix

/-- **A source without interpolations is literal text**, however much it looks like one. -/
theorem compileEchos_of_bare {tags : Tags} {s : Text} (h : Bare tags s) :
    compileEchos tags s = Text.double '#' s := by
  rw [compileEchos]
  fun_induction ofSource tags s with
  | case1 s segment rest hi _ ih =>
    obtain ⟨flavor, -, hi⟩ := List.exists_of_findSome?_eq_some hi
    obtain ⟨⟨body, after⟩, hfound, heq⟩ := Option.map_eq_some_iff.mp hi
    cases heq
    have he := encloses_of_enclosed? hfound
    have hblank : Text.trim body = [] :=
      Text.trim_eq_nil_iff.mpr (h flavor s body after (List.suffix_refl s) he)
    have hafter : after <:+ s := ⟨_, he.parts.symm⟩
    rw [List.flatMap_cons, ih (h.of_suffix hafter), ofBody, if_pos hblank, compile,
      ← Text.double_append, ← he.parts]
  | case2 => rfl
  | case3 c s _ ih =>
    rw [List.flatMap_cons, ih (h.of_suffix (List.suffix_cons c s)), compile, ← Text.double_append]
    rfl

/-- A source in which no opening tag stands is literal text. -/
theorem compileEchos_of_absent {tags : Tags} {s : Text}
    (h : ∀ flavor, ¬(tags.get flavor).opening <:+: s) : compileEchos tags s = Text.double '#' s :=
  compileEchos_of_bare (bare_of_absent h)

end Segment

/-! ## The nodes of a reading -/

namespace Node

/-- The nodes of some segments: neighbouring literals are one text, and empty ones are none. -/
def ofSegments : List Segment → List Node
  | [] => []
  | .literal s :: segments => prependText s (ofSegments segments)
  | .echo flavor body :: segments => .echo flavor (Text.trim body) :: ofSegments segments

theorem flatMap_print_prependText (s : Text) (nodes : List Node) :
    (prependText s nodes).flatMap print = Text.double '#' s ++ nodes.flatMap print := by
  induction s with
  | nil => rfl
  | cons c s ih =>
    have hprepend (nodes : List Node) :
        (prepend c nodes).flatMap print = Text.double '#' [c] ++ nodes.flatMap print := by
      unfold prepend
      split
      · rw [List.flatMap_cons, List.flatMap_cons, ← List.append_assoc, print, print,
          ← Text.double_append]
        rfl
      · rw [List.flatMap_cons, print]
    show (prepend c (prependText s nodes)).flatMap print = _
    rw [hprepend, ih, ← List.append_assoc, ← Text.double_append]
    rfl

/-- The compiled form of segments is the printed form of their nodes. -/
theorem print_ofSegments (segments : List Segment) :
    (ofSegments segments).flatMap print = segments.flatMap Segment.compile := by
  induction segments with
  | nil => rfl
  | cons segment segments ih =>
    cases segment with
    | literal s => rw [ofSegments, flatMap_print_prependText, ih]; rfl
    | echo flavor body => rw [ofSegments, List.flatMap_cons, ih]; rfl

theorem proper_ofSegments {segments : List Segment}
    (h : ∀ flavor body, .echo flavor body ∈ segments → Text.trim body ≠ []) :
    ∀ node ∈ ofSegments segments, node.Proper := by
  induction segments with
  | nil => nofun
  | cons segment segments ih =>
    have hrest := ih fun flavor body hmem => h flavor body (List.mem_cons_of_mem _ hmem)
    cases segment with
    | literal s =>
      exact List.foldrRecOn (motive := fun nodes => ∀ node ∈ nodes, node.Proper) s prepend hrest
        fun _ hn _ _ => proper_prepend hn
    | echo flavor body =>
      intro node hnode
      rcases List.mem_cons.mp hnode with rfl | hnode
      · exact ⟨h flavor body List.mem_cons_self, Text.trim_trim body⟩
      · exact hrest node hnode

theorem separate_ofSegments (segments : List Segment) :
    (ofSegments segments).IsChain Separate := by
  induction segments with
  | nil => exact .nil
  | cons segment segments ih =>
    cases segment with
    | literal s =>
      exact List.foldrRecOn (motive := fun nodes => nodes.IsChain Separate) s prepend ih
        fun _ hn _ _ => separate_prepend hn
    | echo flavor body => exact List.isChain_cons.mpr ⟨fun next _ => by cases next <;> trivial, ih⟩

/-- The nodes of a reading are a normal list unless a closing brace follows an interpolation. -/
theorem normal_ofSegments_iff {segments : List Segment}
    (h : ∀ flavor body, .echo flavor body ∈ segments → Text.trim body ≠ []) :
    Normal (ofSegments segments) ↔ (ofSegments segments).IsChain Apart :=
  ⟨Normal.apart, fun hapart => ⟨proper_ofSegments h, separate_ofSegments segments, hapart⟩⟩

end Node

/-! ## Compiling and reading back -/

theorem Options.ne_default (flavor : Flavor) : ({} : Options).tags.get flavor ≠ ⟨[], []⟩ := by
  cases flavor <;> decide

/-- **Compiled interpolations are read back as the source reads, exactly if no literal closing brace
directly follows an interpolation.** -/
theorem ofCompiled_compileEchos_iff {tags : Tags} (hne : ∀ flavor, tags.get flavor ≠ ⟨[], []⟩)
    (source : Text) :
    (∃! segments, Segment.Reading tags source segments) ∧
      ∀ segments, Segment.Reading tags source segments →
        (Node.ofCompiled (Segment.compileEchos tags source) = Node.ofSegments segments ↔
          (Node.ofSegments segments).IsChain Node.Apart) := by
  refine ⟨⟨_, Segment.reading_ofSource hne source, fun _ h => (Segment.reading_iff hne).mp h⟩, ?_⟩
  intro segments hreading
  have hcompiled : Segment.compileEchos tags source = (Node.ofSegments segments).flatMap Node.print := by
    rw [Node.print_ofSegments, (Segment.reading_iff hne).mp hreading]
    rfl
  rw [hcompiled, ← Node.normal_ofSegments_iff hreading.trim_ne_nil]
  constructor
  · -- whatever is read is normal
    intro heq
    rw [← heq]
    exact Node.normal_ofCompiled _
  · exact Node.ofCompiled_print

/-- With the default tags, a hash sign before an interpolation and one after it, and a brace in its
expression. -/
theorem ofCompiled_compileEchos_hash :
    (∀ flavor, ({} : Options).tags.get flavor ≠ ⟨[], []⟩) ∧
      Node.ofCompiled (Segment.compileEchos ({} : Options).tags
          ['#', '{', '{', 'a', '}', ' ', '}', '}', '#', '{']) =
        [.text ['#'], .echo .plain ['a', '}'], .text ['#', '{']] := by
  have hne := Options.ne_default
  obtain ⟨⟨segments, hreading, -⟩, hiff⟩ :=
    ofCompiled_compileEchos_iff hne ['#', '{', '{', 'a', '}', ' ', '}', '}', '#', '{']
  have hnodes : Node.ofSegments segments =
      [.text ['#'], .echo .plain ['a', '}'], .text ['#', '{']] := by
    rw [(Segment.reading_iff hne).mp hreading]
    decide +kernel
  refine ⟨hne, ((hiff segments hreading).mpr ?_).trans hnodes⟩
  rw [hnodes]
  simp [Node.Apart]

/-- With the default tags, an interpolation of `a` and a closing brace are read back as one text. -/
theorem ofCompiled_compileEchos_brace :
    Segment.Reading ({} : Options).tags ['{', '{', ' ', 'a', ' ', '}', '}', '}']
        [.echo .plain [' ', 'a', ' '], .literal ['}']] ∧
      Node.ofSegments [.echo .plain [' ', 'a', ' '], .literal ['}']] =
        [.echo .plain ['a'], .text ['}']] ∧
      Node.ofCompiled (Segment.compileEchos ({} : Options).tags
          ['{', '{', ' ', 'a', ' ', '}', '}', '}']) =
        [.text ['#', '!', '{', 'a', '}', '}']] ∧
      Node.ofCompiled (Segment.compileEchos ({} : Options).tags
          ['{', '{', ' ', 'a', ' ', '}', '}', '}']) ≠
        Node.ofSegments [.echo .plain [' ', 'a', ' '], .literal ['}']] := by
  have hne := Options.ne_default
  exact ⟨(Segment.reading_iff hne).mpr (by decide +kernel), by decide +kernel, by decide +kernel,
    by decide +kernel⟩

end Stencil
