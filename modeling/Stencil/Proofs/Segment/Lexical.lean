import Stencil.Proofs.Host.Pipeline
import Stencil.Proofs.Segment.Reading

/-!
# Other tags for the same segments

Segments are written with tags of which no character stands in them. Then the tags are recognised where
they were written and nowhere else: a literal begins no interpolation (`compileEchos_append`), and
what is written between two tags is what is read between them (`begins_append`). So the compiled form
of the source is that of the segments, and no other tags make a difference (`compileEchos_print`).

Beyond that little is asked of the tags. One opening tag may begin with the other one, since the longer
one is tried first and what stands between tags begins with a character of neither. The opening tag and
the closing tag of a pair may be the same, and so may the closing tags of both flavors.
-/

namespace Stencil

namespace Text

/-- A character that is not in a text stands only after it. -/
theorem length_le_of_not_mem {s t earlier later : Text} {c : Char} (hc : c ∉ s)
    (h : s ++ t = earlier ++ c :: later) : s.length ≤ earlier.length := by
  rcases List.append_eq_append_iff.mp h with ⟨between, rfl, -⟩ | ⟨between, rfl, htail⟩
  · exact List.length_append ▸ Nat.le_add_right _ _
  · cases between with
    | nil => simp
    | cons d between =>
      obtain ⟨rfl, -⟩ := List.cons.inj htail
      simp at hc

/-- A beginning without the character that follows `s` does not reach beyond `s`. -/
theorem isPrefix_of_not_mem {lead s rest : Text} {c : Char} (hc : c ∉ lead)
    (h : lead <+: s ++ c :: rest) : lead <+: s := by
  obtain ⟨more, h⟩ := h
  rcases List.append_eq_append_iff.mp h with ⟨between, rfl, -⟩ | ⟨between, rfl, htail⟩
  · exact ⟨between, rfl⟩
  · cases between with
    | nil => exact ⟨[], by simp⟩
    | cons d between =>
      obtain ⟨rfl, -⟩ := List.cons.inj htail
      simp at hc

end Text

/-- What a segment says, without tags. -/
def Segment.content : Segment → Text
  | .literal text => text
  | .echo _ body => body

/-- Tags for some segments: none is empty, the opening tags are told apart, and no character of them
stands in the segments. -/
structure Tags.Foreign (tags : Tags) (segments : List Segment) : Prop where
  full : ∀ flavor, (tags.get flavor).Full
  distinct : tags.plain.opening ≠ tags.escaped.opening
  fresh : ∀ flavor, ∀ c ∈ (tags.get flavor).opening ++ (tags.get flavor).closing,
    ∀ segment ∈ segments, c ∉ segment.content

namespace Tags.Foreign

variable {tags : Tags} {segment : Segment} {segments : List Segment}

theorem tail (h : tags.Foreign (segment :: segments)) : tags.Foreign segments :=
  ⟨h.full, h.distinct, fun flavor c hc s hs => h.fresh flavor c hc s (List.mem_cons_of_mem _ hs)⟩

theorem ne_empty (h : tags.Foreign segments) (flavor : Flavor) : tags.get flavor ≠ ⟨[], []⟩ :=
  (h.full flavor).ne_empty

theorem opening_ne (h : tags.Foreign segments) {flavor other : Flavor} (hother : other ≠ flavor) :
    (tags.get other).opening ≠ (tags.get flavor).opening := by
  cases flavor <;> cases other
  · exact absurd rfl hother
  · exact h.distinct.symm
  · exact h.distinct
  · exact absurd rfl hother

/-- No character of what a segment says stands in a tag. -/
theorem not_mem (h : tags.Foreign (segment :: segments)) {c : Char} (hc : c ∈ segment.content)
    (flavor : Flavor) : c ∉ (tags.get flavor).opening ∧ c ∉ (tags.get flavor).closing := by
  constructor
  · intro hmem
    exact h.fresh flavor c (List.mem_append_left _ hmem) segment List.mem_cons_self hc
  · intro hmem
    exact h.fresh flavor c (List.mem_append_right _ hmem) segment List.mem_cons_self hc

theorem literal_tail {c : Char} {text : Text} (h : tags.Foreign (.literal (c :: text) :: segments)) :
    tags.Foreign (.literal text :: segments) := by
  refine ⟨h.full, h.distinct, fun flavor d hd s hs => ?_⟩
  rcases List.mem_cons.mp hs with rfl | hs
  · exact fun hmem => h.fresh flavor d hd _ List.mem_cons_self (List.mem_cons_of_mem c hmem)
  · exact h.fresh flavor d hd s (List.mem_cons_of_mem _ hs)

end Tags.Foreign

namespace Segment

variable {tags : Tags} {segments : List Segment}

theorem byteSize_le_of_triedBefore {flavor other : Flavor} (h : TriedBefore tags other flavor) :
    Text.byteSize (tags.get flavor).opening ≤ Text.byteSize (tags.get other).opening := by
  cases other with
  | plain =>
    cases flavor with
    | plain => exact h.elim
    | escaped => exact Nat.le_of_lt h
  | escaped =>
    cases flavor with
    | plain => exact h
    | escaped => exact h.elim

/-! ## Reading what is written -/

/-- Literal text is compiled character by character, whatever comes after it. -/
theorem compileEchos_append {text : Text} (h : tags.Foreign (.literal text :: segments))
    (rest : Text) :
    compileEchos tags (text ++ rest) = Text.double '#' text ++ compileEchos tags rest := by
  induction text with
  | nil => rfl
  | cons c text ih =>
    have hbegins : ∀ flavor body after,
        ¬Encloses (tags.get flavor) (c :: (text ++ rest)) body after := by
      intro flavor body after he
      have hc := (h.not_mem (c := c) List.mem_cons_self flavor).1
      obtain ⟨d, opening, ho⟩ := List.exists_cons_of_ne_nil (h.full flavor).1
      have hparts := he.parts
      rw [ho] at hc hparts
      obtain ⟨rfl, -⟩ := List.cons.inj hparts
      exact hc List.mem_cons_self
    have hrest := ih h.literal_tail
    rw [compileEchos] at hrest ⊢
    rw [List.cons_append, ofSource_cons h.ne_empty hbegins, List.flatMap_cons, hrest, compile,
      Text.double_cons, Text.double_cons, Text.double_nil, List.append_nil, List.append_assoc]

/-- What is written between the tags of a flavor is read as an interpolation of that flavor. -/
theorem begins_append {flavor : Flavor} {body : Text}
    (h : tags.Foreign (.echo flavor body :: segments)) (hbody : body ≠ []) (rest : Text) :
    Begins tags ((tags.get flavor).opening ++ body ++ (tags.get flavor).closing ++ rest) flavor body
      rest := by
  refine ⟨⟨rfl, ?_⟩, ?_⟩
  · -- a closing tag begins with a character that is not in the body
    intro earlier later heq
    obtain ⟨c, closing, hclosing⟩ := List.exists_cons_of_ne_nil (h.full flavor).2
    have hc : c ∉ body := by
      intro hmem
      exact (h.not_mem hmem flavor).2 (hclosing ▸ List.mem_cons_self)
    rw [hclosing, List.append_assoc, List.append_assoc] at heq
    exact Text.length_le_of_not_mem hc heq
  · -- a tag that is tried before is not shorter, so it would reach into the body
    intro other hbefore body' rest' he
    have hother : other ≠ flavor := by
      rintro rfl
      cases other <;> exact hbefore
    obtain ⟨c, body, rfl⟩ := List.exists_cons_of_ne_nil hbody
    have hc := (h.not_mem (c := c) List.mem_cons_self other).1
    have hsource : (tags.get other).opening <+:
        (tags.get flavor).opening ++ c :: (body ++ (tags.get flavor).closing ++ rest) := by
      refine ⟨body' ++ (tags.get other).closing ++ rest', ?_⟩
      have hparts := he.parts
      simp only [List.append_assoc, List.cons_append] at hparts ⊢
      exact hparts.symm
    have hlead := Text.isPrefix_of_not_mem hc hsource
    have hshort := Text.byteSize_lt_of_isPrefix hlead (h.opening_ne hother)
    have hlong := byteSize_le_of_triedBefore hbefore
    omega

/-- Segments that are written with foreign tags are compiled to their compiled form. -/
theorem compileEchos_flatMap_print (h : tags.Foreign segments)
    (hbody : ∀ flavor body, .echo flavor body ∈ segments → Text.trim body ≠ []) :
    compileEchos tags (segments.flatMap (print tags)) = segments.flatMap compile := by
  induction segments with
  | nil =>
    rw [List.flatMap_nil, compileEchos, ofSource_nil h.ne_empty]
  | cons segment segments ih =>
    have hrest := ih h.tail fun flavor body hmem => hbody flavor body (List.mem_cons_of_mem _ hmem)
    rw [List.flatMap_cons, List.flatMap_cons, ← hrest]
    cases segment with
    | literal text => exact compileEchos_append h _
    | echo flavor body =>
      have htrim := hbody flavor body List.mem_cons_self
      have hne : body ≠ [] := by
        rintro rfl
        exact htrim rfl
      have hbegins := begins_append h hne (segments.flatMap (print tags))
      rw [compileEchos, print, ofSource_of_begins h.ne_empty hbegins, ofBody, if_neg htrim,
        List.flatMap_cons]
      rfl

/-- **Other tags make no difference.** Segments that are written with tags of which no character stands
in them are compiled to their compiled form, in which the tags do not occur, and so to the same text
as with any other such tags. -/
theorem compileEchos_print {tags tags' : Tags} (h : tags.Foreign segments)
    (h' : tags'.Foreign segments)
    (hbody : ∀ flavor body, .echo flavor body ∈ segments → Text.trim body ≠ []) :
    compileEchos tags (segments.flatMap (print tags)) = segments.flatMap compile ∧
      compileEchos tags (segments.flatMap (print tags)) =
        compileEchos tags' (segments.flatMap (print tags')) := by
  have hcompiled := compileEchos_flatMap_print h hbody
  exact ⟨hcompiled, hcompiled.trans (compileEchos_flatMap_print h' hbody).symm⟩

/-- One sign that opens both flavors, once and twice, and closes both, and on the other hand brackets:
the compiled form is the same. -/
theorem compileEchos_print_percent :
    let segments : List Segment :=
      [.literal ['#'], .echo .escaped [' ', 'a', '}'], .echo .plain ['b'], .literal ['}']]
    let percent : Tags := ⟨⟨['%'], ['%']⟩, ⟨['%', '%'], ['%']⟩⟩
    let brackets : Tags := ⟨⟨['[', '['], [']', ']']⟩, ⟨['['], [']']⟩⟩
    let compiled := "###\x7ba\x7d\x7d\x7d#!\x7bb\x7d\x7d".toList
    percent.Foreign segments ∧ brackets.Foreign segments ∧
      segments.flatMap (print percent) = "#%% a\x7d%%b%\x7d".toList ∧
      segments.flatMap (print brackets) = "#[ a\x7d][[b]]\x7d".toList ∧
      compileEchos percent "#%% a\x7d%%b%\x7d".toList = compiled ∧
      compileEchos brackets "#[ a\x7d][[b]]\x7d".toList = compiled := by
  intro segments percent brackets compiled
  have foreign {tags : Tags} (h : tags = percent ∨ tags = brackets) : tags.Foreign segments := by
    rcases h with rfl | rfl <;>
      exact ⟨fun flavor => by cases flavor <;> decide, by decide,
        fun flavor => by cases flavor <;> simp [percent, brackets, segments, PerFlavor.get, content]⟩
  have hbody : ∀ flavor body, .echo flavor body ∈ segments → Text.trim body ≠ [] := by
    intro flavor body hmem
    simp only [segments, List.mem_cons, reduceCtorEq, false_or, Segment.echo.injEq,
      List.not_mem_nil, or_false] at hmem
    rcases hmem with ⟨rfl, rfl⟩ | ⟨rfl, rfl⟩ <;> decide +kernel
  obtain ⟨hcompiled, hsame⟩ :=
    compileEchos_print (foreign (.inl rfl)) (foreign (.inr rfl)) hbody
  have hpercent : segments.flatMap (print percent) = "#%% a\x7d%%b%\x7d".toList := by decide +kernel
  have hbrackets : segments.flatMap (print brackets) = "#[ a\x7d][[b]]\x7d".toList := by
    decide +kernel
  have hform : segments.flatMap compile = compiled := by decide +kernel
  rw [hpercent, hform] at hcompiled
  rw [hpercent, hbrackets, hcompiled] at hsame
  exact ⟨foreign (.inl rfl), foreign (.inr rfl), hpercent, hbrackets, hcompiled, hsame.symm⟩

end Segment

end Stencil
