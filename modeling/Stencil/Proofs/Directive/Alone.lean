import Stencil.Proofs.Directive.Strip
import Stencil.Tags

/-!
# Directives whose keyword stands once

A keyword of word characters stands across the seam of two texts only if a word does. So where texts
are put together at other characters, the places of a keyword in the whole are those in the parts
(`not_isInfix_append`). A directive whose keyword stands nowhere else is found whatever is around it,
and stripping takes out this directive and nothing else (`find?_of_clear`, `strip_of_clear`).
-/

namespace Stencil.Directive

variable {keyword a b before call rest after : Text}

/-! ## Places of a keyword -/

/-- A keyword that can be told apart from what is around it. -/
structure IsKeyword (keyword : Text) : Prop where
  nonempty : keyword ≠ []
  word : ∀ c ∈ keyword, Text.isWord c

/-- No word goes on from the first text to the second. -/
def Apart (a b : Text) : Prop := ¬EndsInWord a ∨ ∀ c ∈ b.head?, ¬Text.isWord c

/-- A keyword stands in one of two texts that are apart, or in the other. -/
theorem isPrefix_append_cases (hkeyword : IsKeyword keyword) (hapart : Apart a b)
    (h : before ++ keyword <+: a ++ b) :
    before ++ keyword <+: a ∨ ∃ between, before = a ++ between ∧ between ++ keyword <+: b := by
  rcases Nat.le_total (before ++ keyword).length a.length with hle | hle
  · exact .inl (List.prefix_of_prefix_length_le h (List.prefix_append a b) hle)
  · obtain ⟨tail, htail⟩ := List.prefix_of_prefix_length_le (List.prefix_append a b) h hle
    rcases Nat.le_total a.length before.length with hlength | hlength
    · obtain ⟨between, rfl⟩ := List.prefix_of_prefix_length_le ⟨tail, htail⟩
        (List.prefix_append before keyword) hlength
      rw [List.append_assoc, List.prefix_append_right_inj] at h
      exact .inr ⟨between, rfl, h⟩
    · -- the keyword begins in `a`, so the character of it at the seam belongs to a word
      obtain ⟨first, rfl⟩ := List.prefix_of_prefix_length_le (List.prefix_append before keyword)
        ⟨tail, htail⟩ hlength
      rw [List.append_assoc, List.append_cancel_left_eq] at htail
      subst htail
      rw [← List.append_assoc, List.prefix_append_right_inj] at h
      have hword := hkeyword.word
      rcases List.eq_nil_or_concat first with rfl | ⟨first, c, rfl⟩
      · exact .inr ⟨[], by simp, by simpa using h⟩
      · rcases tail with _ | ⟨d, tail⟩
        · exact .inl (by simp)
        · refine absurd hapart (not_or.mpr ⟨not_not.mpr ⟨c, by simp, hword c (by simp)⟩, ?_⟩)
          intro hhead
          obtain ⟨more, rfl⟩ := h
          exact hhead d rfl (hword d (by simp))

/-- A keyword that stands in neither of two texts that are apart does not stand in the two together. -/
theorem not_isInfix_append (hkeyword : IsKeyword keyword) (hapart : Apart a b)
    (ha : ¬keyword <:+: a) (hb : ¬keyword <:+: b) : ¬keyword <:+: a ++ b := by
  rintro ⟨before, after, h⟩
  rcases isPrefix_append_cases hkeyword hapart ⟨after, h⟩ with ⟨more, h⟩ | ⟨between, -, more, h⟩
  · exact ha ⟨before, more, h⟩
  · exact hb ⟨between, more, h⟩

/-! ## Texts that keep a keyword clear -/

/-- A keyword does not stand in a text, and after the text it is not glued to a word and there is no
white space before it. -/
structure Clear (keyword s : Text) : Prop where
  absent : ¬keyword <:+: s
  ends : ∀ c ∈ s.getLast?, ¬Text.isWord c ∧ ¬Text.isSpace c

theorem Clear.not_endsInWord (h : Clear keyword a) : ¬EndsInWord a := by
  rintro ⟨c, hc, hword⟩
  exact (h.ends c hc).1 hword

theorem Clear.apart (h : Clear keyword a) (b : Text) : Apart a b := .inl h.not_endsInWord

theorem Clear.absent_append (hkeyword : IsKeyword keyword) (ha : Clear keyword a)
    (hb : ¬keyword <:+: b) : ¬keyword <:+: a ++ b :=
  not_isInfix_append hkeyword (ha.apart b) ha.absent hb

/-- What ends the second of two texts ends both together. -/
theorem ends_append {p : Char → Prop} (ha : ∀ c ∈ a.getLast?, p c) (hb : ∀ c ∈ b.getLast?, p c) :
    ∀ c ∈ (a ++ b).getLast?, p c := by
  rcases List.eq_nil_or_concat b with rfl | ⟨b, d, rfl⟩
  · rwa [List.append_nil]
  · simpa [← List.append_assoc] using hb

theorem Clear.append (hkeyword : IsKeyword keyword) (ha : Clear keyword a) (hb : Clear keyword b) :
    Clear keyword (a ++ b) :=
  ⟨ha.absent_append hkeyword hb.absent, ends_append ha.ends hb.ends⟩

/-- Text that ends at the beginning of a clear text, where no word goes on. -/
theorem Clear.append_of_head {c : Char} (hkeyword : IsKeyword keyword) (ha : ¬keyword <:+: a)
    (hc : ¬Text.isWord c) (hb : Clear keyword (c :: b)) : Clear keyword (a ++ c :: b) := by
  have hapart : Apart a (c :: b) := .inr fun d hd => Option.some.inj hd ▸ hc
  refine ⟨not_isInfix_append hkeyword hapart ha hb.absent, ?_⟩
  rw [List.getLast?_append_of_ne_nil a (List.cons_ne_nil c b)]
  exact hb.ends

/-- Characters of no word keep every keyword clear. -/
theorem clear_of_not_isWord (hkeyword : IsKeyword keyword)
    (h : a.all fun c => !(Text.isWord c || Text.isSpace c)) : Clear keyword a := by
  have hother (c : Char) (hc : c ∈ a) : ¬Text.isWord c ∧ ¬Text.isSpace c := by
    simpa using List.all_eq_true.mp h c hc
  refine ⟨fun hin => ?_, fun c hc => hother c (List.mem_of_getLast? hc)⟩
  obtain ⟨c, s, rfl⟩ := List.exists_cons_of_ne_nil hkeyword.nonempty
  exact (hother c (hin.subset List.mem_cons_self)).1 (hkeyword.word c List.mem_cons_self)

/-! ## Directives with the keyword nowhere else -/

theorem not_isWord_head_call {args : List Text} (h : Call.Says call args) (after : Text) :
    ∀ c ∈ (call ++ after).head?, ¬Text.isWord c := by
  cases h with
  | @mk space written _ hspace arguments =>
    intro c hc
    rcases space with _ | ⟨d, space⟩
    · obtain rfl : '(' = c := Option.some.inj hc
      decide
    · obtain rfl := Option.some.inj hc
      exact Occurrence.not_isWord_of_isSpace (hspace d List.mem_cons_self)

/-- After a clear text and before one without it a keyword stands at one place only. -/
theorem eq_of_clear (hkeyword : IsKeyword keyword) (hbefore : Clear keyword before)
    (hapart : Apart keyword rest) (hrest : ¬keyword <:+: rest) {earlier : Text}
    (h : earlier ++ keyword <+: before ++ (keyword ++ rest)) : earlier = before := by
  rcases isPrefix_append_cases hkeyword (hbefore.apart _) h with
    ⟨more, hin⟩ | ⟨between, rfl, hafter⟩
  · exact absurd ⟨earlier, more, hin⟩ hbefore.absent
  · rcases isPrefix_append_cases hkeyword hapart hafter with hin | ⟨later, -, more, hin⟩
    · have hlength := hin.length_le
      rw [List.length_append] at hlength
      obtain rfl : between = [] := List.eq_nil_of_length_eq_zero (by omega)
      exact List.append_nil before
    · exact absurd ⟨later, more, hin⟩ hrest

section Alone

variable {args : List Text} (hkeyword : IsKeyword keyword) (hbefore : Clear keyword before)
  (hcall : Call.Says call args) (hrest : ¬keyword <:+: call ++ after)

include hkeyword hbefore hcall hrest

theorem find?_of_clear : find? keyword (before ++ (keyword ++ (call ++ after))) =
    some ⟨before, keyword ++ call, args, after⟩ := by
  let o : Occurrence := ⟨before, call, args, after⟩
  have hstands : o.Stands keyword (before ++ (keyword ++ (call ++ after))) :=
    ⟨rfl, hbefore.not_endsInWord, hcall⟩
  have hleftmost : o.Leftmost keyword (before ++ (keyword ++ (call ++ after))) := by
    refine ⟨hstands, fun o' h => ?_⟩
    have hplace : o'.seen ++ keyword <+: before ++ (keyword ++ (call ++ after)) :=
      ⟨o'.call ++ o'.after, by rw [h.source_eq, List.append_assoc]⟩
    rw [eq_of_clear hkeyword hbefore (.inr (not_isWord_head_call hcall after)) hrest hplace]
  have hspace : o.space = [] := by
    have hrun : before.rtakeWhile Text.isSpace = [] :=
      List.rtakeWhile_eq_nil_iff.mpr fun hne => (hbefore.ends _ (List.getLast_mem_getLast? hne)).2
    unfold Occurrence.space
    rw [hrun]
    exact ite_self _
  have hseen : before ++ o.space = o.seen := by rw [hspace, List.append_nil]
  have hmatch : o.toMatch keyword = ⟨before, keyword ++ call, args, after⟩ := by
    rw [Occurrence.toMatch, Occurrence.before_eq hseen, hspace, List.nil_append]
  exact find?_eq_some_iff.mpr ⟨hkeyword.nonempty, o, hleftmost, hmatch.symm⟩

theorem strip_of_clear :
    strip (keyword ++ call) (before ++ (keyword ++ (call ++ after))) = before ++ after := by
  have hcut : Text.cut? (keyword ++ call) (before ++ (keyword ++ (call ++ after))) =
      some (before, after) := by
    refine Text.cut?_eq_some_iff.mpr ⟨by simp, fun earlier later h => ?_⟩
    have hplace : earlier ++ keyword <+: before ++ (keyword ++ (call ++ after)) :=
      ⟨call ++ later, by rw [h]; simp⟩
    rw [eq_of_clear hkeyword hbefore (.inr (not_isWord_head_call hcall after)) hrest hplace]
  rw [strip, hcut]

end Alone

/-! ## Directives that say their tags as they are -/

/-- The call that says two tags in single quotes. -/
def saying (tags : Delims) : Text :=
  '(' :: '\'' :: (tags.opening ++ '\'' :: ',' :: '\'' :: (tags.closing ++ ['\'', ')']))

/-- A directive with its tags in single quotes. -/
def print (keyword : Text) (tags : Delims) : Text := keyword ++ saying tags

/-- A tag that is read in quotes as it is written. -/
structure Quotable (tag : Text) : Prop where
  trimmed : Text.trim tag = tag
  quote : '\'' ∉ tag
  line : '\n' ∉ tag

variable {tags : Delims}

theorem Quotable.says {tag : Text} (h : Quotable tag) :
    Call.SaysArgument ('\'' :: (tag ++ ['\''])) tag := by
  have hsays := Call.SaysArgument.quoted (.inl rfl) h.quote h.line
  rwa [h.trimmed] at hsays

theorem says_saying (hopening : Quotable tags.opening) (hclosing : Quotable tags.closing) :
    Call.Says (saying tags) [tags.opening, tags.closing] := by
  have hnone : ∀ c ∈ ([] : Text), Text.isInlineSpace c := nofun
  have hboth := Call.SaysArguments.more hnone hopening.says hnone (.single hclosing.says)
  simpa [saying] using hboth.call

theorem clear_saying (hkeyword : IsKeyword keyword) (hopening : ¬keyword <:+: tags.opening)
    (hclosing : ¬keyword <:+: tags.closing) : Clear keyword (saying tags) := by
  have hquote : ¬Text.isWord '\'' := by decide
  have hend : Clear keyword ['\'', ')'] := clear_of_not_isWord hkeyword (by decide)
  have hcomma : Clear keyword ['\'', ',', '\''] := clear_of_not_isWord hkeyword (by decide)
  have hstart : Clear keyword ['(', '\''] := clear_of_not_isWord hkeyword (by decide)
  have hsecond := hcomma.append hkeyword (.append_of_head hkeyword hclosing hquote hend)
  exact hstart.append hkeyword (.append_of_head hkeyword hopening hquote hsecond)

/-- A directive keeps another keyword clear that stands neither in its own keyword nor in its tags. -/
theorem clear_print {other : Text} (hother : IsKeyword other) (hkeyword : ¬other <:+: keyword)
    (hopening : ¬other <:+: tags.opening) (hclosing : ¬other <:+: tags.closing) :
    Clear other (print keyword tags) :=
  .append_of_head hother hkeyword (by decide) (clear_saying hother hopening hclosing)

end Stencil.Directive
