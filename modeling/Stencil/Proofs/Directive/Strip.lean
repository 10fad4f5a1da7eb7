import Stencil.Proofs.Directive.Occurrences

/-!
# Taking a directive out of a source

`find?` works by place and `strip` by text. The two agree unless the text of the match occurs further
left, where the search has not accepted it. That is only where the keyword follows a word directly
(`glued_of_earlier`): such a text is no directive, but `strip` takes it for one.
-/

namespace Stencil.Directive

variable {keyword source : Text} {m : Match}

/-- What is stripped from the beginning of a text is the beginning. -/
theorem strip_append (text rest : Text) : strip text (text ++ rest) = rest := by
  have hcut : Text.cut? text (text ++ rest) = some ([], rest) :=
    Text.cut?_eq_some_iff.mpr ⟨rfl, fun _ _ _ => Nat.zero_le _⟩
  rw [strip, hcut]
  rfl

/-- The text of a match is cut out where it was found or further left. -/
theorem cut?_of_find? (h : find? keyword source = some m) :
    ∃ earlier between rest, Text.cut? m.text source = some (earlier, rest) ∧
      m.before = earlier ++ between ∧ m.text ++ rest = between ++ m.text ++ m.after := by
  have hsource : m.before ++ m.text ++ m.after = source := source_of_find? h
  obtain ⟨earlier, rest, hcut, hle⟩ := Text.cut?_of_append m.text m.before m.after
  rw [hsource] at hcut
  have hsplit := hsource.trans (Text.eq_append_of_cut? hcut)
  rw [List.append_assoc, List.append_assoc] at hsplit
  obtain ⟨between, hbefore⟩ : earlier <+: m.before :=
    List.prefix_of_prefix_length_le ⟨_, hsplit.symm⟩ ⟨_, rfl⟩ hle
  refine ⟨earlier, between, rest, hcut, hbefore.symm, ?_⟩
  rw [← hbefore, List.append_assoc] at hsplit
  simpa using (List.append_cancel_left hsplit).symm

/-- The text of a match can occur further left only where its keyword follows a word directly. -/
theorem glued_of_earlier {earlier later : Text} (h : find? keyword source = some m)
    (hearlier : source = earlier ++ m.text ++ later) (hlt : earlier.length < m.before.length) :
    keyword <+: m.text ∧ EndsInWord earlier := by
  obtain ⟨-, o, ho, rfl⟩ := find?_eq_some_iff.mp h
  have hword : EndsInWord (earlier ++ o.space) := by
    by_contra hword
    -- otherwise it would be an occurrence of the directive, and `o` is the leftmost one
    have hstands : Occurrence.Stands keyword source ⟨earlier ++ o.space, o.call, o.args, later⟩ :=
      ⟨by simpa [Occurrence.toMatch] using hearlier, hword, ho.called⟩
    have hle := ho.length_le _ hstands
    rw [← o.before_append_space, List.length_append, List.length_append] at hle
    have hlt : earlier.length < o.before.length := hlt
    omega
  have hspace : o.space = [] := by
    by_contra hne
    exact Occurrence.not_endsInWord_append (fun _ => o.isSpace_of_mem_space) hne earlier hword
  refine ⟨⟨o.call, ?_⟩, by simpa [hspace] using hword⟩
  rw [Occurrence.toMatch, hspace]
  rfl

/-- **Where a directive is taken out.** Its text is cut out at its first occurrence, which is the match
or stands directly after a word. So the match is taken out exactly if no text lies between the two, or
one that makes no difference. -/
theorem strip_match_iff (h : find? keyword source = some m) :
    ∃ earlier between rest, Text.cut? m.text source = some (earlier, rest) ∧
      m.before = earlier ++ between ∧ strip m.text source = earlier ++ rest ∧
      (between ≠ [] → keyword <+: m.text ∧ EndsInWord earlier) ∧
      (strip m.text source = m.before ++ m.after ↔ m.text ++ between = between ++ m.text) := by
  obtain ⟨earlier, between, rest, hcut, hbefore, hrest⟩ := cut?_of_find? h
  have hstrip : strip m.text source = earlier ++ rest := by rw [strip, hcut]
  refine ⟨earlier, between, rest, hcut, hbefore, hstrip, fun hne => ?_, ?_⟩
  · refine glued_of_earlier h (Text.eq_append_of_cut? hcut) ?_
    have := List.length_pos_iff.mpr hne
    rw [hbefore, List.length_append]
    omega
  · calc strip m.text source = m.before ++ m.after
        ↔ m.text ++ rest = m.text ++ (between ++ m.after) := by
          rw [hstrip, hbefore, List.append_assoc, List.append_cancel_left_eq,
            List.append_cancel_left_eq]
      _ ↔ m.text ++ between = between ++ m.text := by
          rw [hrest, ← List.append_assoc, List.append_cancel_right_eq, eq_comm]

/-- A match that begins with a blank is taken out, whatever stands before it. -/
theorem strip_match_blank :
    let keyword := "changecontenttags".toList
    let source := "xchangecontenttags('a','b') changecontenttags('a','b')".toList
    let found : Match := ⟨"xchangecontenttags('a','b')".toList, " changecontenttags('a','b')".toList,
      [['a'], ['b']], []⟩
    find? keyword source = some found ∧ strip found.text source = found.before ++ found.after := by
  intro keyword source found
  have hfind : find? keyword source = some found := by decide +kernel
  obtain ⟨earlier, between, rest, -, -, -, hglued, hiff⟩ := strip_match_iff hfind
  have hblank : ¬keyword <+: found.text := by decide +kernel
  have hbetween : between = [] := by
    by_contra hne
    exact hblank (hglued hne).1
  refine ⟨hfind, hiff.mpr ?_⟩
  rw [hbetween, List.append_nil, List.nil_append]

/-- The same text after a word is taken out in place of the directive; and in place of a directive with
a longer keyword. -/
theorem strip_match_glued :
    (let keyword := "changecontenttags".toList
      let source := "xchangecontenttags('a','b')-changecontenttags('a','b')".toList
      let found : Match := ⟨"xchangecontenttags('a','b')-".toList,
        "changecontenttags('a','b')".toList, [['a'], ['b']], []⟩
      find? keyword source = some found ∧
        strip found.text source = "x-changecontenttags('a','b')".toList ∧
        strip found.text source ≠ found.before ++ found.after) ∧
      let source := "etags('a','b')-tags('a','b')".toList
      let found : Match := ⟨"etags('a','b')-".toList, "tags('a','b')".toList, [['a'], ['b']], []⟩
      find? "etags".toList source = some ⟨[], "etags('a','b')".toList, [['a'], ['b']],
          "-tags('a','b')".toList⟩ ∧
        find? "tags".toList source = some found ∧
        strip found.text source = "e-tags('a','b')".toList ∧
        strip found.text source ≠ found.before ++ found.after := by
  decide +kernel

end Stencil.Directive
