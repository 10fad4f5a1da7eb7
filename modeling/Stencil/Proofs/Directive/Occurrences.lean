import Mathlib.Order.WellFounded
import Stencil.Directive
import Stencil.Proofs.Call.Grammar

/-!
# Where directives stand

An occurrence of a directive is a place of its keyword in a source, not directly after a word, with a
call after it. The search goes through the places of the keyword from left to right, so it finds the
leftmost occurrence and nothing else (`find?_eq_some_iff`); the match begins at the white space before
the keyword.
-/

namespace Stencil

/-- The last character of a text is a word character. -/
def EndsInWord (s : Text) : Prop := ∃ c ∈ s.getLast?, Text.isWord c

instance : DecidablePred EndsInWord := fun s =>
  decidable_of_iff (s.getLast?.any Text.isWord) (by cases h : s.getLast? <;> simp [EndsInWord, h])

namespace Directive

/-- A place in a source, and a call at it. -/
structure Occurrence where
  /-- What stands before the keyword. -/
  seen : Text
  call : Text
  args : List Text
  /-- What stands after the call. -/
  after : Text

namespace Occurrence

variable {keyword source : Text} {o o' : Occurrence}

/-- A directive stands at a place of a source. -/
structure Stands (keyword source : Text) (o : Occurrence) : Prop where
  source_eq : source = o.seen ++ (keyword ++ (o.call ++ o.after))
  apart : ¬EndsInWord o.seen
  called : Call.Says o.call o.args

/-- A directive stands at a place and none stands further left. -/
structure Leftmost (keyword source : Text) (o : Occurrence) : Prop extends
    Stands keyword source o where
  length_le : ∀ o' : Occurrence, o'.Stands keyword source → o.seen.length ≤ o'.seen.length

/-- All white space before the keyword, without its first character if it follows a word. -/
def space (o : Occurrence) : Text :=
  if EndsInWord (o.seen.rdropWhile Text.isSpace) then (o.seen.rtakeWhile Text.isSpace).tail
  else o.seen.rtakeWhile Text.isSpace

/-- What stands before the white space that belongs to the directive. -/
def before (o : Occurrence) : Text := o.seen.rdrop o.space.length

/-- The directive with the white space before it. -/
def toMatch (keyword : Text) (o : Occurrence) : Match :=
  ⟨o.before, o.space ++ keyword ++ o.call, o.args, o.after⟩

theorem space_suffix (o : Occurrence) : o.space <:+ o.seen := by
  have hrun : o.seen.rtakeWhile Text.isSpace <:+ o.seen := List.rtakeWhile_suffix _ _
  unfold space
  split
  · exact (List.tail_suffix _).trans hrun
  · exact hrun

theorem isSpace_of_mem_space {c : Char} (h : c ∈ o.space) : Text.isSpace c := by
  unfold space at h
  split at h
  · exact List.mem_rtakeWhile_imp (List.mem_of_mem_tail h)
  · exact List.mem_rtakeWhile_imp h

theorem before_eq {before : Text} (h : before ++ o.space = o.seen) : o.before = before := by
  rw [Occurrence.before, ← h, List.rdrop, List.length_append, Nat.add_sub_cancel, List.take_left]

theorem before_append_space (o : Occurrence) : o.before ++ o.space = o.seen := by
  obtain ⟨before, h⟩ := o.space_suffix
  rw [before_eq h, h]

/-- A place has at most one call. -/
theorem Stands.unique (h : o.Stands keyword source) (h' : o'.Stands keyword source)
    (hlength : o.seen.length = o'.seen.length) : o = o' := by
  obtain ⟨seen, call, args, after⟩ := o
  obtain ⟨seen', call', args', after'⟩ := o'
  obtain ⟨hseen, hrest⟩ := List.append_inj (h.source_eq.symm.trans h'.source_eq) hlength
  have hcalls : call ++ after = call' ++ after' := List.append_cancel_left hrest
  have hread := Call.read?_append h.called after
  rw [hcalls, Call.read?_append h'.called after'] at hread
  cases hread
  obtain rfl : call = call' := List.append_cancel_right hcalls
  obtain rfl : seen = seen' := hseen
  rfl

theorem Stands.exists_leftmost (h : o.Stands keyword source) :
    ∃ o : Occurrence, o.Leftmost keyword source := by
  obtain ⟨first, hfirst, hmin⟩ :=
    (measure fun o : Occurrence => o.seen.length).wf.has_min {o | o.Stands keyword source} ⟨o, h⟩
  exact ⟨first, hfirst, fun o' h' => Nat.le_of_not_lt (hmin o' h')⟩

/-! ## The search -/

theorem not_isWord_of_isSpace {c : Char} (h : Text.isSpace c) : ¬Text.isWord c := by
  have hc : c = ' ' ∨ c = '\t' ∨ c = '\n' ∨ c = '\x0c' ∨ c = '\r' := by
    simpa [Text.isSpace, or_assoc] using h
  rcases hc with rfl | rfl | rfl | rfl | rfl <;> decide

/-- White space never ends in a word. -/
theorem not_endsInWord_append {run : Text} (hrun : ∀ c ∈ run, Text.isSpace c) (hne : run ≠ [])
    (s : Text) : ¬EndsInWord (s ++ run) := by
  rintro ⟨c, hc, hword⟩
  rw [List.getLast?_append_of_ne_nil _ hne] at hc
  exact not_isWord_of_isSpace (hrun c (List.mem_of_getLast? hc)) hword

/-- What stands before a keyword is split where the match begins, unless it ends in a word. -/
theorem lead?_reverse (o : Occurrence) :
    lead? o.seen.reverse = if EndsInWord o.seen then none else some (o.before, o.space) := by
  have hseen : o.seen.rdropWhile Text.isSpace ++ o.seen.rtakeWhile Text.isSpace = o.seen :=
    List.rdropWhile_append_rtakeWhile
  have hrun : ∀ c ∈ o.seen.rtakeWhile Text.isSpace, Text.isSpace c := fun c =>
    List.mem_rtakeWhile_imp
  have hspace : o.space = if EndsInWord (o.seen.rdropWhile Text.isSpace) then
      (o.seen.rtakeWhile Text.isSpace).tail else o.seen.rtakeWhile Text.isSpace := rfl
  have htake : (o.seen.reverse.takeWhile Text.isSpace).reverse = o.seen.rtakeWhile Text.isSpace := rfl
  have hdrop : (o.seen.reverse.dropWhile Text.isSpace).reverse = o.seen.rdropWhile Text.isSpace := rfl
  simp only [lead?, htake, hdrop]
  clear htake hdrop
  generalize o.seen.rdropWhile Text.isSpace = earlier at *
  generalize o.seen.rtakeWhile Text.isSpace = run at *
  have hends : (earlier.getLast?.map Text.isWord).getD false = true ↔ EndsInWord earlier := by
    unfold EndsInWord
    cases earlier.getLast? <;> simp
  by_cases hword : EndsInWord earlier
  · rw [if_pos hword] at hspace
    rw [if_pos (hends.mpr hword)]
    cases run with
    | nil =>
      rw [List.append_nil] at hseen
      rw [if_pos (hseen ▸ hword)]
    | cons c rest =>
      have hbefore : o.before = earlier ++ [c] := before_eq (by simpa [hspace] using hseen)
      rw [if_neg (hseen ▸ not_endsInWord_append hrun (by simp) earlier), hbefore, hspace]
      rfl
  · rw [if_neg hword] at hspace
    have hnot : ¬EndsInWord o.seen := by
      by_cases hrun' : run = []
      · rwa [← hseen, hrun', List.append_nil]
      · exact hseen ▸ not_endsInWord_append hrun hrun' earlier
    have hbefore : o.before = earlier := before_eq (by rw [hspace, hseen])
    rw [if_neg (mt hends.mp hword), if_neg hnot, hbefore, hspace]

end Occurrence

variable {keyword seen s source : Text} {m : Match}

/-- A match is found at a place exactly if a directive stands there. -/
theorem matchHere?_eq_some_iff : matchHere? keyword seen.reverse s = some m ↔
    ∃ o : Occurrence, o.seen = seen ∧ o.Stands keyword (seen ++ s) ∧ m = o.toMatch keyword := by
  constructor
  · intro h
    simp only [matchHere?] at h
    split at h
    · cases h
    · next called hkeyword =>
      split at h
      · next before space args after hlead hread =>
        cases h
        obtain ⟨call, rfl, hcall⟩ := Call.read?_eq_some_iff.mp hread
        let o : Occurrence := ⟨seen, call, args, after⟩
        obtain ⟨happart, hbefore, hspace⟩ :
            ¬EndsInWord seen ∧ o.before = before ∧ o.space = space := by
          simpa using o.lead?_reverse.symm.trans hlead
        refine ⟨o, rfl, ⟨?_, happart, hcall⟩, ?_⟩
        · rw [Text.after?_eq_some_iff.mp hkeyword]
        · simp [Occurrence.toMatch, hbefore, hspace, o]
      · cases h
  · rintro ⟨o, rfl, ⟨hsource, happart, hcall⟩, rfl⟩
    obtain rfl : s = keyword ++ (o.call ++ o.after) := List.append_cancel_left hsource
    simp [matchHere?, Text.after?_append, o.lead?_reverse, happart, Call.read?_append hcall,
      Occurrence.toMatch]

/-- The search goes on to the right of what it has seen. By induction on what is left. -/
theorem search?_eq_some_iff (hkeyword : keyword ≠ []) : search? keyword seen.reverse s = some m ↔
    ∃ o : Occurrence, o.Stands keyword (seen ++ s) ∧ seen.length ≤ o.seen.length ∧
      (∀ o' : Occurrence, o'.Stands keyword (seen ++ s) → seen.length ≤ o'.seen.length →
        o.seen.length ≤ o'.seen.length) ∧ m = o.toMatch keyword := by
  induction s generalizing seen with
  | nil =>
    refine iff_of_false nofun ?_
    rintro ⟨o, h, hle, -⟩
    have hlength := congrArg List.length h.source_eq
    have := List.length_pos_iff.mpr hkeyword
    simp only [List.length_append, List.length_nil] at hlength
    omega
  | cons c s ih =>
    have hsource : seen ++ c :: s = (seen ++ [c]) ++ s := by simp
    cases hhere : matchHere? keyword seen.reverse (c :: s) with
    | some found =>
      obtain ⟨first, rfl, hfirst, rfl⟩ := matchHere?_eq_some_iff.mp hhere
      simp only [search?, hhere, Option.some.injEq]
      constructor
      · rintro rfl
        exact ⟨first, hfirst, Nat.le_refl _, fun _ _ hle => hle, rfl⟩
      · rintro ⟨o, h, hle, hmin, rfl⟩
        rw [hfirst.unique h (Nat.le_antisymm hle (hmin first hfirst (Nat.le_refl _)))]
    | none =>
      -- nothing stands here, so what stands further right is the same
      have hnext : ∀ o : Occurrence, o.Stands keyword (seen ++ c :: s) →
          (seen.length ≤ o.seen.length ↔ (seen ++ [c]).length ≤ o.seen.length) := by
        intro o h
        have hne : seen.length ≠ o.seen.length := by
          intro hlength
          have hseen : o.seen = seen :=
            (List.append_inj_left (h.source_eq) hlength).symm
          have hfound := matchHere?_eq_some_iff.mpr ⟨o, hseen, h, rfl⟩
          rw [hhere] at hfound
          cases hfound
        simp only [List.length_append, List.length_singleton]
        omega
      have hreverse : c :: seen.reverse = (seen ++ [c]).reverse := by simp
      simp only [search?, hhere]
      rw [hreverse, ih, ← hsource]
      refine exists_congr fun o => and_congr_right fun h => ?_
      rw [hnext o h]
      refine and_congr_right fun _ => and_congr_left fun _ => ?_
      exact forall_congr' fun o' => imp_congr_right fun h' => by rw [hnext o' h']

/-- **The search finds exactly the leftmost occurrence.** -/
theorem find?_eq_some_iff : find? keyword source = some m ↔
    keyword ≠ [] ∧ ∃ o : Occurrence, o.Leftmost keyword source ∧ m = o.toMatch keyword := by
  unfold find?
  split
  · next hkeyword => exact iff_of_false nofun fun h => h.1 hkeyword
  · next hkeyword =>
    rw [← List.reverse_nil, search?_eq_some_iff hkeyword]
    simp only [List.nil_append, List.length_nil, Nat.zero_le, true_and, forall_const]
    constructor
    · rintro ⟨o, h, hmin, rfl⟩
      exact ⟨hkeyword, o, ⟨h, hmin⟩, rfl⟩
    · rintro ⟨-, o, h, rfl⟩
      exact ⟨o, h.toStands, h.length_le, rfl⟩

/-- A directive at the beginning of a source is the first one. -/
theorem find?_append (hkeyword : keyword ≠ []) {call : Text} {args : List Text}
    (h : Call.Says call args) (rest : Text) :
    find? keyword (keyword ++ (call ++ rest)) = some ⟨[], keyword ++ call, args, rest⟩ := by
  have hstands : Occurrence.Stands keyword (keyword ++ (call ++ rest)) ⟨[], call, args, rest⟩ :=
    ⟨rfl, (by decide : ¬EndsInWord []), h⟩
  exact find?_eq_some_iff.mpr ⟨hkeyword, _, ⟨hstands, fun _ _ => Nat.zero_le _⟩, rfl⟩

/-- **A directive is found exactly if one stands in the source**, and the match is that of the
leftmost one. -/
theorem find?_leftmost (keyword source : Text) :
    ((∃ m, find? keyword source = some m) ↔
      keyword ≠ [] ∧ ∃ o : Occurrence, o.Stands keyword source) ∧
    ∀ m, find? keyword source = some m ↔
      keyword ≠ [] ∧ ∃ o : Occurrence, o.Leftmost keyword source ∧ m = o.toMatch keyword := by
  refine ⟨⟨?_, ?_⟩, fun m => find?_eq_some_iff⟩
  · rintro ⟨m, h⟩
    obtain ⟨hkeyword, o, ho, -⟩ := find?_eq_some_iff.mp h
    exact ⟨hkeyword, o, ho.toStands⟩
  · rintro ⟨hkeyword, o, ho⟩
    obtain ⟨first, hfirst⟩ := ho.exists_leftmost
    exact ⟨first.toMatch keyword, find?_eq_some_iff.mpr ⟨hkeyword, first, hfirst, rfl⟩⟩

/-- The first place of this keyword has no call, and the next one overlaps it. -/
example : (find? "--".toList "x ---( 'a' )".toList).map (·.text) = some "--( 'a' )".toList := by
  decide +kernel

/-! ## Line feeds -/

/-- A line feed can stand in a directive only between the keyword and the parenthesis. So a directive
stands on one line exactly if the white space there does. -/
theorem find?_onOneLine_iff (hkeyword : '\n' ∉ keyword) (h : find? keyword source = some m) :
    ∃ o : Occurrence, o.Leftmost keyword source ∧ m = o.toMatch keyword ∧
      ('\n' ∉ keyword ++ o.call ↔ '\n' ∉ o.call.takeWhile Text.isSpace) := by
  obtain ⟨-, o, ho, rfl⟩ := find?_eq_some_iff.mp h
  refine ⟨o, ho, rfl, not_congr ?_⟩
  rw [List.mem_append, ho.called.lineFeed_mem_iff]
  exact or_iff_right hkeyword

/-- A line feed before the keyword, and none from the keyword on. -/
theorem find?_onOneLine_paragraph :
    let keyword := "changecontenttags".toList
    let source := "<p>\n  changecontenttags( '<%' , '%>' )".toList
    let found : Match := ⟨"<p>".toList, "\n  changecontenttags( '<%' , '%>' )".toList,
      ["<%".toList, "%>".toList], []⟩
    '\n' ∉ keyword ∧ find? keyword source = some found ∧
      ∃ o : Occurrence, o.Leftmost keyword source ∧ found = o.toMatch keyword ∧
        '\n' ∉ keyword ++ o.call := by
  intro keyword source found
  have hkeyword : '\n' ∉ keyword := by decide
  have hfind : find? keyword source = some found := by decide +kernel
  obtain ⟨o, ho, hfound, hline⟩ := find?_onOneLine_iff hkeyword hfind
  -- the keyword and the call are what is left of the match without its white space
  have htext : found.text = o.space ++ (keyword ++ o.call) := by
    rw [hfound, Occurrence.toMatch, List.append_assoc]
  have hbegin : ∀ c ∈ (keyword ++ o.call).head?, ¬Text.isSpace c := by
    intro c hc
    obtain rfl : 'c' = c := Option.some.inj hc
    decide
  have hrest := (Text.span_run (fun _ => o.isSpace_of_mem_space) hbegin).2
  have hcalled : found.text.dropWhile Text.isSpace = keyword ++ "( '<%' , '%>' )".toList := by
    decide +kernel
  have hcall : o.call = "( '<%' , '%>' )".toList :=
    List.append_cancel_left (hrest.symm.trans (htext ▸ hcalled))
  refine ⟨hkeyword, hfind, o, ho, hfound, hline.mpr ?_⟩
  rw [hcall]
  decide

/-- The white space before the parenthesis may hold a line feed. -/
theorem find?_onTwoLines :
    let keyword := "changecontenttags".toList
    let source := "changecontenttags\n('<%','%>')".toList
    '\n' ∉ keyword ∧
      find? keyword source = some ⟨[], source, ["<%".toList, "%>".toList], []⟩ ∧
      source = keyword ++ "\n('<%','%>')".toList ∧ '\n' ∈ source := by
  decide +kernel

end Directive

end Stencil
