import Stencil.Proofs.Node.Expression

/-!
# Marks in compiled text

`marks` are the nodes of a compiled text other than text, each with the stretch that it takes. What is
not a mark adds nothing to them: doubled hash signs, other characters (`marks_double_append`), and as
far as interpolations go the call of a subview (`echoes_subview`). An interpolation ends at its closing
brace, and where no brace closes there is none (`Unclosed.no_interpolation`).
-/

namespace Stencil.Node

/-! ## Marks -/

/-- The nodes of a compiled text other than text, each with the stretch of the text that it takes. -/
def marks (s : Text) : List (Node × Text.Stretch) :=
  match s with
  | [] => []
  | '#' :: '#' :: s => marks s
  | c :: s =>
    match h : marked? (c :: s) with
    | some (node, rest) =>
      have _ := length_of_marked? h
      (node, ⟨c :: s, rest⟩) :: marks rest
    | none => marks s
termination_by s.length
decreasing_by all_goals simp only [List.length_cons] at *; omega

/-- What an interpolation says. -/
def interpolation? : Node → Option (Flavor × Text)
  | .echo flavor expr => some (flavor, expr)
  | _ => none

/-- The interpolations of a list of nodes. -/
def echoes (nodes : List Node) : List (Flavor × Text) := nodes.filterMap interpolation?

/-- The stretches that the interpolations of a compiled text take. -/
def interpolations (s : Text) : List Text.Stretch :=
  (marks s).filterMap fun found => found.1.interpolation?.map fun _ => found.2

theorem echoes_prepend (c : Char) (nodes : List Node) : echoes (prepend c nodes) = echoes nodes := by
  unfold prepend
  split <;> rfl

theorem echoes_ofCompiled (s : Text) :
    echoes (ofCompiled s) = (marks s).filterMap fun found => found.1.interpolation? := by
  fun_induction marks s with
  | case1 => rw [ofCompiled]; rfl
  | case2 s ih => rw [ofCompiled.eq_2, echoes_prepend, ih]
  | case3 c s hs node rest hm _ ih =>
    rw [ofCompiled.eq_3 _ _ hs]
    split
    · next hm' =>
      cases hm.symm.trans hm'
      rw [List.filterMap_cons, ← ih]
      rfl
    · next hm' => cases hm.symm.trans hm'
  | case4 c s hs hm ih =>
    rw [ofCompiled.eq_3 _ _ hs]
    split
    · next hm' => cases hm.symm.trans hm'
    · rw [echoes_prepend, ih]

theorem marks_of_marked? {c : Char} {s rest : Text} {node : Node}
    (h : marked? (c :: s) = some (node, rest)) :
    marks (c :: s) = (node, ⟨c :: s, rest⟩) :: marks rest := by
  rw [marks]
  · split
    · next h' => cases h.symm.trans h'; rfl
    · next h' => cases h.symm.trans h'
  · rintro s' rfl rfl
    cases h

theorem marks_of_marked?_none {c : Char} {s : Text} (h : marked? (c :: s) = none)
    (hs : s.head? ≠ some '#') : marks (c :: s) = marks s := by
  rw [marks]
  · split
    · next h' => cases h.symm.trans h'
    · rfl
  · rintro s' rfl rfl
    exact hs rfl

theorem marks_char {c : Char} (hc : c ≠ '#') (s : Text) : marks (c :: s) = marks s := by
  have hm : marked? (c :: s) = none := by simp [marked?, hc]
  rw [marks]
  · split
    · next h' => cases hm.symm.trans h'
    · rfl
  · rintro s' rfl
    exact absurd rfl hc

/-- Printed text has no mark. -/
theorem marks_double_append (text s : Text) : marks (Text.double '#' text ++ s) = marks s := by
  induction text with
  | nil => rfl
  | cons c text ih =>
    rw [Text.double_cons]
    by_cases hc : c = '#'
    · subst hc
      rw [if_pos rfl, ← ih]
      exact marks.eq_2 _
    · rw [if_neg hc, ← ih]
      exact marks_char hc _

theorem marks_append {s : Text} (h : '#' ∉ s) (t : Text) : marks (s ++ t) = marks t := by
  rw [← marks_double_append s t, Text.double_eq_self_iff.mpr h]

theorem length_le_of_mem_marks {s : Text} {found : Node × Text.Stretch} (h : found ∈ marks s) :
    found.2.start.length ≤ s.length := by
  fun_induction marks s with
  | case1 => cases h
  | case2 s ih =>
    have := ih h
    simp only [List.length_cons]
    omega
  | case3 c s _ node rest _ hlength ih =>
    rcases List.mem_cons.mp h with rfl | h
    · exact le_refl _
    · exact (ih h).trans hlength.le
  | case4 c s _ _ ih =>
    exact (ih h).trans (Nat.le_succ _)

/-! ## Interpolations -/

theorem length_le_of_mem_interpolations {s : Text} {echo : Text.Stretch}
    (h : echo ∈ interpolations s) : echo.start.length ≤ s.length := by
  obtain ⟨found, hfound, h⟩ := List.mem_filterMap.mp h
  obtain ⟨_, _, rfl⟩ := Option.map_eq_some_iff.mp h
  exact length_le_of_mem_marks hfound

theorem marked?_mark (flavor : Flavor) (s : Text) :
    marked? (Segment.mark flavor ++ s) = echo? flavor s := by
  cases flavor <;> rfl

/-- The interpolation after a mark. -/
theorem marks_mark (flavor : Flavor) {s expr rest : Text} (h : expression? s = some (expr, rest))
    (hexpr : Text.trim expr ≠ []) :
    marks (Segment.mark flavor ++ s) =
      (.echo flavor (Text.trim expr), ⟨Segment.mark flavor ++ s, rest⟩) :: marks rest := by
  have hmarked : marked? (Segment.mark flavor ++ s) =
      some (.echo flavor (Text.trim expr), rest) := by
    rw [marked?_mark, echo?, h, Option.bind_some]
    exact if_neg hexpr
  cases flavor <;> exact marks_of_marked? hmarked

theorem echoes_mark (flavor : Flavor) {s expr rest : Text} (h : expression? s = some (expr, rest))
    (hexpr : Text.trim expr ≠ []) :
    echoes (ofCompiled (Segment.mark flavor ++ s)) =
      (flavor, Text.trim expr) :: echoes (ofCompiled rest) := by
  rw [echoes_ofCompiled, echoes_ofCompiled, marks_mark flavor h hexpr]
  rfl

theorem interpolations_mark (flavor : Flavor) {s expr rest : Text}
    (h : expression? s = some (expr, rest)) (hexpr : Text.trim expr ≠ []) :
    interpolations (Segment.mark flavor ++ s) =
      ⟨Segment.mark flavor ++ s, rest⟩ :: interpolations rest := by
  rw [interpolations, interpolations, marks_mark flavor h hexpr]
  rfl

theorem echoes_double_append (text s : Text) :
    echoes (ofCompiled (Text.double '#' text ++ s)) = echoes (ofCompiled s) := by
  rw [echoes_ofCompiled, echoes_ofCompiled, marks_double_append]

theorem interpolations_double_append (text s : Text) :
    interpolations (Text.double '#' text ++ s) = interpolations s := by
  rw [interpolations, interpolations, marks_double_append]

theorem echoes_append {s : Text} (h : '#' ∉ s) (t : Text) :
    echoes (ofCompiled (s ++ t)) = echoes (ofCompiled t) := by
  rw [echoes_ofCompiled, echoes_ofCompiled, marks_append h]

theorem interpolations_append {s : Text} (h : '#' ∉ s) (t : Text) :
    interpolations (s ++ t) = interpolations t := by
  rw [interpolations, interpolations, marks_append h]

/-- A mark that is read where no brace closes is not an interpolation, and none closes after it. -/
theorem expression?_of_marked? {s rest : Text} {node : Node} (h : expression? s = none)
    (hm : marked? s = some (node, rest)) : node.interpolation? = none ∧ expression? rest = none := by
  unfold marked? at hm
  split at hm
  · next s =>
    have hs := (expression?_append_eq_none_iff (by decide : '}' ∉ ['#', '{'])).mp h
    rw [echo?, hs] at hm
    cases hm
  · next s =>
    have hs := (expression?_append_eq_none_iff (by decide : '}' ∉ ['#', '!', '{'])).mp h
    rw [echo?, hs] at hm
    cases hm
  · next s =>
    obtain ⟨⟨name, after⟩, hcut, hm⟩ := Option.bind_eq_some_iff.mp hm
    simp only at hm
    split at hm
    · cases hm
    · cases hm
      have hs := (expression?_append_eq_none_iff (by decide : '}' ∉ ['#', '['])).mp h
      rw [Text.eq_append_of_cut? hcut, List.append_assoc] at hs
      exact ⟨rfl, ((expression?_append_cons_eq_none_iff (by decide)).mp hs).2⟩
  · cases hm

/-- No brace closes in a text, or none does if the text follows a closing brace, as one of two. -/
def Unclosed (s : Text) : Prop := expression? s = none ∨ expression? ('}' :: s) = none

theorem Unclosed.tail {c : Char} {s : Text} (h : Unclosed (c :: s)) : Unclosed s := by
  rcases h with h | h
  · by_cases hc : c = '}'
    · exact .inr (hc ▸ h)
    · exact .inl ((expression?_cons_eq_none_iff hc).mp h)
  · obtain ⟨s', heq, hs⟩ := eq_of_expression?_brace h
    cases heq
    exact .inl hs

/-- Where no brace closes, there is no interpolation. -/
theorem Unclosed.no_interpolation {s : Text} (h : Unclosed s) :
    ∀ found ∈ marks s, found.1.interpolation? = none := by
  fun_induction marks s with
  | case1 => nofun
  | case2 s ih => exact ih h.tail.tail
  | case3 c s _ node rest hm _ ih =>
    have hs : expression? (c :: s) = none := by
      refine h.resolve_right fun hbrace => ?_
      -- no mark begins with a closing brace
      obtain ⟨s', heq, -⟩ := eq_of_expression?_brace hbrace
      cases heq
      cases hm
    obtain ⟨hnode, hrest⟩ := expression?_of_marked? hs hm
    exact List.forall_mem_cons.mpr ⟨hnode, ih (.inl hrest)⟩
  | case4 c s _ _ ih => exact ih h.tail

theorem echoes_of_unclosed {s : Text} (h : expression? s = none) : echoes (ofCompiled s) = [] := by
  rw [echoes_ofCompiled, List.filterMap_eq_nil_iff]
  exact Unclosed.no_interpolation (.inl h)

theorem interpolations_of_unclosed {s : Text} (h : expression? s = none) :
    interpolations s = [] := by
  rw [interpolations, List.filterMap_eq_nil_iff]
  intro found hfound
  rw [Unclosed.no_interpolation (.inl h) found hfound]
  rfl

/-- The call of a subview has no part in the interpolations, and neither has its mark if it is text. -/
theorem echoes_subview {name : Text} (h : ']' ∉ name) (s : Text) :
    echoes (ofCompiled (Subview.mark ++ name ++ ']' :: s)) = echoes (ofCompiled s) := by
  have hread : marked? ('#' :: '[' :: (name ++ ']' :: s)) =
      if Text.trim name = [] then none else some (.subview (Text.trim name), s) := by
    show subview? (name ++ ']' :: s) = _
    rw [subview?, Text.cut?_singleton h, Option.bind_some]
  have hmarks : (marks (Subview.mark ++ name ++ ']' :: s)).filterMap (·.1.interpolation?) =
      (marks s).filterMap (·.1.interpolation?) := by
    show (marks ('#' :: '[' :: (name ++ ']' :: s))).filterMap _ = _
    by_cases hblank : Text.trim name = []
    · -- nothing is blank and a hash sign
      rw [if_pos hblank] at hread
      have hhash : '#' ∉ name := fun hmem =>
        absurd (Text.isBlank_of_trim_eq_nil hblank _ hmem) (by decide)
      rw [marks_of_marked?_none hread (by simp), marks_char (by decide),
        ← Text.double_eq_self_iff.mpr hhash, marks_double_append, marks_char (by decide)]
    · rw [if_neg hblank] at hread
      rw [marks_of_marked? hread, List.filterMap_cons]
      rfl
  rw [echoes_ofCompiled, echoes_ofCompiled, hmarks]

/-- In a compiled call the printed text at the beginning of the name has no part in the interpolations.
What follows it is read either in full or from the first closing bracket on. -/
theorem echoes_subview_append (text tail s : Text) :
    echoes (ofCompiled (Subview.mark ++ (Text.double '#' text ++ tail) ++ ']' :: s)) =
        echoes (ofCompiled (tail ++ ']' :: s)) ∨
      ∃ before after, ']' ∉ before ∧ tail ++ ']' :: s = before ++ ']' :: after ∧
        echoes (ofCompiled (Subview.mark ++ (Text.double '#' text ++ tail) ++ ']' :: s)) =
          echoes (ofCompiled after) := by
  by_cases htext : ']' ∈ text
  · left
    obtain ⟨first, more, rfl, hfirst⟩ := List.eq_append_cons_of_mem htext
    have hname : ']' ∉ Text.double '#' first := by rwa [Text.mem_double]
    have hread := echoes_subview hname (Text.double '#' more ++ (tail ++ ']' :: s))
    rw [echoes_double_append] at hread
    rw [← hread, Text.double_append, Text.double_cons]
    simp
  · right
    obtain ⟨before, after, htail, hbefore⟩ :=
      List.eq_append_cons_of_mem (by simp : ']' ∈ tail ++ ']' :: s)
    have hname : ']' ∉ Text.double '#' text ++ before := by
      rw [List.mem_append, Text.mem_double]
      exact not_or.mpr ⟨htext, hbefore⟩
    refine ⟨before, after, hbefore, htail, ?_⟩
    rw [← echoes_subview hname after, List.append_assoc, List.append_assoc, htail]
    simp

/-- A call in whose name there is nothing but printed text. -/
theorem echoes_subview_double (text s : Text) :
    echoes (ofCompiled (Subview.mark ++ Text.double '#' text ++ ']' :: s)) = echoes (ofCompiled s) := by
  have hcases := echoes_subview_append text [] s
  rw [List.append_nil] at hcases
  rcases hcases with h | ⟨before, after, hbefore, htail, h⟩
  · exact h.trans (echoes_double_append [']'] s)
  · cases before with
    | nil =>
      cases htail
      exact h
    | cons c before =>
      cases htail
      exact absurd List.mem_cons_self hbefore

/-- A call in whose name a mark stands, after which no brace closes. -/
theorem echoes_subview_unclosed (text : Text) {tail s : Text}
    (h : expression? (tail ++ ']' :: s) = none) :
    echoes (ofCompiled (Subview.mark ++ (Text.double '#' text ++ tail) ++ ']' :: s)) = [] := by
  rcases echoes_subview_append text tail s with hread | ⟨before, after, _, htail, hread⟩
  · rw [hread, echoes_of_unclosed h]
  · rw [htail] at h
    rw [hread, echoes_of_unclosed ((expression?_append_cons_eq_none_iff (by decide)).mp h).2]

end Stencil.Node
