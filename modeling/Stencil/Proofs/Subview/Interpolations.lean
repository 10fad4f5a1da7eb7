import Stencil.Options
import Stencil.Proofs.Host.Pipeline
import Stencil.Proofs.Subview.Places

/-!
# Interpolations when calls are compiled

Calls of subviews are compiled in text that already holds compiled interpolations, and the step that
does it does not know these. A call that begins inside an interpolation changes the expression, and a
call in whose name an interpolation begins can swallow it (`echoes_compileCalls_include`). If no
interpolation begins in a call, the interpolations are kept exactly if no call begins in one of them
(`echoes_compileCalls_iff`).

The proof goes along the compiled form of the source (`Compiled`): up to a call it has doubled hash signs
and other characters, so the name of the call is literal text, or no brace closes after it.
-/

namespace Stencil

open Node (expression? echoes ofCompiled interpolations)
open Subview (Neutral call? calls compileCalls)
open Text (Stretch)

namespace Segment

/-! ## Compiled interpolations -/

/-- The texts to which the interpolations of a source are compiled: pairs of hash signs, other
characters and marked expressions. -/
inductive Compiled : Text → Prop where
  | nil : Compiled []
  | hash {s : Text} (h : Compiled s) : Compiled ('#' :: '#' :: s)
  | char {c : Char} {s : Text} (hc : c ≠ '#') (h : Compiled s) : Compiled (c :: s)
  | echo (flavor : Flavor) {expr s : Text} (hexpr : Text.trim expr ≠ []) (h : Compiled s) :
      Compiled (mark flavor ++ (Text.double '}' expr ++ '}' :: s))

theorem not_mem_mark (flavor : Flavor) {c : Char} (hc : c ∉ ['#', '!', '{']) : c ∉ mark flavor := by
  cases flavor <;> simp_all [mark]

theorem expression?_mark_eq_none_iff (flavor : Flavor) {s : Text} :
    expression? (mark flavor ++ s) = none ↔ expression? s = none :=
  Node.expression?_append_eq_none_iff (not_mem_mark flavor (by decide))

theorem compiled_double_append (text : Text) {s : Text} (h : Compiled s) :
    Compiled (Text.double '#' text ++ s) := by
  induction text with
  | nil => exact h
  | cons c text ih =>
    rw [Text.double_cons]
    by_cases hc : c = '#'
    · rw [if_pos hc]
      exact ih.hash
    · rw [if_neg hc]
      exact ih.char hc

theorem compiled_compileEchos (tags : Tags) (source : Text) :
    Compiled (compileEchos tags source) := by
  rw [compileEchos]
  fun_induction ofSource tags source with
  | case1 s segment rest h _ ih =>
    obtain ⟨flavor, _, h⟩ := List.exists_of_findSome?_eq_some h
    obtain ⟨found, _, h⟩ := Option.map_eq_some_iff.mp h
    cases h
    rw [List.flatMap_cons]
    unfold ofBody
    split
    · exact compiled_double_append _ ih
    · next hbody =>
      have hexpr : Text.trim (Text.trim found.1) ≠ [] := by rwa [Text.trim_trim]
      have hecho := Compiled.echo flavor hexpr ih
      rw [compile, List.append_assoc, List.append_assoc]
      exact hecho
  | case2 => exact .nil
  | case3 c s _ ih => exact compiled_double_append [c] ih

namespace Compiled

theorem of_cons {c : Char} {s : Text} (h : Compiled (c :: s)) (hc : c ≠ '#') : Compiled s := by
  generalize ht : c :: s = t at h
  cases h with
  | nil => cases ht
  | hash h => cases ht; exact absurd rfl hc
  | char _ h => cases ht; exact h
  | echo flavor _ _ => cases flavor <;> cases ht <;> exact absurd rfl hc

theorem of_append {s t : Text} (h : Compiled (s ++ t)) (hs : '#' ∉ s) : Compiled t := by
  induction s with
  | nil => exact h
  | cons c s ih =>
    rw [List.mem_cons, not_or] at hs
    exact ih (h.of_cons (Ne.symm hs.1)) hs.2

/-- A hash sign is the first one of two, or begins the mark of an interpolation. -/
theorem cases_hash {s : Text} (h : Compiled ('#' :: s)) :
    (∃ s', s = '#' :: s' ∧ Compiled s') ∨
      ∃ flavor expr s', '#' :: s = mark flavor ++ (Text.double '}' expr ++ '}' :: s') ∧
        Text.trim expr ≠ [] := by
  generalize ht : '#' :: s = t at h
  cases h with
  | nil => cases ht
  | hash h => cases ht; exact .inl ⟨_, rfl, h⟩
  | char hc _ => cases ht; exact absurd rfl hc
  | echo flavor hexpr _ => exact .inr ⟨flavor, _, _, rfl, hexpr⟩

/-- Where the expression of a mark is closed, it is not blank. -/
theorem trim_ne_nil {expr s found rest : Text} (hexpr : Text.trim expr ≠ [])
    (h : expression? (Text.double '}' expr ++ '}' :: s) = some (found, rest)) :
    Text.trim found ≠ [] := by
  rw [Node.expression?_double_append] at h
  obtain ⟨more, _, h⟩ := Option.map_eq_some_iff.mp h
  cases h
  exact Text.trim_append_ne_nil hexpr _

/-- What follows a closed expression is of the same form. -/
theorem of_expression? {s expr rest : Text} (h : Compiled s)
    (he : expression? s = some (expr, rest)) : Compiled rest := by
  induction hn : s.length using Nat.strong_induction_on generalizing s expr with
  | _ n ih =>
    subst hn
    cases h with
    | nil => cases he
    | @hash s h =>
      have hskip := Node.expression?_append (by decide : '}' ∉ ['#', '#']) s
      obtain ⟨found, hf, he⟩ := Option.map_eq_some_iff.mp (hskip.symm.trans he)
      cases he
      exact ih _ (by simp only [List.length_cons]; omega) h hf rfl
    | @char c s _ h =>
      by_cases hbrace : c = '}'
      · subst hbrace
        by_cases hhead : s.head? = some '}'
        · -- two braces close nothing
          obtain ⟨s, rfl⟩ := List.head?_eq_some_iff.mp hhead
          obtain ⟨found, hf, he⟩ := Option.map_eq_some_iff.mp he
          cases he
          exact ih _ (by simp only [List.length_cons]; omega) (h.of_cons (by decide)) hf rfl
        · have hclosed : expression? ('}' :: s) = some ([], s) := Node.expression?_double hhead []
          cases hclosed.symm.trans he
          exact h
      · rw [Node.expression?_cons hbrace] at he
        obtain ⟨found, hf, he⟩ := Option.map_eq_some_iff.mp he
        cases he
        exact ih _ (Nat.lt_succ_self _) h hf rfl
    | @echo flavor expr s _ h =>
      have hlength :
          ('}' :: s).length < (mark flavor ++ (Text.double '}' expr ++ '}' :: s)).length := by
        cases flavor <;> simp only [mark, List.length_append, List.length_cons] <;> omega
      rw [Node.expression?_append (not_mem_mark flavor (by decide)),
        Node.expression?_double_append, Option.map_map] at he
      obtain ⟨found, hf, he⟩ := Option.map_eq_some_iff.mp he
      cases he
      exact ih _ hlength (h.char (by decide)) hf rfl

/-! ## Up to a call -/

/-- Where neutral text goes on, what is not neutral does not reach into it. -/
theorem exists_of_append_eq (lead : Text) {s t u : Text} (h : s ++ t = lead ++ u)
    (hlead : ∀ c ∈ lead, ¬Neutral c) (ht : ∀ c ∈ t.head?, Neutral c) :
    ∃ tail, s = lead ++ tail ∧ u = tail ++ t := by
  rcases List.append_eq_append_iff.mp h with ⟨between, rfl, ht'⟩ | ⟨tail, rfl, hu⟩
  · cases between with
    | nil => exact ⟨[], by simp, by simpa using ht'.symm⟩
    | cons c between =>
      have hneutral := ht c (by rw [ht']; rfl)
      exact absurd hneutral (hlead c (by simp))
  · exact ⟨tail, rfl, hu⟩

/-- A part of a text in which no interpolation begins is printed text, up to a mark after which no
brace closes. -/
theorem literal_or_unclosed {s rest : Text} (h : Compiled (s ++ rest))
    (hrest : ∀ c ∈ rest.head?, Neutral c)
    (hfree : ∀ echo ∈ interpolations (s ++ rest), echo.start.length ≤ rest.length) :
    (∃ text, s = Text.double '#' text ∧ Compiled rest) ∨
      ∃ text flavor tail, s = Text.double '#' text ++ (mark flavor ++ tail) ∧
        expression? (tail ++ rest) = none := by
  induction hn : s.length using Nat.strong_induction_on generalizing s with
  | _ n ih =>
    subst hn
    cases s with
    | nil => exact .inl ⟨[], rfl, h⟩
    | cons c s =>
      by_cases hc : c = '#'
      · subst hc
        have hcases := cases_hash (s := s ++ rest) h
        rcases hcases with ⟨s', hs, h⟩ | ⟨flavor, expr, s', hs, hexpr⟩
        · obtain ⟨s, rfl, rfl⟩ := exists_of_append_eq ['#'] hs (by simp [Neutral]) hrest
          have hskip := Node.interpolations_double_append ['#'] (s ++ rest)
          have hpart := ih s.length (by simp only [List.length_append, List.length_cons]; omega) h
            (fun echo hecho => hfree echo (hskip ▸ hecho)) rfl
          rcases hpart with ⟨text, rfl, hr⟩ | ⟨text, flavor, tail, rfl, hclose⟩
          · exact .inl ⟨'#' :: text, rfl, hr⟩
          · exact .inr ⟨'#' :: text, flavor, tail, rfl, hclose⟩
        · obtain ⟨tail, hs', htail⟩ := exists_of_append_eq (mark flavor) (s := '#' :: s) hs
            (by cases flavor <;> simp [mark, Neutral]) hrest
          refine .inr ⟨[], flavor, tail, hs', ?_⟩
          rw [← htail, Option.eq_none_iff_forall_ne_some]
          rintro ⟨found, after⟩ hfound
          -- here an interpolation would begin
          have hbegins : interpolations ('#' :: (s ++ rest)) =
              ⟨'#' :: (s ++ rest), after⟩ :: interpolations after := by
            rw [hs]
            exact Node.interpolations_mark flavor hfound (trim_ne_nil hexpr hfound)
          have hlength := hfree ⟨'#' :: (s ++ rest), after⟩ (hbegins ▸ List.mem_cons_self)
          simp only [List.length_append, List.length_cons] at hlength
          omega
      · have hskip : interpolations (c :: (s ++ rest)) = interpolations (s ++ rest) := by
          rw [interpolations, interpolations, Node.marks_char hc]
        have hpart := ih s.length (Nat.lt_succ_self _) (h.of_cons hc)
          (fun echo hecho => hfree echo (hskip ▸ hecho)) rfl
        have hdouble (text : Text) : Text.double '#' (c :: text) = c :: Text.double '#' text := by
          rw [Text.double_cons, if_neg hc]
          rfl
        rcases hpart with ⟨text, rfl, hr⟩ | ⟨text, flavor, tail, rfl, hclose⟩
        · exact .inl ⟨c :: text, (hdouble text).symm, hr⟩
        · exact .inr ⟨c :: text, flavor, tail, by rw [hdouble]; rfl, hclose⟩

/-! ## A call -/

/-- Where a call stands, and no interpolation begins in it, compiling it makes no difference to the
interpolations: either its name is literal text, or no brace closes after a mark in the name. -/
theorem call_cases {s name rest : Text} (h : Compiled s) (hcall : call? s = some (name, rest))
    (hfree : Stretch.NoneBeginsIn (interpolations s) (calls s)) :
    (Compiled rest ∧ interpolations s = interpolations rest ∧
        echoes (ofCompiled s) = echoes (ofCompiled rest) ∧
        echoes (ofCompiled (compileCalls s)) = echoes (ofCompiled (compileCalls rest))) ∨
      (interpolations s = [] ∧ echoes (ofCompiled s) = [] ∧
        echoes (ofCompiled (compileCalls s)) = []) := by
  have hlate : ∀ echo ∈ interpolations s, echo.start.length ≤ rest.length := by
    intro echo hecho
    -- a call begins with a character that is no mark
    obtain ⟨s', rfl⟩ := Subview.eq_cons_of_call? hcall
    have hstart : echo.start.length ≤ s'.length := by
      rw [← List.singleton_append, Node.interpolations_append (by decide)] at hecho
      exact Node.length_le_of_mem_interpolations hecho
    have hout := hfree echo hecho ⟨'@' :: s', rest⟩
      (Subview.calls_of_call? hcall ▸ List.mem_cons_self)
    simp only [Stretch.BeginsIn, List.length_cons] at hout
    omega
  obtain ⟨before, after, hs, hbefore, hafter⟩ := Subview.around_of_call? hcall
  have htrail : ∀ c ∈ after ++ [')'], Neutral c :=
    List.forall_mem_append.mpr ⟨hafter, by simp [Neutral]⟩
  have hhash := Subview.not_mem_of_neutral htrail (by decide : ¬Neutral '#')
  have hhead : ∀ c ∈ (after ++ [')'] ++ rest).head?, Neutral c := by
    intro c hc
    rw [List.head?_append_of_ne_nil _ (by simp)] at hc
    exact htrail c (List.mem_of_mem_head? hc)
  obtain rfl : s = before ++ (name ++ (after ++ [')'] ++ rest)) := by
    rw [hs]
    simp
  have hlead := Subview.not_mem_of_neutral hbefore (by decide : ¬Neutral '#')
  rw [Node.interpolations_append hlead] at hlate ⊢
  rw [Subview.compileCalls_of_call? hcall, Node.echoes_append hlead]
  have hparts := (h.of_append hlead).literal_or_unclosed hhead fun echo hecho =>
    (hlate echo hecho).trans (List.suffix_append _ _).length_le
  rcases hparts with ⟨text, rfl, hrest⟩ | ⟨text, flavor, tail, rfl, hclose⟩
  · refine .inl ⟨hrest.of_append hhash, ?_, ?_, Node.echoes_subview_double _ _⟩
    · rw [Node.interpolations_double_append, Node.interpolations_append hhash]
    · rw [Node.echoes_double_append, Node.echoes_append hhash]
  · have hunclosed := (expression?_mark_eq_none_iff flavor).mpr hclose
    have hsource : expression? ([] ++ tail ++ after ++ ')' :: rest) = none := by
      simpa using hclose
    obtain ⟨htail, hrest⟩ := (Node.expression?_around_eq_none_iff List.not_mem_nil
      (Subview.not_mem_of_neutral hafter (by decide)) (by decide)).mp hsource
    have hrest' := (Subview.expression?_compileCalls_eq_none_iff rest).mpr hrest
    have hcompiled : expression? (mark flavor ++ tail ++ ']' :: compileCalls rest) = none := by
      rw [List.append_assoc, expression?_mark_eq_none_iff,
        Node.expression?_append_cons_eq_none_iff (by decide)]
      exact ⟨htail, hrest'⟩
    refine .inr ⟨?_, ?_, Node.echoes_subview_unclosed _ hcompiled⟩
    · rw [List.append_assoc, List.append_assoc, Node.interpolations_double_append]
      exact Node.interpolations_of_unclosed hunclosed
    · rw [List.append_assoc, List.append_assoc, Node.echoes_double_append]
      exact Node.echoes_of_unclosed hunclosed

end Compiled

/-! ## An interpolation -/

/-- A call that begins in an expression changes the expression: at its place a hash sign stands. -/
theorem head?_echoes_of_call {flavor : Flavor} {before called name expr rest rest' : Text}
    (h : expression? (before ++ called) = some (expr, rest))
    (hcall : call? called = some (name, rest')) (hlt : rest.length < called.length) :
    (echoes (ofCompiled (mark flavor ++ (before ++ compileCalls called)))).head? ≠
      some (flavor, Text.trim expr) := by
  obtain ⟨v, rfl⟩ := Subview.eq_cons_of_call? hcall
  have hopen : expression? before = none := by
    rw [Option.eq_none_iff_forall_ne_some]
    rintro ⟨expr', more⟩ hclosed
    have hwhole := Node.expression?_append_of_some hclosed (by decide : '@' ≠ '}') v
    cases h.symm.trans hwhole
    simp only [List.length_append] at hlt
    omega
  obtain ⟨lead, hlead⟩ := Node.expression?_append_of_none hopen
  rw [hlead _ _ (by decide)] at h
  obtain ⟨found, _, h⟩ := Option.map_eq_some_iff.mp h
  cases h
  rw [Subview.compileCalls_of_call? hcall]
  show (echoes (ofCompiled (mark flavor ++
    (before ++ '#' :: ('[' :: name ++ ']' :: compileCalls rest'))))).head? ≠ _
  cases hread : expression? (before ++ '#' :: ('[' :: name ++ ']' :: compileCalls rest')) with
  | none =>
    rw [Node.echoes_of_unclosed ((expression?_mark_eq_none_iff flavor).mpr hread)]
    nofun
  | some read =>
    obtain ⟨expr', more⟩ := read
    have hexpr' := hread
    rw [hlead _ _ (by decide)] at hexpr'
    obtain ⟨found', _, hexpr'⟩ := Option.map_eq_some_iff.mp hexpr'
    cases hexpr'
    have htrim := Text.trim_append_cons (by decide : ¬Text.isBlank '#') lead found'.1
    rw [Node.echoes_mark flavor hread (by simp [htrim]), htrim,
      Text.trim_append_cons (by decide : ¬Text.isBlank '@')]
    simp

/-- Compiling calls keeps an interpolation in which no call begins, and changes any other. -/
theorem echo_cases (flavor : Flavor) {s expr rest : Text} (hexpr : Text.trim expr ≠ [])
    (h : expression? s = some (expr, rest)) :
    (calls (mark flavor ++ s) = calls rest ∧
        echoes (ofCompiled (compileCalls (mark flavor ++ s))) =
          (flavor, Text.trim expr) :: echoes (ofCompiled (compileCalls rest))) ∨
      ((∃ call ∈ calls (mark flavor ++ s), call.BeginsIn ⟨mark flavor ++ s, rest⟩) ∧
        (echoes (ofCompiled (compileCalls (mark flavor ++ s)))).head? ≠
          some (flavor, Text.trim expr)) := by
  rw [Subview.calls_append_of_not_mem (not_mem_mark flavor (by decide)),
    Subview.compileCalls_append_of_not_mem (not_mem_mark flavor (by decide))]
  obtain ⟨body, rfl, hbody⟩ := Node.eq_append_of_expression? h
  rcases Subview.compileCalls_append_cases body rest with
    ⟨hcompile, hcalls⟩ | ⟨before, called, name, rest', hs, hlt, hcall, hcompile, hcalls⟩
  · left
    have hread := hbody _ (Subview.head?_compileCalls (Node.head?_of_expression? h))
    rw [hcompile, Node.echoes_mark flavor hread hexpr]
    exact ⟨hcalls, rfl⟩
  · right
    have hlength := congrArg List.length hs
    simp only [List.length_append] at hlength
    have hrest : rest.length < called.length := by omega
    rw [hcompile]
    refine ⟨⟨⟨called, rest'⟩, ?_, hrest, ?_⟩, head?_echoes_of_call (hs ▸ h) hcall hrest⟩
    · rw [hcalls, Subview.calls_of_call? hcall]
      exact List.mem_cons_self
    · have hmark : 0 < (mark flavor).length := by cases flavor <;> decide
      show called.length < (mark flavor ++ (body ++ rest)).length
      simp only [List.length_append]
      omega

/-! ## All of them -/

/-- If no interpolation begins in a call, the interpolations of a text are kept exactly if no call begins
in one of them. -/
def Decided (s : Text) : Prop :=
  Stretch.NoneBeginsIn (interpolations s) (calls s) →
    (echoes (ofCompiled (compileCalls s)) = echoes (ofCompiled s) ↔
      Stretch.NoneBeginsIn (calls s) (interpolations s))

namespace Decided

variable {s rest : Text}

/-- Neither a mark nor a call. -/
theorem append (lead : Text) (hmarks : ∀ t, Node.marks (lead ++ t) = Node.marks t)
    (hcompile : compileCalls (lead ++ s) = lead ++ compileCalls s)
    (hcalls : calls (lead ++ s) = calls s) (h : Decided s) : Decided (lead ++ s) := by
  unfold Decided at h ⊢
  rw [hcompile, hcalls]
  simp only [Node.echoes_ofCompiled, interpolations, hmarks] at h ⊢
  exact h

theorem call {name : Text} (hs : Compiled s) (hcall : call? s = some (name, rest))
    (h : Compiled rest → Decided rest) : Decided s := by
  intro hfree
  have hcalls := Subview.calls_of_call? hcall
  rcases hs.call_cases hcall hfree with
    ⟨hrest, hinterpolations, hechoes, hcompiled⟩ | ⟨hinterpolations, hechoes, hcompiled⟩
  · -- the interpolations that follow do not begin before the call
    have hlate : ∀ echo ∈ interpolations rest, ¬Stretch.BeginsIn ⟨s, rest⟩ echo := by
      rintro echo hecho ⟨_, hbegins⟩
      have := Node.length_le_of_mem_interpolations hecho
      have := Subview.length_of_call? hcall
      simp only at hbegins
      omega
    rw [hinterpolations, hcalls, Stretch.noneBeginsIn_cons_right] at hfree
    rw [hechoes, hcompiled, hinterpolations, hcalls, Stretch.noneBeginsIn_cons_left,
      and_iff_right hlate]
    exact h hrest hfree.2
  · rw [hechoes, hcompiled, hinterpolations]
    exact ⟨fun _ _ _ => nofun, fun _ => rfl⟩

theorem echo (flavor : Flavor) {expr : Text} (hexpr : Text.trim expr ≠ [])
    (hread : expression? s = some (expr, rest)) (h : Decided rest) :
    Decided (mark flavor ++ s) := by
  intro hfree
  have hinterpolations := Node.interpolations_mark flavor hread hexpr
  rw [Node.echoes_mark flavor hread hexpr]
  rcases echo_cases flavor hexpr hread with ⟨hcalls, hechoes⟩ | ⟨⟨call, hcall, hbegins⟩, hhead⟩
  · -- the calls that follow do not begin before the end of the interpolation
    have hlate : ∀ call ∈ calls rest, ¬Stretch.BeginsIn call ⟨mark flavor ++ s, rest⟩ := by
      rintro call hcall ⟨hbegins, _⟩
      have := Subview.length_le_of_mem_calls hcall
      simp only at hbegins
      omega
    rw [hinterpolations, hcalls, Stretch.noneBeginsIn_cons_left] at hfree
    rw [hechoes, hcalls, hinterpolations, Stretch.noneBeginsIn_cons_right, and_iff_right hlate,
      List.cons_inj_right]
    exact h hfree.2
  · refine iff_of_false (fun hsame => hhead (by rw [hsame]; rfl)) fun hnone => ?_
    exact hnone call hcall _ (hinterpolations ▸ List.mem_cons_self) hbegins

theorem of_unclosed (h : expression? s = none) : Decided s := by
  intro _
  have hcompiled := (Subview.expression?_compileCalls_eq_none_iff s).mpr h
  rw [Node.echoes_of_unclosed h, Node.echoes_of_unclosed hcompiled, Node.interpolations_of_unclosed h]
  exact ⟨fun _ _ _ => nofun, fun _ => rfl⟩

end Decided

theorem Compiled.decided {s : Text} (h : Compiled s) : Decided s := by
  induction hn : s.length using Nat.strong_induction_on generalizing s with
  | _ n ih =>
    subst hn
    have hs := h
    cases h with
    | nil => exact Decided.of_unclosed rfl
    | @hash s h =>
      exact (ih s.length (by simp only [List.length_cons]; omega) h rfl).append ['#', '#']
        (Node.marks_double_append ['#'])
        (Subview.compileCalls_append_of_not_mem (by decide : '@' ∉ ['#', '#']) s)
        (Subview.calls_append_of_not_mem (by decide : '@' ∉ ['#', '#']) s)
    | @char c s hc h =>
      cases hcall : call? (c :: s) with
      | none =>
        exact (ih s.length (Nat.lt_succ_self _) h rfl).append [c] (Node.marks_char hc)
          (Subview.compileCalls_cons_of_call? hcall) (Subview.calls_cons hcall)
      | some found =>
        exact .call hs hcall fun hrest => ih _ (Subview.length_of_call? hcall) hrest rfl
    | @echo flavor expr s hexpr h =>
      cases hread : expression? (Text.double '}' expr ++ '}' :: s) with
      | none => exact .of_unclosed ((expression?_mark_eq_none_iff flavor).mpr hread)
      | some found =>
        obtain ⟨found, rest⟩ := found
        have hlength := Node.length_of_expression? hread
        have hwhole := Node.expression?_append (not_mem_mark flavor (by decide))
          (Text.double '}' expr ++ '}' :: s)
        rw [hread] at hwhole
        have hrest := hs.of_expression? hwhole
        exact .echo flavor (Compiled.trim_ne_nil hexpr hread) hread
          (ih rest.length (by rw [List.length_append]; omega) hrest rfl)

/-- **Where no interpolation begins in a call, compiling the calls keeps the interpolations exactly if no
call begins in one of them.** The calls and the interpolations are those of the text between the two
steps, for any source and tags. -/
theorem echoes_compileCalls_iff (tags : Tags) (source : Text)
    (h : Stretch.NoneBeginsIn (interpolations (compileEchos tags source))
      (calls (compileEchos tags source))) :
    echoes (ofCompiled (compileCalls (compileEchos tags source))) =
        echoes (ofCompiled (compileEchos tags source)) ↔
      Stretch.NoneBeginsIn (calls (compileEchos tags source))
        (interpolations (compileEchos tags source)) :=
  (compiled_compileEchos tags source).decided h

/-- With the default tags, a call before an interpolation, and the keyword before another one: both
interpolations are kept. -/
theorem echoes_compileCalls_apart :
    let tags := ({} : Options).tags
    let text := compileEchos tags
      "#@include('a#b')\x7b\x7b x \x7d\x7d @include(\x7b\x7b y \x7d\x7d".toList
    (calls text).length = 1 ∧ Stretch.NoneBeginsIn (interpolations text) (calls text) ∧
      Stretch.NoneBeginsIn (calls text) (interpolations text) ∧
      echoes (ofCompiled text) = [(.plain, ['x']), (.plain, ['y'])] ∧
      echoes (ofCompiled (compileCalls text)) = [(.plain, ['x']), (.plain, ['y'])] := by
  intro tags text
  have hfree : Stretch.NoneBeginsIn (interpolations text) (calls text) := by decide +kernel
  have hout : Stretch.NoneBeginsIn (calls text) (interpolations text) := by decide +kernel
  have hechoes : echoes (ofCompiled text) = [(.plain, ['x']), (.plain, ['y'])] := by decide +kernel
  have hkept := (echoes_compileCalls_iff tags _ hfree).mpr hout
  exact ⟨by decide +kernel, hfree, hout, hechoes, hkept.trans hechoes⟩

/-- With the default tags, a call in an expression changes it to the mark of the view, and a call that has
an interpolation as its name swallows it. -/
theorem echoes_compileCalls_include :
    let tags := ({} : Options).tags
    let inside := compileEchos tags "\x7b\x7b @include('a') \x7d\x7d".toList
    let around := compileEchos tags "@include('\x7b\x7b a \x7d\x7d')".toList
    (∀ flavor, (tags.get flavor).Full) ∧
      inside = "#!\x7b@include('a')\x7d".toList ∧
      echoes (ofCompiled inside) = [(.plain, "@include('a')".toList)] ∧
      echoes (ofCompiled (compileCalls inside)) = [(.plain, "#[a]".toList)] ∧
      echoes (ofCompiled (compileCalls inside)) ≠ echoes (ofCompiled inside) ∧
      around = "@include('#!\x7ba\x7d')".toList ∧
      echoes (ofCompiled around) = [(.plain, ['a'])] ∧
      echoes (ofCompiled (compileCalls around)) = [] := by
  intro tags inside around
  refine ⟨fun flavor => by cases flavor <;> decide, by decide +kernel, by decide +kernel,
    by decide +kernel, by decide +kernel, by decide +kernel, by decide +kernel, by decide +kernel⟩

end Segment

end Stencil
