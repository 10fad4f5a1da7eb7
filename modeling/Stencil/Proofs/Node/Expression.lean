import Stencil.Node.Parser
import Stencil.Proofs.Text

/-!
# Expressions in compiled text

In compiled text each closing brace of an expression is written twice, and one more closes the
expression. Reading undoes this exactly where no further closing brace follows
(`expression?_eq_some_iff`): the braces are taken two by two from the left, so one that follows would
make a pair with the closing one. By position, with the bytes that are taken counted, it is
`scan?_double_iff`.

A text in which no brace closes goes on into what follows it (`expression?_append_of_none`), and text
without closing braces makes no difference to whether one closes (`expression?_around_eq_none_iff`).
-/

namespace Stencil.Node

/-! ## Reading an expression -/

theorem expression?_cons {c : Char} (hc : c ≠ '}') (s : Text) :
    expression? (c :: s) = (expression? s).map fun found => (c :: found.1, found.2) :=
  expression?.eq_4 c s (fun _ h _ => hc h) hc

/-- One brace closes an expression if no other one follows. -/
theorem expression?_brace {rest : Text} (h : rest.head? ≠ some '}') :
    expression? ('}' :: rest) = some ([], rest) := by
  cases rest with
  | nil => rfl
  | cons c rest =>
    have hc : c ≠ '}' := fun he => h (by rw [he]; rfl)
    simp [expression?, hc]

/-- Closing braces that are written twice close nothing. -/
theorem expression?_double_append (expr s : Text) :
    expression? (Text.double '}' expr ++ s) =
      (expression? s).map fun found => (expr ++ found.1, found.2) := by
  induction expr with
  | nil => simp
  | cons c expr ih =>
    rw [Text.double_cons]
    by_cases hc : c = '}'
    · subst hc
      show expression? ('}' :: '}' :: (Text.double '}' expr ++ s)) = _
      rw [expression?, ih, Option.map_map]
      rfl
    · rw [if_neg hc]
      show expression? (c :: (Text.double '}' expr ++ s)) = _
      rw [expression?_cons hc, ih, Option.map_map]
      rfl

theorem expression?_double {rest : Text} (h : rest.head? ≠ some '}') (expr : Text) :
    expression? (Text.double '}' expr ++ '}' :: rest) = some (expr, rest) := by
  rw [expression?_double_append, expression?_brace h, Option.map_some, List.append_nil]

/-- What is read was written, and the brace that closes it is not followed by another one. -/
theorem eq_double_of_expression? {s expr rest : Text} (h : expression? s = some (expr, rest)) :
    s = Text.double '}' expr ++ '}' :: rest ∧ rest.head? ≠ some '}' := by
  fun_induction expression? s generalizing expr rest with
  | case1 => cases h
  | case2 s ih =>
    obtain ⟨found, hf, h⟩ := Option.map_eq_some_iff.mp h
    cases h
    obtain ⟨hs, hhead⟩ := ih hf
    rw [Text.double_cons, if_pos rfl, hs]
    exact ⟨rfl, hhead⟩
  | case3 s hs =>
    cases h
    refine ⟨rfl, fun hhead => ?_⟩
    obtain ⟨s', rfl⟩ := List.head?_eq_some_iff.mp hhead
    exact hs s' rfl
  | case4 c s _ hc ih =>
    obtain ⟨found, hf, h⟩ := Option.map_eq_some_iff.mp h
    cases h
    obtain ⟨hs, hhead⟩ := ih hf
    rw [Text.double_cons, if_neg hc, hs]
    exact ⟨rfl, hhead⟩

/-- **Reading an expression undoes writing it**, where no closing brace follows. -/
theorem expression?_eq_some_iff {s expr rest : Text} :
    expression? s = some (expr, rest) ↔
      s = Text.double '}' expr ++ '}' :: rest ∧ rest.head? ≠ some '}' := by
  refine ⟨eq_double_of_expression?, ?_⟩
  rintro ⟨rfl, hhead⟩
  exact expression?_double hhead expr

theorem head?_of_expression? {s expr rest : Text} (h : expression? s = some (expr, rest)) :
    rest.head? ≠ some '}' := (eq_double_of_expression? h).2

/-! ## By position -/

/-- An expression at the beginning of a text, and the number of bytes it takes with the brace that
closes it. -/
def scan? (body : Text) : Option (Text × Nat) :=
  (expression? body).map fun found => (found.1, Text.position body found.2)

/-- The bytes that are taken are those of the written expression and of the brace. -/
theorem scan?_eq_some_iff {body expr : Text} {used : Nat} :
    scan? body = some (expr, used) ↔
      ∃ rest, body = Text.double '}' expr ++ ['}'] ++ rest ∧
        used = Text.byteSize (Text.double '}' expr ++ ['}']) ∧ rest.head? ≠ some '}' := by
  have hwritten (rest : Text) :
      Text.double '}' expr ++ '}' :: rest = Text.double '}' expr ++ ['}'] ++ rest := by simp
  rw [scan?, Option.map_eq_some_iff]
  constructor
  · rintro ⟨⟨_, rest⟩, hread, hfound⟩
    cases hfound
    obtain ⟨rfl, hhead⟩ := expression?_eq_some_iff.mp hread
    rw [hwritten, Text.position_append]
    exact ⟨rest, rfl, rfl, hhead⟩
  · rintro ⟨rest, rfl, rfl, hhead⟩
    refine ⟨(expr, rest), ?_, by rw [Text.position_append]⟩
    rw [← hwritten, expression?_double hhead]

/-- **A written expression is read back, with the bytes that it takes, exactly if no closing brace
follows it**; and what is read is a written expression that no closing brace follows. -/
theorem scan?_double_iff :
    (∀ expr rest : Text,
      scan? (Text.double '}' expr ++ '}' :: rest) =
          some (expr, Text.byteSize (Text.double '}' expr) + 1) ↔
        rest.head? ≠ some '}') ∧
    ∀ (body expr : Text) (used : Nat), scan? body = some (expr, used) ↔
      ∃ rest, body = Text.double '}' expr ++ ['}'] ++ rest ∧
        used = Text.byteSize (Text.double '}' expr ++ ['}']) ∧ rest.head? ≠ some '}' := by
  refine ⟨fun expr rest => ?_, fun _ _ _ => scan?_eq_some_iff⟩
  have hsize : Text.byteSize (Text.double '}' expr ++ ['}']) =
      Text.byteSize (Text.double '}' expr) + 1 := Text.byteSize_append _ _
  rw [scan?_eq_some_iff, hsize]
  constructor
  · rintro ⟨other, hbody, -, hhead⟩
    obtain rfl : rest = other := by simpa using hbody
    exact hhead
  · intro hhead
    exact ⟨rest, by simp, rfl, hhead⟩

/-- Of five closing braces the last one closes, since the other four are two; of four none does. -/
example : scan? ('é' :: List.replicate 5 '}') = some (['é', '}', '}'], 7) ∧
    scan? ('é' :: List.replicate 4 '}') = none := by
  decide +kernel

/-! ## What follows, and what stands round -/

/-- An expression that is closed depends on nothing that follows. -/
theorem expression?_append_of_some {s expr rest : Text} (h : expression? s = some (expr, rest))
    {c : Char} (hc : c ≠ '}') (t : Text) :
    expression? (s ++ c :: t) = some (expr, rest ++ c :: t) := by
  obtain ⟨rfl, hhead⟩ := expression?_eq_some_iff.mp h
  refine expression?_eq_some_iff.mpr ⟨by simp, ?_⟩
  cases rest with
  | nil => simpa using hc
  | cons d rest => exact hhead

/-- The expression is read in the same way before any other text that does not go on with a brace. -/
theorem eq_append_of_expression? {s expr rest : Text} (h : expression? s = some (expr, rest)) :
    ∃ body, s = body ++ rest ∧
      ∀ other, other.head? ≠ some '}' → expression? (body ++ other) = some (expr, other) := by
  obtain ⟨rfl, -⟩ := expression?_eq_some_iff.mp h
  refine ⟨Text.double '}' expr ++ ['}'], by simp, fun other ho => ?_⟩
  rw [List.append_assoc]
  exact expression?_double ho expr

theorem expression?_append {s : Text} (h : '}' ∉ s) (t : Text) :
    expression? (s ++ t) = (expression? t).map fun found => (s ++ found.1, found.2) := by
  rw [← expression?_double_append, Text.double_eq_self_iff.mpr h]

/-! ## Where no brace closes -/

theorem expression?_cons_eq_none_iff {c : Char} (hc : c ≠ '}') {s : Text} :
    expression? (c :: s) = none ↔ expression? s = none := by
  rw [expression?_cons hc, Option.map_eq_none_iff]

theorem eq_of_expression?_brace {s : Text} (h : expression? ('}' :: s) = none) :
    ∃ s', s = '}' :: s' ∧ expression? s' = none := by
  by_cases hs : s.head? = some '}'
  · obtain ⟨s', rfl⟩ := List.head?_eq_some_iff.mp hs
    exact ⟨s', rfl, Option.map_eq_none_iff.mp h⟩
  · cases (expression?_brace hs).symm.trans h

/-- Text without closing braces makes no difference to whether one closes. -/
theorem expression?_append_eq_none_iff {s : Text} (h : '}' ∉ s) {t : Text} :
    expression? (s ++ t) = none ↔ expression? t = none := by
  rw [expression?_append h, Option.map_eq_none_iff]

/-- Where no brace closes, an expression goes on. -/
theorem expression?_append_of_none {s : Text} (h : expression? s = none) :
    ∃ lead, ∀ c t, c ≠ '}' → expression? (s ++ c :: t) =
      (expression? t).map fun found => (lead ++ c :: found.1, found.2) := by
  fun_induction expression? s with
  | case1 => exact ⟨[], fun c t hc => expression?_cons hc t⟩
  | case2 s ih =>
    obtain ⟨lead, hlead⟩ := ih (Option.map_eq_none_iff.mp h)
    refine ⟨'}' :: lead, fun c t hc => ?_⟩
    show expression? ('}' :: '}' :: (s ++ c :: t)) = _
    rw [expression?, hlead c t hc, Option.map_map]
    rfl
  | case3 => cases h
  | case4 d s _ hd ih =>
    obtain ⟨lead, hlead⟩ := ih (Option.map_eq_none_iff.mp h)
    refine ⟨d :: lead, fun c t hc => ?_⟩
    rw [List.cons_append, expression?_cons hd, hlead c t hc, Option.map_map]
    rfl

theorem expression?_append_cons_eq_none_iff {c : Char} (hc : c ≠ '}') {s t : Text} :
    expression? (s ++ c :: t) = none ↔ expression? s = none ∧ expression? t = none := by
  cases hs : expression? s with
  | some found => simp [expression?_append_of_some hs hc]
  | none =>
    obtain ⟨lead, hlead⟩ := expression?_append_of_none hs
    simp [hlead c t hc]

/-- Neither does such text before or after a part of the text. -/
theorem expression?_around_eq_none_iff {before after : Text} {c : Char} (hbefore : '}' ∉ before)
    (hafter : '}' ∉ after) (hc : c ≠ '}') {s t : Text} :
    expression? (before ++ s ++ after ++ c :: t) = none ↔
      expression? s = none ∧ expression? t = none := by
  have hend : expression? (s ++ after) = none ↔ expression? s = none := by
    cases after with
    | nil => rw [List.append_nil]
    | cons d after =>
      rw [List.mem_cons, not_or] at hafter
      have hlast : expression? (after ++ []) = none :=
        (expression?_append_eq_none_iff hafter.2).mpr rfl
      rw [List.append_nil] at hlast
      rw [expression?_append_cons_eq_none_iff (Ne.symm hafter.1), and_iff_left hlast]
  rw [expression?_append_cons_eq_none_iff hc, List.append_assoc,
    expression?_append_eq_none_iff hbefore, hend]

end Stencil.Node
