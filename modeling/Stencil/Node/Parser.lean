import Stencil.Node

/-!
# Reading compiled views

Compiled text is read from left to right. Two hash signs are one that stands for itself; a mark with
something in it that is not blank is a node; every other character is text, and so is a mark that is
not closed. Neighbouring text is one node.
-/

namespace Stencil.Node

/-- Reads an expression and the brace that closes it. Two closing braces stand for one that does not
close. -/
def expression? : Text → Option (Text × Text)
  | [] => none
  | '}' :: '}' :: s => (expression? s).map fun found => ('}' :: found.1, found.2)
  | '}' :: s => some ([], s)
  | c :: s => (expression? s).map fun found => (c :: found.1, found.2)

/-- Reads an interpolation after its mark. -/
def echo? (flavor : Flavor) (s : Text) : Option (Node × Text) :=
  (expression? s).bind fun found =>
    let expr := Text.trim found.1
    if expr = [] then none else some (.echo flavor expr, found.2)

/-- Reads the call of a subview after its mark. -/
def subview? (s : Text) : Option (Node × Text) :=
  (Text.cut? [']'] s).bind fun found =>
    let name := Text.trim found.1
    if name = [] then none else some (.subview name, found.2)

/-- Reads a mark and its node. -/
def marked? : Text → Option (Node × Text)
  | '#' :: '{' :: s => echo? .escaped s
  | '#' :: '!' :: '{' :: s => echo? .plain s
  | '#' :: '[' :: s => subview? s
  | _ => none

theorem length_of_expression? {s expr rest : Text} (h : expression? s = some (expr, rest)) :
    rest.length < s.length := by
  fun_induction expression? s generalizing expr rest with
  | case1 => cases h
  | case2 s ih =>
    obtain ⟨found, hf, h⟩ := Option.map_eq_some_iff.1 h
    cases h
    have := ih hf
    simp only [List.length_cons]
    omega
  | case3 s =>
    cases h
    simp
  | case4 c s _ _ ih =>
    obtain ⟨found, hf, h⟩ := Option.map_eq_some_iff.1 h
    cases h
    have := ih hf
    simp only [List.length_cons]
    omega

theorem length_of_echo? {flavor : Flavor} {s rest : Text} {node : Node}
    (h : echo? flavor s = some (node, rest)) : rest.length < s.length := by
  obtain ⟨found, hf, h⟩ := Option.bind_eq_some_iff.1 h
  simp only at h
  split at h
  · cases h
  · cases h
    exact length_of_expression? hf

theorem length_of_subview? {s rest : Text} {node : Node} (h : subview? s = some (node, rest)) :
    rest.length < s.length := by
  obtain ⟨found, hf, h⟩ := Option.bind_eq_some_iff.1 h
  simp only at h
  split at h
  · cases h
  · cases h
    have := Text.length_of_cut? hf
    simp only [List.length_cons] at this
    omega

theorem length_of_marked? {s rest : Text} {node : Node} (h : marked? s = some (node, rest)) :
    rest.length < s.length := by
  simp only [marked?] at h
  split at h
  · have := length_of_echo? h
    simp only [List.length_cons]
    omega
  · have := length_of_echo? h
    simp only [List.length_cons]
    omega
  · have := length_of_subview? h
    simp only [List.length_cons]
    omega
  · cases h

/-- The nodes of a compiled text. -/
def ofCompiled (s : Text) : List Node :=
  match s with
  | [] => []
  | '#' :: '#' :: s => prepend '#' (ofCompiled s)
  | c :: s =>
    match h : marked? (c :: s) with
    | some (node, rest) =>
      have _ := length_of_marked? h
      node :: ofCompiled rest
    | none => prepend c (ofCompiled s)
termination_by s.length
decreasing_by all_goals simp only [List.length_cons] at *; omega

end Stencil.Node
