import Stencil.Call

/-!
# Calls of subviews

A source calls another view by a keyword and a call with one argument, the name of the view. In
compiled form the name stands between a mark and a closing bracket.
-/

namespace Stencil.Subview

/-- The keyword before the name of a view. -/
def keyword : Text := ['@', 'i', 'n', 'c', 'l', 'u', 'd', 'e']

/-- The mark that begins a compiled call. -/
def mark : Text := ['#', '[']

/-- Reads the call after a keyword: one argument, which is not empty. -/
def name? (s : Text) : Option (Text × Text) :=
  match Call.read? s with
  | some ([name], rest) => if name = [] then none else some (name, rest)
  | _ => none

theorem length_of_name? {s name rest : Text} (h : name? s = some (name, rest)) :
    rest.length < s.length := by
  simp only [name?] at h
  split at h
  · next hr =>
    split at h
    · cases h
    · cases h
      exact Call.length_of_read? hr
  · cases h

/-- Compiles the calls of subviews in a source. All else stays as it is. -/
def compileCalls (s : Text) : Text :=
  match h : Text.after? keyword s with
  | some called =>
    have _ := Text.length_of_after? h
    match h' : name? called with
    | some (name, rest) =>
      have _ := length_of_name? h'
      mark ++ name ++ ']' :: compileCalls rest
    | none => keyword ++ compileCalls called
  | none =>
    match s with
    | [] => []
    | c :: s => c :: compileCalls s
termination_by s.length
decreasing_by
  · have : keyword.length = 8 := rfl
    omega
  · have : keyword.length = 8 := rfl
    omega
  · exact Nat.lt_succ_self _

end Stencil.Subview
