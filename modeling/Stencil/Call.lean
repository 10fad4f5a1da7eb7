import Stencil.Text

/-!
# Calls

A call is a list of arguments in parentheses, as it follows a keyword. White space may stand before
the opening parenthesis, blanks and tabs around each argument. An argument is a text between two
quotes of one kind, without a line feed, or a word. `Call.read?` reads a call at the beginning of a
text; what it leaves is an end of that text and shorter than it (`suffix_of_read?`,
`length_of_read?`).
-/

namespace Stencil.Call

/-- Reads the rest of a quoted argument, after the quote `q` that opens it. The argument is given
without the blanks at its ends. -/
def quoted? (q : Char) (s : Text) : Option (Text × Text) :=
  match s.dropWhile (· ≠ q) with
  | [] => none
  | _ :: rest =>
    let body := s.takeWhile (· ≠ q)
    if '\n' ∈ body then none else some (Text.trim body, rest)

/-- Reads an argument. -/
def argument? : Text → Option (Text × Text)
  | [] => none
  | c :: s =>
    if c = '\'' ∨ c = '"' then quoted? c s
    else if Text.isWord c then some (c :: s.takeWhile Text.isWord, s.dropWhile Text.isWord)
    else none

theorem length_dropWhile_le (p : Char → Bool) (s : Text) : (s.dropWhile p).length ≤ s.length :=
  (List.dropWhile_sublist p).length_le

theorem suffix_of_argument? {s arg rest : Text} (h : argument? s = some (arg, rest)) :
    rest <:+ s := by
  cases s with
  | nil => simp [argument?] at h
  | cons c s =>
    simp only [argument?] at h
    split at h
    · simp only [quoted?] at h
      split at h
      · cases h
      · next q r hr =>
        split at h
        · cases h
        · have tail : r <:+ s := (List.suffix_cons q r).trans (hr ▸ List.dropWhile_suffix _)
          cases h
          exact tail.trans (List.suffix_cons c s)
    · split at h
      · cases h
        exact (List.dropWhile_suffix _).trans (List.suffix_cons c s)
      · cases h

theorem length_of_argument? {s arg rest : Text} (h : argument? s = some (arg, rest)) :
    rest.length < s.length := by
  cases s with
  | nil => simp [argument?] at h
  | cons c s =>
    simp only [argument?] at h
    split at h
    · simp only [quoted?] at h
      split at h
      · cases h
      · next _ r hr =>
        split at h
        · cases h
        · cases h
          have := length_dropWhile_le (· ≠ c) s
          rw [hr] at this
          simp only [List.length_cons] at this ⊢
          omega
    · split at h
      · cases h
        have := length_dropWhile_le Text.isWord s
        simp only [List.length_cons]
        omega
      · cases h

/-- Reads one or more arguments and the parenthesis that closes the list. -/
def arguments? (s : Text) : Option (List Text × Text) :=
  match h : argument? (s.dropWhile Text.isInlineSpace) with
  | none => none
  | some (arg, rest) =>
    match h' : rest.dropWhile Text.isInlineSpace with
    | ',' :: more =>
      have _ := length_of_argument? h
      have _ := length_dropWhile_le Text.isInlineSpace s
      have _ := h' ▸ length_dropWhile_le Text.isInlineSpace rest
      (arguments? more).map fun result => (arg :: result.1, result.2)
    | ')' :: rest => some ([arg], rest)
    | _ => none
termination_by s.length
decreasing_by simp only [List.length_cons] at *; omega

/-- Reads a call: its arguments, and what follows it. -/
def read? (s : Text) : Option (List Text × Text) :=
  match s.dropWhile Text.isSpace with
  | '(' :: rest => arguments? rest
  | _ => none

/-! ## What a call leaves -/

theorem suffix_of_arguments? {s rest : Text} {args : List Text}
    (h : arguments? s = some (args, rest)) : rest <:+ s := by
  fun_induction arguments? s generalizing args rest with
  | case1 => cases h
  | case2 s arg r hr more hm _ _ _ ih =>
    obtain ⟨found, hf, h⟩ := Option.map_eq_some_iff.1 h
    cases h
    have tail : more <:+ r := (List.suffix_cons _ _).trans (hm ▸ List.dropWhile_suffix _)
    exact (ih hf).trans (tail.trans ((suffix_of_argument? hr).trans (List.dropWhile_suffix _)))
  | case3 s arg r hr more hm =>
    have tail : more <:+ r := (List.suffix_cons _ _).trans (hm ▸ List.dropWhile_suffix _)
    cases h
    exact tail.trans ((suffix_of_argument? hr).trans (List.dropWhile_suffix _))
  | case4 => cases h

theorem suffix_of_read? {s rest : Text} {args : List Text} (h : read? s = some (args, rest)) :
    rest <:+ s := by
  simp only [read?] at h
  split at h
  · next r hr =>
    have tail : r <:+ s := (List.suffix_cons _ _).trans (hr ▸ List.dropWhile_suffix _)
    exact (suffix_of_arguments? h).trans tail
  · cases h

theorem length_of_read? {s rest : Text} {args : List Text} (h : read? s = some (args, rest)) :
    rest.length < s.length := by
  simp only [read?] at h
  split at h
  · next r hr =>
    have := (suffix_of_arguments? h).length_le
    have := hr ▸ length_dropWhile_le Text.isSpace s
    simp only [List.length_cons] at this
    omega
  · cases h

end Stencil.Call
