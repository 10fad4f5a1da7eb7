import Stencil.Text.Blank

/-!
# Texts

A text is the list of its characters, ordered by code point. Beside the character classes that the
template grammar uses, this module holds the searches that everything else is built from. The main
facts: `after?` takes off exactly a given beginning (`after?_eq_some_iff`), `cut?` splits a text
around an occurrence of a separator (`eq_append_of_cut?`), and both leave less than they were given.
-/

namespace Stencil

/-- A text, as the list of its characters. -/
abbrev Text := List Char

namespace Text

/-! ## Character classes -/

/-- A character of an identifier: an ASCII letter, an ASCII digit or an underscore. -/
def isWord (c : Char) : Bool := c.isAlphanum || c == '_'

/-- ASCII white space: blank, tab, line feed, form feed and carriage return. -/
def isSpace (c : Char) : Bool :=
  c == ' ' || c == '\t' || c == '\n' || c == '\x0c' || c == '\r'

/-- White space inside a line: blank and tab. -/
def isInlineSpace (c : Char) : Bool := c == ' ' || c == '\t'

/-! ## Trimming -/

/-- A text without the blanks at its end. -/
def trimEnd (s : Text) : Text := (s.reverse.dropWhile isBlank).reverse

/-- A text without the blanks at either end. -/
def trim (s : Text) : Text := trimEnd (s.dropWhile isBlank)

/-! ## Searching -/

/-- What follows `lead` in a text that begins with it. -/
def after? : (lead s : Text) → Option Text
  | [], s => some s
  | _ :: _, [] => none
  | c :: lead, d :: s => if c = d then after? lead s else none

/-- The text before the first occurrence of `sep`, and the text after it. -/
def cut? (sep : Text) : (s : Text) → Option (Text × Text)
  | [] => (after? sep []).map fun rest => ([], rest)
  | c :: s =>
    match after? sep (c :: s) with
    | some rest => some ([], rest)
    | none => (cut? sep s).map fun parts => (c :: parts.1, parts.2)

def contains (part s : Text) : Bool := (cut? part s).isSome

theorem after?_eq_some_iff {lead s rest : Text} : after? lead s = some rest ↔ s = lead ++ rest := by
  induction lead generalizing s with
  | nil => simp [after?, eq_comm]
  | cons c lead ih =>
    cases s with
    | nil => simp [after?]
    | cons d s =>
      by_cases h : c = d
      · subst h; simp [after?, ih]
      · simp [after?, h, Ne.symm h]

theorem after?_append (lead rest : Text) : after? lead (lead ++ rest) = some rest :=
  after?_eq_some_iff.2 rfl

/-- A cut loses nothing: the text is the part before, the separator, and the part after. -/
theorem eq_append_of_cut? {sep s before rest : Text} (h : cut? sep s = some (before, rest)) :
    s = before ++ sep ++ rest := by
  induction s generalizing before with
  | nil =>
    obtain ⟨r, hr, h⟩ := Option.map_eq_some_iff.1 h
    cases h
    simpa using after?_eq_some_iff.1 hr
  | cons c s ih =>
    simp only [cut?] at h
    split at h
    · next r hr =>
      cases h
      simpa using after?_eq_some_iff.1 hr
    · obtain ⟨parts, hp, h⟩ := Option.map_eq_some_iff.1 h
      cases h
      simp only [List.cons_append, List.cons.injEq, true_and]
      exact ih hp

theorem length_of_after? {lead s rest : Text} (h : after? lead s = some rest) :
    s.length = lead.length + rest.length := by
  simp [after?_eq_some_iff.1 h]

theorem length_of_cut? {sep s before rest : Text} (h : cut? sep s = some (before, rest)) :
    s.length = before.length + sep.length + rest.length := by
  simp [eq_append_of_cut? h, Nat.add_assoc]

/-! ## Replacing -/

/-- Every occurrence of a non-empty `old`, from left to right, replaced by `new`. -/
def replaceEach (old new : Text) (h : old ≠ []) (s : Text) : Text :=
  match hc : cut? old s with
  | none => s
  | some (before, rest) =>
    have _ := length_of_cut? hc
    have _ := List.length_pos_iff.2 h
    before ++ new ++ replaceEach old new h rest
termination_by s.length
decreasing_by omega

/-- Every occurrence of `old` replaced by `new`. The empty text occurs before each character and at
the end. -/
def replace (old new s : Text) : Text :=
  if h : old = [] then new ++ s.flatMap fun c => c :: new
  else replaceEach old new h s

/-- A text in which each `c` is written twice. -/
def double (c : Char) (s : Text) : Text := s.flatMap fun d => if d = c then [c, c] else [d]

/-- The pieces of a text between the characters of a class; there is always at least one. -/
def pieces (isSeparator : Char → Bool) : Text → List Text
  | [] => [[]]
  | c :: s =>
    if isSeparator c then [] :: pieces isSeparator s
    else (pieces isSeparator s).modifyHead (c :: ·)

/-- A text with its ASCII capitals in lower case. -/
def lower (s : Text) : Text := s.map Char.toLower

def inQuotes (s : Text) : Text := '\'' :: s ++ ['\'']

/-! ## Sizes and numerals -/

/-- The number of bytes of a text in UTF-8. -/
def byteSize (s : Text) : Nat := s.foldr (fun c n => c.utf8Size + n) 0

/-- The decimal numeral of a natural number. -/
def ofNat (n : Nat) : Text := Nat.toDigits 10 n

/-- The decimal numeral of an integer, with a minus sign if it is negative. -/
def ofInt : Int → Text
  | .ofNat n => ofNat n
  | .negSucc n => '-' :: ofNat (n + 1)

/-- The number that a decimal numeral denotes. One plus sign may stand before the digits. -/
def toNat? (s : Text) : Option Nat :=
  let digits := (after? ['+'] s).getD s
  if digits ≠ [] ∧ digits.all Char.isDigit then
    some (digits.foldl (fun n c => 10 * n + (c.toNat - '0'.toNat)) 0)
  else none

end Text

end Stencil
