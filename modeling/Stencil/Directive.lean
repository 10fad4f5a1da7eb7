import Stencil.Call

/-!
# Directives

A directive is a keyword and a call, somewhere in a source. The keyword may not follow a word
character directly; the white space before it belongs to the directive, except that one character of
it stays when a word comes before. `find?` gives the leftmost directive, `source_of_find?` says that
its match splits the source, and `strip` takes a text out of a source where it occurs first.
-/

namespace Stencil.Directive

/-- A directive in a source. -/
structure Match where
  before : Text
  /-- The white space before the keyword, the keyword and the call. -/
  text : Text
  args : List Text
  after : Text
deriving DecidableEq, Repr

/-- The source in which a directive was found. -/
def Match.source (m : Match) : Text := m.before ++ m.text ++ m.after

/-- Splits what stands before a keyword, given in reverse, into what comes before the directive and
the white space that belongs to it. A keyword directly after a word begins no directive. -/
def lead? (reversed : Text) : Option (Text × Text) :=
  let space := (reversed.takeWhile Text.isSpace).reverse
  let earlier := (reversed.dropWhile Text.isSpace).reverse
  if (earlier.getLast?.map Text.isWord).getD false then
    match space with
    | [] => none
    | c :: space => some (earlier ++ [c], space)
  else some (earlier, space)

/-- The directive whose keyword stands at the beginning of `s`, after `seen`, which is given in
reverse. -/
def matchHere? (keyword seen s : Text) : Option Match :=
  match Text.after? keyword s with
  | none => none
  | some called =>
    match lead? seen, Call.read? called with
    | some (before, space), some (args, after) =>
      let call := called.take (called.length - after.length)
      some ⟨before, space ++ keyword ++ call, args, after⟩
    | _, _ => none

/-- The leftmost directive whose keyword stands in `s`, after `seen`, which is given in reverse. -/
def search? (keyword : Text) (seen : Text) : (s : Text) → Option Match
  | [] => none
  | c :: s =>
    match matchHere? keyword seen (c :: s) with
    | some found => some found
    | none => search? keyword (c :: seen) s

/-- The leftmost directive with this keyword. There is none for the empty keyword. -/
def find? (keyword source : Text) : Option Match :=
  if keyword = [] then none else search? keyword [] source

/-- The source without the first occurrence of a text. -/
def strip (text source : Text) : Text :=
  match Text.cut? text source with
  | some (before, after) => before ++ after
  | none => source

/-! ## A match splits its source -/

theorem lead?_append {reversed before space : Text} (h : lead? reversed = some (before, space)) :
    before ++ space = reversed.reverse := by
  have whole : (reversed.dropWhile Text.isSpace).reverse ++
      (reversed.takeWhile Text.isSpace).reverse = reversed.reverse := by
    rw [← List.reverse_append, List.takeWhile_append_dropWhile]
  simp only [lead?] at h
  split at h
  · split at h
    · cases h
    · next c space' hs =>
      cases h
      simpa [hs] using whole
  · cases h
    exact whole

theorem source_of_matchHere? {keyword seen s : Text} {m : Match}
    (h : matchHere? keyword seen s = some m) : m.source = seen.reverse ++ s := by
  simp only [matchHere?] at h
  split at h
  · cases h
  · next called hk =>
    split at h
    · next before space args after hl hc =>
      cases h
      obtain ⟨call, rfl⟩ := Call.suffix_of_read? hc
      simp [Match.source, ← lead?_append hl, Text.after?_eq_some_iff.1 hk]
    · cases h

theorem source_of_search? {keyword seen s : Text} {m : Match}
    (h : search? keyword seen s = some m) : m.source = seen.reverse ++ s := by
  induction s generalizing seen with
  | nil => cases h
  | cons c s ih =>
    simp only [search?] at h
    split at h
    · next found hm =>
      cases h
      exact source_of_matchHere? hm
    · simpa using ih h

/-- **A match splits its source** into what comes before it, its text and what comes after it. -/
theorem source_of_find? {keyword source : Text} {m : Match} (h : find? keyword source = some m) :
    m.source = source := by
  simp only [find?] at h
  split at h
  · cases h
  · exact source_of_search? h

end Stencil.Directive
