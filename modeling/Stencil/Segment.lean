import Stencil.Tags

/-!
# Segments

A source is read from left to right as literal text and interpolations. At each position the flavor
with the longer opening tag is tried first; where an opening tag stands and its closing tag comes
later, all up to the first closing tag is one segment. `print_ofSource` says that reading loses
nothing: the segments, written with the same tags, are the source. A pair of two empty tags is ruled
out: reading would never come to an end with it, and `ofSource`, which always does, passes it over.
-/

namespace Stencil

/-- A piece of a source. -/
inductive Segment where
  /-- Text that stands for itself. -/
  | literal (text : Text)
  /-- An interpolation, with all that stands between its tags. -/
  | echo (flavor : Flavor) (body : Text)
deriving DecidableEq, Repr

namespace Segment

/-! ## Reading -/

/-- The flavors in the order in which their tags are tried: the longer opening tag first, by its
bytes, and the escaped flavor first if there is no difference. -/
def order (tags : Tags) : List Flavor :=
  if tags.escaped.opening.byteSize < tags.plain.opening.byteSize then [.plain, .escaped]
  else [.escaped, .plain]

/-- Reads what stands between the tags of a pair at the beginning of a text. Two empty tags would stand
everywhere, with nothing between them, and take up nothing, and a scan that tries them never returns.
That they enclose nothing here only makes reading total; what sources mean with them is left open. -/
def enclosed? (tags : Delims) (s : Text) : Option (Text × Text) :=
  if tags.opening = [] ∧ tags.closing = [] then none
  else (Text.after? tags.opening s).bind (Text.cut? tags.closing)

/-- The segment for what stands between two tags: literal text if it is blank. -/
def ofBody (flavor : Flavor) (tags : Delims) (body : Text) : Segment :=
  if Text.trim body = [] then .literal (tags.opening ++ body ++ tags.closing)
  else .echo flavor body

/-- Reads an interpolation at the beginning of a text. -/
def interpolation? (tags : Tags) (s : Text) : Option (Segment × Text) :=
  (order tags).findSome? fun flavor =>
    (enclosed? (tags.get flavor) s).map fun found =>
      (ofBody flavor (tags.get flavor) found.1, found.2)

theorem eq_append_of_enclosed? {tags : Delims} {s body rest : Text}
    (h : enclosed? tags s = some (body, rest)) :
    s = tags.opening ++ body ++ tags.closing ++ rest ∧ rest.length < s.length := by
  simp only [enclosed?] at h
  split at h
  · cases h
  · next hne =>
    obtain ⟨inner, ho, hc⟩ := Option.bind_eq_some_iff.1 h
    have hs : s = tags.opening ++ body ++ tags.closing ++ rest := by
      rw [Text.after?_eq_some_iff.1 ho, Text.eq_append_of_cut? hc]
      simp
    refine ⟨hs, ?_⟩
    have : 0 < tags.opening.length + tags.closing.length := by
      rcases Classical.em (tags.opening = []) with ho | ho
      · have := List.length_pos_iff.2 fun hc => hne ⟨ho, hc⟩
        omega
      · have := List.length_pos_iff.2 ho
        omega
    rw [hs]
    simp only [List.length_append]
    omega

theorem length_of_interpolation? {tags : Tags} {s rest : Text} {segment : Segment}
    (h : interpolation? tags s = some (segment, rest)) : rest.length < s.length := by
  obtain ⟨flavor, _, h⟩ := List.exists_of_findSome?_eq_some h
  obtain ⟨found, hf, h⟩ := Option.map_eq_some_iff.1 h
  cases h
  exact (eq_append_of_enclosed? hf).2

/-- The segments of a source. A character that begins no interpolation is a literal of its own. -/
def ofSource (tags : Tags) (s : Text) : List Segment :=
  match h : interpolation? tags s with
  | some (segment, rest) =>
    have _ := length_of_interpolation? h
    segment :: ofSource tags rest
  | none =>
    match s with
    | [] => []
    | c :: s => .literal [c] :: ofSource tags s
termination_by s.length
decreasing_by
  · assumption
  · exact Nat.lt_succ_self _

/-! ## Writing -/

/-- A segment as it stands in a source with these tags. -/
def print (tags : Tags) : Segment → Text
  | .literal text => text
  | .echo flavor body => (tags.get flavor).opening ++ body ++ (tags.get flavor).closing

/-- The mark that begins a compiled interpolation. -/
def mark : Flavor → Text
  | .escaped => ['#', '{']
  | .plain => ['#', '!', '{']

/-- A segment in compiled form, where a hash sign begins a mark: in literal text it is written
twice, and so is a closing brace in an expression. -/
def compile : Segment → Text
  | .literal text => Text.double '#' text
  | .echo flavor body => mark flavor ++ Text.double '}' (Text.trim body) ++ ['}']

def compileEchos (tags : Tags) (source : Text) : Text := (ofSource tags source).flatMap compile

/-! ## Reading loses nothing -/

theorem print_ofBody (tags : Tags) (flavor : Flavor) (body : Text) :
    (ofBody flavor (tags.get flavor) body).print tags =
      (tags.get flavor).opening ++ body ++ (tags.get flavor).closing := by
  simp only [ofBody]
  split <;> rfl

theorem print_of_interpolation? {tags : Tags} {s rest : Text} {segment : Segment}
    (h : interpolation? tags s = some (segment, rest)) : s = segment.print tags ++ rest := by
  obtain ⟨flavor, _, h⟩ := List.exists_of_findSome?_eq_some h
  obtain ⟨found, hf, h⟩ := Option.map_eq_some_iff.1 h
  cases h
  rw [print_ofBody]
  exact (eq_append_of_enclosed? hf).1

/-- **The segments of a source print it.** -/
theorem print_ofSource (tags : Tags) (s : Text) : (ofSource tags s).flatMap (print tags) = s := by
  fun_induction ofSource tags s with
  | case1 s segment rest h _ ih =>
    rw [List.flatMap_cons, ih]
    exact (print_of_interpolation? h).symm
  | case2 => rfl
  | case3 c s _ ih => simp [print, ih]

end Segment

end Stencil
