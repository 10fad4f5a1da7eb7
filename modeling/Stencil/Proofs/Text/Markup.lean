import Mathlib.Logic.Function.Basic
import Stencil.Page

/-!
# Text in markup

Escaped text can stand anywhere in markup: it has no angle brackets and no quotes
(`filter_escapeMarkup`), and each of its ampersands begins an entity. Nothing of the text is lost, for
one pass over the entities gives it back (`unescapeMarkup_escapeMarkup`), whatever entities or pieces of
entities it had itself. A page is written part after part onto what is there (`fill_eq_foldl`).
-/

namespace Stencil

namespace Text

/-- A character that can begin or end a tag or a quoted attribute. -/
def delimitsMarkup (c : Char) : Bool := c == '<' || c == '>' || c == '"' || c == '\''

/-- What can stand for a character in escaped text. -/
def entities : List Text :=
  ["&amp;".toList, "&lt;".toList, "&gt;".toList, "&quot;".toList, "&#39;".toList]

/-- A markup text with its entities replaced by their characters, from left to right. -/
def unescapeMarkup : Text → Text
  | '&' :: 'a' :: 'm' :: 'p' :: ';' :: s => '&' :: unescapeMarkup s
  | '&' :: 'l' :: 't' :: ';' :: s => '<' :: unescapeMarkup s
  | '&' :: 'g' :: 't' :: ';' :: s => '>' :: unescapeMarkup s
  | '&' :: 'q' :: 'u' :: 'o' :: 't' :: ';' :: s => '"' :: unescapeMarkup s
  | '&' :: '#' :: '3' :: '9' :: ';' :: s => '\'' :: unescapeMarkup s
  | c :: s => c :: unescapeMarkup s
  | [] => []

/-- Escapes a text onto what is written already, character by character. -/
def appendMarkup (written : Text) : Text → Text
  | [] => written
  | c :: s => appendMarkup (written ++ (entity? c).getD [c]) s

/-! ## One character -/

section Entity

variable {c : Char} {entity : Text}

/-- Only the first character of an entity is an ampersand. -/
theorem eq_cons_of_entity? (h : entity? c = some entity) :
    ∃ tail, entity = '&' :: tail ∧ '&' ∉ tail := by
  unfold entity? at h
  split at h <;> cases h
  all_goals exact ⟨_, rfl, by decide⟩

theorem mem_entities_of_entity? (h : entity? c = some entity) : entity ∈ entities := by
  unfold entity? at h
  split at h <;> cases h
  all_goals decide

theorem filter_of_entity? (h : entity? c = some entity) : entity.filter delimitsMarkup = [] := by
  unfold entity? at h
  split at h <;> cases h
  all_goals rfl

theorem unescapeMarkup_entity (h : entity? c = some entity) (rest : Text) :
    unescapeMarkup (entity ++ rest) = c :: unescapeMarkup rest := by
  unfold entity? at h
  split at h <;> cases h
  all_goals rfl

/-- The characters without an entity have no part in markup. -/
theorem not_markup_of_entity? (h : entity? c = none) : c ≠ '&' ∧ delimitsMarkup c = false := by
  unfold entity? at h
  split at h
  · cases h
  · cases h
  · cases h
  · cases h
  · cases h
  · next hand hlt hgt hquote hsingle =>
    simp only [delimitsMarkup, Bool.or_eq_false_iff, beq_eq_false_iff_ne]
    exact ⟨hand, ⟨⟨hlt, hgt⟩, hquote⟩, hsingle⟩

theorem unescapeMarkup_cons (h : c ≠ '&') (s : Text) :
    unescapeMarkup (c :: s) = c :: unescapeMarkup s := by
  rw [unescapeMarkup.eq_def]
  split <;> simp_all

end Entity

/-! ## Whole texts -/

theorem escapeMarkup_cons (c : Char) (s : Text) :
    escapeMarkup (c :: s) = (entity? c).getD [c] ++ escapeMarkup s := List.flatMap_cons

/-- **Escaped text has no angle brackets and no quotes.** -/
theorem filter_escapeMarkup (s : Text) : (escapeMarkup s).filter delimitsMarkup = [] := by
  induction s with
  | nil => rfl
  | cons c s ih =>
    rw [escapeMarkup_cons, List.filter_append, ih, List.append_nil]
    cases hc : entity? c with
    | none => simpa using (not_markup_of_entity? hc).2
    | some entity => exact filter_of_entity? hc

/-- An ampersand is written only at the beginning of an entity. -/
theorem entity_isPrefix_of_suffix {s after : Text} (h : '&' :: after <:+ escapeMarkup s) :
    ∃ entity ∈ entities, entity <+: '&' :: after := by
  induction s with
  | nil => simp [escapeMarkup] at h
  | cons c s ih =>
    rw [escapeMarkup_cons] at h
    rcases List.suffix_or_suffix_of_suffix h (List.suffix_append _ _) with hlater | ⟨first, hfirst⟩
    · exact ih hlater
    · -- the ampersand stands in what is written for the first character, or just after it
      rw [← hfirst, List.suffix_append_self_iff] at h
      cases first with
      | nil => exact ih (hfirst ▸ List.suffix_rfl)
      | cons d first =>
        obtain ⟨rfl, -⟩ := List.cons.inj hfirst
        cases hc : entity? c with
        | none =>
          rw [hc, Option.getD_none] at h
          have hmem : '&' ∈ [c] := h.mem List.mem_cons_self
          exact absurd (List.mem_singleton.mp hmem).symm (not_markup_of_entity? hc).1
        | some entity =>
          obtain ⟨tail, rfl, htail⟩ := eq_cons_of_entity? hc
          rw [hc, Option.getD_some, List.suffix_cons_iff] at h
          rcases h with heq | hinner
          · exact ⟨_, mem_entities_of_entity? hc, hfirst ▸ heq ▸ List.prefix_append _ _⟩
          · exact absurd (hinner.mem List.mem_cons_self) htail

/-- **Unescaping gives an escaped text back.** -/
theorem unescapeMarkup_escapeMarkup (s : Text) : unescapeMarkup (escapeMarkup s) = s := by
  induction s with
  | nil => rfl
  | cons c s ih =>
    rw [escapeMarkup_cons]
    cases hc : entity? c with
    | none =>
      rw [Option.getD_none, List.singleton_append,
        unescapeMarkup_cons (not_markup_of_entity? hc).1, ih]
    | some entity => rw [Option.getD_some, unescapeMarkup_entity hc, ih]

theorem appendMarkup_eq (written s : Text) : appendMarkup written s = written ++ escapeMarkup s := by
  induction s generalizing written with
  | nil => rw [appendMarkup, escapeMarkup, List.flatMap_nil, List.append_nil]
  | cons c s ih => rw [appendMarkup, ih, escapeMarkup_cons, List.append_assoc]

end Text

/-! ## Pages -/

namespace Page

/-- Writes a part of a page onto what is written already. -/
def Part.append (root : Value) (written : Text) : Part → Text
  | .text s => written ++ s
  | .echo .plain expr => written ++ (root.lookup expr).text
  | .echo .escaped expr => Text.appendMarkup written (root.lookup expr).text

theorem Part.append_eq (root : Value) (written : Text) (part : Part) :
    part.append root written = written ++ part.fill root := by
  match part with
  | .text s => rfl
  | .echo .plain expr => rfl
  | .echo .escaped expr => exact Text.appendMarkup_eq _ _

theorem foldl_append (root : Value) (written : Text) (page : Page) :
    page.foldl (Part.append root) written = written ++ page.fill root := by
  induction page generalizing written with
  | nil => exact (List.append_nil written).symm
  | cons part page ih =>
    rw [List.foldl_cons, ih, Part.append_eq, List.append_assoc]
    rfl

/-- A page is filled in one pass, in which what is written stays. -/
theorem fill_eq_foldl (root : Value) (page : Page) :
    page.fill root = page.foldl (Part.append root) [] := (foldl_append root [] page).symm

end Page

/-! ## What escaping keeps -/

namespace Text

/-- **Escaping is safe and loses nothing.** Escaped text has none of the delimiters of markup, each
ampersand in it begins an entity, and replacing the entities from left to right gives the text back, so
that no two texts are escaped alike. Escaping onto what is written already leaves that as it was, and
pages are filled in this way. -/
theorem escapeMarkup_lossless :
    (∀ s, ∀ c ∈ ['<', '>', '"', '\''], c ∉ escapeMarkup s) ∧
      (∀ s before after, escapeMarkup s = before ++ '&' :: after →
        ∃ entity ∈ entities, entity <+: '&' :: after) ∧
      Function.LeftInverse unescapeMarkup escapeMarkup ∧
      Function.Injective escapeMarkup ∧
      (∀ written s, appendMarkup written s = written ++ escapeMarkup s) ∧
      ∀ root (page : Page), page.fill root = page.foldl (Page.Part.append root) [] := by
  have hinverse : Function.LeftInverse unescapeMarkup escapeMarkup := unescapeMarkup_escapeMarkup
  refine ⟨fun s c hc hmem => ?_, fun s before after h => ?_, hinverse, hinverse.injective,
    appendMarkup_eq, Page.fill_eq_foldl⟩
  · have hnot := List.filter_eq_nil_iff.mp (filter_escapeMarkup s) c hmem
    simp only [List.mem_cons, List.not_mem_nil, or_false] at hc
    rcases hc with rfl | rfl | rfl | rfl
    all_goals exact hnot rfl
  · exact entity_isPrefix_of_suffix ⟨before, h.symm⟩

/-- A text with an entity and with a piece of one. -/
example : escapeMarkup "&amp;lt; &#3".toList = "&amp;amp;lt; &amp;#3".toList ∧
    unescapeMarkup "&amp;amp;lt; &amp;#3".toList = "&amp;lt; &#3".toList := by decide

end Text

end Stencil
