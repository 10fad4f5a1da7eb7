import Stencil.Proofs.Call.Grammar

/-!
# Calls and their parts

A `Form` is a call taken to pieces: the white space before the parenthesis, and the arguments, each
with the quotes or the word that it is written in and the blanks and tabs round it. What forms write is
what `Says` describes (`says_iff`), so a call is read exactly where the text of a form stands. A text
begins with the text of at most one form (`Form.text_append_inj`), because each part ends where its
own class of characters does: the white space at the parenthesis, a word at what is no word character,
a quoted text at its quote. For the same reason each word is a whole one (`Form.whole_of_mem_places`).

Together, and with the position at which a call ends, this is `readAfter?_iff_form`.
-/

namespace Stencil.Call

/-! ## The parts of a call -/

/-- An argument as it is written. -/
inductive Argument where
  /-- A text on one line between two quotes of one kind, without that quote. -/
  | quoted (q : Char) (body : Text) (quote : q = '\'' ∨ q = '"') (inside : q ∉ body)
      (line : '\n' ∉ body)
  | word (s : Text) (nonempty : s ≠ []) (word : ∀ c ∈ s, Text.isWord c)

namespace Argument

def text : Argument → Text
  | quoted q body _ _ _ => q :: (body ++ [q])
  | word s _ _ => s

/-- What an argument says: the text between the quotes, trimmed, or the word. -/
def value : Argument → Text
  | quoted _ body _ _ _ => Text.trim body
  | word s _ _ => s

end Argument

/-- An argument with the blanks and tabs round it. -/
structure Padded where
  lead : Text
  argument : Argument
  trail : Text
  hlead : ∀ c ∈ lead, Text.isInlineSpace c
  htrail : ∀ c ∈ trail, Text.isInlineSpace c

def Padded.text (x : Padded) : Text := x.lead ++ x.argument.text ++ x.trail

/-- One or more arguments. -/
inductive Arguments where
  | last (x : Padded)
  | more (x : Padded) (others : Arguments)

namespace Arguments

/-- The arguments as they are written, with commas between them. -/
def text : Arguments → Text
  | last x => x.text
  | more x others => x.text ++ ',' :: others.text

def toList : Arguments → List Argument
  | last x => [x.argument]
  | more x others => x.argument :: others.toList

end Arguments

/-- A call by its parts. -/
structure Form where
  space : Text
  arguments : Arguments
  hspace : ∀ c ∈ space, Text.isSpace c

namespace Form

def text (form : Form) : Text := form.space ++ '(' :: (form.arguments.text ++ [')'])

/-- What the arguments say, one entry for each. -/
def args (form : Form) : List Text := form.arguments.toList.map Argument.value

theorem text_append (form : Form) (rest : Text) :
    form.text ++ rest = form.space ++ '(' :: (form.arguments.text ++ ')' :: rest) := by
  simp [text]

theorem args_ne_nil (form : Form) : form.args ≠ [] := by
  rw [args]
  cases form.arguments <;> exact List.cons_ne_nil _ _

theorem getLast?_text (form : Form) : form.text.getLast? = some ')' := by
  rw [text, ← List.cons_append, ← List.append_assoc, List.getLast?_concat]

end Form

/-! ## Forms write what calls say -/

theorem Argument.says_text (a : Argument) : SaysArgument a.text a.value := by
  cases a with
  | quoted q body quote inside line => exact .quoted quote inside line
  | word s nonempty word => exact .word nonempty word

theorem exists_argument {written arg : Text} (h : SaysArgument written arg) :
    ∃ a : Argument, a.text = written ∧ a.value = arg := by
  cases h with
  | quoted quote inside line => exact ⟨.quoted _ _ quote inside line, rfl, rfl⟩
  | word nonempty word => exact ⟨.word _ nonempty word, rfl, rfl⟩

theorem Arguments.says_text (a : Arguments) : SaysArguments a.text (a.toList.map Argument.value) := by
  induction a with
  | last x => exact .last x.hlead x.argument.says_text x.htrail
  | more x others ih => exact .more x.hlead x.argument.says_text x.htrail ih

theorem exists_arguments {written : Text} {args : List Text} (h : SaysArguments written args) :
    ∃ a : Arguments, a.text = written ∧ a.toList.map Argument.value = args := by
  induction h with
  | last hlead argument htrail =>
    obtain ⟨a, rfl, rfl⟩ := exists_argument argument
    exact ⟨.last ⟨_, a, _, hlead, htrail⟩, rfl, rfl⟩
  | more hlead argument htrail _ ih =>
    obtain ⟨a, rfl, rfl⟩ := exists_argument argument
    obtain ⟨others, rfl, rfl⟩ := ih
    exact ⟨.more ⟨_, a, _, hlead, htrail⟩ others, rfl, rfl⟩

/-- **The calls that say something are the texts of the forms.** -/
theorem says_iff {call : Text} {args : List Text} :
    Says call args ↔ ∃ form : Form, form.text = call ∧ form.args = args := by
  constructor
  · rintro ⟨hspace, arguments⟩
    obtain ⟨a, rfl, rfl⟩ := exists_arguments arguments
    exact ⟨⟨_, a, hspace⟩, rfl, rfl⟩
  · rintro ⟨form, rfl, rfl⟩
    exact .mk form.hspace form.arguments.says_text

/-! ## A text begins with one form at most -/

theorem Argument.text_append_inj {a a' : Argument} {rest rest' : Text}
    (hrest : ∀ c ∈ rest.head?, ¬Text.isWord c) (hrest' : ∀ c ∈ rest'.head?, ¬Text.isWord c)
    (h : a.text ++ rest = a'.text ++ rest') : a = a' ∧ rest = rest' := by
  -- a quoted argument begins with its quote, which is no word character
  have apart {q : Char} {body s t t' : Text} (quote : q = '\'' ∨ q = '"') (nonempty : s ≠ [])
      (word : ∀ c ∈ s, Text.isWord c) : q :: (body ++ [q]) ++ t ≠ s ++ t' := by
    intro heq
    obtain ⟨c, s, rfl⟩ := List.exists_cons_of_ne_nil nonempty
    obtain ⟨rfl, -⟩ := List.cons.inj heq
    have hword := word q List.mem_cons_self
    rcases quote with rfl | rfl <;> revert hword <;> decide
  cases a with
  | quoted q body quote inside line =>
    cases a' with
    | quoted q' body' quote' inside' line' =>
      rw [text, text, List.cons_append, List.cons_append, List.append_assoc, List.append_assoc] at h
      obtain ⟨rfl, htail⟩ := List.cons.inj h
      have hbody {body : Text} (inside : q ∉ body) : ∀ c ∈ body, decide (c ≠ q) = true :=
        fun c hc => decide_eq_true (ne_of_mem_of_not_mem hc inside)
      have hquote {t : Text} : ∀ c ∈ ([q] ++ t).head?, ¬decide (c ≠ q) = true := by simp
      obtain ⟨rfl, hend⟩ := Text.run_unique (hbody inside) (hbody inside') hquote hquote htail
      exact ⟨rfl, List.append_cancel_left hend⟩
    | word s nonempty word => exact absurd h (apart quote nonempty word)
  | word s nonempty word =>
    cases a' with
    | quoted q body quote inside line => exact absurd h.symm (apart quote nonempty word)
    | word s' nonempty' word' =>
      obtain ⟨rfl, hend⟩ := Text.run_unique word word' hrest hrest' h
      exact ⟨rfl, hend⟩

theorem not_isInlineSpace_of_ends {d : Char} (hd : d = ',' ∨ d = ')') (rest : Text) :
    ∀ c ∈ (d :: rest).head?, ¬Text.isInlineSpace c := by
  intro c hc
  obtain rfl := Option.some.inj hc
  rcases hd with rfl | rfl <;> decide

theorem Padded.text_append_inj {x x' : Padded} {d d' : Char} {rest rest' : Text}
    (hd : d = ',' ∨ d = ')') (hd' : d' = ',' ∨ d' = ')')
    (h : x.text ++ d :: rest = x'.text ++ d' :: rest') : x = x' ∧ d = d' ∧ rest = rest' := by
  have hword {d : Char} (hd : d = ',' ∨ d = ')') : ¬Text.isWord d := by
    rcases hd with rfl | rfl <;> decide
  obtain ⟨lead, argument, trail, hlead, htrail⟩ := x
  obtain ⟨lead', argument', trail', hlead', htrail'⟩ := x'
  simp only [text, List.append_assoc] at h
  obtain ⟨rfl, hargument⟩ :=
    Text.run_unique hlead hlead' (argument.says_text.begins _) (argument'.says_text.begins _) h
  obtain ⟨rfl, hpadding⟩ := Argument.text_append_inj (ends_of_isInlineSpace htrail (hword hd) rest)
    (ends_of_isInlineSpace htrail' (hword hd') rest') hargument
  obtain ⟨rfl, hend⟩ := Text.run_unique htrail htrail' (not_isInlineSpace_of_ends hd rest)
    (not_isInlineSpace_of_ends hd' rest') hpadding
  obtain ⟨rfl, rfl⟩ := List.cons.inj hend
  exact ⟨rfl, rfl, rfl⟩

/-- By induction on the arguments: a comma or the parenthesis tells whether there are more. -/
theorem Arguments.text_append_inj {a a' : Arguments} {rest rest' : Text}
    (h : a.text ++ ')' :: rest = a'.text ++ ')' :: rest') : a = a' ∧ rest = rest' := by
  induction a generalizing a' with
  | last x =>
    cases a' with
    | last x' =>
      obtain ⟨rfl, -, hrest⟩ := Padded.text_append_inj (.inr rfl) (.inr rfl) h
      exact ⟨rfl, hrest⟩
    | more x' others' =>
      rw [text, text, List.append_assoc, List.cons_append] at h
      cases (Padded.text_append_inj (.inr rfl) (.inl rfl) h).2.1
  | more x others ih =>
    rw [text, List.append_assoc, List.cons_append] at h
    cases a' with
    | last x' =>
      rw [text] at h
      cases (Padded.text_append_inj (.inl rfl) (.inr rfl) h).2.1
    | more x' others' =>
      rw [text, List.append_assoc, List.cons_append] at h
      obtain ⟨rfl, -, h⟩ := Padded.text_append_inj (.inl rfl) (.inl rfl) h
      obtain ⟨rfl, hrest⟩ := ih h
      exact ⟨rfl, hrest⟩

/-- **A text is split in one way only** into a call and what follows it. -/
theorem Form.text_append_inj {form form' : Form} {rest rest' : Text}
    (h : form.text ++ rest = form'.text ++ rest') : form = form' ∧ rest = rest' := by
  rw [text_append, text_append] at h
  obtain ⟨space, arguments, hspace⟩ := form
  obtain ⟨space', arguments', hspace'⟩ := form'
  obtain ⟨rfl, h⟩ := Text.run_unique hspace hspace' (opens _) (opens _) h
  obtain ⟨rfl, hrest⟩ := Arguments.text_append_inj (List.cons.inj h).2
  exact ⟨rfl, hrest⟩

/-! ## Where the arguments stand -/

/-- An argument in a source, with what stands before it and after it. -/
structure Place where
  before : Text
  argument : Argument
  after : Text

namespace Place

def source (place : Place) : Text := place.before ++ place.argument.text ++ place.after

/-- No word character stands next to the argument, so that a word is as long as it can be. -/
def Whole (place : Place) : Prop :=
  (∀ c ∈ place.before.getLast?, ¬Text.isWord c) ∧ ∀ c ∈ place.after.head?, ¬Text.isWord c

end Place

/-- A word starts after blanks and tabs, or after the character before them. -/
theorem starts_of_isInlineSpace {before lead : Text} (hbefore : ∀ c ∈ before.getLast?, ¬Text.isWord c)
    (hlead : ∀ c ∈ lead, Text.isInlineSpace c) :
    ∀ c ∈ (before ++ lead).getLast?, ¬Text.isWord c := by
  by_cases hnil : lead = []
  · rwa [hnil, List.append_nil]
  · rw [List.getLast?_append_of_ne_nil _ hnil]
    exact fun c hc => not_isWord_of_isInlineSpace (hlead c (List.mem_of_mem_getLast? hc))

namespace Arguments

/-- The arguments that stand between two texts. -/
def places (before after : Text) : Arguments → List Place
  | last x => [⟨before ++ x.lead, x.argument, x.trail ++ after⟩]
  | more x others =>
    ⟨before ++ x.lead, x.argument, x.trail ++ ',' :: (others.text ++ after)⟩ ::
      others.places (before ++ x.text ++ [',']) after

theorem map_places (a : Arguments) (before after : Text) :
    (a.places before after).map Place.argument = a.toList := by
  induction a generalizing before with
  | last x => rfl
  | more x others ih => rw [places, List.map_cons, ih, toList]

theorem source_of_mem_places (a : Arguments) (before after : Text) :
    ∀ place ∈ a.places before after, place.source = before ++ a.text ++ after := by
  induction a generalizing before with
  | last x =>
    intro place hmem
    obtain rfl := List.mem_singleton.mp hmem
    simp [Place.source, text, Padded.text]
  | more x others ih =>
    intro place hmem
    rcases List.mem_cons.mp hmem with rfl | hmem
    · simp [Place.source, text, Padded.text]
    · rw [ih _ place hmem, text]
      simp

theorem whole_of_mem_places (a : Arguments) {before : Text}
    (hbefore : ∀ c ∈ before.getLast?, ¬Text.isWord c) (rest : Text) :
    ∀ place ∈ a.places before (')' :: rest), place.Whole := by
  induction a generalizing before with
  | last x =>
    intro place hmem
    obtain rfl := List.mem_singleton.mp hmem
    exact ⟨starts_of_isInlineSpace hbefore x.hlead, ends_of_isInlineSpace x.htrail (by decide) rest⟩
  | more x others ih =>
    intro place hmem
    rcases List.mem_cons.mp hmem with rfl | hmem
    · exact ⟨starts_of_isInlineSpace hbefore x.hlead, ends_of_isInlineSpace x.htrail (by decide) _⟩
    · have hcomma : ∀ c ∈ (before ++ x.text ++ [',']).getLast?, ¬Text.isWord c := by
        rw [List.getLast?_concat]
        rintro c ⟨⟩
        decide
      exact ih hcomma place hmem

end Arguments

namespace Form

/-- The arguments of a call that stands between two texts. -/
def places (before after : Text) (form : Form) : List Place :=
  form.arguments.places (before ++ form.space ++ ['(']) (')' :: after)

theorem map_places (form : Form) (before after : Text) :
    (form.places before after).map (fun place => place.argument.value) = form.args := by
  rw [args, ← form.arguments.map_places (before ++ form.space ++ ['(']) (')' :: after), List.map_map]
  rfl

theorem source_of_mem_places (form : Form) (before after : Text) :
    ∀ place ∈ form.places before after, place.source = before ++ form.text ++ after := by
  intro place hmem
  rw [form.arguments.source_of_mem_places _ _ place hmem, text]
  simp

theorem whole_of_mem_places (form : Form) (before after : Text) :
    ∀ place ∈ form.places before after, place.Whole := by
  refine form.arguments.whole_of_mem_places ?_ after
  rw [List.getLast?_concat]
  rintro c ⟨⟩
  decide

end Form

/-! ## Reading by position -/

/-- Reads the call at the beginning of `s`, which stands after `before`: the position in the whole text
after the call, and the arguments. -/
def readAfter? (before s : Text) : Option (Nat × List Text) :=
  (read? s).map fun found => (Text.position (before ++ s) found.2, found.1)

theorem read?_eq_some_iff_form {s rest : Text} {args : List Text} :
    read? s = some (args, rest) ↔ ∃ form : Form, s = form.text ++ rest ∧ form.args = args := by
  rw [read?_eq_some_iff]
  constructor
  · rintro ⟨call, rfl, hcall⟩
    obtain ⟨form, rfl, rfl⟩ := says_iff.mp hcall
    exact ⟨form, rfl, rfl⟩
  · rintro ⟨form, rfl, rfl⟩
    exact ⟨form.text, rfl, says_iff.mpr ⟨form, rfl, rfl⟩⟩

theorem readAfter?_eq_some_iff {before s : Text} {stop : Nat} {args : List Text} :
    readAfter? before s = some (stop, args) ↔ ∃ (form : Form) (after : Text),
      s = form.text ++ after ∧ stop = Text.byteSize (before ++ form.text) ∧ args = form.args := by
  rw [readAfter?, Option.map_eq_some_iff]
  constructor
  · rintro ⟨⟨_, after⟩, hread, hfound⟩
    cases hfound
    obtain ⟨form, rfl, rfl⟩ := read?_eq_some_iff_form.mp hread
    refine ⟨form, after, rfl, ?_, rfl⟩
    rw [← List.append_assoc, Text.position_append]
  · rintro ⟨form, after, rfl, rfl, rfl⟩
    refine ⟨(form.args, after), read?_eq_some_iff_form.mpr ⟨form, rfl, rfl⟩, ?_⟩
    rw [← List.append_assoc, Text.position_append]

/-- **A call is read exactly where a form stands**, after whatever text: its arguments are what the
form says, and it ends right after the parenthesis, whatever follows. A text is split in one way only,
there is at least one argument, and each is read whole. -/
theorem readAfter?_iff_form (before : Text) :
    (∀ s stop args, readAfter? before s = some (stop, args) ↔ ∃ (form : Form) (after : Text),
      s = form.text ++ after ∧ stop = Text.byteSize (before ++ form.text) ∧ args = form.args) ∧
    (∀ (form form' : Form) (after after' : Text),
      form.text ++ after = form'.text ++ after' ↔ form = form' ∧ after = after') ∧
    ∀ (form : Form) (after : Text),
      readAfter? before (form.text ++ after) =
          some (Text.byteSize (before ++ form.text), form.args) ∧
        form.args ≠ [] ∧ form.text.getLast? = some ')' ∧
        (form.places before after).map (fun place => place.argument.value) = form.args ∧
        ∀ place ∈ form.places before after,
          place.source = before ++ form.text ++ after ∧ place.Whole := by
  refine ⟨fun _ _ _ => readAfter?_eq_some_iff, fun form form' after after' => ?_,
    fun form after => ⟨?_, form.args_ne_nil, form.getLast?_text, form.map_places before after, ?_⟩⟩
  · refine ⟨Form.text_append_inj, ?_⟩
    rintro ⟨rfl, rfl⟩
    rfl
  · exact readAfter?_eq_some_iff.mpr ⟨form, after, rfl, rfl, rfl⟩
  · intro place hmem
    exact ⟨form.source_of_mem_places before after place hmem,
      form.whole_of_mem_places before after place hmem⟩

/-- Positions count bytes. In quotes there may be commas, parentheses and the other quote; a comma at
the end is not part of a call. -/
example : readAfter? ['é'] " ('a,)\"' , b_1)!".toList = some (17, ["a,)\"".toList, "b_1".toList]) ∧
    readAfter? [] "(a,)".toList = none := by
  decide +kernel

end Stencil.Call
