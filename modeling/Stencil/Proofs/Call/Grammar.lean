import Stencil.Call
import Stencil.Proofs.Text

/-!
# The grammar of calls

`Says` describes a call by what it looks like, apart from any way to read it: white space, and in
parentheses one or more arguments with commas between them. Reading a text takes off exactly the
call at its beginning, whatever follows it (`read?_eq_some_iff`); so a text begins with at most one
call.
-/

namespace Stencil.Call

/-- How an argument is written, and what it says. A text on one line between two quotes of one kind,
without that quote, says itself, trimmed. A word says itself. -/
inductive SaysArgument : (written arg : Text) → Prop where
  | quoted {q : Char} {body : Text} (quote : q = '\'' ∨ q = '"') (inside : q ∉ body)
      (line : '\n' ∉ body) : SaysArgument (q :: (body ++ [q])) (Text.trim body)
  | word {s : Text} (nonempty : s ≠ []) (word : ∀ c ∈ s, Text.isWord c) : SaysArgument s s

/-- One or more arguments with commas between them, each with blanks and tabs round it. No word
character stands next to a word, so a word is always a whole one. -/
inductive SaysArguments : (written : Text) → (args : List Text) → Prop where
  | last {lead written trail arg : Text} (hlead : ∀ c ∈ lead, Text.isInlineSpace c)
      (argument : SaysArgument written arg) (htrail : ∀ c ∈ trail, Text.isInlineSpace c) :
      SaysArguments (lead ++ written ++ trail) [arg]
  | more {lead written trail others arg : Text} {args : List Text}
      (hlead : ∀ c ∈ lead, Text.isInlineSpace c) (argument : SaysArgument written arg)
      (htrail : ∀ c ∈ trail, Text.isInlineSpace c) (rest : SaysArguments others args) :
      SaysArguments (lead ++ written ++ trail ++ ',' :: others) (arg :: args)

/-- How a call is written, and its arguments. -/
inductive Says : (call : Text) → (args : List Text) → Prop where
  | mk {space written : Text} {args : List Text} (hspace : ∀ c ∈ space, Text.isSpace c)
      (arguments : SaysArguments written args) : Says (space ++ '(' :: (written ++ [')'])) args

theorem SaysArguments.single {written arg : Text} (h : SaysArgument written arg) :
    SaysArguments written [arg] := by
  have hnone : ∀ c ∈ ([] : Text), Text.isInlineSpace c := nofun
  simpa using SaysArguments.last hnone h hnone

theorem SaysArguments.ne_nil {written : Text} {args : List Text} (h : SaysArguments written args) :
    args ≠ [] := by
  cases h <;> simp

theorem SaysArguments.call {written : Text} {args : List Text} (h : SaysArguments written args) :
    Says ('(' :: (written ++ [')'])) args := by
  have hnone : ∀ c ∈ ([] : Text), Text.isSpace c := nofun
  exact .mk hnone h

/-! ## Where an argument begins and ends -/

theorem not_isWord_of_isInlineSpace {c : Char} (h : Text.isInlineSpace c) : ¬Text.isWord c := by
  have hc : c = ' ' ∨ c = '\t' := by simpa [Text.isInlineSpace] using h
  rcases hc with rfl | rfl <;> decide

theorem SaysArgument.begins {written arg : Text} (h : SaysArgument written arg) (rest : Text) :
    ∀ c ∈ (written ++ rest).head?, ¬Text.isInlineSpace c := by
  intro c hc hspace
  cases h with
  | quoted quote inside line =>
    obtain rfl := Option.some.inj hc
    rcases quote with rfl | rfl <;> revert hspace <;> decide
  | word nonempty word =>
    obtain ⟨d, s, rfl⟩ := List.exists_cons_of_ne_nil nonempty
    obtain rfl := Option.some.inj hc
    exact not_isWord_of_isInlineSpace hspace (word d List.mem_cons_self)

/-- A word ends at blanks and tabs, or at the character after them. -/
theorem ends_of_isInlineSpace {trail : Text} (htrail : ∀ c ∈ trail, Text.isInlineSpace c) {d : Char}
    (hd : ¬Text.isWord d) (rest : Text) : ∀ c ∈ (trail ++ d :: rest).head?, ¬Text.isWord c := by
  intro c hc
  cases trail with
  | nil => exact Option.some.inj hc ▸ hd
  | cons e trail =>
    obtain rfl := Option.some.inj hc
    exact not_isWord_of_isInlineSpace (htrail e List.mem_cons_self)

theorem opens (s : Text) : ∀ c ∈ ('(' :: s).head?, ¬Text.isSpace c := by
  intro c hc
  obtain rfl := Option.some.inj hc
  decide

/-! ## Reading what is written -/

theorem argument?_append {written arg rest : Text} (h : SaysArgument written arg)
    (hrest : ∀ c ∈ rest.head?, ¬Text.isWord c) : argument? (written ++ rest) = some (arg, rest) := by
  cases h with
  | @quoted q body quote inside line =>
    have hbody : ∀ c ∈ body, decide (c ≠ q) = true := fun c hc =>
      decide_eq_true (ne_of_mem_of_not_mem hc inside)
    have hquote : ∀ c ∈ (q :: rest).head?, ¬decide (c ≠ q) = true := by simp
    obtain ⟨htake, hdrop⟩ := Text.span_run hbody hquote
    rw [List.cons_append, List.append_assoc, argument?, if_pos quote]
    show quoted? q (body ++ q :: rest) = _
    rw [quoted?, hdrop, htake]
    exact if_neg line
  | word nonempty word =>
    obtain ⟨c, s, rfl⟩ := List.exists_cons_of_ne_nil nonempty
    have hc : Text.isWord c := word c List.mem_cons_self
    have hquote : ¬(c = '\'' ∨ c = '"') := by
      rintro (rfl | rfl) <;> revert hc <;> decide
    obtain ⟨htake, hdrop⟩ := Text.span_run (fun d hd => word d (List.mem_cons_of_mem _ hd)) hrest
    rw [List.cons_append, argument?, if_neg hquote, if_pos hc, htake, hdrop]

/-- An argument is read, and then what stands after the blanks and tabs round it decides. -/
theorem arguments?_padded {lead written trail arg rest : Text} {d : Char}
    (hlead : ∀ c ∈ lead, Text.isInlineSpace c) (argument : SaysArgument written arg)
    (htrail : ∀ c ∈ trail, Text.isInlineSpace c) (hd : d = ',' ∨ d = ')') :
    arguments? (lead ++ written ++ trail ++ d :: rest) =
      if d = ',' then (arguments? rest).map fun result => (arg :: result.1, result.2)
      else some ([arg], rest) := by
  have hword : ¬Text.isWord d := by rcases hd with rfl | rfl <;> decide
  have hspace : ∀ c ∈ (d :: rest).head?, ¬Text.isInlineSpace c := by
    intro c hc
    obtain rfl := Option.some.inj hc
    rcases hd with rfl | rfl <;> decide
  have hskip := (Text.span_run hlead (argument.begins (trail ++ d :: rest))).2
  have hread := argument?_append argument (ends_of_isInlineSpace htrail hword rest)
  have hnext := (Text.span_run htrail hspace).2
  rw [← hskip] at hread
  rw [List.append_assoc, List.append_assoc, arguments?]
  split
  · next h => cases h.symm.trans hread
  · next arg' rest' h =>
    obtain ⟨rfl, rfl⟩ : arg' = arg ∧ rest' = trail ++ d :: rest := by
      simpa using h.symm.trans hread
    split
    · next others hcomma =>
      obtain ⟨rfl, rfl⟩ := List.cons.inj (hnext.symm.trans hcomma)
      exact (if_pos rfl).symm
    · next after hclose =>
      obtain ⟨rfl, rfl⟩ := List.cons.inj (hnext.symm.trans hclose)
      exact (if_neg (by decide)).symm
    · next hcomma hclose =>
      rcases hd with rfl | rfl
      · exact (hcomma _ hnext).elim
      · exact (hclose _ hnext).elim

/-- By induction on the arguments. -/
theorem arguments?_append {written : Text} {args : List Text} (h : SaysArguments written args)
    (rest : Text) : arguments? (written ++ ')' :: rest) = some (args, rest) := by
  induction h with
  | last hlead argument htrail =>
    rw [arguments?_padded hlead argument htrail (.inr rfl)]
    rfl
  | more hlead argument htrail _ ih =>
    rw [List.append_assoc, List.cons_append, arguments?_padded hlead argument htrail (.inl rfl), ih]
    rfl

theorem read?_append {call : Text} {args : List Text} (h : Says call args) (rest : Text) :
    read? (call ++ rest) = some (args, rest) := by
  cases h with
  | @mk space written _ hspace arguments =>
    have hskip := (Text.span_run hspace (opens (written ++ ')' :: rest))).2
    have hcall : space ++ '(' :: (written ++ [')']) ++ rest =
        space ++ '(' :: (written ++ ')' :: rest) := by simp
    rw [hcall, read?, hskip]
    exact arguments?_append arguments rest

/-! ## What is read is written -/

theorem says_of_argument? {s arg rest : Text} (h : argument? s = some (arg, rest)) :
    ∃ written, s = written ++ rest ∧ SaysArgument written arg := by
  cases s with
  | nil => cases h
  | cons c s =>
    simp only [argument?] at h
    split at h
    · next quote =>
      have hs : s.takeWhile (· ≠ c) ++ s.dropWhile (· ≠ c) = s := List.takeWhile_append_dropWhile
      have hclose := List.head?_dropWhile_not (fun d => decide (d ≠ c)) s
      simp only [quoted?] at h
      split at h
      · cases h
      · next d after hafter =>
        split at h
        · cases h
        · next line =>
          cases h
          rw [hafter] at hs hclose
          obtain rfl : d = c := by simpa using hclose
          have inside : d ∉ s.takeWhile (· ≠ d) := fun hmem => by
            simpa using List.mem_takeWhile_imp hmem
          refine ⟨d :: (s.takeWhile (· ≠ d) ++ [d]), ?_, .quoted quote inside line⟩
          simpa using hs.symm
    · split at h
      · next hc =>
        cases h
        refine ⟨c :: s.takeWhile Text.isWord, ?_, .word (by simp) ?_⟩
        · rw [List.cons_append, List.takeWhile_append_dropWhile]
        · intro d hd
          rcases List.mem_cons.mp hd with rfl | hd
          · exact hc
          · exact List.mem_takeWhile_imp hd
      · cases h

/-- The argument that is read, with the blanks and tabs round it. -/
theorem padded_of_argument? {s arg rest : Text}
    (h : argument? (s.dropWhile Text.isInlineSpace) = some (arg, rest)) :
    ∃ lead written trail, s = lead ++ written ++ trail ++ rest.dropWhile Text.isInlineSpace ∧
      (∀ c ∈ lead, Text.isInlineSpace c) ∧ SaysArgument written arg ∧
      ∀ c ∈ trail, Text.isInlineSpace c := by
  obtain ⟨written, hwritten, argument⟩ := says_of_argument? h
  refine ⟨s.takeWhile Text.isInlineSpace, written, rest.takeWhile Text.isInlineSpace, ?_,
    fun c => List.mem_takeWhile_imp, argument, fun c => List.mem_takeWhile_imp⟩
  rw [List.append_assoc, List.takeWhile_append_dropWhile, List.append_assoc, ← hwritten,
    List.takeWhile_append_dropWhile]

theorem says_of_arguments? {s rest : Text} {args : List Text}
    (h : arguments? s = some (args, rest)) :
    ∃ written, s = written ++ ')' :: rest ∧ SaysArguments written args := by
  fun_induction arguments? s generalizing args rest with
  | case1 => cases h
  | case2 s arg r hread others hcomma _ _ _ ih =>
    obtain ⟨⟨args', rest'⟩, hothers, hargs⟩ := Option.map_eq_some_iff.mp h
    cases hargs
    obtain ⟨lead, written, trail, hs, hlead, argument, htrail⟩ := padded_of_argument? hread
    obtain ⟨more, rfl, arguments⟩ := ih hothers
    refine ⟨lead ++ written ++ trail ++ ',' :: more, ?_, .more hlead argument htrail arguments⟩
    rw [hs, hcomma]
    simp
  | case3 s arg r hread after hclose =>
    cases h
    obtain ⟨lead, written, trail, hs, hlead, argument, htrail⟩ := padded_of_argument? hread
    rw [hclose] at hs
    exact ⟨lead ++ written ++ trail, hs, .last hlead argument htrail⟩
  | case4 => cases h

/-- **Reading takes off exactly a call.** -/
theorem read?_eq_some_iff {s rest : Text} {args : List Text} :
    read? s = some (args, rest) ↔ ∃ call, s = call ++ rest ∧ Says call args := by
  constructor
  · intro h
    simp only [read?] at h
    split at h
    · next inner hopen =>
      obtain ⟨written, rfl, arguments⟩ := says_of_arguments? h
      have hs : s.takeWhile Text.isSpace ++ s.dropWhile Text.isSpace = s :=
        List.takeWhile_append_dropWhile
      rw [hopen] at hs
      refine ⟨s.takeWhile Text.isSpace ++ '(' :: (written ++ [')']), ?_,
        .mk (fun c => List.mem_takeWhile_imp) arguments⟩
      simpa using hs.symm
    · cases h
  · rintro ⟨call, rfl, hcall⟩
    exact read?_append hcall rest

theorem says_of_read? {call : Text} {args : List Text} (h : read? call = some (args, [])) :
    Says call args := by
  obtain ⟨written, rfl, hcall⟩ := read?_eq_some_iff.mp h
  rwa [List.append_nil]

/-! ## Line feeds -/

theorem SaysArgument.line {written arg : Text} (h : SaysArgument written arg) : '\n' ∉ written := by
  cases h with
  | quoted quote inside line =>
    have hquote : '\n' ≠ '\'' ∧ '\n' ≠ '"' := by decide
    rcases quote with rfl | rfl <;> simp [line, hquote]
  | word nonempty word => exact fun hmem => absurd (word '\n' hmem) (by decide)

theorem lineFeed_notMem_of_isInlineSpace {run : Text} (h : ∀ c ∈ run, Text.isInlineSpace c) :
    '\n' ∉ run := fun hmem => absurd (h '\n' hmem) (by decide)

theorem SaysArguments.line {written : Text} {args : List Text} (h : SaysArguments written args) :
    '\n' ∉ written := by
  induction h with
  | last hlead argument htrail =>
    simp [lineFeed_notMem_of_isInlineSpace hlead, argument.line,
      lineFeed_notMem_of_isInlineSpace htrail]
  | more hlead argument htrail _ ih =>
    simp [lineFeed_notMem_of_isInlineSpace hlead, argument.line,
      lineFeed_notMem_of_isInlineSpace htrail, ih]

/-- Only the white space before the parenthesis can hold a line feed. -/
theorem Says.lineFeed_mem_iff {call : Text} {args : List Text} (h : Says call args) :
    '\n' ∈ call ↔ '\n' ∈ call.takeWhile Text.isSpace := by
  cases h with
  | @mk space written _ hspace arguments =>
    rw [(Text.span_run hspace (opens (written ++ [')']))).1]
    simp [arguments.line]

end Stencil.Call
