import Mathlib.Data.List.DropRight
import Stencil.Text

/-!
# Facts about texts

A trimmed text has no blank to trim (`trim_trim`), a text begins with one run of a class of characters
(`run_unique`), a cut is a cut at the first occurrence of the separator (`cut?_eq_some_iff`), texts with
separators between them are the pieces between these (`pieces_intercalate`), doubling a character leaves
no other text as it was (`double_eq_self_iff`), a position is the size of what stands before it
(`position_append`), and a number is read off exactly the texts that denote it (`toNat?_eq_some_iff`).
-/

namespace Stencil.Text

/-! ## Trimming -/

theorem trimEnd_eq_rdropWhile (s : Text) : trimEnd s = s.rdropWhile isBlank := rfl

theorem trim_trim (s : Text) : trim (trim s) = trim s := by
  have start : (trim s).dropWhile isBlank = trim s := by
    rw [List.dropWhile_eq_self_iff]
    intro pos
    have pre : trim s <+: s.dropWhile isBlank := List.rdropWhile_prefix isBlank _
    have pos' : 0 < (s.dropWhile isBlank).length := lt_of_lt_of_le pos pre.length_le
    rw [pre.getElem pos]
    exact List.dropWhile_get_zero_not isBlank s pos'
  show trimEnd ((trim s).dropWhile isBlank) = trim s
  rw [start, trimEnd_eq_rdropWhile]
  exact List.rdropWhile_idempotent isBlank _

theorem mem_of_mem_trim {c : Char} {s : Text} (h : c ∈ trim s) : c ∈ s :=
  (List.dropWhile_suffix _).mem ((List.rdropWhile_prefix isBlank _).mem h)

theorem isBlank_of_trim_eq_nil {s : Text} (h : trim s = []) : ∀ c ∈ s, isBlank c := by
  have hrest : ∀ c ∈ s.dropWhile isBlank, isBlank c := List.rdropWhile_eq_nil_iff.mp h
  have hnil : s.dropWhile isBlank = [] := by
    cases hd : s.dropWhile isBlank with
    | nil => rfl
    | cons c rest =>
      have hhead := List.head?_dropWhile_not isBlank s
      rw [hd] at hhead hrest
      exact absurd (hrest c List.mem_cons_self) (by simpa using hhead)
  exact List.dropWhile_eq_nil_iff.mp hnil

theorem trim_eq_nil_iff {s : Text} : trim s = [] ↔ ∀ c ∈ s, isBlank c := by
  refine ⟨isBlank_of_trim_eq_nil, fun h => ?_⟩
  rw [trim, List.dropWhile_eq_nil_iff.mpr h]
  rfl

/-- A text is trimmed if neither of its ends is a blank. -/
theorem trim_eq_self_iff {s : Text} :
    trim s = s ↔ (∀ c ∈ s.head?, ¬isBlank c) ∧ ∀ c ∈ s.getLast?, ¬isBlank c := by
  have hstart : s.dropWhile isBlank = s ↔ ∀ c ∈ s.head?, ¬isBlank c := by
    cases s with
    | nil => simp
    | cons c s => simp [List.dropWhile_eq_self_iff]
  have hend : s.rdropWhile isBlank = s ↔ ∀ c ∈ s.getLast?, ¬isBlank c := by
    rw [List.rdropWhile_eq_self_iff]
    constructor
    · intro h c hc
      obtain ⟨hne, rfl⟩ := List.mem_getLast?_eq_getLast hc
      exact h hne
    · intro h hne
      exact h _ (List.getLast_mem_getLast? hne)
  rw [← hstart, ← hend, trim, trimEnd_eq_rdropWhile]
  constructor
  · intro h
    have hsuf : s.dropWhile isBlank <:+ s := List.dropWhile_suffix _
    have hpre : (s.dropWhile isBlank).rdropWhile isBlank <+: s.dropWhile isBlank :=
      List.rdropWhile_prefix _ _
    have hlength : s.length ≤ (s.dropWhile isBlank).length :=
      (congrArg List.length h).symm.le.trans hpre.length_le
    have hdrop := hsuf.eq_of_length_le hlength
    exact ⟨hdrop, by rwa [hdrop] at h⟩
  · rintro ⟨hdrop, hrdrop⟩
    rw [hdrop, hrdrop]

/-- All that is trimmed off is blank. -/
theorem eq_append_trim (s : Text) :
    ∃ before after, s = before ++ trim s ++ after ∧ ∀ c ∈ before ++ after, isBlank c := by
  have hend (s : Text) : s = trimEnd s ++ s.rtakeWhile isBlank := by
    rw [trimEnd, List.rtakeWhile, ← List.reverse_append, List.takeWhile_append_dropWhile,
      List.reverse_reverse]
  refine ⟨s.takeWhile isBlank, (s.dropWhile isBlank).rtakeWhile isBlank, ?_, fun c hc => ?_⟩
  · rw [List.append_assoc, trim, ← hend, List.takeWhile_append_dropWhile]
  · rcases List.mem_append.mp hc with hc | hc
    · exact List.mem_takeWhile_imp hc
    · exact List.mem_rtakeWhile_imp hc

theorem trim_append_ne_nil {s : Text} (h : trim s ≠ []) (t : Text) : trim (s ++ t) ≠ [] := by
  intro hnil
  exact h (trim_eq_nil_iff.mpr fun c hc =>
    isBlank_of_trim_eq_nil hnil c (List.mem_append_left t hc))

/-- What is not blank stays where it is between what is trimmed on either side of it. -/
theorem trim_append_cons {c : Char} (hc : ¬isBlank c) (s t : Text) :
    trim (s ++ c :: t) = s.dropWhile isBlank ++ c :: trimEnd t := by
  have hend (s : Text) : trimEnd (s ++ c :: t) = s ++ c :: trimEnd t := by
    rw [trimEnd, List.reverse_append, List.reverse_cons, List.append_assoc, List.dropWhile_append]
    split
    · next hnil =>
      have hnil' : t.reverse.dropWhile isBlank = [] := List.isEmpty_iff.mp hnil
      simp [trimEnd, hnil', hc]
    · simp [trimEnd]
  rw [trim, List.dropWhile_append]
  split
  · next hnil =>
    rw [List.isEmpty_iff.mp hnil, List.dropWhile_cons_of_neg hc]
    exact hend []
  · exact hend _

/-! ## Runs of a class of characters -/

/-- A run of a class that does not go on is what is taken of a text. -/
theorem span_run {p : Char → Bool} {run rest : Text} (hrun : ∀ c ∈ run, p c)
    (hrest : ∀ c ∈ rest.head?, ¬p c) :
    (run ++ rest).takeWhile p = run ∧ (run ++ rest).dropWhile p = rest := by
  rw [List.takeWhile_append_of_pos hrun, List.dropWhile_append_of_pos hrun]
  cases rest with
  | nil => simp
  | cons c rest =>
    have hc : ¬p c := hrest c rfl
    rw [List.takeWhile_cons_of_neg hc, List.dropWhile_cons_of_neg hc]
    exact ⟨List.append_nil run, rfl⟩

/-- A text begins with at most one run of a class that does not go on. -/
theorem run_unique {p : Char → Bool} {run run' rest rest' : Text} (hrun : ∀ c ∈ run, p c)
    (hrun' : ∀ c ∈ run', p c) (hrest : ∀ c ∈ rest.head?, ¬p c) (hrest' : ∀ c ∈ rest'.head?, ¬p c)
    (h : run ++ rest = run' ++ rest') : run = run' ∧ rest = rest' := by
  obtain ⟨htake, hdrop⟩ := span_run hrun hrest
  obtain ⟨htake', hdrop'⟩ := span_run hrun' hrest'
  rw [h] at htake hdrop
  exact ⟨htake.symm.trans htake', hdrop.symm.trans hdrop'⟩

/-! ## Cutting -/

/-- A cut is never later than an occurrence of the separator. -/
theorem cut?_of_append (sep before rest : Text) :
    ∃ b r, cut? sep (before ++ sep ++ rest) = some (b, r) ∧ b.length ≤ before.length := by
  induction before with
  | nil =>
    refine ⟨[], rest, ?_, le_refl _⟩
    cases sep with
    | nil => cases rest <;> rfl
    | cons c sep =>
      rw [List.nil_append, List.cons_append, cut?, ← List.cons_append, after?_append]
  | cons c before ih =>
    obtain ⟨b, r, hcut, hle⟩ := ih
    rw [List.cons_append, List.cons_append, cut?]
    cases hafter : after? sep (c :: (before ++ sep ++ rest)) with
    | some r' => exact ⟨[], r', rfl, Nat.zero_le _⟩
    | none =>
      refine ⟨c :: b, r, ?_, Nat.succ_le_succ hle⟩
      simp only [hcut, Option.map_some]

/-- **A cut is made at the first occurrence of the separator.** -/
theorem cut?_eq_some_iff {sep s before rest : Text} :
    cut? sep s = some (before, rest) ↔ s = before ++ sep ++ rest ∧
      ∀ earlier later, s = earlier ++ sep ++ later → before.length ≤ earlier.length := by
  constructor
  · intro h
    refine ⟨eq_append_of_cut? h, ?_⟩
    rintro earlier later rfl
    obtain ⟨b, r, hcut, hle⟩ := cut?_of_append sep earlier later
    rw [h] at hcut
    cases hcut
    exact hle
  · rintro ⟨hs, hfirst⟩
    obtain ⟨b, r, hcut, hle⟩ := cut?_of_append sep before rest
    rw [← hs] at hcut
    have hcat := eq_append_of_cut? hcut
    have hlen : b.length = before.length := le_antisymm hle (hfirst b r hcat)
    rw [hs, List.append_assoc, List.append_assoc] at hcat
    obtain ⟨rfl, htail⟩ := List.append_inj hcat hlen.symm
    rw [hcut, List.append_cancel_left htail]

theorem cut?_singleton {c : Char} {before : Text} (h : c ∉ before) (rest : Text) :
    cut? [c] (before ++ c :: rest) = some (before, rest) := by
  induction before with
  | nil => simp [cut?, after?]
  | cons d before ih =>
    rw [List.mem_cons, not_or] at h
    simp [cut?, after?, h.1, ih h.2]

theorem not_mem_of_cut?_singleton {c : Char} {s before rest : Text}
    (h : cut? [c] s = some (before, rest)) : c ∉ before := by
  intro hmem
  obtain ⟨earlier, later, rfl⟩ := List.append_of_mem hmem
  obtain ⟨hs, hfirst⟩ := cut?_eq_some_iff.mp h
  have hle := hfirst earlier (later ++ [c] ++ rest) (by rw [hs]; simp)
  rw [List.length_append, List.length_cons] at hle
  omega

/-! ## Pieces -/

theorem pieces_eq_splitOnP (isSeparator : Char → Bool) (s : Text) :
    pieces isSeparator s = s.splitOnP isSeparator := by
  induction s with
  | nil => rfl
  | cons c s ih =>
    rw [List.splitOnP_cons_eq_if_modifyHead, ← ih]
    rfl

theorem pieces_eq_splitOn (c : Char) (s : Text) : pieces (· == c) s = s.splitOn c :=
  pieces_eq_splitOnP _ s

theorem pieces_ne_nil (isSeparator : Char → Bool) (s : Text) : pieces isSeparator s ≠ [] := by
  rw [pieces_eq_splitOnP]
  exact List.splitOnP_ne_nil _ _

/-- Texts with separators between them are split at these. -/
theorem pieces_intercalate {c : Char} {parts : List Text} (hne : parts ≠ [])
    (h : ∀ part ∈ parts, c ∉ part) : pieces (· == c) ([c].intercalate parts) = parts := by
  rw [pieces_eq_splitOn]
  exact List.splitOn_intercalate c h hne

theorem pieces_of_cut? {c : Char} {s before rest : Text} (h : cut? [c] s = some (before, rest)) :
    pieces (· == c) s = before :: pieces (· == c) rest := by
  rw [eq_append_of_cut? h, List.append_assoc, List.singleton_append, pieces_eq_splitOn,
    pieces_eq_splitOn]
  exact List.splitOn_append_cons_self_of_not_mem (not_mem_of_cut?_singleton h) rest

theorem pieces_of_cut?_eq_none {c : Char} {s : Text} (h : cut? [c] s = none) :
    pieces (· == c) s = [s] := by
  rw [pieces_eq_splitOn]
  refine List.splitOn_eq_singleton fun hmem => ?_
  obtain ⟨before, rest, rfl⟩ := List.append_of_mem hmem
  obtain ⟨b, r, hcut, -⟩ := cut?_of_append [c] before rest
  rw [List.append_assoc, List.singleton_append, h] at hcut
  cases hcut

/-! ## Doubling -/

@[simp] theorem double_nil (c : Char) : double c [] = [] := rfl

theorem double_cons (c d : Char) (s : Text) :
    double c (d :: s) = (if d = c then [c, c] else [d]) ++ double c s := rfl

theorem double_append (c : Char) (s t : Text) : double c (s ++ t) = double c s ++ double c t :=
  List.flatMap_append

theorem length_double (c : Char) (s : Text) : (double c s).length = s.length + s.count c := by
  induction s with
  | nil => rfl
  | cons d s ih =>
    rw [double_cons, List.length_append, ih, List.count_cons, List.length_cons]
    by_cases h : d = c
    · simp only [h, if_true, beq_self_eq_true, List.length_cons, List.length_nil]
      omega
    · simp only [h, if_false, beq_iff_eq, List.length_cons, List.length_nil]
      omega

/-- Doubling leaves exactly the texts without the character as they are. -/
theorem double_eq_self_iff {c : Char} {s : Text} : double c s = s ↔ c ∉ s := by
  constructor
  · intro h
    have hlength := length_double c s
    rw [h] at hlength
    exact List.count_eq_zero.mp (by omega)
  · intro h
    induction s with
    | nil => rfl
    | cons d s ih =>
      rw [List.mem_cons, not_or] at h
      rw [double_cons, ih h.2, if_neg (Ne.symm h.1)]
      rfl

theorem mem_double {c d : Char} {s : Text} : d ∈ double c s ↔ d ∈ s := by
  induction s with
  | nil => rfl
  | cons e s ih =>
    rw [double_cons, List.mem_append, ih, List.mem_cons]
    by_cases h : e = c <;> simp [h]

theorem head?_double (c : Char) (s : Text) : (double c s).head? = s.head? := by
  cases s with
  | nil => rfl
  | cons d s =>
    rw [double_cons]
    by_cases h : d = c <;> simp [h]

theorem double_ne_nil (c : Char) {s : Text} (h : s ≠ []) : double c s ≠ [] := by
  rwa [ne_eq, ← List.head?_eq_none_iff, head?_double, List.head?_eq_none_iff]

theorem getLast?_double (c : Char) (s : Text) : (double c s).getLast? = s.getLast? := by
  induction s using List.reverseRecOn with
  | nil => rfl
  | append_singleton s d ih =>
    rw [double_append, double_cons, double_nil, List.append_nil]
    by_cases h : d = c <;> simp [h]

theorem trim_double (c : Char) {s : Text} (h : trim s = s) : trim (double c s) = double c s := by
  rw [trim_eq_self_iff, head?_double, getLast?_double]
  exact trim_eq_self_iff.mp h

/-! ## Sizes and positions -/

theorem byteSize_append (s t : Text) : byteSize (s ++ t) = byteSize s + byteSize t := by
  induction s with
  | nil => exact (Nat.zero_add _).symm
  | cons c s ih =>
    show c.utf8Size + byteSize (s ++ t) = c.utf8Size + byteSize s + byteSize t
    rw [ih, Nat.add_assoc]

theorem byteSize_lt_of_isPrefix {s t : Text} (h : s <+: t) (hne : s ≠ t) : byteSize s < byteSize t := by
  obtain ⟨rest, rfl⟩ := h
  cases rest with
  | nil => exact absurd (List.append_nil s).symm hne
  | cons c rest =>
    have hc : 0 < c.utf8Size := c.utf8Size_pos
    have hrest : byteSize (c :: rest) = c.utf8Size + byteSize rest := rfl
    rw [byteSize_append, hrest]
    omega

/-- The position in a text at which `rest` is left of it, in bytes. -/
def position (s rest : Text) : Nat := byteSize s - byteSize rest

theorem position_append (before rest : Text) : position (before ++ rest) rest = byteSize before := by
  rw [position, byteSize_append, Nat.add_sub_cancel]

/-! ## Numerals -/

/-- A text is the decimal numeral of a number, possibly with zeros before it. -/
inductive Numeral : Text → Nat → Prop
  | digit {d : Nat} (hd : d < 10) : Numeral [d.digitChar] d
  | snoc {s : Text} {n d : Nat} (hs : Numeral s n) (hd : d < 10) :
      Numeral (s ++ [d.digitChar]) (10 * n + d)

/-- A text denotes a number: it is a numeral of it, or a plus sign and a numeral. -/
def Denotes (s : Text) (n : Nat) : Prop :=
  Numeral s n ∨ ∃ digits, s = '+' :: digits ∧ Numeral digits n

theorem isDigit_iff {c : Char} : c.isDigit ↔ ∃ d < 10, c = d.digitChar := by
  constructor
  · intro h
    obtain ⟨hlow, hhigh⟩ := Char.isDigit_iff_toNat.mp h
    have hlow : 48 ≤ c.toNat := hlow
    have hhigh : c.toNat ≤ 57 := hhigh
    refine ⟨c.toNat - 48, by omega, ?_⟩
    have hnat := Nat.toNat_digitChar_of_lt_ten (n := c.toNat - 48) (by omega)
    exact Char.toNat_inj.mp (by omega)
  · rintro ⟨d, hd, rfl⟩
    rw [Nat.isDigit_digitChar]
    exact decide_eq_true hd

/-- What a text denotes if all its characters are digits. -/
theorem numeral_iff {s : Text} {n : Nat} : Numeral s n ↔ s ≠ [] ∧ s.all Char.isDigit ∧
    s.foldl (fun n c => 10 * n + (c.toNat - '0'.toNat)) 0 = n := by
  have hvalue {d : Nat} (hd : d < 10) : d.digitChar.toNat - '0'.toNat = d :=
    Nat.toNat_digitChar_sub_48_of_lt_ten hd
  constructor
  · intro h
    induction h with
    | digit hd => exact ⟨nofun, by simpa using isDigit_iff.mpr ⟨_, hd, rfl⟩, by simpa using hvalue hd⟩
    | snoc hs hd ih =>
      obtain ⟨-, hall, rfl⟩ := ih
      refine ⟨by simp, ?_, ?_⟩
      · rw [List.all_append, hall]
        simpa using isDigit_iff.mpr ⟨_, hd, rfl⟩
      · rw [List.foldl_append, List.foldl_cons, List.foldl_nil, hvalue hd]
  · rintro ⟨hne, hall, rfl⟩
    induction s using List.reverseRecOn with
    | nil => exact absurd rfl hne
    | append_singleton s c ih =>
      simp only [List.all_append, List.all_cons, List.all_nil, Bool.and_true, Bool.and_eq_true] at hall
      obtain ⟨d, hd, rfl⟩ := isDigit_iff.mp hall.2
      rw [List.foldl_append, List.foldl_cons, List.foldl_nil, hvalue hd]
      cases s with
      | nil => simpa using Numeral.digit hd
      | cons e s => exact .snoc (ih nofun hall.1) hd

/-- **A number is read off exactly the texts that denote it.** -/
theorem toNat?_eq_some_iff {s : Text} {n : Nat} : toNat? s = some n ↔ Denotes s n := by
  have hread (digits : Text) : (if digits ≠ [] ∧ digits.all Char.isDigit then
      some (digits.foldl (fun n c => 10 * n + (c.toNat - '0'.toNat)) 0) else none) = some n ↔
      Numeral digits n := by
    simp only [Option.ite_none_right_eq_some, Option.some.injEq, and_assoc, numeral_iff]
  cases hplus : after? ['+'] s with
  | some digits =>
    obtain rfl : s = '+' :: digits := after?_eq_some_iff.mp hplus
    have hnot : ¬Numeral ('+' :: digits) n := fun h => absurd (numeral_iff.mp h).2.1 (by simp +decide)
    rw [toNat?, hplus, Option.getD_some, hread]
    simp [Denotes, hnot]
  | none =>
    have hnot (digits : Text) : s ≠ '+' :: digits := by
      rintro rfl
      cases hplus.symm.trans (after?_append ['+'] digits)
    rw [toNat?, hplus, Option.getD_none, hread]
    simp [Denotes, hnot]

/-! ## Stretches -/

/-- A stretch of a text, by what is left of the text where the stretch begins and after it. -/
structure Stretch where
  start : Text
  rest : Text
deriving DecidableEq

/-- A stretch begins inside another one of the same text, after the first character of that. -/
def Stretch.BeginsIn (a b : Stretch) : Prop :=
  b.rest.length < a.start.length ∧ a.start.length < b.start.length

instance (a b : Stretch) : Decidable (a.BeginsIn b) := inferInstanceAs (Decidable (_ ∧ _))

/-- None of the stretches `as` begins inside one of the stretches `bs`. -/
def Stretch.NoneBeginsIn (as bs : List Stretch) : Prop := ∀ a ∈ as, ∀ b ∈ bs, ¬a.BeginsIn b

instance (as bs : List Stretch) : Decidable (Stretch.NoneBeginsIn as bs) :=
  inferInstanceAs (Decidable (∀ a ∈ as, ∀ b ∈ bs, ¬a.BeginsIn b))

theorem Stretch.noneBeginsIn_cons_left {a : Stretch} {as bs : List Stretch} :
    NoneBeginsIn (a :: as) bs ↔ (∀ b ∈ bs, ¬a.BeginsIn b) ∧ NoneBeginsIn as bs :=
  List.forall_mem_cons

theorem Stretch.noneBeginsIn_cons_right {b : Stretch} {as bs : List Stretch} :
    NoneBeginsIn as (b :: bs) ↔ (∀ a ∈ as, ¬a.BeginsIn b) ∧ NoneBeginsIn as bs := by
  simp only [NoneBeginsIn, List.forall_mem_cons]
  exact forall₂_and

end Stencil.Text
