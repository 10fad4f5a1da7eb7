import Stencil.Proofs.Node.Marks
import Stencil.Proofs.Subview.Calls

/-!
# Where calls of subviews stand

`calls` are the stretches of a source that are compiled as calls of subviews; without any, a source stays
as it is (`compileCalls_eq_self_iff`). A text is compiled character by character up to the first of them
(`compileCalls_append_cases`). Around the name of a view,
a call has no character that means anything in compiled text (`around_of_call?`), and so compiling calls
neither adds nor takes away a brace that closes an expression (`expression?_compileCalls_eq_none_iff`).
-/

namespace Stencil.Subview

/-! ## What stands around a name -/

/-- A character by which no mark of an interpolation begins or ends. -/
def Neutral (c : Char) : Prop := c ∉ ['#', '!', '{', '}']

instance : DecidablePred Neutral := fun _ => inferInstanceAs (Decidable (_ ∉ _))

theorem neutral_of_class {p : Char → Bool} (hp : ['#', '!', '{', '}'].all fun c => !p c)
    {run : Text} (hrun : ∀ c ∈ run, p c) : ∀ c ∈ run, Neutral c := by
  intro c hc hmem
  have hnot := List.all_eq_true.mp hp c hmem
  rw [hrun c hc] at hnot
  cases hnot

theorem not_mem_of_neutral {s : Text} (h : ∀ c ∈ s, Neutral c) {c : Char} (hc : ¬Neutral c) :
    c ∉ s :=
  fun hmem => hc (h c hmem)

/-- An argument stands in a text between neutral characters, before the rest of the text. -/
def Around (s arg rest : Text) : Prop :=
  ∃ before after, s = before ++ arg ++ after ++ rest ∧ (∀ c ∈ before, Neutral c) ∧
    ∀ c ∈ after, Neutral c

theorem Around.append {s arg rest : Text} (h : Around s arg rest) (lead : Text)
    (hlead : ∀ c ∈ lead, Neutral c) : Around (lead ++ s) arg rest := by
  obtain ⟨before, after, rfl, hbefore, hafter⟩ := h
  exact ⟨lead ++ before, after, by simp only [List.append_assoc],
    List.forall_mem_append.mpr ⟨hlead, hbefore⟩, hafter⟩

theorem Around.rest {s arg rest rest' trail : Text} (h : Around s arg rest)
    (hrest : rest = trail ++ rest') (htrail : ∀ c ∈ trail, Neutral c) : Around s arg rest' := by
  obtain ⟨before, after, rfl, hbefore, hafter⟩ := h
  exact ⟨before, after ++ trail, by simp only [hrest, List.append_assoc], hbefore,
    List.forall_mem_append.mpr ⟨hafter, htrail⟩⟩

theorem around_of_saysArgument {written arg : Text} (h : Call.SaysArgument written arg)
    (rest : Text) : Around (written ++ rest) arg rest := by
  cases h with
  | @quoted q body quote inside line =>
    have hquote : Neutral q := by rcases quote with rfl | rfl <;> decide
    obtain ⟨before, after, hbody, hblank⟩ := Text.eq_append_trim body
    obtain ⟨hbefore, hafter⟩ := List.forall_mem_append.mp (neutral_of_class (by decide) hblank)
    refine ⟨q :: before, after ++ [q], ?_, by simpa [hquote] using hbefore,
      List.forall_mem_append.mpr ⟨hafter, by simpa using hquote⟩⟩
    nth_rewrite 1 [hbody]
    simp
  | word nonempty word => exact ⟨[], [], by simp, by simp, by simp⟩

theorem around_of_name? {s name rest : Text} (h : name? s = some (name, rest)) :
    Around s name (')' :: rest) := by
  have hread : Call.read? s = some ([name], rest) := by
    simp only [name?] at h
    split at h
    · next hr =>
      split at h
      · cases h
      · cases h
        exact hr
    · cases h
  obtain ⟨call, rfl, hcall⟩ := Call.read?_eq_some_iff.mp hread
  cases hcall with
  | @mk space inner _ hspace arguments =>
    cases arguments with
    | @last lead written trail _ hlead argument htrail =>
      have hargument := (around_of_saysArgument argument (trail ++ ')' :: rest)).rest rfl
        (neutral_of_class (by decide) htrail)
      have hlist := (hargument.append lead (neutral_of_class (by decide) hlead)).append ['(']
        (by simp [Neutral])
      simpa using hlist.append space (neutral_of_class (by decide) hspace)
    | more _ _ _ others => exact absurd rfl others.ne_nil

/-! ## Calls -/

/-- Reads the call of a subview at the beginning of a text. -/
def call? (s : Text) : Option (Text × Text) := (Text.after? keyword s).bind name?

theorem call?_eq_some_iff {s name rest : Text} :
    call? s = some (name, rest) ↔
      ∃ called, s = keyword ++ called ∧ name? called = some (name, rest) := by
  rw [call?, Option.bind_eq_some_iff]
  simp only [Text.after?_eq_some_iff]

theorem length_of_call? {s name rest : Text} (h : call? s = some (name, rest)) :
    rest.length < s.length := by
  obtain ⟨called, rfl, hname⟩ := call?_eq_some_iff.mp h
  have := length_of_name? hname
  rw [List.length_append]
  omega

theorem eq_cons_of_call? {s name rest : Text} (h : call? s = some (name, rest)) :
    ∃ s', s = '@' :: s' := by
  obtain ⟨called, rfl, -⟩ := call?_eq_some_iff.mp h
  exact ⟨_, rfl⟩

theorem call?_of_ne {c : Char} (hc : c ≠ '@') (s : Text) : call? (c :: s) = none := by
  rw [Option.eq_none_iff_forall_ne_some]
  intro found h
  obtain ⟨s', hs⟩ := eq_cons_of_call? h
  exact hc (List.cons.inj hs).1

/-- The keyword, the parentheses and all else around the name of a call is neutral. -/
theorem around_of_call? {s name rest : Text} (h : call? s = some (name, rest)) :
    Around s name (')' :: rest) := by
  obtain ⟨called, rfl, hname⟩ := call?_eq_some_iff.mp h
  exact (around_of_name? hname).append keyword (by simp [keyword, Neutral])

/-- The stretches of a source that are calls of subviews. -/
def calls (s : Text) : List Text.Stretch :=
  match h : call? s with
  | some (_, rest) =>
    have _ := length_of_call? h
    ⟨s, rest⟩ :: calls rest
  | none =>
    match s with
    | [] => []
    | _ :: s => calls s
termination_by s.length
decreasing_by
  · assumption
  · exact Nat.lt_succ_self _

theorem calls_of_call? {s name rest : Text} (h : call? s = some (name, rest)) :
    calls s = ⟨s, rest⟩ :: calls rest := by
  rw [calls]
  split
  · next h' => cases h.symm.trans h'; rfl
  · next h' => cases h.symm.trans h'

theorem calls_cons {c : Char} {s : Text} (h : call? (c :: s) = none) : calls (c :: s) = calls s := by
  rw [calls]
  split
  · next h' => cases h.symm.trans h'
  · rfl

theorem calls_append_of_not_mem {s : Text} (h : '@' ∉ s) (t : Text) : calls (s ++ t) = calls t := by
  induction s with
  | nil => rfl
  | cons c s ih =>
    rw [List.mem_cons, not_or] at h
    rw [List.cons_append, calls_cons (call?_of_ne (Ne.symm h.1) _), ih h.2]

theorem length_le_of_mem_calls {s : Text} {call : Text.Stretch} (h : call ∈ calls s) :
    call.start.length ≤ s.length := by
  fun_induction calls s with
  | case1 s name rest _ hlength ih =>
    rcases List.mem_cons.mp h with rfl | h
    · exact le_refl _
    · exact (ih h).trans hlength.le
  | case2 => cases h
  | case3 c s _ ih => exact (ih h).trans (Nat.le_succ _)

/-! ## Compiling calls, step by step -/

theorem compileCalls_of_call? {s name rest : Text} (h : call? s = some (name, rest)) :
    compileCalls s = mark ++ name ++ ']' :: compileCalls rest := by
  obtain ⟨called, rfl, hname⟩ := call?_eq_some_iff.mp h
  exact compileCalls_of_name? hname

theorem compileCalls_append_of_not_mem {s : Text} (h : '@' ∉ s) (t : Text) :
    compileCalls (s ++ t) = s ++ compileCalls t := by
  induction s with
  | nil => rfl
  | cons c s ih =>
    rw [List.mem_cons, not_or] at h
    rw [List.cons_append, compileCalls_cons, ih h.2, List.cons_append]
    simp [keyword, Text.after?, h.1]

/-- A character with which no call begins stays as it is, also where the keyword stands. -/
theorem compileCalls_cons_of_call? {c : Char} {s : Text} (h : call? (c :: s) = none) :
    compileCalls (c :: s) = c :: compileCalls s := by
  cases hk : Text.after? keyword (c :: s) with
  | none => exact compileCalls_cons hk
  | some called =>
    have hname : name? called = none := by
      rwa [call?, hk, Option.bind_some] at h
    obtain ⟨rfl, rfl⟩ : c = '@' ∧ s = ['i', 'n', 'c', 'l', 'u', 'd', 'e'] ++ called :=
      List.cons.inj (Text.after?_eq_some_iff.mp hk)
    rw [compileCalls_append_of_not_mem (by decide)]
    exact compileCalls_of_name?_none hname

/-- **Compiling leaves exactly the sources without calls as they are.** -/
theorem compileCalls_eq_self_iff (s : Text) : compileCalls s = s ↔ calls s = [] := by
  fun_induction calls s with
  | case1 s name rest h _ _ =>
    obtain ⟨s', rfl⟩ := eq_cons_of_call? h
    rw [compileCalls_of_call? h]
    exact iff_of_false (by simp [mark]) (by simp)
  | case2 => exact iff_of_true compileCalls_nil rfl
  | case3 c s h ih => rw [compileCalls_cons_of_call? h, List.cons_inj_right, ih]

/-- Either no call begins in a text, or a first one does. -/
theorem compileCalls_append_cases (s t : Text) :
    (compileCalls (s ++ t) = s ++ compileCalls t ∧ calls (s ++ t) = calls t) ∨
      ∃ before called name rest, s ++ t = before ++ called ∧ before.length < s.length ∧
        call? called = some (name, rest) ∧ compileCalls (s ++ t) = before ++ compileCalls called ∧
        calls (s ++ t) = calls called := by
  induction s with
  | nil => exact .inl ⟨rfl, rfl⟩
  | cons c s ih =>
    cases hcall : call? (c :: (s ++ t)) with
    | some found =>
      exact .inr ⟨[], _, _, _, rfl, Nat.succ_pos _, hcall, rfl, rfl⟩
    | none =>
      rw [List.cons_append, compileCalls_cons_of_call? hcall, calls_cons hcall]
      rcases ih with
        ⟨hcompile, hcalls⟩ | ⟨before, called, name, rest, hs, hlt, hfound, hcompile, hcalls⟩
      · exact .inl ⟨by rw [hcompile]; rfl, hcalls⟩
      · refine .inr ⟨c :: before, called, name, rest, by rw [hs]; rfl, Nat.succ_lt_succ hlt, hfound,
          ?_, hcalls⟩
        rw [hcompile]
        rfl

/-! ## Braces -/

theorem head?_compileCalls {s : Text} (h : s.head? ≠ some '}') :
    (compileCalls s).head? ≠ some '}' := by
  cases s with
  | nil => rwa [compileCalls_nil]
  | cons c s =>
    cases hcall : call? (c :: s) with
    | some found =>
      rw [compileCalls_of_call? hcall]
      simp [mark]
    | none =>
      rw [compileCalls_cons_of_call? hcall]
      exact h

/-- Compiling calls leaves as many closing braces as there were. -/
theorem expression?_compileCalls_eq_none_iff (s : Text) :
    Node.expression? (compileCalls s) = none ↔ Node.expression? s = none := by
  induction hn : s.length using Nat.strong_induction_on generalizing s with
  | _ n ih =>
    subst hn
    cases s with
    | nil => rw [compileCalls_nil]
    | cons c s =>
      cases hcall : call? (c :: s) with
      | some found =>
        obtain ⟨name, rest⟩ := found
        obtain ⟨before, after, hs, hbefore, hafter⟩ := around_of_call? hcall
        have hcompiled : Node.expression? (mark ++ name ++ [] ++ ']' :: compileCalls rest) = none ↔
            Node.expression? name = none ∧ Node.expression? (compileCalls rest) = none :=
          Node.expression?_around_eq_none_iff (by decide) List.not_mem_nil (by decide)
        rw [List.append_nil] at hcompiled
        rw [compileCalls_of_call? hcall, hs, hcompiled, ih _ (length_of_call? hcall) rest rfl,
          Node.expression?_around_eq_none_iff (not_mem_of_neutral hbefore (by decide))
            (not_mem_of_neutral hafter (by decide)) (by decide)]
      | none =>
        rw [compileCalls_cons_of_call? hcall]
        by_cases hc : c = '}'
        · subst hc
          by_cases hhead : s.head? = some '}'
          · -- two braces close nothing
            obtain ⟨s, rfl⟩ := List.head?_eq_some_iff.mp hhead
            rw [compileCalls_cons_of_call? (call?_of_ne (by decide) s)]
            simp only [Node.expression?, Option.map_eq_none_iff]
            exact ih _ (by simp only [List.length_cons]; omega) s rfl
          · have hcloses (t : Text) (ht : t.head? ≠ some '}') :
                Node.expression? ('}' :: t) = some ([], t) := Node.expression?_double ht []
            rw [hcloses s hhead, hcloses _ (head?_compileCalls hhead)]
            simp
        · rw [Node.expression?_cons_eq_none_iff hc, Node.expression?_cons_eq_none_iff hc]
          exact ih _ (Nat.lt_succ_self _) s rfl

end Stencil.Subview
