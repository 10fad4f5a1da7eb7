import Stencil.Host.Pipeline
import Stencil.Options
import Stencil.Proofs.Action
import Stencil.Proofs.Call.Grammar
import Stencil.Proofs.Segment.Reading

/-!
# Names in calls of subviews

The name of a view stands in a source between quotes, and in compiled text before the first closing
bracket. Nothing protects it on the way: the step that compiles interpolations doubles the hash signs
in it as in any other text, and a closing bracket in it ends it. So a call names the view that it says
exactly if the name has neither (`ofCompiled_call_iff`).
-/

namespace Stencil

namespace Subview

/-- The call of a view, as it stands in a source. -/
def call (name : Text) : Text := keyword ++ '(' :: '\'' :: name ++ ['\'', ')']

/-! ## Reading a call -/

theorem read?_quoted {name : Text} (hquote : '\'' ∉ name) (hline : '\n' ∉ name) (rest : Text) :
    Call.read? ('(' :: '\'' :: name ++ '\'' :: ')' :: rest) = some ([Text.trim name], rest) := by
  have hargument : Call.SaysArgument ('\'' :: (name ++ ['\''])) (Text.trim name) :=
    .quoted (.inl rfl) hquote hline
  simpa using Call.read?_append (Call.SaysArguments.single hargument).call rest

theorem name?_quoted {name : Text} (hblank : Text.trim name ≠ []) (hquote : '\'' ∉ name)
    (hline : '\n' ∉ name) (rest : Text) :
    name? ('(' :: '\'' :: name ++ '\'' :: ')' :: rest) = some (Text.trim name, rest) := by
  rw [name?, read?_quoted hquote hline]
  exact if_neg hblank

/-! ## Compiling calls -/

theorem compileCalls_nil : compileCalls [] = [] := by
  rw [compileCalls]
  rfl

theorem compileCalls_cons {c : Char} {s : Text} (h : Text.after? keyword (c :: s) = none) :
    compileCalls (c :: s) = c :: compileCalls s := by
  rw [compileCalls]
  split
  · next called hk => rw [h] at hk; cases hk
  · rfl

theorem compileCalls_of_name? {called name rest : Text} (h : name? called = some (name, rest)) :
    compileCalls (keyword ++ called) = mark ++ name ++ ']' :: compileCalls rest := by
  rw [compileCalls]
  split
  · next called' hk =>
    rw [Text.after?_append] at hk
    cases hk
    split
    · next name' rest' hn =>
      rw [h] at hn
      cases hn
      rfl
    · next hn => rw [h] at hn; cases hn
  · next hk => rw [Text.after?_append] at hk; cases hk

theorem compileCalls_of_name?_none {called : Text} (h : name? called = none) :
    compileCalls (keyword ++ called) = keyword ++ compileCalls called := by
  rw [compileCalls]
  split
  · next called' hk =>
    rw [Text.after?_append] at hk
    cases hk
    split
    · next name rest hn => rw [h] at hn; cases hn
    · rfl
  · next hk => rw [Text.after?_append] at hk; cases hk

/-- A call is compiled to its name between the marks. -/
theorem compileCalls_call {name : Text} (hblank : Text.trim name ≠ []) (hquote : '\'' ∉ name)
    (hline : '\n' ∉ name) (rest : Text) :
    compileCalls (call name ++ rest) = mark ++ Text.trim name ++ ']' :: compileCalls rest := by
  rw [← compileCalls_of_name? (name?_quoted hblank hquote hline rest)]
  congr 1
  simp [call]

/-- A text without hash signs that stands in doubled text stands in the text itself, unless it reaches
over an at sign that follows. -/
theorem isPrefix_of_isPrefix_double {lead s rest : Text} (hhash : '#' ∉ lead) (hat : '@' ∉ lead)
    (hrest : ∀ c ∈ rest.head?, c = '@') (h : lead <+: Text.double '#' s ++ rest) : lead <+: s := by
  induction lead generalizing s with
  | nil => exact List.nil_prefix
  | cons d lead ih =>
    rw [List.mem_cons, not_or] at hhash hat
    cases s with
    | nil =>
      -- here the text would begin with the at sign
      obtain ⟨more, heq⟩ := h
      have hd : d = '@' := hrest d (by rw [← List.nil_append rest, ← Text.double_nil '#', ← heq]; rfl)
      exact absurd hd.symm hat.1
    | cons c s =>
      rw [Text.double_cons] at h
      by_cases hc : c = '#'
      · rw [if_pos hc] at h
        exact absurd (List.cons_prefix_cons.mp h).1.symm hhash.1
      · rw [if_neg hc] at h
        obtain ⟨rfl, hlead⟩ := List.cons_prefix_cons.mp h
        exact List.cons_prefix_cons.mpr ⟨rfl, ih hhash.2 hat.2 hlead⟩

/-- Text without the keyword is compiled to itself. -/
theorem compileCalls_double {s rest : Text} (h : ¬keyword <:+: s)
    (hrest : ∀ c ∈ rest.head?, c = '@') :
    compileCalls (Text.double '#' s ++ rest) = Text.double '#' s ++ compileCalls rest := by
  induction s with
  | nil => rfl
  | cons c s ih =>
    have htail := ih fun hin => h (hin.trans (List.suffix_cons c s).isInfix)
    have hnone (d : Char) (t : Text) (hd : d ≠ '@') : Text.after? keyword (d :: t) = none := by
      simp [keyword, Text.after?, Ne.symm hd]
    rw [Text.double_cons]
    by_cases hhash : c = '#'
    · rw [if_pos hhash]
      show compileCalls ('#' :: '#' :: (Text.double '#' s ++ rest)) = _
      rw [compileCalls_cons (hnone _ _ (by decide)), compileCalls_cons (hnone _ _ (by decide)), htail]
      rfl
    · rw [if_neg hhash]
      show compileCalls (c :: (Text.double '#' s ++ rest)) = _
      rw [compileCalls_cons, htail]
      · rfl
      · cases hk : Text.after? keyword (c :: (Text.double '#' s ++ rest)) with
        | none => rfl
        | some called =>
          obtain ⟨hat, hlead⟩ :
              '@' = c ∧ ['i', 'n', 'c', 'l', 'u', 'd', 'e'] <+: Text.double '#' s ++ rest :=
            List.cons_prefix_cons.mp ⟨called, (Text.after?_eq_some_iff.mp hk).symm⟩
          have hs := isPrefix_of_isPrefix_double (by decide) (by decide) hrest hlead
          exact absurd (List.cons_prefix_cons.mpr ⟨hat, hs⟩).isInfix h

theorem compileCalls_of_absent {s : Text} (h : ¬keyword <:+: s) :
    compileCalls (Text.double '#' s) = Text.double '#' s := by
  have hempty : compileCalls (Text.double '#' s ++ []) = _ := compileCalls_double h nofun
  rwa [compileCalls_nil, List.append_nil] at hempty

end Subview

namespace Node

/-- Literal text as nodes: one, or none if it is empty. -/
def ofText (s : Text) : List Node := if s = [] then [] else [.text s]

theorem prependText_of_separate {nodes : List Node} (h : ∀ t, nodes.head? ≠ some (.text t))
    (s : Text) : prependText s nodes = ofText s ++ nodes := by
  cases s with
  | nil => rfl
  | cons c s => exact prependText_cons_of_separate h

theorem ofCompiled_text (s : Text) : ofCompiled (Text.double '#' s) = ofText s := by
  have hdouble := ofCompiled_double s []
  rw [List.append_nil, ofCompiled] at hdouble
  rw [hdouble, prependText_of_separate (by simp), List.append_nil]

/-- Literal text around the compiled call of a name is read as it was, and so is the name unless a
closing bracket stands in it. -/
theorem ofCompiled_call {name : Text} (hne : name ≠ []) (htrim : Text.trim name = name)
    (hbracket : ']' ∉ name) (before after : Text) :
    ofCompiled (Text.double '#' before ++ (Subview.mark ++ name ++ ']' :: Text.double '#' after)) =
      ofText before ++ .subview name :: ofText after := by
  have hcall := ofCompiled_subview ⟨hne, htrim, hbracket⟩ (Text.double '#' after)
  rw [print, List.append_assoc _ [']']] at hcall
  rw [ofCompiled_double, ← List.singleton_append, hcall, ofCompiled_text,
    prependText_of_separate (by simp)]

end Node

/-! ## The name that a call says -/

theorem Pipeline.compile_ofTags (tags : Tags) (s : Text) :
    (ofTags tags).compile s = .ok (Subview.compileCalls (Segment.compileEchos tags s)) := rfl

/-- The compiled form of a call between literal texts. The hash signs of the name are doubled too. -/
theorem Subview.compile_call {tags : Tags} {before name after : Text} (hne : name ≠ [])
    (htrim : Text.trim name = name) (hquote : '\'' ∉ name) (hline : '\n' ∉ name)
    (hbefore : ¬keyword <:+: before) (hafter : ¬keyword <:+: after)
    (htags : ∀ flavor, ¬(tags.get flavor).opening <:+: before ++ call name ++ after) :
    (Pipeline.ofTags tags).compile (before ++ call name ++ after) =
      .ok (Text.double '#' before ++
        (mark ++ Text.double '#' name ++ ']' :: Text.double '#' after)) := by
  have hdouble : Text.double '#' (call name) = call (Text.double '#' name) := by
    simp only [call, keyword, Text.double_append, Text.double_cons, Text.double_nil]
    rfl
  have htrim' := Text.trim_double '#' htrim
  have hblank : Text.trim (Text.double '#' name) ≠ [] := by
    rw [htrim']
    exact Text.double_ne_nil '#' hne
  have hcall := compileCalls_call hblank (by rwa [Text.mem_double]) (by rwa [Text.mem_double])
    (Text.double '#' after)
  rw [Pipeline.compile_ofTags, Segment.compileEchos_of_absent htags, Text.double_append,
    Text.double_append, hdouble, List.append_assoc, compileCalls_double hbefore, hcall, htrim',
    compileCalls_of_absent hafter]
  rintro c hc
  exact (Option.some.inj hc).symm

/-- **A call names the view that it says exactly if the name has neither a hash sign nor a closing
bracket**, whatever literal text stands around the call. -/
theorem ofCompiled_call_iff {tags : Tags} {before name after : Text} (hne : name ≠ [])
    (htrim : Text.trim name = name) (hquote : '\'' ∉ name) (hline : '\n' ∉ name)
    (hbefore : ¬Subview.keyword <:+: before) (hafter : ¬Subview.keyword <:+: after)
    (htags : ∀ flavor, ¬(tags.get flavor).opening <:+: before ++ Subview.call name ++ after) :
    ∃ text, (Pipeline.ofTags tags).compile (before ++ Subview.call name ++ after) = .ok text ∧
      (Node.ofCompiled text = Node.ofText before ++ .subview name :: Node.ofText after ↔
        '#' ∉ name ∧ ']' ∉ name) := by
  refine ⟨_, Subview.compile_call hne htrim hquote hline hbefore hafter htags, ?_⟩
  constructor
  · intro heq
    -- names that are read have no closing bracket
    have hbracket : ']' ∉ name := by
      have hproper := (Node.normal_ofCompiled _).proper (.subview name) (by rw [heq]; simp)
      exact hproper.2.2
    rw [Node.ofCompiled_call (Text.double_ne_nil '#' hne) (Text.trim_double '#' htrim)
      (by rwa [Text.mem_double])] at heq
    have hname : Text.double '#' name = name := by simpa using heq
    exact ⟨Text.double_eq_self_iff.mp hname, hbracket⟩
  · rintro ⟨hhash, hbracket⟩
    rw [Text.double_eq_self_iff.mpr hhash]
    exact Node.ofCompiled_call hne htrim hbracket before after

/-- With the default tags, a name that holds the keyword, between a hash sign and a bracket. -/
theorem ofCompiled_call_keyword :
    let name := "a @include(b".toList
    name ≠ [] ∧ Text.trim name = name ∧ '\'' ∉ name ∧ '\n' ∉ name ∧
      ¬Subview.keyword <:+: ['#'] ∧ ¬Subview.keyword <:+: [']'] ∧
      (∀ flavor, ¬(({} : Options).tags.get flavor).opening <:+:
        ['#'] ++ Subview.call name ++ [']']) ∧
      ∃ text, (Pipeline.ofTags ({} : Options).tags).compile (['#'] ++ Subview.call name ++ [']']) =
          .ok text ∧
        Node.ofCompiled text = [.text ['#'], .subview name, .text [']']] := by
  intro name
  have hne : name ≠ [] := by decide +kernel
  have htrim : Text.trim name = name := by decide +kernel
  have hquote : '\'' ∉ name := by decide +kernel
  have hline : '\n' ∉ name := by decide +kernel
  have hbefore : ¬Subview.keyword <:+: ['#'] := by decide +kernel
  have hafter : ¬Subview.keyword <:+: [']'] := by decide +kernel
  have htags : ∀ flavor, ¬(({} : Options).tags.get flavor).opening <:+:
      ['#'] ++ Subview.call name ++ [']'] := by
    intro flavor
    cases flavor <;> decide +kernel
  obtain ⟨text, htext, hiff⟩ :=
    ofCompiled_call_iff hne htrim hquote hline hbefore hafter htags
  exact ⟨hne, htrim, hquote, hline, hbefore, hafter, htags, text, htext,
    hiff.mpr ⟨by decide +kernel, by decide +kernel⟩⟩

/-- With the default tags, the name `a]b` is read as `a`, and the name `a#b` with its hash sign twice,
although both are as a call can say them. -/
theorem ofCompiled_call_bracket :
    (∀ name ∈ ["a]b".toList, "a#b".toList], name ≠ [] ∧ Text.trim name = name ∧ '\'' ∉ name ∧
      '\n' ∉ name ∧ ∀ flavor, ¬(({} : Options).tags.get flavor).opening <:+: Subview.call name) ∧
      (Pipeline.ofTags ({} : Options).tags).compile (Subview.call "a]b".toList) =
        .ok "#[a]b]".toList ∧
      Node.ofCompiled "#[a]b]".toList = [.subview ['a'], .text ['b', ']']] ∧
      Node.ofCompiled "#[a]b]".toList ≠ [.subview "a]b".toList] ∧
      (Pipeline.ofTags ({} : Options).tags).compile (Subview.call "a#b".toList) =
        .ok "#[a##b]".toList ∧
      Node.ofCompiled "#[a##b]".toList = [.subview "a##b".toList] ∧
      Node.ofCompiled "#[a##b]".toList ≠ [.subview "a#b".toList] := by
  refine ⟨?_, by decide +kernel, by decide +kernel, by decide +kernel, by decide +kernel,
    by decide +kernel, by decide +kernel⟩
  intro name hname
  simp only [List.mem_cons, List.not_mem_nil, or_false] at hname
  rcases hname with rfl | rfl
  · refine ⟨by decide +kernel, by decide +kernel, by decide +kernel, by decide +kernel, ?_⟩
    intro flavor
    cases flavor <;> decide +kernel
  · refine ⟨by decide +kernel, by decide +kernel, by decide +kernel, by decide +kernel, ?_⟩
    intro flavor
    cases flavor <;> decide +kernel

end Stencil
