import Mathlib.Data.List.Chain
import Stencil.Proofs.Node.Expression

/-!
# Normal lists of nodes

Reading a compiled text gives a normal list of nodes: no text is empty, no two texts are neighbours,
expressions and names are trimmed and not empty, no name holds a closing bracket, and no text that
directly follows an expression begins with a closing brace (`normal_ofCompiled`). Printing a normal
list and reading it again gives the list (`ofCompiled_print`). So the normal lists are exactly what
reading gives (`exists_ofCompiled_iff_normal`).

The last condition is the one that printing alone does not secure: in `#{a}` followed by the text
`}`, the two closing braces are read as one brace of the expression.
-/

namespace Stencil.Node

/-! ## Normal lists -/

/-- The content of a node is as reading gives it. -/
def Proper : Node → Prop
  | .text s => s ≠ []
  | .echo _ expr => expr ≠ [] ∧ Text.trim expr = expr
  | .subview name => name ≠ [] ∧ Text.trim name = name ∧ ']' ∉ name

/-- Two neighbours are not both text. -/
def Separate : Node → Node → Prop
  | .text _, .text _ => False
  | _, _ => True

/-- Between two neighbours no closing brace follows an expression. -/
def Apart : Node → Node → Prop
  | .echo _ _, .text s => s.head? ≠ some '}'
  | _, _ => True

/-- The lists of nodes that reading gives. -/
structure Normal (nodes : List Node) : Prop where
  proper : ∀ node ∈ nodes, node.Proper
  separate : nodes.IsChain Separate
  apart : nodes.IsChain Apart

theorem normal_nil : Normal [] := ⟨by simp, .nil, .nil⟩

theorem Normal.tail {node : Node} {nodes : List Node} (h : Normal (node :: nodes)) :
    Normal nodes :=
  ⟨fun n hn => h.proper n (List.mem_cons_of_mem _ hn), h.separate.tail, h.apart.tail⟩

theorem Normal.cons {node : Node} {nodes : List Node} (hp : node.Proper)
    (hs : ∀ next ∈ nodes.head?, node.Separate next) (ha : ∀ next ∈ nodes.head?, node.Apart next)
    (h : Normal nodes) : Normal (node :: nodes) := by
  refine ⟨?_, List.isChain_cons.mpr ⟨hs, h.separate⟩, List.isChain_cons.mpr ⟨ha, h.apart⟩⟩
  intro n hn
  rcases List.mem_cons.mp hn with rfl | hn
  · exact hp
  · exact h.proper n hn

/-! ## Text before nodes -/

/-- Puts a text before nodes, as a part of the text with which they begin. -/
def prependText (s : Text) (nodes : List Node) : List Node := s.foldr prepend nodes

/-- The first node is text, and this is the character it begins with. -/
theorem head?_prepend (c : Char) (nodes : List Node) :
    ∃ s, (prepend c nodes).head? = some (.text (c :: s)) := by
  unfold prepend
  split
  · exact ⟨_, rfl⟩
  · exact ⟨[], rfl⟩

theorem prependText_cons_of_separate {c : Char} {s : Text} {nodes : List Node}
    (h : ∀ t, nodes.head? ≠ some (.text t)) :
    prependText (c :: s) nodes = .text (c :: s) :: nodes := by
  induction s generalizing c with
  | nil =>
    show prepend c nodes = _
    unfold prepend
    split
    · next t nodes' => exact absurd rfl (h t)
    · rfl
  | cons d s ih =>
    show prepend c (prependText (d :: s) nodes) = _
    rw [ih]
    rfl

theorem separate_prepend {c : Char} {nodes : List Node} (h : nodes.IsChain Separate) :
    (prepend c nodes).IsChain Separate := by
  unfold prepend
  split
  · next s nodes => exact List.isChain_cons.mpr ⟨fun next hn => by
      have := (List.isChain_cons.mp h).1 next hn
      cases next <;> trivial, h.tail⟩
  · next hne =>
    refine List.isChain_cons.mpr ⟨fun next hn => ?_, h⟩
    cases next with
    | text s =>
      obtain ⟨nodes', rfl⟩ := List.head?_eq_some_iff.mp hn
      exact absurd rfl (hne s nodes')
    | echo _ _ => trivial
    | subview _ => trivial

theorem proper_prepend {c : Char} {nodes : List Node} (h : ∀ node ∈ nodes, node.Proper) :
    ∀ node ∈ prepend c nodes, node.Proper := by
  unfold prepend
  split
  · next s nodes =>
    intro node hn
    rcases List.mem_cons.mp hn with rfl | hn
    · exact List.cons_ne_nil _ _
    · exact h node (List.mem_cons_of_mem _ hn)
  · intro node hn
    rcases List.mem_cons.mp hn with rfl | hn
    · exact List.cons_ne_nil _ _
    · exact h node hn

theorem apart_prepend {c : Char} {nodes : List Node} (h : nodes.IsChain Apart) :
    (prepend c nodes).IsChain Apart := by
  unfold prepend
  split
  · exact List.isChain_cons.mpr ⟨fun next _ => by cases next <;> trivial, h.tail⟩
  · exact List.isChain_cons.mpr ⟨fun next _ => by cases next <;> trivial, h⟩

theorem Normal.prepend {c : Char} {nodes : List Node} (h : Normal nodes) :
    Normal (prepend c nodes) :=
  ⟨proper_prepend h.proper, separate_prepend h.separate, apart_prepend h.apart⟩

/-! ## Reading gives normal lists -/

theorem marked?_cases {s rest : Text} {node : Node} (h : marked? s = some (node, rest)) :
    node.Proper ∧ (∀ t, node ≠ .text t) ∧
      ∀ flavor expr, node = .echo flavor expr → rest.head? ≠ some '}' := by
  have echo {flavor : Flavor} {s : Text} (h : echo? flavor s = some (node, rest)) :
      node.Proper ∧ (∀ t, node ≠ .text t) ∧
        ∀ flavor expr, node = .echo flavor expr → rest.head? ≠ some '}' := by
    obtain ⟨found, hf, h⟩ := Option.bind_eq_some_iff.mp h
    simp only at h
    split at h
    · cases h
    · next hne =>
      cases h
      exact ⟨⟨hne, Text.trim_trim _⟩, nofun, fun _ _ _ => head?_of_expression? hf⟩
  unfold marked? at h
  split at h
  · exact echo h
  · exact echo h
  · obtain ⟨found, hf, h⟩ := Option.bind_eq_some_iff.mp h
    simp only at h
    split at h
    · cases h
    · next hne =>
      cases h
      refine ⟨⟨hne, Text.trim_trim _, fun hmem => ?_⟩, nofun, nofun⟩
      exact Text.not_mem_of_cut?_singleton hf (Text.mem_of_mem_trim hmem)
  · cases h

/-- A list that is read begins with text only where the compiled text does. -/
theorem head?_ofCompiled {s t : Text} (h : (ofCompiled s).head? = some (.text t)) :
    t.head? = s.head? := by
  have prepended {c : Char} {nodes : List Node} (h : (prepend c nodes).head? = some (.text t)) :
      t.head? = some c := by
    obtain ⟨t', ht'⟩ := head?_prepend c nodes
    rw [h] at ht'
    cases ht'
    rfl
  fun_induction ofCompiled s with
  | case1 => cases h
  | case2 s _ => exact prepended h
  | case3 c s _ node rest hm _ _ =>
    cases h
    exact absurd rfl ((marked?_cases hm).2.1 t)
  | case4 c s _ _ _ => exact prepended h

/-- **Reading gives a normal list.** -/
theorem normal_ofCompiled (s : Text) : Normal (ofCompiled s) := by
  fun_induction ofCompiled s with
  | case1 => exact normal_nil
  | case2 s ih => exact ih.prepend
  | case3 c s _ node rest hm _ ih =>
    obtain ⟨hproper, hmark, hbrace⟩ := marked?_cases hm
    refine ih.cons hproper (fun next _ => ?_) (fun next hn => ?_)
    · cases node <;> first | exact absurd rfl (hmark _) | trivial
    · cases node with
      | text t => exact absurd rfl (hmark t)
      | subview _ => trivial
      | echo flavor expr =>
        cases next with
        | text t =>
          show t.head? ≠ some '}'
          rw [head?_ofCompiled hn]
          exact hbrace flavor expr rfl
        | echo _ _ => trivial
        | subview _ => trivial
  | case4 c s _ _ ih => exact ih.prepend

/-! ## Reading what is printed -/

theorem ofCompiled_mark {c : Char} {s rest : Text} {node : Node}
    (h : marked? (c :: s) = some (node, rest)) : ofCompiled (c :: s) = node :: ofCompiled rest := by
  rw [ofCompiled]
  · split
    · next hm =>
      rw [h] at hm
      cases hm
      rfl
    · next hm => rw [h] at hm; cases hm
  · rintro s' rfl rfl
    cases h

theorem ofCompiled_char {c : Char} (h : c ≠ '#') (s : Text) :
    ofCompiled (c :: s) = prepend c (ofCompiled s) := by
  have hm : marked? (c :: s) = none := by simp [marked?, h]
  rw [ofCompiled]
  · split
    · next hm' => rw [hm] at hm'; cases hm'
    · rfl
  · rintro s' rfl
    exact absurd rfl h

/-- Printed text is read as it was. -/
theorem ofCompiled_double (s rest : Text) :
    ofCompiled (Text.double '#' s ++ rest) = prependText s (ofCompiled rest) := by
  induction s with
  | nil => rfl
  | cons c s ih =>
    rw [Text.double_cons]
    show _ = prepend c (prependText s (ofCompiled rest))
    by_cases hc : c = '#'
    · subst hc
      rw [if_pos rfl, ← ih]
      exact ofCompiled.eq_2 _
    · rw [if_neg hc, ← ih]
      exact ofCompiled_char hc _

/-- A printed expression is read as it was, unless a closing brace follows. -/
theorem ofCompiled_echo {flavor : Flavor} {expr rest : Text} (hp : (echo flavor expr).Proper)
    (h : rest.head? ≠ some '}') :
    ofCompiled ((echo flavor expr).print ++ rest) = .echo flavor expr :: ofCompiled rest := by
  have hread (f : Flavor) :
      echo? f (Text.double '}' expr ++ '}' :: rest) = some (.echo f expr, rest) := by
    rw [echo?, expression?_double h, Option.bind_some]
    show (if Text.trim expr = [] then none else some (echo f (Text.trim expr), rest)) = _
    rw [hp.2, if_neg hp.1]
  have hprint (f : Flavor) : (echo f expr).print ++ rest =
      Segment.mark f ++ (Text.double '}' expr ++ '}' :: rest) := by
    simp [print]
  rw [hprint]
  cases flavor with
  | plain => exact ofCompiled_mark (hread .plain)
  | escaped => exact ofCompiled_mark (hread .escaped)

/-- A printed name is read as it was. -/
theorem ofCompiled_subview {name : Text} (hp : (subview name).Proper) (rest : Text) :
    ofCompiled ((subview name).print ++ rest) = .subview name :: ofCompiled rest := by
  obtain ⟨hne, htrim, hmem⟩ := hp
  have hread : subview? (name ++ ']' :: rest) = some (.subview name, rest) := by
    rw [subview?, Text.cut?_singleton hmem, Option.bind_some]
    show (if Text.trim name = [] then none else some (subview (Text.trim name), rest)) = _
    rw [htrim, if_neg hne]
  have hprint : (subview name).print ++ rest = '#' :: '[' :: (name ++ ']' :: rest) := by
    simp [print, Subview.mark]
  rw [hprint]
  exact ofCompiled_mark hread

/-- After an expression, the nodes of a normal list do not go on with a closing brace. -/
theorem head?_flatMap_print {flavor : Flavor} {expr : Text} {nodes : List Node}
    (h : Normal (.echo flavor expr :: nodes)) : (nodes.flatMap print).head? ≠ some '}' := by
  cases nodes with
  | nil => nofun
  | cons next nodes =>
    cases next with
    | text s =>
      have hs : s ≠ [] := h.proper (.text s) (by simp)
      have ha : s.head? ≠ some '}' := (List.isChain_cons_cons.mp h.apart).1
      cases s with
      | nil => exact absurd rfl hs
      | cons c s =>
        rw [List.flatMap_cons, print, Text.double_cons]
        by_cases hc : c = '#' <;> simp_all
    | echo flavor _ => cases flavor <;> nofun
    | subview _ => nofun

/-- **A normal list is read back from its printed form.** -/
theorem ofCompiled_print {nodes : List Node} (h : Normal nodes) :
    ofCompiled (nodes.flatMap print) = nodes := by
  induction nodes with
  | nil => rw [List.flatMap_nil, ofCompiled]
  | cons node nodes ih =>
    have hrest := ih h.tail
    have hp := h.proper node List.mem_cons_self
    rw [List.flatMap_cons]
    cases node with
    | text s =>
      rw [print, ofCompiled_double, hrest]
      cases s with
      | nil => exact absurd rfl hp
      | cons c s =>
        refine prependText_cons_of_separate fun t ht => ?_
        obtain ⟨nodes', rfl⟩ := List.head?_eq_some_iff.mp ht
        exact (List.isChain_cons_cons.mp h.separate).1
    | echo flavor expr => rw [ofCompiled_echo hp (head?_flatMap_print h), hrest]
    | subview name => rw [ofCompiled_subview hp, hrest]

/-- **Exactly the normal lists are read from texts**, and they are the lists that are read back from
their printed form. So reading a text, printing what was read and reading it again changes nothing. -/
theorem exists_ofCompiled_iff_normal (nodes : List Node) :
    ((∃ s, ofCompiled s = nodes) ↔ Normal nodes) ∧
      (Normal nodes ↔ ofCompiled (nodes.flatMap print) = nodes) ∧
      ∀ s, ofCompiled ((ofCompiled s).flatMap print) = ofCompiled s := by
  refine ⟨⟨?_, fun h => ⟨_, ofCompiled_print h⟩⟩, ⟨ofCompiled_print, ?_⟩, fun s => ?_⟩
  · rintro ⟨s, rfl⟩
    exact normal_ofCompiled s
  · intro hprint
    rw [← hprint]
    exact normal_ofCompiled _
  · exact ofCompiled_print (normal_ofCompiled s)

/-- Marks without a name, doubled or not closed are text, and they are printed as such. -/
example : ofCompiled "#[ ]##[a]#[b".toList = [.text "#[ ]#[a]#[b".toList] ∧
    [text "#[ ]#[a]#[b".toList].flatMap print = "##[ ]##[a]##[b".toList := by
  decide +kernel

end Stencil.Node
