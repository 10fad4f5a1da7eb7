import Stencil.Proofs.Renderer.Siblings
import Stencil.Proofs.Text.Markup

/-!
# Parameters

Parameters are nothing but text that is written. Putting the values in after the expansion of a view is
the same as writing them where they are reached (`renderSource_eq_writeSource`), so the same source
rendered with other parameters compiles the same views in the same order, leaves the same renderer and
fails for the same cause. Where all values are written as markup text, the angle brackets and quotes of
the page are those of the views, whatever the values are (`renderSource_params`).
-/

namespace Stencil

namespace Page

/-- All values are written as markup text. -/
def Escaped (page : Page) : Prop := ∀ flavor expr, .echo flavor expr ∈ page → flavor = .escaped

theorem filter_fill_echo (root : Value) (expr : Text) :
    (Part.fill root (.echo .escaped expr)).filter Text.delimitsMarkup = [] :=
  Text.filter_escapeMarkup _

/-- The brackets and quotes of an escaped page are not those of its values. -/
theorem filter_fill_eq {page : Page} (h : page.Escaped) (root root' : Value) :
    (page.fill root).filter Text.delimitsMarkup = (page.fill root').filter Text.delimitsMarkup := by
  induction page with
  | nil => rfl
  | cons part page ih =>
    have hrest : Escaped page := fun flavor expr hmem => h flavor expr (List.mem_cons_of_mem _ hmem)
    have hpart : (part.fill root).filter Text.delimitsMarkup =
        (part.fill root').filter Text.delimitsMarkup := by
      cases part with
      | text s => rfl
      | echo flavor expr =>
        obtain rfl := h flavor expr List.mem_cons_self
        rw [filter_fill_echo, filter_fill_echo]
    rw [fill, fill, List.flatMap_cons, List.flatMap_cons, List.filter_append, List.filter_append,
      hpart]
    exact congrArg _ (ih hrest)

end Page

namespace Renderer

/-! ## Values that are written where they are reached -/

/-- The text of some nodes, each value written where it is reached. -/
def write (subview : Text → Action Text) (root : Value) : List Node → Action Text
  | [] => return []
  | .text s :: nodes => return s ++ (← write subview root nodes)
  | .echo flavor expr :: nodes =>
    return Page.written flavor (root.lookup expr).text ++ (← write subview root nodes)
  | .subview name :: nodes => do
    let part ← subview name
    return part ++ (← write subview root nodes)

/-- The text of a subview where `levels` more levels of subviews are allowed. -/
def writeSubview (views : Views) (root : Value) : (levels : Nat) → (name : Text) → Action Text
  | 0, name => do
    throw (.render (.tooDeep (← get).options.maxIncludeDepth name))
  | levels + 1, name =>
    match views.find? name with
    | none => throw (.viewNotFound name)
    | some source => do
      let nodes ← compileView name source
      write (writeSubview views root levels) root nodes

/-- Renders a source in one pass, with the values at hand from the beginning. -/
def writeSource (views : Views) (name source : Text) (params : Param) : Action Text :=
  match params.toValue with
  | .error e => throw (.param e)
  | .ok root => do
    let r ← get
    if r.options.revertPerView then onCompiler (Compiler.requestRevert true)
    let nodes ← compileView name source
    write (writeSubview views root r.options.maxIncludeDepth) root nodes

theorem filled_eq_write {subview : Text → Action Page} {subview' : Text → Action Text} {root : Value}
    (h : ∀ name, Page.fill root <$> subview name = subview' name) (nodes : List Node) :
    filled subview root nodes = write subview' root nodes := by
  induction nodes with
  | nil => simp [filled, expand, write, Page.fill]
  | cons node nodes ih =>
    cases node with
    | text s => simp [filled, expand, write, ← ih, Page.fill, Page.Part.fill]
    | echo flavor expr => simp [filled, expand, write, ← ih, Page.fill, Page.Part.fill]
    | subview name => simp [filled, expand, write, ← ih, ← h, Page.fill_append]

/-- By induction on the levels that are left: the values may be put in at every level. -/
theorem fill_expandSubview (views : Views) (root : Value) (levels : Nat) (name : Text) :
    Page.fill root <$> expandSubview views levels name = writeSubview views root levels name := by
  induction levels generalizing name with
  | zero => rfl
  | succ levels ih =>
    rw [expandSubview, writeSubview]
    cases views.find? name with
    | none => rfl
    | some source =>
      show Page.fill root <$> (compileView name source >>= _) = _
      rw [map_bind]
      exact bind_congr fun nodes => filled_eq_write ih nodes

/-- **Values can be put in afterwards**: a rendering gives what it gives when each value is written
where it is reached. -/
theorem renderSource_eq_writeSource (views : Views) (name source : Text) (params : Param) :
    renderSource views name source params = writeSource views name source params := by
  rw [renderSource, writeSource]
  cases params.toValue with
  | error e => rfl
  | ok root =>
    show Page.fill root <$> (get >>= _) = (get >>= _)
    rw [map_bind]
    refine bind_congr fun r => ?_
    have hview : Page.fill root <$> (compileView name source >>= fun nodes =>
        expand (expandSubview views r.options.maxIncludeDepth) nodes) =
        compileView name source >>= fun nodes =>
          write (writeSubview views root r.options.maxIncludeDepth) root nodes := by
      rw [map_bind]
      exact bind_congr fun nodes => filled_eq_write (fill_expandSubview views root _) nodes
    show Page.fill root <$> (if r.options.revertPerView then _ else _) =
      if r.options.revertPerView then _ else _
    split
    · rw [map_bind]
      exact bind_congr fun _ => hview
    · exact hview

/-! ## Two renderings with different parameters -/

/-- **Parameters have no influence but on the text of their values.** The same source is rendered from
the same renderer with two parameters, both times in one pass or both times with the values put in
afterwards. Both renderings leave the same renderer, and both give the same page with their values in it
or fail for the same cause; if all values on the page are escaped, its angle brackets and quotes are the
same. -/
theorem renderSource_params (r : Renderer) (views : Views) (name source : Text) {params params' : Param}
    {root root' : Value} (hparams : params.toValue = .ok root)
    (hparams' : params'.toValue = .ok root') :
    ∀ render ∈ [renderSource views name source, writeSource views name source],
      final (render params) r = final (render params') r ∧
        ((∃ page, answer (Renderer.page views name source) r = .ok page ∧
            answer (render params) r = .ok (page.fill root) ∧
            answer (render params') r = .ok (page.fill root') ∧
            (page.Escaped → (page.fill root).filter Text.delimitsMarkup =
              (page.fill root').filter Text.delimitsMarkup)) ∨
          ∃ e, answer (render params) r = .error e ∧ answer (render params') r = .error e) := by
  intro render hmem
  have hrender {params : Param} {root : Value} (h : params.toValue = .ok root) :
      render params = Page.fill root <$> page views name source := by
    have hsource : renderSource views name source params = Page.fill root <$> page views name source := by
      rw [renderSource, h]
    simp only [List.mem_cons, List.not_mem_nil, or_false] at hmem
    rcases hmem with rfl | rfl
    · exact hsource
    · exact (renderSource_eq_writeSource views name source params).symm.trans hsource
  rw [hrender hparams, hrender hparams']
  cases hpage : page views name source r with
  | ok page r' =>
    have hfill (root : Value) := map_of_ok hpage (Page.fill root)
    refine ⟨by rw [final_of_ok (hfill root), final_of_ok (hfill root')], .inl ⟨page, ?_⟩⟩
    exact ⟨answer_of_ok hpage, answer_of_ok (hfill root), answer_of_ok (hfill root'),
      fun hescaped => Page.filter_fill_eq hescaped root root'⟩
  | error e r' =>
    have hfill (root : Value) := map_of_error hpage (Page.fill root)
    refine ⟨by rw [final_of_error (hfill root), final_of_error (hfill root')], .inr ⟨e, ?_⟩⟩
    exact ⟨answer_of_error (hfill root), answer_of_error (hfill root')⟩

/-- With the default options, a view with a subview, both with an escaped value: rendered in one pass
with a value of markup characters and without a value, they have the brackets of the subview. -/
theorem renderSource_params_markup :
    let views : Views := Table.empty.insert ['a'] "<i>\x7b\x7b\x7b v \x7d\x7d\x7d</i>".toList
    let source := "\x7b\x7b\x7b v \x7d\x7d\x7d@include('a')".toList
    let markup : Param := .map [(.key, .str ['v']), (.value, .str ['<', '&', '"'])]
    let render := renderSource views ['k'] source
    let write := writeSource views ['k'] source
    markup.toValue = .ok (.map [(['v'], .str ['<', '&', '"'])]) ∧ Param.unit.toValue = .ok .null ∧
      answer (render markup) (.ofOptions {}) = .ok "&lt;&amp;&quot;<i>&lt;&amp;&quot;</i>".toList ∧
      answer (render .unit) (.ofOptions {}) = .ok "<i></i>".toList ∧
      answer (write markup) (.ofOptions {}) = .ok "&lt;&amp;&quot;<i>&lt;&amp;&quot;</i>".toList ∧
      answer (write .unit) (.ofOptions {}) = .ok "<i></i>".toList ∧
      "&lt;&amp;&quot;<i>&lt;&amp;&quot;</i>".toList.filter Text.delimitsMarkup =
        "<i></i>".toList.filter Text.delimitsMarkup ∧
      final (render markup) (.ofOptions {}) = final (render .unit) (.ofOptions {}) ∧
      final (write markup) (.ofOptions {}) = final (write .unit) (.ofOptions {}) := by
  intro views source markup render write
  have hmarkup : markup.toValue = .ok (.map [(['v'], .str ['<', '&', '"'])]) := rfl
  have hunit : Param.unit.toValue = .ok .null := rfl
  have hpage : answer (page views ['k'] source) (.ofOptions {}) =
      .ok [.echo .escaped ['v'], .text "<i>".toList, .echo .escaped ['v'], .text "</i>".toList] := by
    decide +kernel
  have hparams := renderSource_params (.ofOptions {}) views ['k'] source hmarkup hunit
  obtain ⟨hfinal, hanswers⟩ := hparams render List.mem_cons_self
  obtain ⟨hfinal', -⟩ := hparams write (List.mem_cons_of_mem _ List.mem_cons_self)
  have hok : answer (render .unit) (.ofOptions {}) = .ok "<i></i>".toList := by decide +kernel
  rcases hanswers with ⟨found, hfound, htext, htext', hfilter⟩ | ⟨e, -, he⟩
  · rw [hpage] at hfound
    cases hfound
    refine ⟨hmarkup, hunit, htext, htext', by decide +kernel, by decide +kernel, hfilter ?_, hfinal,
      hfinal'⟩
    intro flavor expr hmem
    simp only [List.mem_cons, reduceCtorEq, Page.Part.echo.injEq, List.not_mem_nil, or_false,
      false_or] at hmem
    rcases hmem with ⟨rfl, -⟩ | ⟨rfl, -⟩ <;> rfl
  · exact absurd (hok.symm.trans he) nofun

end Renderer

end Stencil
