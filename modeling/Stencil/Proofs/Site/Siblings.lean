import Stencil.Proofs.Site.Verbatim

/-!
# Subviews one after the other

The tags that a subview leaves in force are those that its later siblings are compiled with. So two
calls together give what each of them gives alone if the first subview leaves the default tags in force
(`renderSource_siblings`), and they may give something else if it does not
(`renderSource_siblings_disturbed`).
-/

namespace Stencil

/-- Neither a default opening tag nor a directive stands in a source. -/
structure Options.Inert (options : Options) (source : Text) : Prop where
  tags : ∀ flavor, ¬(options.tags.get flavor).opening <:+: source
  directives : ∀ flavor, Directive.find? (options.keywords.get flavor) source = none

/-! ## Sources of calls -/

namespace Subview

/-- A name in which nothing ends a call or changes on the way. -/
structure Sayable (name : Text) : Prop where
  quote : '\'' ∉ name
  line : '\n' ∉ name
  hash : '#' ∉ name
  bracket : ']' ∉ name

theorem Sayable.double_call {name : Text} (h : Sayable name) :
    Text.double '#' (call name) = call name :=
  Text.double_eq_self_iff.mpr (by simp [call, keyword, h.hash])

/-- A call with a blank name is text like any other. -/
theorem compileCalls_blank {name : Text} (h : Sayable name) (hblank : Text.trim name = [])
    {rest : Text} (hrest : ∀ c ∈ rest.head?, c = '@') :
    compileCalls (call name ++ rest) = call name ++ compileCalls rest := by
  obtain ⟨argument, hargument⟩ : ∃ argument, argument = '(' :: '\'' :: name ++ ['\'', ')'] :=
    ⟨_, rfl⟩
  have hcall : call name = keyword ++ argument := by simp [call, hargument]
  have hname : name? (argument ++ rest) = none := by
    have htext : argument ++ rest = '(' :: '\'' :: name ++ '\'' :: ')' :: rest := by
      simp [hargument]
    rw [name?, htext, read?_quoted h.quote h.line]
    exact if_pos hblank
  have hkeyword : ¬keyword <:+: argument := by
    intro hin
    have hmem : '@' ∈ argument := hin.subset (by decide)
    have hat : '@' ∈ name := by simpa [hargument] using hmem
    exact absurd (Text.isBlank_of_trim_eq_nil hblank '@' hat) (by decide)
  have hdouble : Text.double '#' argument = argument :=
    Text.double_eq_self_iff.mpr (by simp [hargument, h.hash])
  have hcalls := compileCalls_double hkeyword hrest
  rw [hdouble] at hcalls
  rw [hcall, List.append_assoc, List.append_assoc, compileCalls_of_name?_none hname, hcalls]

end Subview

namespace Node

theorem ofCompiled_blank {name : Text} (h : Subview.Sayable name) (hblank : Text.trim name = [])
    {rest : Text} (hrest : ∀ c ∈ rest.head?, c = '@') :
    ofCompiled (Subview.compileCalls (Subview.call name ++ rest)) =
      prependText (Subview.call name) (ofCompiled (Subview.compileCalls rest)) := by
  rw [Subview.compileCalls_blank h hblank hrest, ← ofCompiled_double, h.double_call]

theorem ofCompiled_sayable {name : Text} (h : Subview.Sayable name) (hblank : Text.trim name ≠ [])
    (rest : Text) :
    ofCompiled (Subview.compileCalls (Subview.call name ++ rest)) =
      .subview (Text.trim name) :: ofCompiled (Subview.compileCalls rest) := by
  have hproper : (Node.subview (Text.trim name)).Proper :=
    ⟨hblank, Text.trim_trim name, fun hmem => h.bracket (Text.mem_of_mem_trim hmem)⟩
  rw [Subview.compileCalls_call hblank h.quote h.line, ← ofCompiled_subview hproper, print]
  simp

end Node

namespace Renderer

/-- A call and what comes after it are filled one after the other. -/
theorem filled_call_append {subview : Text → Action Page} {root : Value} {name : Text}
    (h : Subview.Sayable name) {rest : Text} (hrest : ∀ c ∈ rest.head?, c = '@') :
    filled subview root (Node.ofCompiled (Subview.compileCalls (Subview.call name ++ rest))) =
      filled subview root (Node.ofCompiled (Subview.compileCalls (Subview.call name)) ++
        Node.ofCompiled (Subview.compileCalls rest)) := by
  have hnil : Node.ofCompiled (Subview.compileCalls []) = [] := by
    rw [Subview.compileCalls_nil, Node.ofCompiled]
  by_cases hblank : Text.trim name = []
  · -- the text of the call may become one with the text after it
    have hlone : Node.ofCompiled (Subview.compileCalls (Subview.call name ++ [])) = _ :=
      Node.ofCompiled_blank h hblank (by simp)
    rw [List.append_nil, hnil] at hlone
    rw [Node.ofCompiled_blank h hblank hrest, hlone, filled_append, filled_prependText,
      filled_prependText]
    simp [filled, expand, Page.fill]
  · have hlone : Node.ofCompiled (Subview.compileCalls (Subview.call name ++ [])) = _ :=
      Node.ofCompiled_sayable h hblank []
    rw [List.append_nil, hnil] at hlone
    rw [Node.ofCompiled_sayable h hblank rest, hlone]
    rfl

/-- A rendering that begins with the defaults fills the calls of an inert source, from a settled renderer
with the defaults in force. -/
theorem renderSource_eq_filled {r : Renderer} {options : Options} (hr : r.Coherent)
    (hsetup : Lift Compiler.SameSetup (.ofOptions options) r) (hrevert : options.revertPerView = true)
    (hfull : ∀ flavor, (options.tags.get flavor).Full) {params : Param} {root : Value}
    (hparams : params.toValue = .ok root) (views : Views) (name : Text) {source : Text}
    (hinert : options.Inert source) :
    ∃ start, Settled r start ∧ start.compiler.tags = options.tags ∧
      renderSource views name source params r =
        filled (expandSubview views options.maxIncludeDepth) root
          (Node.ofCompiled (Subview.compileCalls (Text.double '#' source))) start := by
  have htags : r.begun.compiler.startTags = options.tags := by
    rw [begun_of_revertPerView (by rw [hsetup.options]; exact hrevert)]
    exact congrArg Compiler.Setup.defaults hsetup.compiler
  obtain ⟨start, hsettled, hstart, -, hrender⟩ := renderSource_of_bare hr hsetup hfull hparams views
    name hinert.directives (htags ▸ Segment.bare_of_absent hinert.tags)
  exact ⟨start, hsettled, hstart.trans htags, hrender⟩

end Renderer

open Site (Command)

/-- **A subview does not disturb its later siblings if it leaves the default tags in force**: two
calls together give the two texts that they give alone, whatever the site was asked before, new steps
apart. -/
theorem renderSource_siblings {options : Options} (hrevert : options.revertPerView = true)
    (hfull : ∀ flavor, (options.tags.get flavor).Full) (views : Views) (commands : List Command)
    (hregister : ∀ step, .registerStep step ∉ commands) {a b : Text} (ha : Subview.Sayable a)
    (hb : Subview.Sayable b)
    (hinert : ∀ source ∈ [Subview.call a, Subview.call b, Subview.call a ++ Subview.call b],
      options.Inert source)
    (key₁ key₂ key : Text) (params : Param) {x y : Text} :
    let site := after Command.run commands ⟨views, .ofOptions options⟩
    let render := fun key source => Renderer.renderSource site.views key source params
    answer (render key₁ (Subview.call a)) site.renderer = .ok x →
    answer (render key₂ (Subview.call b)) site.renderer = .ok y →
    (final (render key₁ (Subview.call a)) site.renderer).compiler.tags = options.tags →
    answer (render key (Subview.call a ++ Subview.call b)) site.renderer = .ok (x ++ y) := by
  intro site render hx hy hback
  have hcoherent : site.renderer.Coherent := Site.coherent_after hregister views options
  have hsame : Renderer.Lift Compiler.SameSetup (.ofOptions options) site.renderer :=
    Site.sameSetup_after hregister ⟨views, .ofOptions options⟩
  cases hparams : params.toValue with
  | error e =>
    have hfails : render key₁ (Subview.call a) = throw (.param e) := by
      show Renderer.renderSource site.views key₁ _ params = _
      rw [Renderer.renderSource, hparams]
    rw [hfails] at hx
    cases hx
  | ok root =>
    have start (key : Text) {source : Text} (h : options.Inert source) :=
      Renderer.renderSource_eq_filled hcoherent hsame hrevert hfull hparams site.views key h
    obtain ⟨r₁, h₁, htags₁, hrender₁⟩ := start key₁ (hinert (Subview.call a) (by simp))
    obtain ⟨r₂, h₂, htags₂, hrender₂⟩ := start key₂ (hinert (Subview.call b) (by simp))
    obtain ⟨r, h, htags, hrender⟩ := start key (hinert (Subview.call a ++ Subview.call b) (by simp))
    rw [ha.double_call] at hrender₁
    rw [hb.double_call] at hrender₂
    have hat : ∀ c ∈ (Subview.call b).head?, c = '@' := fun c hc => (Option.some.inj hc).symm
    rw [Text.double_append, ha.double_call, hb.double_call, Renderer.filled_call_append ha hat]
      at hrender
    rw [answer_congr hrender₁] at hx
    rw [answer_congr hrender₂] at hy
    rw [final_congr hrender₁] at hback
    refine (answer_congr hrender).trans ?_
    exact Renderer.filled_append_of_settled h₁ h₂ h (htags.trans htags₁.symm) (eq_ok_of_answer hx)
      (eq_ok_of_answer hy) (htags₂.trans hback.symm)

/-- With the default options, calls of a view that changes the plain tags and calls another one, which
puts the default ones in force again, and of a view that interpolates with these. -/
theorem renderSource_siblings_restored :
    let commands : List Command :=
      [.addView ['a'] "changecontenttags('[', ']')[v]@include('c')".toList,
        .addView ['b'] "\x7b\x7b v \x7d\x7d".toList,
        .addView ['c'] "changecontenttags('\x7b\x7b', '\x7d\x7d')".toList]
    let site := after Command.run commands ⟨.empty, .ofOptions {}⟩
    let render := fun source => Renderer.renderSource site.views ['k'] source
      (.map [(.key, .str ['v']), (.value, .str ['1'])])
    ({} : Options).revertPerView = true ∧ (∀ flavor, (({} : Options).tags.get flavor).Full) ∧
      (∀ step, .registerStep step ∉ commands) ∧ Subview.Sayable ['a'] ∧ Subview.Sayable ['b'] ∧
      (∀ source ∈ [Subview.call ['a'], Subview.call ['b'], Subview.call ['a'] ++ Subview.call ['b']],
        ({} : Options).Inert source) ∧
      answer (render (Subview.call ['a'])) site.renderer = .ok ['1'] ∧
      answer (render (Subview.call ['b'])) site.renderer = .ok ['1'] ∧
      (final (render (Subview.call ['a'])) site.renderer).compiler.tags = ({} : Options).tags ∧
      answer (render (Subview.call ['a'] ++ Subview.call ['b'])) site.renderer = .ok ['1', '1'] := by
  intro commands site render
  have hregister : ∀ step, .registerStep step ∉ commands := by simp [commands]
  have ha : Subview.Sayable ['a'] := ⟨by decide, by decide, by decide, by decide⟩
  have hb : Subview.Sayable ['b'] := ⟨by decide, by decide, by decide, by decide⟩
  have hinert : ∀ source ∈ [Subview.call ['a'], Subview.call ['b'],
      Subview.call ['a'] ++ Subview.call ['b']], ({} : Options).Inert source := by
    intro source hsource
    simp only [List.mem_cons, List.not_mem_nil, or_false] at hsource
    rcases hsource with rfl | rfl | rfl <;>
      exact ⟨fun flavor => by cases flavor <;> decide +kernel,
        fun flavor => by cases flavor <;> decide +kernel⟩
  have hx : answer (render (Subview.call ['a'])) site.renderer = .ok ['1'] := by decide +kernel
  have hy : answer (render (Subview.call ['b'])) site.renderer = .ok ['1'] := by decide +kernel
  have hback : (final (render (Subview.call ['a'])) site.renderer).compiler.tags =
      ({} : Options).tags := by decide +kernel
  exact ⟨rfl, Options.full_default, hregister, ha, hb, hinert, hx, hy, hback,
    renderSource_siblings rfl Options.full_default .empty commands hregister ha hb hinert _ _ _ _ hx
      hy hback⟩

/-- With the default options, a view that changes the plain tags and one that interpolates with the
default ones. Alone the second one gives the value, and after the first one it gives its source. -/
theorem renderSource_siblings_disturbed :
    let commands : List Command := [.addView ['a'] "changecontenttags('[', ']')".toList,
      .addView ['b'] "\x7b\x7b v \x7d\x7d".toList]
    let site := after Command.run commands ⟨.empty, .ofOptions {}⟩
    let render := fun source => Renderer.renderSource site.views ['k'] source
      (.map [(.key, .str ['v']), (.value, .str ['1'])])
    ({} : Options).revertPerView = true ∧ (∀ flavor, (({} : Options).tags.get flavor).Full) ∧
      answer (render (Subview.call ['a'])) site.renderer = .ok [] ∧
      answer (render (Subview.call ['b'])) site.renderer = .ok ['1'] ∧
      answer (render (Subview.call ['a'] ++ Subview.call ['b'])) site.renderer =
        .ok "\x7b\x7b v \x7d\x7d".toList ∧
      answer (render (Subview.call ['a'] ++ Subview.call ['b'])) site.renderer ≠ .ok ([] ++ ['1']) :=
  ⟨rfl, Options.full_default, by decide +kernel, by decide +kernel, by decide +kernel,
    by decide +kernel⟩

end Stencil
