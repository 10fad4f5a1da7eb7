import Stencil.Proofs.Directive.Alone
import Stencil.Proofs.Renderer.Rollback
import Stencil.Proofs.Subview.Calls

/-!
# A directive of each flavor

A compilation takes the directive for plain tags out of a source before it looks for the one for
escaped tags. Cutting out one of them brings no keyword together and takes none apart, as long as the
texts around the directives do not end in a word. So the two take effect whatever their order is, each
once and for its own flavor, and the rest of the source is compiled with the tags of both
(`compile_of_directives`).
-/

namespace Stencil

open Directive (IsKeyword Clear Quotable print saying)

namespace Compiler

variable {c : Compiler Pipeline} {flavor : Flavor} {tags : Tags} {before after : Text}

/-- Two tags that a directive says as they are, without a keyword in them. -/
structure Plainly (keywords : PerFlavor Text) (pair : Delims) : Prop where
  full : pair.Full
  opening : Quotable pair.opening
  closing : Quotable pair.closing
  free : ∀ flavor, ¬keywords.get flavor <:+: pair.opening ∧ ¬keywords.get flavor <:+: pair.closing

/-- A directive whose keyword stands nowhere else is taken out, and its pair is put in force. -/
theorem filter_of_clear (hkeyword : IsKeyword (c.keywords.get flavor)) {pair : Delims}
    (hpair : Plainly c.keywords pair) (hbefore : Clear (c.keywords.get flavor) before)
    (hafter : ¬c.keywords.get flavor <:+: after) :
    ∃ c', filter flavor (before ++ (print (c.keywords.get flavor) pair ++ after)) c =
        .ok (before ++ after) c' ∧ Moved [⟨flavor, pair⟩] c c' := by
  obtain ⟨hopening, hclosing⟩ := hpair.free flavor
  have hcall := Directive.says_saying hpair.opening hpair.closing
  have hrest : ¬c.keywords.get flavor <:+: saying pair ++ after :=
    (Directive.clear_saying hkeyword hopening hclosing).absent_append hkeyword hafter
  have hfind := Directive.find?_of_clear hkeyword hbefore hcall hrest
  have hstrip := Directive.strip_of_clear hkeyword hbefore hcall hrest
  have hargs : TagChange.ofArgs flavor [pair.opening, pair.closing] = .ok ⟨flavor, pair⟩ := rfl
  obtain ⟨c', hfilter, hmoved⟩ := filter_of_full (c := c) hfind hargs hpair.full
  rw [hstrip] at hfilter
  refine ⟨c', ?_, hmoved⟩
  rw [print, List.append_assoc]
  exact hfilter

/-- The directive for plain tags is taken out, then the one for escaped tags out of what is left of the
source, and the host compiles the rest with the two pairs. -/
theorem compile_of_clear (hsteps : c.host.steps = [.echos, .includes])
    (hrevert : c.revertPending = false) (hkeyword : ∀ flavor, IsKeyword (c.keywords.get flavor))
    (htags : ∀ flavor, Plainly c.keywords (tags.get flavor)) {before' after' : Text}
    (hbefore : Clear c.keywords.plain before) (hafter : ¬c.keywords.plain <:+: after)
    (hleft : before ++ after = before' ++ (print c.keywords.escaped tags.escaped ++ after'))
    (hbefore' : Clear c.keywords.escaped before') (hafter' : ¬c.keywords.escaped <:+: after') :
    let source := before ++ (print c.keywords.plain tags.plain ++ after)
    answer (compile source) c = Host.compile (Pipeline.ofTags tags) (before' ++ after') ∧
      (final (compile source) c).tags = tags ∧
      ∀ flavor, ((final (compile source) c).histories.get flavor).toList =
        (c.histories.get flavor).toList ++ [tags.get flavor] := by
  intro source
  obtain ⟨c₁, hplain, hmoved⟩ : ∃ c₁, filter .plain source c = .ok (before ++ after) c₁ ∧
      Moved [⟨.plain, tags.plain⟩] c c₁ :=
    filter_of_clear (hkeyword .plain) (htags .plain) hbefore hafter
  obtain ⟨c₂, hescaped, hmoved'⟩ : ∃ c₂, filter .escaped (before ++ after) c₁ =
      .ok (before' ++ after') c₂ ∧ Moved [⟨.escaped, tags.escaped⟩] c₁ c₂ := by
    rw [hleft]
    rw [← hmoved.keywords] at hkeyword htags hbefore' hafter' ⊢
    exact filter_of_clear (hkeyword .escaped) (htags .escaped) hbefore' hafter'
  have hboth := hmoved.trans hmoved'
  have hhost : c₂.host = Pipeline.ofTags tags := by
    rw [Pipeline.eq_of_granted hboth.host, hsteps]
    rfl
  obtain ⟨text, htext⟩ : ∃ text, Host.compile (Pipeline.ofTags tags) (before' ++ after') = .ok text :=
    ⟨_, Pipeline.compile_ofTags tags _⟩
  have hpass : pass source c = .ok text c₂ := by
    rw [pass, bind_of_ok hplain, bind_of_ok hescaped, compileHost, hhost, htext]
  have hcompile := compile_of_pass_ok (applyRevert_of_not_pending hrevert) hpass
  rw [answer_of_ok hcompile, final_of_ok hcompile, htext]
  refine ⟨rfl, congrArg Pipeline.tags hhost, fun flavor => ?_⟩
  rw [hboth.histories, TagChange.get_record]
  cases flavor <;> rfl

/-- **A directive of each flavor takes effect once, and for its own flavor only**, in either order:
the compilation succeeds, each history gets the pair of its directive, and the host compiles the rest
of the source with the two pairs in force. -/
theorem compile_of_directives (hsteps : c.host.steps = [.echos, .includes])
    (hrevert : c.revertPending = false)
    (hword : ∀ flavor, ∀ d ∈ c.keywords.get flavor, Text.isWord d)
    (hplain : ¬c.keywords.plain <:+: c.keywords.escaped)
    (hescaped : ¬c.keywords.escaped <:+: c.keywords.plain) {t₀ t₁ t₂ : Text}
    (h₀ : ∀ flavor, Clear (c.keywords.get flavor) t₀)
    (h₁ : ∀ flavor, Clear (c.keywords.get flavor) t₁)
    (h₂ : ∀ flavor, ¬c.keywords.get flavor <:+: t₂)
    (htags : ∀ flavor, Plainly c.keywords (tags.get flavor)) :
    let plain := print c.keywords.plain tags.plain
    let escaped := print c.keywords.escaped tags.escaped
    ∃ text, Host.compile (Pipeline.ofTags tags) (t₀ ++ t₁ ++ t₂) = .ok text ∧
      ∀ source ∈ [t₀ ++ plain ++ t₁ ++ escaped ++ t₂, t₀ ++ escaped ++ t₁ ++ plain ++ t₂],
        answer (compile source) c = .ok text ∧ (final (compile source) c).tags = tags ∧
          ∀ flavor, ((final (compile source) c).histories.get flavor).toList =
            (c.histories.get flavor).toList ++ [tags.get flavor] := by
  intro plain escaped
  have hkeyword : ∀ flavor, IsKeyword (c.keywords.get flavor) := by
    intro flavor
    refine ⟨fun hnil => ?_, hword flavor⟩
    cases flavor with
    | plain => exact hplain ((show c.keywords.plain = [] from hnil) ▸ List.nil_infix)
    | escaped => exact hescaped ((show c.keywords.escaped = [] from hnil) ▸ List.nil_infix)
  have hclear : Clear c.keywords.plain escaped :=
    Directive.clear_print (hkeyword .plain) hplain ((htags .escaped).free .plain).1
      ((htags .escaped).free .plain).2
  obtain ⟨text, htext⟩ : ∃ text, Host.compile (Pipeline.ofTags tags) (t₀ ++ t₁ ++ t₂) = .ok text :=
    ⟨_, Pipeline.compile_ofTags tags _⟩
  refine ⟨text, htext, fun source hsource => ?_⟩
  rw [← htext]
  rcases List.mem_pair.mp hsource with rfl | rfl
  · have hafter : ¬c.keywords.plain <:+: t₁ ++ escaped ++ t₂ :=
      ((h₁ .plain).append (hkeyword .plain) hclear).absent_append (hkeyword .plain) (h₂ .plain)
    have hbefore' : Clear c.keywords.escaped (t₀ ++ t₁) :=
      (h₀ .escaped).append (hkeyword .escaped) (h₁ .escaped)
    have hleft : t₀ ++ (t₁ ++ escaped ++ t₂) = t₀ ++ t₁ ++ (escaped ++ t₂) := by simp
    rw [show t₀ ++ plain ++ t₁ ++ escaped ++ t₂ = t₀ ++ (plain ++ (t₁ ++ escaped ++ t₂)) by simp]
    exact compile_of_clear hsteps hrevert hkeyword htags (h₀ .plain) hafter hleft hbefore'
      (h₂ .escaped)
  · have hbefore : Clear c.keywords.plain (t₀ ++ escaped ++ t₁) :=
      ((h₀ .plain).append (hkeyword .plain) hclear).append (hkeyword .plain) (h₁ .plain)
    have hafter' : ¬c.keywords.escaped <:+: t₁ ++ t₂ :=
      (h₁ .escaped).absent_append (hkeyword .escaped) (h₂ .escaped)
    have hleft : t₀ ++ escaped ++ t₁ ++ t₂ = t₀ ++ (escaped ++ (t₁ ++ t₂)) := by simp
    rw [List.append_assoc (t₀ ++ escaped ++ t₁), List.append_assoc t₀ t₁ t₂]
    exact compile_of_clear hsteps hrevert hkeyword htags hbefore (h₂ .plain) hleft (h₀ .escaped)
      hafter'

/-- With the default keywords, after other tags were put in force: a letter that is no word character
stands before the first directive, the second one follows it directly, and a beginning of both
keywords after it. -/
theorem compile_of_directives_adjacent :
    let c := final (pushTags .plain ⟨['('], [')']⟩)
      (ofHost (Pipeline.ofTags ({} : Options).tags) ({} : Options).keywords)
    let tags : Tags := ⟨⟨['['], [']']⟩, ⟨['<', '%'], ['"', '%', '>']⟩⟩
    let left := ['#', 'é']
    let right := "change [ a ]<% b \"%>tags('#')".toList
    let plain := print c.keywords.plain tags.plain
    let escaped := print c.keywords.escaped tags.escaped
    let text := "##é".toList ++ "change #!\x7ba\x7d#\x7bb\x7dtags('##')".toList
    c.host.steps = [.echos, .includes] ∧ c.revertPending = false ∧
      plain = "changecontenttags('[',']')".toList ∧
      escaped = "changeescapedtags('<%','\"%>')".toList ∧
      (∀ flavor, Clear (c.keywords.get flavor) left) ∧
      (∀ flavor, Plainly c.keywords (tags.get flavor)) ∧
      answer (compile (left ++ plain ++ [] ++ escaped ++ right)) c = .ok text ∧
      answer (compile (left ++ escaped ++ [] ++ plain ++ right)) c = .ok text ∧
      (final (compile (left ++ plain ++ [] ++ escaped ++ right)) c).histories.plain.toList =
        [({} : Options).tags.plain, ⟨['('], [')']⟩, ⟨['['], [']']⟩] := by
  intro c tags left right plain escaped text
  have hsteps : c.host.steps = [.echos, .includes] := rfl
  have hword : ∀ flavor, ∀ d ∈ c.keywords.get flavor, Text.isWord d := by
    intro flavor
    refine List.all_eq_true.mp ?_
    cases flavor <;> decide +kernel
  have hleft : ∀ flavor, Clear (c.keywords.get flavor) left := by
    intro flavor
    refine ⟨?_, fun d hd => ?_⟩
    · cases flavor <;> decide +kernel
    · cases hd
      decide +kernel
  have hnil : ∀ flavor, Clear (c.keywords.get flavor) [] := by
    intro flavor
    refine ⟨?_, nofun⟩
    cases flavor <;> decide +kernel
  have hright : ∀ flavor, ¬c.keywords.get flavor <:+: right := by
    intro flavor
    cases flavor <;> decide +kernel
  have htags : ∀ flavor, Plainly c.keywords (tags.get flavor) := by
    intro flavor
    refine ⟨?_, ⟨?_, ?_, ?_⟩, ⟨?_, ?_, ?_⟩, fun other => ?_⟩
    all_goals cases flavor
    any_goals cases other
    all_goals decide +kernel
  obtain ⟨found, hfound, hcompile⟩ := compile_of_directives hsteps rfl hword
    (by decide +kernel) (by decide +kernel) hleft hnil hright htags
  obtain rfl : text = found := by
    have htext : Host.compile (Pipeline.ofTags tags) (left ++ [] ++ right) = .ok text := by
      decide +kernel
    exact Except.ok.inj (htext.symm.trans hfound)
  obtain ⟨hanswer, -, hhistory⟩ := hcompile _ List.mem_cons_self
  obtain ⟨hanswer', -, -⟩ := hcompile _ (List.mem_cons_of_mem _ List.mem_cons_self)
  exact ⟨hsteps, rfl, by decide +kernel, by decide +kernel, hleft, htags, hanswer, hanswer',
    hhistory .plain⟩

end Compiler

end Stencil
