import Stencil.Proofs.Compiler.Failure
import Stencil.Proofs.Compiler.Setup
import Stencil.Proofs.Directive.Strip
import Stencil.Proofs.Renderer.Lift

/-!
# Rollbacks to tags that are not full

A rollback asks the host for the earlier tags, and a pipeline refuses a pair with an empty tag. Such a
pair is in force if it is among the options, which nothing checks. Over the steps that are always
there a compilation fails in one of its directives, and only the one for plain tags can have made a
change before (`tags_of_compile_error`). That change stays if the pair in force was not full. So a
failed compilation changes no tags exactly under options of which all pairs are full, or with an empty
keyword (`Renderer.tags_of_compile_error_iff`).
-/

namespace Stencil

open TagChange (apply)

namespace Compiler

variable {c c' : Compiler Pipeline} {flavor : Flavor} {source : Text} {e : Error}

/-- The change that the first directive for a flavor asks for. -/
def asked? (keywords : PerFlavor Text) (flavor : Flavor) (source : Text) : Option TagChange :=
  (Directive.find? (keywords.get flavor) source).bind fun m =>
    (TagChange.ofArgs flavor m.args).toOption

/-! ## What a filter of a pipeline does -/

theorem asked?_of_ofArgs {m : Directive.Match} {change : TagChange}
    (h : Directive.find? (c.keywords.get flavor) source = some m)
    (hargs : TagChange.ofArgs flavor m.args = .ok change) :
    asked? c.keywords flavor source = some change := by
  rw [asked?, h, Option.bind_some, hargs]
  rfl

/-- A full pair is granted. -/
theorem filter_of_full {m : Directive.Match} {change : TagChange}
    (h : Directive.find? (c.keywords.get flavor) source = some m)
    (hargs : TagChange.ofArgs flavor m.args = .ok change) (hfull : change.tags.Full) :
    ∃ c', filter flavor source c = .ok (Directive.strip m.text source) c' ∧
      Moved [change] c c' := by
  rw [filter_eq_of_some h, change_of_ok hargs]
  have hset := Pipeline.setTags_of_full hfull change.flavor c.host
  exact ⟨_, bind_of_ok (pushTags_of_ok hset) _, .accepted (.nil _) hset, rfl, rfl, rfl⟩

theorem asked?_of_filter_ok {text : Text} (h : filter flavor source c = .ok text c') :
    (asked? c.keywords flavor source = none ∧ Moved [] c c') ∨
      ∃ change, asked? c.keywords flavor source = some change ∧ change.tags.Full ∧
        Moved [change] c c' := by
  rcases filter_ok_cases h with ⟨hfind, -, rfl⟩ | ⟨m, change, hfind, -, hargs, hm⟩
  · exact .inl ⟨by rw [asked?, hfind]; rfl, .refl _⟩
  · exact .inr ⟨change, asked?_of_ofArgs hfind hargs,
      hm.host.accepts Pipeline.lawful change List.mem_cons_self, hm⟩

theorem not_full_of_filter_error (h : filter flavor source c = .error e c') {change : TagChange}
    (hasked : asked? c.keywords flavor source = some change) : ¬change.tags.Full := by
  intro hfull
  obtain ⟨⟨m, hfind⟩, -⟩ := filter_error_cases h
  rw [asked?, hfind, Option.bind_some] at hasked
  cases hargs : TagChange.ofArgs flavor m.args with
  | error e' =>
    rw [hargs] at hasked
    cases hasked
  | ok asked =>
    rw [hargs] at hasked
    cases hasked
    obtain ⟨d, hfilter, -⟩ := filter_of_full hfind hargs hfull
    cases hfilter.symm.trans h

/-! ## What a failed compilation leaves -/

theorem steps_filter (flavor : Flavor) (source : Text) (c : Compiler Pipeline) :
    (final (filter flavor source) c).host.steps = c.host.steps := by
  obtain ⟨changes, hm⟩ := reached_filter flavor source c
  exact Pipeline.steps_of_granted hm.host

/-- The steps that are always there never fail. -/
theorem compileHost_eq_ok (hsteps : c.host.steps = [.echos, .includes]) (source : Text) :
    ∃ text, compileHost source c = .ok text c := by
  obtain ⟨⟨tags, steps⟩, histories, revertPending, keywords⟩ := c
  obtain rfl : steps = [.echos, .includes] := hsteps
  exact ⟨_, rfl⟩

/-- A pass over the steps that are always there fails in a directive: in the one for plain tags before
it has changed anything, or in the one for escaped tags, after the change of the other one if there is
one. -/
theorem pass_error_cases (hsteps : c.host.steps = [.echos, .includes])
    (h : pass source c = .error e c') :
    (Moved [] c c' ∧
        ∀ change, asked? c.keywords .plain source = some change → ¬change.tags.Full) ∨
      ∃ change, asked? c.keywords .plain source = some change ∧ change.tags.Full ∧
        c.keywords.escaped ≠ [] ∧ Moved [change] c c' := by
  cases hplain : filter .plain source c with
  | error e' d =>
    rw [pass, bind_of_error hplain] at h
    cases h
    exact .inl ⟨(filter_error_cases hplain).2, fun _ => not_full_of_filter_error hplain⟩
  | ok text d =>
    rw [pass, bind_of_ok hplain] at h
    cases hescaped : filter .escaped text d with
    | ok text' d' =>
      rw [bind_of_ok hescaped] at h
      have hd := steps_filter .plain source c
      have hd' := steps_filter .escaped text d
      rw [final_of_ok hplain] at hd
      rw [final_of_ok hescaped] at hd'
      obtain ⟨out, hout⟩ := compileHost_eq_ok (hd'.trans (hd.trans hsteps)) text'
      rw [hout] at h
      cases h
    | error e' d' =>
      rw [bind_of_error hescaped] at h
      cases h
      obtain ⟨⟨m, hfind⟩, hmoved⟩ := filter_error_cases hescaped
      have hkeyword : d.keywords.escaped ≠ [] := (Directive.find?_eq_some_iff.mp hfind).1
      rcases asked?_of_filter_ok hplain with ⟨hnone, hm⟩ | ⟨change, hasked, hfull, hm⟩
      · refine .inl ⟨hm.trans hmoved, ?_⟩
        rw [hnone]
        nofun
      · exact .inr ⟨change, hasked, hfull, hm.keywords ▸ hkeyword, hm.trans hmoved⟩

/-- **What a failed compilation leaves.** The histories are those from before, and so are the tags,
unless the directive for plain tags has put a full pair in force where there was none. -/
theorem tags_of_compile_error (hsteps : c.host.steps = [.echos, .includes])
    (hrevert : c.revertPending = false) (h : compile source c = .error e c') :
    c'.histories = c.histories ∧
      ((c'.tags = c.tags ∧
          ∀ change, asked? c.keywords .plain source = some change → ¬change.tags.Full) ∨
        ∃ change, asked? c.keywords .plain source = some change ∧ change.tags.Full ∧
          c.keywords.escaped ≠ [] ∧
          (c'.tags = c.tags ↔ (c.tags.get change.flavor).Full)) := by
  have happly := applyRevert_of_not_pending hrevert
  cases hpass : pass source c with
  | ok text d =>
    rw [compile_of_pass_ok happly hpass] at h
    cases h
  | error e' d =>
    rw [compile_of_pass_error happly hpass] at h
    cases h
    refine ⟨rfl, ?_⟩
    have htags (flavor : Flavor) : (Host.restore c.tags d.host).tags.get flavor =
        if (c.tags.get flavor).Full then c.tags.get flavor else d.tags.get flavor :=
      Pipeline.get_restore c.tags d.host flavor
    rcases pass_error_cases hsteps hpass with ⟨hm, hnone⟩ | ⟨change, hasked, hfull, hkeyword, hm⟩
    · have hd : d.tags = c.tags := hm.host.tags_eq Pipeline.lawful.toExact
      refine .inl ⟨PerFlavor.ext_get fun flavor => (htags flavor).trans ?_, hnone⟩
      rw [hd, ite_self]
    · have hd : d.tags = c.tags.set change.flavor change.tags :=
        hm.host.tags_eq Pipeline.lawful.toExact
      refine .inr ⟨change, hasked, hfull, hkeyword, ?_, ?_⟩
      · intro hsame
        by_contra hnot
        -- the pair before is refused, so the pair of the change is still in force
        have hget := (htags change.flavor).symm.trans (congrArg (·.get change.flavor) hsame)
        rw [if_neg hnot, hd, PerFlavor.get_set, if_pos rfl] at hget
        exact hnot (hget ▸ hfull)
      · refine fun hbefore => PerFlavor.ext_get fun flavor => (htags flavor).trans ?_
        rw [hd, PerFlavor.get_set]
        split
        · rfl
        · next hnot =>
          have hne : flavor ≠ change.flavor := fun heq => hnot (heq ▸ hbefore)
          rw [if_neg hne]

/-! ## Compilations that change nothing when they fail -/

/-- Every pair is full, or one of the directives is never found. -/
def Restores (tags : Tags) (keywords : PerFlavor Text) : Prop :=
  (∀ flavor, (tags.get flavor).Full) ∨ ∃ flavor, keywords.get flavor = []

theorem tags_of_compile_error_of_restores (hsteps : c.host.steps = [.echos, .includes])
    (hrevert : c.revertPending = false) (hrestores : Restores c.tags c.keywords)
    (h : compile source c = .error e c') : c'.tags = c.tags := by
  rcases (tags_of_compile_error hsteps hrevert h).2 with ⟨hsame, -⟩ |
    ⟨change, hasked, -, hkeyword, hiff⟩
  · exact hsame
  · rcases hrestores with hfull | ⟨_ | _, hnone⟩
    · exact hiff.mpr (hfull change.flavor)
    · rw [asked?, hnone] at hasked
      cases hasked
    · exact absurd hnone hkeyword

/-- What compilations alone lead to from options under which all is restored. -/
structure Restorable (c : Compiler Pipeline) : Prop where
  steps : c.host.steps = [.echos, .includes]
  revertPending : c.revertPending = false
  restores : Restores c.tags c.keywords
  last_eq : ∀ flavor, (c.histories.get flavor).last = c.tags.get flavor

theorem Restorable.ofHost {tags : Tags} {keywords : PerFlavor Text} (h : Restores tags keywords) :
    Restorable (Compiler.ofHost (.ofTags tags) keywords) := by
  refine ⟨rfl, rfl, h, fun flavor => ?_⟩
  exact (inStep_iff.mp (inStep_ofHost (Pipeline.ofTags tags) keywords) flavor).2

/-- Changes that are granted keep the pairs full and the histories in step. -/
theorem Restorable.moved {changes : List TagChange} (hc : Restorable c) (h : Moved changes c c') :
    Restorable c' := by
  have hs := h.shifted Pipeline.lawful
  refine ⟨(Pipeline.steps_of_granted h.host).trans hc.steps, h.revertPending.trans hc.revertPending,
    ?_, fun flavor => ?_⟩
  · rcases hc.restores with hfull | hkeyword
    · exact .inl (hs.acceptable hfull)
    · exact .inr (h.keywords ▸ hkeyword)
  · rw [hs.histories, hs.tags, TagChange.get_record, History.last_extend, TagChange.get_apply,
      hc.last_eq]

/-- One compilation, whether it fails or not. -/
theorem Restorable.compile (hc : Restorable c) (source : Text) :
    Restorable (final (Compiler.compile source) c) := by
  have happly := applyRevert_of_not_pending hc.revertPending
  cases hpass : pass source c with
  | ok text d =>
    obtain ⟨changes, hm⟩ := reached_pass source c
    rw [final_of_ok hpass] at hm
    rw [final_of_ok (compile_of_pass_ok happly hpass)]
    exact hc.moved hm
  | error e d =>
    have herror := compile_of_pass_error happly hpass
    have htags := tags_of_compile_error_of_restores hc.steps hc.revertPending hc.restores herror
    have hsetup := kept_sameSetup.compile source c
    rw [final_of_error herror] at hsetup ⊢
    refine ⟨(congrArg Setup.steps hsetup).trans hc.steps, hc.revertPending, ?_, ?_⟩
    · rw [htags]
      exact hc.restores
    · rw [htags]
      exact hc.last_eq

/-! ## A source that changes a pair and fails -/

/-- The third argument with which a directive for plain tags is one for a flavor. -/
def flag : Flavor → Text
  | .plain => "false".toList
  | .escaped => "true".toList

/-- A directive for plain tags that asks for a pair for a flavor, and a directive for escaped tags that
asks for nothing. -/
def halfDone (keywords : PerFlavor Text) (flavor : Flavor) : Text :=
  keywords.get .plain ++ ("(x,y,".toList ++ flag flavor ++ ")".toList ++
    (keywords.get .escaped ++ "(z)".toList))

theorem ofArgs_flag (flavor : Flavor) (opening closing : Text) :
    TagChange.ofArgs .plain [opening, closing, flag flavor] = .ok ⟨flavor, ⟨opening, closing⟩⟩ := by
  cases flavor <;> rfl

theorem full_xy : Delims.Full ⟨['x'], ['y']⟩ := by decide

/-- The change is made, and then the other directive fails. -/
theorem compile_halfDone (hkeywords : ∀ flavor, c.keywords.get flavor ≠ [])
    (hrevert : c.revertPending = false) (flavor : Flavor) :
    asked? c.keywords .plain (halfDone c.keywords flavor) = some ⟨flavor, ⟨['x'], ['y']⟩⟩ ∧
      ∃ c', compile (halfDone c.keywords flavor) c = .error (.tags (.argumentCount 1)) c' := by
  have hcall : Call.Says ("(x,y,".toList ++ flag flavor ++ ")".toList) [['x'], ['y'], flag flavor] :=
    Call.says_of_read? (by cases flavor <;> decide +kernel)
  have hother : Call.Says "(z)".toList [['z']] := Call.says_of_read? (by decide +kernel)
  have hplain := Directive.find?_append (hkeywords .plain) hcall
    (c.keywords.get .escaped ++ "(z)".toList)
  have hargs := ofArgs_flag flavor ['x'] ['y']
  obtain ⟨d, hfilter, hm⟩ := filter_of_full hplain hargs full_xy
  -- the first directive stands at the beginning, so it is what is stripped
  rw [← List.append_assoc, Directive.strip_append] at hfilter
  have hescaped := Directive.find?_append (hkeywords .escaped) hother []
  rw [List.append_nil, ← hm.keywords] at hescaped
  have herror : filter .escaped (d.keywords.get .escaped ++ "(z)".toList) d =
      .error (.tags (.argumentCount 1)) d := filter_of_args_error hescaped rfl
  rw [hm.keywords] at herror
  have hpass : pass (halfDone c.keywords flavor) c = .error (.tags (.argumentCount 1)) d := by
    rw [pass, halfDone, ← List.append_assoc, bind_of_ok hfilter, bind_of_error herror]
  exact ⟨asked?_of_ofArgs hplain hargs, _,
    compile_of_pass_error (applyRevert_of_not_pending hrevert) hpass⟩

end Compiler

namespace Renderer

open Compiler (Restores Restorable halfDone)

/-- A renderer that was asked for nothing but compilations. -/
def compiled (options : Options) (sources : List Text) : Renderer :=
  after (fun source => onCompiler (Compiler.compile source)) sources (ofOptions options)

theorem restorable_compile {r : Renderer} (h : Restorable r.compiler) (source : Text) :
    Restorable (final (onCompiler (Compiler.compile source)) r).compiler := by
  rw [final_onCompiler]
  exact h.compile source

/-- By induction on the sources. -/
theorem restorable_after {sources : List Text} {r : Renderer} (h : Restorable r.compiler) :
    Restorable
      (after (fun source => onCompiler (Compiler.compile source)) sources r).compiler := by
  induction sources generalizing r with
  | nil => exact h
  | cons source sources ih => exact ih (restorable_compile h source)

/-- **Which options let a failed compilation change the tags.** A failed compilation always leaves the
tags as they were, and equal to the last of the histories, exactly if all pairs among the options are
full or a keyword is empty. -/
theorem tags_of_compile_error_iff (options : Options) :
    (∀ (sources : List Text) (source : Text) (e : Error),
      let r := compiled options sources
      let r' := final (onCompiler (Compiler.compile source)) r
      answer (onCompiler (Compiler.compile source)) r = .error e →
        r.compiler.revertPending = false →
          r'.compiler.tags = r.compiler.tags ∧
            ∀ flavor, (r'.compiler.histories.get flavor).last = r'.compiler.tags.get flavor) ↔
      (∀ flavor, (options.tags.get flavor).Full) ∨ ∃ flavor, options.keywords.get flavor = [] := by
  constructor
  · intro h
    by_contra hnot
    obtain ⟨hfull, hkeywords⟩ := not_or.mp hnot
    obtain ⟨flavor, hflavor⟩ := not_forall.mp hfull
    let c := (ofOptions options).compiler
    obtain ⟨hasked, c', herror⟩ :=
      Compiler.compile_halfDone (c := c) (not_exists.mp hkeywords) rfl flavor
    have hrun := onCompiler_of_error (r := ofOptions options) herror
    have hsame := (h [] _ _ (answer_of_error hrun) rfl).1
    rw [compiled, after, List.foldl_nil, final_of_error hrun] at hsame
    rcases (Compiler.tags_of_compile_error rfl rfl herror).2 with ⟨-, hnone⟩ |
      ⟨change, hchange, -, -, hiff⟩
    · exact hnone _ hasked Compiler.full_xy
    · rw [hasked] at hchange
      cases hchange
      exact hflavor (hiff.mp hsame)
  · intro hrestores sources source e r r' h hrevert
    have hr : Restorable r.compiler := restorable_after (Restorable.ofHost hrestores)
    refine ⟨?_, (restorable_compile hr source).last_eq⟩
    show (final (onCompiler (Compiler.compile source)) r).compiler.tags = _
    cases hcompile : Compiler.compile source r.compiler with
    | ok text c' =>
      rw [answer_of_ok (onCompiler_of_ok hcompile)] at h
      cases h
    | error e' c' =>
      rw [final_of_error (onCompiler_of_error hcompile)]
      exact Compiler.tags_of_compile_error_of_restores hr.steps hrevert hr.restores hcompile

/-- With a plain default that has no closing tag: the directive for plain tags is taken back from the
history, but its pair stays in force. -/
theorem tags_of_compile_error_changed :
    let options : Options := { tags := ⟨⟨['{', '{'], []⟩, ({} : Options).tags.escaped⟩ }
    let source := "changecontenttags('<','>')changeescapedtags('a')".toList
    let r := compiled options []
    let r' := final (onCompiler (Compiler.compile source)) r
    answer (onCompiler (Compiler.compile source)) r = .error (.tags (.argumentCount 1)) ∧
      r.compiler.revertPending = false ∧ r.compiler.tags = options.tags ∧
      r'.compiler.tags = options.tags.set .plain ⟨['<'], ['>']⟩ ∧
      r'.compiler.histories.plain.toList = [options.tags.plain] ∧
      r'.compiler.tags ≠ r.compiler.tags ∧
      r'.compiler.histories.plain.last ≠ r'.compiler.tags.plain := by
  intro options source r r'
  exact ⟨by decide +kernel, rfl, rfl, by decide +kernel, by decide +kernel, by decide +kernel,
    by decide +kernel⟩

end Renderer

end Stencil
