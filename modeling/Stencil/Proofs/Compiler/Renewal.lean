import Stencil.Proofs.Compiler.Failure
import Stencil.Proofs.Compiler.Growth
import Stencil.Proofs.Compiler.Twins

/-!
# Compilers that begin again

A revert puts the pairs at the bottoms of the histories in force, and these are the ones that the host
has had at first. If nothing but the tags of a host matters, the compilation after a revert is the
first one of a new compiler, whatever came before (`compile_after_requestRevert`). The revert is made
once: the next compilation starts from the tags that this one leaves. And a request that is taken back
leaves no trace.
-/

namespace Stencil

open TagChange (record pairs)

namespace Compiler

variable {σ : Type} [Host σ] {accepts : Flavor → Delims → Prop} {host : σ}
  {keywords : PerFlavor Text} {c c' : Compiler σ}

/-! ## What stays from the beginning -/

/-- The host was asked for tags, and neither the keywords nor the bottoms of the histories changed. -/
structure Descends (c c' : Compiler σ) : Prop where
  host : Host.Asked c.host c'.host
  keywords : c'.keywords = c.keywords
  first : ∀ flavor, (c'.histories.get flavor).first = (c.histories.get flavor).first

instance : IsPreorder (Compiler σ) Descends where
  refl c := ⟨refl_of Host.Asked c.host, rfl, fun _ => rfl⟩
  trans _ _ _ hf hs := ⟨trans_of Host.Asked hf.host hs.host, hs.keywords.trans hf.keywords,
    fun flavor => (hs.first flavor).trans (hf.first flavor)⟩

theorem kept_descends : Kept (Descends : Compiler σ → Compiler σ → Prop) where
  reached := by
    rintro c c' ⟨changes, hm⟩
    exact ⟨⟨changes, hm.host⟩, hm.keywords, (extends_of_record hm.histories).first_eq⟩
  request c _ := ⟨refl_of Host.Asked c.host, rfl, fun _ => rfl⟩
  restore := by
    rintro start c' ⟨changes, hm⟩
    exact ⟨trans_of Host.Asked ⟨changes, hm.host⟩ (Host.asked_restore _ _), rfl, fun _ => rfl⟩

theorem Reachable.descends (h : Reachable host keywords c) : Descends (ofHost host keywords) c := by
  induction h with
  | start => exact refl_of Descends _
  | run _ command ih => exact trans_of Descends ih (kept_descends.run command _)
  | @setHostTags c _ flavor tags ih =>
    refine trans_of Descends ih ?_
    have hasked := Host.asked_setTags flavor tags c.host
    cases hset : Host.setTags flavor tags c.host with
    | ok _ d =>
      rw [final_of_ok hset] at hasked
      rw [final_of_ok (setHostTags_of_ok hset)]
      exact ⟨hasked, rfl, fun _ => rfl⟩
    | error e d =>
      rw [final_of_error hset] at hasked
      rw [final_of_error (setHostTags_of_error hset)]
      exact ⟨hasked, rfl, fun _ => rfl⟩

theorem Reachable.first_eq (h : Reachable host keywords c) (flavor : Flavor) :
    (c.histories.get flavor).first = (Host.tags host).get flavor := by
  rw [h.descends.first flavor]
  show (((Host.tags host).map fun tags => (⟨tags, []⟩ : History)).get flavor).first = _
  rw [PerFlavor.get_map]

theorem Reachable.after (h : Reachable host keywords c) (commands : List Command) :
    Reachable host keywords (after Command.run commands c) := by
  induction commands generalizing c with
  | nil => exact h
  | cons command commands ih => exact ih (h.run command)

/-! ## Compilers that cannot be told apart by their tags -/

/-- Two compilers over states of one host with the same tags in force, whose histories have grown by the
same pairs from `h` and from `h'`. -/
structure Matches (host : σ) (h h' : PerFlavor History) (c c' : Compiler σ) : Prop where
  asked : Host.Asked host c.host
  asked' : Host.Asked host c'.host
  tags : c.tags = c'.tags
  keywords : c.keywords = c'.keywords
  grown : ∃ changes, c.histories = record changes h ∧ c'.histories = record changes h'

section Matches

variable {h h' : PerFlavor History}

theorem alike_pushTags_of_tagsOnly (exact : Host.Exact σ) (honly : Host.TagsOnly host)
    (flavor : Flavor) (tags : Delims) :
    Alike (Matches host h h') (pushTags flavor tags) (pushTags flavor tags) := by
  intro c c' hm
  have hasked := trans_of Host.Asked hm.asked (Host.asked_setTags flavor tags c.host)
  have hasked' := trans_of Host.Asked hm.asked' (Host.asked_setTags flavor tags c'.host)
  have hanswer := honly.answers flavor tags hm.asked hm.asked' hm.tags
  obtain ⟨changes, hgrown, hgrown'⟩ := hm.grown
  cases hset : Host.setTags flavor tags c.host with
  | ok _ d =>
    rw [answer_of_ok hset] at hanswer
    have hset' := eq_ok_of_answer hanswer.symm
    rw [final_of_ok hset] at hasked
    refine .inl ⟨(), _, _, pushTags_of_ok hset, pushTags_of_ok hset', hasked, hasked', ?_, hm.keywords,
      changes ++ [⟨flavor, tags⟩], ?_, ?_⟩
    · show Host.tags d = Host.tags (final (Host.setTags flavor tags) c'.host)
      rw [exact.ok hset, exact.ok hset', show Host.tags c.host = Host.tags c'.host from hm.tags]
    · rw [TagChange.record_append, ← hgrown]
    · rw [TagChange.record_append, ← hgrown']
  | error e d =>
    rw [answer_of_error hset] at hanswer
    have hset' := eq_error_of_answer hanswer.symm
    rw [final_of_error hset] at hasked
    refine .inr ⟨e, _, _, pushTags_of_error hset, pushTags_of_error hset', hasked, hasked', ?_,
      hm.keywords, changes, hgrown, hgrown'⟩
    show Host.tags d = Host.tags (final (Host.setTags flavor tags) c'.host)
    rw [exact.error hset, exact.error hset', show Host.tags c.host = Host.tags c'.host from hm.tags]

theorem alike_compileHost_of_tagsOnly (honly : Host.TagsOnly host) (source : Text) :
    Alike (Matches host h h') (compileHost source) (compileHost source) := by
  intro c c' hm
  show (∃ a s t, compileHost source c = .ok a s ∧ compileHost source c' = .ok a t ∧ _) ∨ _
  unfold compileHost
  rw [← honly.compile hm.asked hm.asked' hm.tags]
  cases Host.compile c.host source with
  | ok text => exact .inl ⟨text, c, c', rfl, rfl, hm⟩
  | error e => exact .inr ⟨e, c, c', rfl, rfl, hm⟩

theorem alike_pass_of_tagsOnly (exact : Host.Exact σ) (honly : Host.TagsOnly host) (source : Text) :
    Alike (Matches host h h') (pass source) (pass source) := by
  have hfilter (flavor : Flavor) (source : Text) :
      Alike (Matches host h h') (filter flavor source) (filter flavor source) :=
    alike_filter_of_pushTags Matches.keywords (alike_pushTags_of_tagsOnly exact honly) flavor source
  exact (hfilter .plain source).bind fun source => (hfilter .escaped source).bind fun source =>
    alike_compileHost_of_tagsOnly honly source

/-- Compilations without a revert, from acceptable tags. -/
theorem compile_of_matches (lawful : Host.Lawful σ accepts) (honly : Host.TagsOnly host)
    (hm : Matches host h h' c c') (hc : Acceptable accepts c) (hrevert : c.revertPending = false)
    (hrevert' : c'.revertPending = false) (source : Text) :
    answer (compile source) c = answer (compile source) c' ∧
      (final (compile source) c).tags = (final (compile source) c').tags ∧
      ∃ changes, (final (compile source) c).histories = record changes h ∧
        (final (compile source) c').histories = record changes h' := by
  have happly := applyRevert_of_not_pending hrevert
  have happly' := applyRevert_of_not_pending hrevert'
  rcases alike_pass_of_tagsOnly lawful.toExact honly source c c' hm with
    ⟨text, d, d', hpass, hpass', hd⟩ | ⟨e, d, d', hpass, hpass', -⟩
  · have hcompile := compile_of_pass_ok happly hpass
    have hcompile' := compile_of_pass_ok happly' hpass'
    rw [answer_of_ok hcompile, answer_of_ok hcompile', final_of_ok hcompile, final_of_ok hcompile']
    exact ⟨rfl, hd.tags, hd.grown⟩
  · -- both are back where they have started
    have hcompile := compile_of_pass_error happly hpass
    have hcompile' := compile_of_pass_error happly' hpass'
    have hc' : Acceptable accepts c' := fun flavor => hm.tags ▸ hc flavor
    rw [answer_of_error hcompile, answer_of_error hcompile', final_of_error hcompile,
      final_of_error hcompile']
    refine ⟨rfl, ?_, hm.grown⟩
    show Host.tags (Host.restore c.tags d.host) = Host.tags (Host.restore c'.tags d'.host)
    rw [lawful.tags_restore hc, lawful.tags_restore hc', hm.tags]

/-- A compilation without a revert is that of a new compiler over a host with the same tags in force. -/
theorem compile_as_ofHost (lawful : Host.Lawful σ accepts) (honly : Host.TagsOnly host)
    (hasked : Host.Asked host c.host) {d : σ} (hd : Host.Asked host d)
    (htags : c.tags = Host.tags d) (hc : Acceptable accepts c) (hrevert : c.revertPending = false)
    (source : Text) :
    let new := ofHost d c.keywords
    answer (compile source) c = answer (compile source) new ∧
      (final (compile source) c).tags = (final (compile source) new).tags ∧
      ∀ flavor, ((final (compile source) c).histories.get flavor).toList =
        (c.histories.get flavor).toList ++
          ((final (compile source) new).histories.get flavor).toList.tail := by
  intro new
  have hm : Matches host c.histories new.histories c new :=
    ⟨hasked, hd, htags, rfl, [], (TagChange.record_nil _).symm, (TagChange.record_nil _).symm⟩
  obtain ⟨hanswer, htags', changes, hgrown, hgrown'⟩ :=
    compile_of_matches lawful honly hm hc hrevert rfl source
  refine ⟨hanswer, htags', fun flavor => ?_⟩
  have hnew : (new.histories.get flavor).later = [] := by
    show (((Host.tags d).map fun tags => (⟨tags, []⟩ : History)).get flavor).later = _
    rw [PerFlavor.get_map]
  rw [hgrown, hgrown', TagChange.get_record, TagChange.get_record]
  show _ = _ ++ ((new.histories.get flavor).later ++ pairs flavor changes)
  rw [hnew]
  rfl

end Matches

/-! ## Commands between a request and the next source -/

/-- A filter or a request for tags. -/
inductive Command.Tagging : Command → Prop where
  | filter (flavor : Flavor) (source : Text) : Tagging (.filter flavor source)
  | pushTags (flavor : Flavor) (tags : Delims) : Tagging (.pushTags flavor tags)

theorem Command.Tagging.reached {command : Command} (h : command.Tagging) :
    Keeps Reached (command.run : Action σ (Option Text)) := by
  cases h with
  | filter flavor source => exact (reached_filter flavor source).map _
  | pushTags flavor tags => exact (reached_pushTags flavor tags).bind fun _ => .pure _

theorem Command.Tagging.alike {R : Compiler σ → Compiler σ → Prop}
    (hkeywords : ∀ {c c'}, R c c' → c.keywords = c'.keywords)
    (hpush : ∀ flavor tags, Alike R (Compiler.pushTags flavor tags) (Compiler.pushTags flavor tags))
    {command : Command} (h : command.Tagging) : Alike R command.run command.run := by
  cases h with
  | filter flavor source =>
    exact (alike_filter_of_pushTags hkeywords hpush flavor source).map some
  | pushTags flavor tags => exact (hpush flavor tags).bind fun _ => .pure none

variable {steps : List Command}

theorem revertPending_after (hsteps : ∀ command ∈ steps, command.Tagging) (c : Compiler σ) :
    (after Command.run steps c).revertPending = c.revertPending := by
  obtain ⟨changes, hm⟩ := keeps_after (fun command hmem => (hsteps command hmem).reached) c
  exact hm.revertPending

/-- Such commands do the same whether a revert is due or not. -/
theorem after_of_revertPending (hsteps : ∀ command ∈ steps, command.Tagging) (revert : Bool)
    (c : Compiler σ) : after Command.run steps { c with revertPending := revert } =
      { after Command.run steps c with revertPending := revert } := by
  have hpush (flavor : Flavor) (tags : Delims) :
      Alike (fun c c' : Compiler σ => c' = { c with revertPending := revert })
        (pushTags flavor tags) (pushTags flavor tags) := by
    rintro c _ rfl
    cases hset : Host.setTags flavor tags c.host with
    | ok _ d => exact .inl ⟨(), _, _, pushTags_of_ok hset, pushTags_of_ok hset, rfl⟩
    | error e d => exact .inr ⟨e, _, _, pushTags_of_error hset, pushTags_of_error hset, rfl⟩
  have hkeywords {c c' : Compiler σ} (h : c' = { c with revertPending := revert }) :
      c.keywords = c'.keywords := h ▸ rfl
  exact after_of_alike (fun command hmem => (hsteps command hmem).alike hkeywords hpush) rfl

/-! ## The revert -/

/-- Accepted bottoms are put in force and recorded. -/
theorem applyRevert_of_accepted (lawful : Host.Lawful σ accepts) (hrevert : c.revertPending = true)
    (h : ∀ flavor, accepts flavor (c.histories.get flavor).first) :
    ∃ start, applyRevert c = .ok () start ∧
      ∀ flavor, start.tags.get flavor = (c.histories.get flavor).first ∧
        (start.histories.get flavor).toList =
          (c.histories.get flavor).toList ++ [(c.histories.get flavor).first] := by
  obtain ⟨d, hplain, htags⟩ := lawful.setTags_ok (h .plain) c.host
  obtain ⟨d', hescaped, htags'⟩ := lawful.setTags_ok (h .escaped) d
  rcases applyRevert_cases hrevert with ⟨e, _, hset, -⟩ | ⟨e, _, _, hset, hset', -⟩ |
    ⟨_, _, hset, hset', happly⟩
  · cases hset.symm.trans hplain
  · cases hset.symm.trans hplain
    cases hset'.symm.trans hescaped
  · cases hset.symm.trans hplain
    cases hset'.symm.trans hescaped
    refine ⟨_, happly, fun flavor => ⟨?_, ?_⟩⟩
    · show (Host.tags d').get flavor = _
      rw [htags', htags]
      cases flavor <;> rfl
    · rw [TagChange.get_record]
      cases flavor <;> rfl

/-- With a revert due, a compilation is the first one of a new compiler, after the bottoms have been
recorded once more. -/
theorem compile_of_requested (lawful : Host.Lawful σ accepts)
    (hhost : ∀ flavor, accepts flavor ((Host.tags host).get flavor)) (honly : Host.TagsOnly host)
    (hc : Reachable host keywords c) (hrevert : c.revertPending = true) (source : Text) :
    let new := ofHost host keywords
    answer (compile source) c = answer (compile source) new ∧
      (final (compile source) c).tags = (final (compile source) new).tags ∧
      ∀ flavor, ((final (compile source) c).histories.get flavor).toList =
        (c.histories.get flavor).toList ++ (Host.tags host).get flavor ::
          ((final (compile source) new).histories.get flavor).toList.tail := by
  intro new
  obtain ⟨start, happly, hstart⟩ := applyRevert_of_accepted lawful hrevert fun flavor => by
    rw [hc.first_eq]
    exact hhost flavor
  have hdescends : Descends new start := by
    refine trans_of Descends hc.descends ?_
    rw [← final_of_ok happly]
    exact kept_descends.applyRevert c
  have hkeywords : start.keywords = keywords := hdescends.keywords
  have htags : start.tags = Host.tags host := PerFlavor.ext_get fun flavor => by
    rw [(hstart flavor).1, hc.first_eq]
  have hdone : start.revertPending = false := by
    rw [← final_of_ok happly]
    exact revertPending_applyRevert c
  obtain ⟨hanswer, hfinal, hgrown⟩ := compile_as_ofHost lawful honly hdescends.host
    (refl_of Host.Asked host) htags (fun flavor => htags ▸ hhost flavor) hdone source
  rw [hkeywords] at hanswer hfinal hgrown
  have hcompile : compile source c = compile source start := compile_of_applyRevert_ok happly source
  rw [answer_congr hcompile, final_congr hcompile]
  refine ⟨hanswer, hfinal, fun flavor => ?_⟩
  rw [hgrown, (hstart flavor).2, hc.first_eq, List.append_assoc]
  rfl

/-- **A revert begins again, once.** The compiler is over a lawful host of which nothing but the tags
matters: one whose whole state is the pairs, or one that has more to it that neither its answers nor
its compilations show. A compilation after a request for the revert and any filters and requests for
tags is the first one of a new compiler. The compilations after it are those of a new compiler over the
host as it is left, so no pair from the bottom is recorded again. A request that is taken back has done
nothing. -/
theorem compile_after_requestRevert (lawful : Host.Lawful σ accepts)
    (hhost : ∀ flavor, accepts flavor ((Host.tags host).get flavor)) (honly : Host.TagsOnly host)
    (hc : Reachable host keywords c) (hsteps : ∀ command ∈ steps, command.Tagging)
    (source : Text) :
    let asked := after Command.run (.requestRevert true :: steps) c
    let renewed := final (compile source) asked
    let new := ofHost host keywords
    (answer (compile source) asked = answer (compile source) new ∧
        renewed.tags = (final (compile source) new).tags ∧
        (∀ flavor, (renewed.histories.get flavor).toList =
          (asked.histories.get flavor).toList ++ (Host.tags host).get flavor ::
            ((final (compile source) new).histories.get flavor).toList.tail) ∧
        renewed.revertPending = false) ∧
      (∀ more : List Command, (∀ command ∈ more, command.Tagging) → ∀ next : Text,
        let later := after Command.run more renewed
        let restarted := ofHost later.host keywords
        answer (compile next) later = answer (compile next) restarted ∧
          (final (compile next) later).tags = (final (compile next) restarted).tags ∧
          ∀ flavor, ((final (compile next) later).histories.get flavor).toList =
            (later.histories.get flavor).toList ++
              ((final (compile next) restarted).histories.get flavor).toList.tail) ∧
      after Command.run (.requestRevert true :: (steps ++ [.requestRevert false])) c =
        after Command.run steps { c with revertPending := false } := by
  intro asked renewed new
  have hasked : Reachable host keywords asked := hc.after _
  have hpending : asked.revertPending = true := revertPending_after hsteps _
  have hdone : renewed.revertPending = false := revertPending_compile source asked
  refine ⟨?_, fun more hmore next => ?_, ?_⟩
  · obtain ⟨hanswer, htags, hgrown⟩ :=
      compile_of_requested lawful hhost honly hasked hpending source
    exact ⟨hanswer, htags, hgrown, hdone⟩
  · have hrenewed : Reachable host keywords renewed := by
      have hrun := hasked.run (.compile source)
      rwa [show final (Command.run (.compile source)) asked = renewed from final_map _ _ _] at hrun
    have hlater : Reachable host keywords (after Command.run more renewed) := hrenewed.after more
    have hkeywords : (after Command.run more renewed).keywords = keywords := hlater.descends.keywords
    have hnext := compile_as_ofHost lawful honly hlater.descends.host hlater.descends.host rfl
      (hlater.acceptable lawful hhost) ((revertPending_after hmore _).trans hdone) next
    rwa [hkeywords] at hnext
  · show after Command.run (steps ++ [.requestRevert false]) { c with revertPending := true } = _
    rw [after_append]
    show { after Command.run steps { c with revertPending := true } with revertPending := false } = _
    rw [← after_of_revertPending hsteps]

/-- With the default tags and a step that fails on an exclamation mark, of a compiler whose plain tags
were changed behind its back: between the request and the source a filter changes the plain tags and a
request for escaped ones is refused. The compilation gives what a new compiler gives, and on the
history stand the default and the pair of its directive; one that fails records the default only. -/
theorem compile_after_requestRevert_default :
    let host := (Pipeline.ofTags ({} : Options).tags).register (.failIf ['f'] ['!'] ['m'])
    let keywords := ({} : Options).keywords
    let c := final (setHostTags .plain ⟨['<'], ['>']⟩) (ofHost host keywords)
    let steps : List Command :=
      [.filter .plain "changecontenttags('(',')')".toList, .pushTags .escaped ⟨[], ['b']⟩]
    let asked := after Command.run (.requestRevert true :: steps) c
    let source := "changecontenttags('[',']')a".toList
    let failing := "changecontenttags('[',']')!".toList
    Host.Lawful Pipeline (fun _ tags => tags.Full) ∧
      (∀ flavor, ((Host.tags host).get flavor).Full) ∧ Host.TagsOnly host ∧
      Reachable host keywords c ∧ (∀ command ∈ steps, command.Tagging) ∧
      asked.tags.plain = ⟨['('], [')']⟩ ∧
      answer (compile source) asked = .ok ['a'] ∧
      (final (compile source) asked).histories.plain.toList =
        [({} : Options).tags.plain, ⟨['('], [')']⟩, ({} : Options).tags.plain, ⟨['['], [']']⟩] ∧
      answer (compile failing) asked = .error (.step ['m']) ∧
      (final (compile failing) asked).histories.plain.toList =
        [({} : Options).tags.plain, ⟨['('], [')']⟩, ({} : Options).tags.plain] := by
  intro host keywords c steps asked source failing
  have hhost : ∀ flavor, ((Host.tags host).get flavor).Full := by
    intro flavor
    cases flavor <;> decide +kernel
  have hc : Reachable host keywords c := .setHostTags .start _ _
  have hsteps : ∀ command ∈ steps, command.Tagging := by
    intro command hmem
    rcases List.mem_cons.mp hmem with rfl | hmem
    · exact .filter _ _
    · obtain rfl := List.mem_singleton.mp hmem
      exact .pushTags _ _
  have renewed (source : Text) := (compile_after_requestRevert Pipeline.lawful hhost
    (Pipeline.tagsOnly host) hc hsteps source).1
  refine ⟨Pipeline.lawful, hhost, Pipeline.tagsOnly host, hc, hsteps, by decide +kernel, ?_, ?_, ?_, ?_⟩
  · exact (renewed source).1.trans (by decide +kernel)
  · exact ((renewed source).2.2.1 .plain).trans (by decide +kernel)
  · exact (renewed failing).1.trans (by decide +kernel)
  · exact ((renewed failing).2.2.1 .plain).trans (by decide +kernel)

end Compiler

end Stencil
