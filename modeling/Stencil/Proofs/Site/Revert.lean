import Stencil.Host.Recorder
import Stencil.Proofs.Compiler.Growth
import Stencil.Proofs.Site.Lift

/-!
# Reverts that fail

A revert asks for the plain default and then for the escaped one, and records each that is granted.
Nothing takes the first one back when the second is refused. So a failed revert changes nothing exactly
if it has failed on the plain default; else the plain tags are the default ones and the escaped tags
are what they were (`unchanged_of_applyRevert_error_iff`). On a site this depends on the options alone:
a default pair with an empty tag is refused whenever it is asked for (`Site.applyRevert_error_iff`).
-/

namespace Stencil

/-- A recorder refuses by what it has accepted so far, but it sets exactly what it accepts. -/
theorem Recorder.exact : Host.Exact Recorder where
  ok {flavor tags r r'} h := by
    have hset : setTags flavor tags r = .ok () r' := h
    simp only [setTags] at hset
    split at hset
    · cases hset
      rfl
    · cases hset
  error {flavor tags e r r'} h := by
    have hset : setTags flavor tags r = .error e r' := h
    simp only [setTags] at hset
    split at hset
    · cases hset
    · cases hset
      rfl

namespace Compiler

section Host

variable {σ : Type} [Host σ]

/-- A host refuses a pair in its present state. -/
def Refuses (host : σ) (flavor : Flavor) (tags : Delims) : Prop :=
  ∃ e, answer (Host.setTags flavor tags) host = .error e

theorem refuses_of_error {host host' : σ} {flavor : Flavor} {tags : Delims} {e : Error}
    (h : Host.setTags flavor tags host = .error e host') : Refuses host flavor tags :=
  ⟨e, answer_of_error h⟩

theorem not_refuses_of_ok {host host' : σ} {flavor : Flavor} {tags : Delims}
    (h : Host.setTags flavor tags host = .ok () host') : ¬Refuses host flavor tags := by
  rintro ⟨e, he⟩
  rw [answer_of_ok h] at he
  cases he

/-- Over an exact host a failed revert leaves all as it was, or only the plain default is in force and
recorded. -/
theorem applyRevert_error_cases (exact : Host.Exact σ) {c : Compiler σ}
    (hrevert : c.revertPending = true) {e : Error} (h : answer applyRevert c = .error e) :
    let c' := final applyRevert c
    let plain := c.histories.plain.first
    (Refuses c.host .plain plain ∧ c'.histories = c.histories ∧ c'.tags = c.tags) ∨
      (¬Refuses c.host .plain plain ∧
        c'.histories = c.histories.set .plain (c.histories.plain.push plain) ∧
        c'.tags = c.tags.set .plain plain) := by
  rcases applyRevert_cases hrevert with ⟨e', host, hplain, happly⟩ |
    ⟨e', host, host', hplain, hescaped, happly⟩ | ⟨host, host', -, -, happly⟩
  · rw [final_of_error happly]
    exact .inl ⟨refuses_of_error hplain, rfl, exact.error hplain⟩
  · rw [final_of_error happly]
    refine .inr ⟨not_refuses_of_ok hplain, TagChange.record_singleton _ _, ?_⟩
    exact (exact.error hescaped).trans (exact.ok hplain)
  · rw [answer_of_ok happly] at h
    cases h

/-- The plain default is the one that decides. -/
theorem unchanged_iff_refuses (exact : Host.Exact σ) {c : Compiler σ}
    (hrevert : c.revertPending = true) {e : Error} (h : answer applyRevert c = .error e) :
    let c' := final applyRevert c
    c'.histories = c.histories ∧ c'.tags = c.tags ↔ Refuses c.host .plain c.histories.plain.first := by
  rcases applyRevert_error_cases exact hrevert h with ⟨hrefuses, hsame⟩ | ⟨hgranted, hhistories, -⟩
  · exact ⟨fun _ => hrefuses, fun _ => hsame⟩
  · refine ⟨fun hsame => ?_, fun hrefuses => absurd hrefuses hgranted⟩
    -- the plain history is longer than it was
    have hsize := congrArg (·.plain.size) (hhistories.symm.trans hsame.1)
    simp [PerFlavor.set] at hsize

end Host

end Compiler

/-! ## The bottoms of the histories of a site -/

namespace Site

/-- No command to a site takes anything off a history, also not one that changes its host. -/
theorem extends_after (commands : List Command) (s : Site) :
    Lift Compiler.Extends s (after Command.run commands s) := by
  refine keeps_after (fun command _ => keeps_run Compiler.kept_extends.run ?_ ?_) s
  · rintro flavor tags - c
    cases hset : Host.setTags flavor tags c.host with
    | ok _ host =>
      rw [final_of_ok (Compiler.setHostTags_of_ok hset)]
      exact refl_of Compiler.Extends c
    | error e host =>
      rw [final_of_error (Compiler.setHostTags_of_error hset)]
      exact refl_of Compiler.Extends c
  · exact fun step _ r => ⟨refl_of Compiler.Extends r.compiler, rfl⟩

theorem first_after (views : Views) (options : Options) (commands : List Command) (flavor : Flavor) :
    let c := (after Command.run commands ⟨views, .ofOptions options⟩).renderer.compiler
    (c.histories.get flavor).first = options.tags.get flavor := by
  intro c
  have hextends : Compiler.Extends (Renderer.ofOptions options).compiler c :=
    (extends_after commands ⟨views, .ofOptions options⟩).compiler
  rw [hextends.first_eq flavor]
  show ((options.tags.map fun tags => (⟨tags, []⟩ : History)).get flavor).first = _
  rw [PerFlavor.get_map]

end Site

theorem Pipeline.refuses_iff {p : Pipeline} {flavor : Flavor} {tags : Delims} :
    Compiler.Refuses p flavor tags ↔ ¬tags.Full := by
  constructor
  · rintro ⟨e, he⟩ hfull
    rw [answer_of_ok (setTags_of_full hfull flavor p)] at he
    cases he
  · exact fun h => Compiler.refuses_of_error (setTags_of_not_full h flavor p)

/-- Over a pipeline a due revert fails exactly if a default has an empty tag. -/
theorem Compiler.applyRevert_error_iff {c : Compiler Pipeline} (hrevert : c.revertPending = true) :
    (∃ e, answer applyRevert c = .error e) ↔ ∃ flavor, ¬(c.histories.get flavor).first.Full := by
  rcases applyRevert_cases hrevert with ⟨e, host, hplain, happly⟩ |
    ⟨e, host, host', -, hescaped, happly⟩ | ⟨host, host', hplain, hescaped, happly⟩
  · rw [answer_of_error happly]
    exact ⟨fun _ => ⟨.plain, Pipeline.refuses_iff.mp (refuses_of_error hplain)⟩, fun _ => ⟨e, rfl⟩⟩
  · rw [answer_of_error happly]
    exact ⟨fun _ => ⟨.escaped, Pipeline.refuses_iff.mp (refuses_of_error hescaped)⟩, fun _ => ⟨e, rfl⟩⟩
  · rw [answer_of_ok happly]
    constructor
    · rintro ⟨e, he⟩
      cases he
    · rintro ⟨_ | _, hnot⟩
      · exact absurd (Pipeline.refuses_iff.mpr hnot) (not_refuses_of_ok hplain)
      · exact absurd (Pipeline.refuses_iff.mpr hnot) (not_refuses_of_ok hescaped)

/-- **A failed revert changes no tags exactly if it has failed on the plain default.** Else the plain
default is in force and recorded, and the escaped tags are what they were. This holds over every host
that sets exactly what it accepts. -/
theorem unchanged_of_applyRevert_error_iff {σ : Type} [Host σ] (exact : Host.Exact σ)
    {c : Compiler σ} (hrevert : c.revertPending = true) {e : Error}
    (h : answer Compiler.applyRevert c = .error e) :
    let c' := final Compiler.applyRevert c
    let plain := c.histories.plain.first
    (c'.histories = c.histories ∧ c'.tags = c.tags ↔ Compiler.Refuses c.host .plain plain) ∧
      (¬Compiler.Refuses c.host .plain plain →
        c'.histories = c.histories.set .plain (c.histories.plain.push plain) ∧
          c'.tags = c.tags.set .plain plain) := by
  refine ⟨Compiler.unchanged_iff_refuses exact hrevert h, fun hgranted => ?_⟩
  rcases Compiler.applyRevert_error_cases exact hrevert h with ⟨hrefuses, -⟩ | ⟨-, hleft⟩
  · exact absurd hrefuses hgranted
  · exact hleft

/-- A recorder that refuses the escaped default takes the plain one, and a pipeline with an empty plain
default refuses that one first. -/
theorem unchanged_of_applyRevert_error_recorder :
    let host : Recorder :=
      { tags := ⟨⟨['a'], ['b']⟩, ⟨['c'], ['d']⟩⟩, refused := [['c']] }
    let pipeline := Pipeline.ofTags ⟨⟨[], ['b']⟩, ⟨['c'], ['d']⟩⟩
    let commands : List Compiler.Command := [.pushTags .plain ⟨['['], [']']⟩, .requestRevert true]
    let c := after Compiler.Command.run commands (Compiler.ofHost host ({} : Options).keywords)
    let d := after Compiler.Command.run commands (Compiler.ofHost pipeline ({} : Options).keywords)
    Host.Exact Recorder ∧ c.revertPending = true ∧
      answer Compiler.applyRevert c = .error (.tags (.refused ⟨['c'], ['d']⟩)) ∧
      (final Compiler.applyRevert c).tags = c.tags.set .plain ⟨['a'], ['b']⟩ ∧
      Host.Exact Pipeline ∧ d.revertPending = true ∧
      answer Compiler.applyRevert d = .error (.tags (.emptyTag .plain ⟨[], ['b']⟩)) ∧
      (final Compiler.applyRevert d).histories = d.histories ∧
      (final Compiler.applyRevert d).tags = d.tags := by
  intro host pipeline commands c d
  have hc : answer Compiler.applyRevert c = .error (.tags (.refused ⟨['c'], ['d']⟩)) := by
    decide +kernel
  have hd : answer Compiler.applyRevert d = .error (.tags (.emptyTag .plain ⟨[], ['b']⟩)) := by
    decide +kernel
  have hgranted : ¬Compiler.Refuses c.host .plain c.histories.plain.first := by
    rintro ⟨e, he⟩
    have hok : answer (Host.setTags .plain c.histories.plain.first) c.host = .ok () := by
      decide +kernel
    rw [hok] at he
    cases he
  have hrefused : Compiler.Refuses d.host .plain d.histories.plain.first :=
    Pipeline.refuses_iff.mpr (by decide +kernel)
  have hleft := (unchanged_of_applyRevert_error_iff Recorder.exact rfl hc).2 hgranted
  have hsame :=
    (unchanged_of_applyRevert_error_iff Pipeline.lawful.toExact rfl hd).1.mpr hrefused
  exact ⟨Recorder.exact, rfl, hc, hleft.2, Pipeline.lawful.toExact, rfl, hd, hsame⟩

/-- With the default plain tags and an escaped default without an opening tag: after other plain tags
were put in force, a failed revert leaves the default ones in force and recorded, while the escaped
tags and their history are what they were. -/
theorem applyRevert_error_changed :
    let options : Options := { tags := ⟨({} : Options).tags.plain, ⟨[], ['x']⟩⟩ }
    let c := (after Site.Command.run
      [.compiler (.pushTags .plain ⟨['['], [']']⟩), .compiler (.requestRevert true)]
      ⟨.empty, .ofOptions options⟩).renderer.compiler
    let c' := final Compiler.applyRevert c
    Host.Exact Pipeline ∧ c.revertPending = true ∧
      answer Compiler.applyRevert c = .error (.tags (.emptyTag .escaped ⟨[], ['x']⟩)) ∧
      c.tags.plain = ⟨['['], [']']⟩ ∧ c'.tags.plain = options.tags.plain ∧
      c.histories.plain.toList = [options.tags.plain, ⟨['['], [']']⟩] ∧
      c'.histories.plain.toList = [options.tags.plain, ⟨['['], [']']⟩, options.tags.plain] ∧
      c'.histories.escaped = c.histories.escaped ∧
      ¬(c'.histories = c.histories ∧ c'.tags = c.tags) := by
  intro options c c'
  exact ⟨Pipeline.lawful.toExact, rfl, by decide +kernel, by decide +kernel, by decide +kernel,
    by decide +kernel, by decide +kernel, by decide +kernel, by decide +kernel⟩

/-- **On a site the options decide.** Whatever the site was asked before, a due revert fails exactly if a
default has an empty tag, and then it leaves all tags as they were exactly if the plain default has
one. -/
theorem Site.applyRevert_error_iff (options : Options) (views : Views) (commands : List Site.Command) :
    let c := (after Site.Command.run commands ⟨views, .ofOptions options⟩).renderer.compiler
    let c' := final Compiler.applyRevert c
    c.revertPending = true →
      ((∃ e, answer Compiler.applyRevert c = .error e) ↔
          ∃ flavor, ¬(options.tags.get flavor).Full) ∧
        ∀ e, answer Compiler.applyRevert c = .error e →
          (c'.histories = c.histories ∧ c'.tags = c.tags ↔ ¬options.tags.plain.Full) := by
  intro c c' hrevert
  have hfirst (flavor : Flavor) : (c.histories.get flavor).first = options.tags.get flavor :=
    Site.first_after views options commands flavor
  have hplain : c.histories.plain.first = options.tags.plain := hfirst .plain
  constructor
  · rw [Compiler.applyRevert_error_iff hrevert]
    exact exists_congr fun flavor => by rw [hfirst flavor]
  · intro e h
    rw [← hplain, ← Pipeline.refuses_iff]
    exact Compiler.unchanged_iff_refuses Pipeline.lawful.toExact hrevert h

end Stencil
