import Stencil.Compiler.Command
import Stencil.Proofs.Host.Requests

/-!
# The steps of a compiler

A compiler changes its tags by requests to its host, and it records exactly the changes that are
granted. `Moved` says this of two states of a compiler over any host. Every action is of this kind
except a failed compilation, which leaves nothing but a host that was asked for the earlier tags
(`compile_of_pass_error`). So three things have to be shown of a relation that every command is to keep
(`Kept.run`).
-/

namespace Stencil

open TagChange (record)

namespace Compiler

variable {σ : Type} [Host σ]

/-- From one state of a compiler to another by requests to its host, all that were granted being
recorded. -/
structure Moved (changes : List TagChange) (c c' : Compiler σ) : Prop where
  host : Host.Granted c.host changes c'.host
  histories : c'.histories = record changes c.histories
  keywords : c'.keywords = c.keywords
  revertPending : c'.revertPending = c.revertPending

theorem Moved.refl (c : Compiler σ) : Moved [] c c :=
  ⟨.nil _, (TagChange.record_nil _).symm, rfl, rfl⟩

theorem Moved.trans {first second : List TagChange} {c c' c'' : Compiler σ}
    (hf : Moved first c c') (hs : Moved second c' c'') : Moved (first ++ second) c c'' :=
  ⟨hf.host.trans hs.host, by rw [TagChange.record_append, hs.histories, hf.histories],
    hs.keywords.trans hf.keywords, hs.revertPending.trans hf.revertPending⟩

/-- A state that is reached by some changes. -/
def Reached (c c' : Compiler σ) : Prop := ∃ changes, Moved changes c c'

instance : IsPreorder (Compiler σ) Reached where
  refl c := ⟨[], .refl c⟩
  trans _ _ _ := fun ⟨_, hf⟩ ⟨_, hs⟩ => ⟨_, hf.trans hs⟩

theorem setHostTags_of_ok {flavor : Flavor} {tags : Delims} {c : Compiler σ} {host : σ}
    (h : Host.setTags flavor tags c.host = .ok () host) :
    setHostTags flavor tags c = .ok () { c with host := host } := by
  rw [setHostTags, h]

theorem setHostTags_of_error {flavor : Flavor} {tags : Delims} {c : Compiler σ} {host : σ}
    {e : Error} (h : Host.setTags flavor tags c.host = .error e host) :
    setHostTags flavor tags c = .error e { c with host := host } := by
  rw [setHostTags, h]

theorem pushTags_of_ok {flavor : Flavor} {tags : Delims} {c : Compiler σ} {host : σ}
    (h : Host.setTags flavor tags c.host = .ok () host) :
    pushTags flavor tags c =
      .ok () { c with host := host, histories := record [⟨flavor, tags⟩] c.histories } := by
  rw [pushTags, bind_of_ok (setHostTags_of_ok h), TagChange.record_singleton]
  rfl

theorem pushTags_of_error {flavor : Flavor} {tags : Delims} {c : Compiler σ} {host : σ}
    {e : Error} (h : Host.setTags flavor tags c.host = .error e host) :
    pushTags flavor tags c = .error e { c with host := host } := by
  rw [pushTags, bind_of_error (setHostTags_of_error h)]

/-- A request that is granted is recorded, and one that is refused is not. -/
theorem pushTags_cases (flavor : Flavor) (tags : Delims) (c : Compiler σ) :
    (∃ c', pushTags flavor tags c = .ok () c' ∧ Moved [⟨flavor, tags⟩] c c') ∨
      ∃ e c', pushTags flavor tags c = .error e c' ∧ Moved [] c c' := by
  cases h : Host.setTags flavor tags c.host with
  | ok _ host =>
    exact .inl ⟨_, pushTags_of_ok h, .accepted (.nil _) h, rfl, rfl, rfl⟩
  | error e host =>
    exact .inr ⟨e, _, pushTags_of_error h, .refused (.nil _) h, (TagChange.record_nil _).symm,
      rfl, rfl⟩

theorem reached_pushTags (flavor : Flavor) (tags : Delims) :
    Keeps Reached (pushTags flavor tags : Action σ Unit) := by
  intro c
  rcases pushTags_cases flavor tags c with ⟨c', h, hm⟩ | ⟨e, c', h, hm⟩
  · exact final_of_ok h ▸ ⟨_, hm⟩
  · exact final_of_error h ▸ ⟨_, hm⟩

theorem filter_of_none {flavor : Flavor} {source : Text} {c : Compiler σ}
    (h : Directive.find? (c.keywords.get flavor) source = none) :
    filter flavor source c = .ok source c := by
  rw [filter]
  refine (bind_of_ok rfl _).trans ?_
  rw [h]
  rfl

theorem filter_eq_of_some {flavor : Flavor} {source : Text} {c : Compiler σ} {m : Directive.Match}
    (h : Directive.find? (c.keywords.get flavor) source = some m) : filter flavor source c =
      (change flavor m.args >>= fun _ => pure (Directive.strip m.text source) : Action σ Text) c := by
  rw [filter]
  refine (bind_of_ok rfl _).trans ?_
  rw [h]

theorem change_of_ok {flavor : Flavor} {args : List Text} {asked : TagChange}
    (h : TagChange.ofArgs flavor args = .ok asked) :
    (change flavor args : Action σ Unit) = pushTags asked.flavor asked.tags := by
  rw [change, h]

/-- A directive whose arguments ask for nothing changes nothing. -/
theorem filter_of_args_error {flavor : Flavor} {source : Text} {c : Compiler σ}
    {m : Directive.Match} (h : Directive.find? (c.keywords.get flavor) source = some m)
    {e : TagError} (hargs : TagChange.ofArgs flavor m.args = .error e) :
    filter flavor source c = .error (.tags e) c := by
  have hchange : change flavor m.args c = .error (.tags e) c := by
    rw [change, hargs]
    rfl
  rw [filter_eq_of_some h, bind_of_error hchange]

/-- A directive that is found is taken out and its change is made, or the filter fails and nothing is
recorded. -/
theorem filter_of_some {flavor : Flavor} {source : Text} {c : Compiler σ} {m : Directive.Match}
    (h : Directive.find? (c.keywords.get flavor) source = some m) :
    (∃ change c', TagChange.ofArgs flavor m.args = .ok change ∧ Moved [change] c c' ∧
        filter flavor source c = .ok (Directive.strip m.text source) c') ∨
      ∃ e c', Moved [] c c' ∧ filter flavor source c = .error e c' := by
  cases hargs : TagChange.ofArgs flavor m.args with
  | error e => exact .inr ⟨.tags e, c, .refl c, filter_of_args_error h hargs⟩
  | ok asked =>
    rw [filter_eq_of_some h, change_of_ok hargs]
    rcases pushTags_cases asked.flavor asked.tags c with ⟨c', hpush, hm⟩ | ⟨e, c', hpush, hm⟩
    · exact .inl ⟨asked, c', rfl, hm, bind_of_ok hpush _⟩
    · exact .inr ⟨e, c', hm, bind_of_error hpush _⟩

/-- A filter that succeeds has found no directive and done nothing, or it has taken one out and made its
change. -/
theorem filter_ok_cases {flavor : Flavor} {source text : Text} {c c' : Compiler σ}
    (h : filter flavor source c = .ok text c') :
    (Directive.find? (c.keywords.get flavor) source = none ∧ text = source ∧ c' = c) ∨
      ∃ m change, Directive.find? (c.keywords.get flavor) source = some m ∧
        text = Directive.strip m.text source ∧ TagChange.ofArgs flavor m.args = .ok change ∧
        Moved [change] c c' := by
  cases hfind : Directive.find? (c.keywords.get flavor) source with
  | none =>
    rw [filter_of_none hfind] at h
    cases h
    exact .inl ⟨rfl, rfl, rfl⟩
  | some m =>
    rcases filter_of_some hfind with ⟨change, d, hargs, hm, hfilter⟩ | ⟨e, d, -, hfilter⟩
    · cases hfilter.symm.trans h
      exact .inr ⟨m, change, rfl, rfl, hargs, hm⟩
    · cases hfilter.symm.trans h

theorem filter_error_cases {flavor : Flavor} {source : Text} {c c' : Compiler σ} {e : Error}
    (h : filter flavor source c = .error e c') :
    (∃ m, Directive.find? (c.keywords.get flavor) source = some m) ∧ Moved [] c c' := by
  cases hfind : Directive.find? (c.keywords.get flavor) source with
  | none =>
    rw [filter_of_none hfind] at h
    cases h
  | some m =>
    rcases filter_of_some hfind with ⟨change, d, -, -, hfilter⟩ | ⟨e', d, hm, hfilter⟩
    · cases hfilter.symm.trans h
    · cases hfilter.symm.trans h
      exact ⟨⟨m, rfl⟩, hm⟩

theorem reached_filter (flavor : Flavor) (source : Text) :
    Keeps Reached (filter flavor source : Action σ Text) := by
  intro c
  cases h : Directive.find? (c.keywords.get flavor) source with
  | none =>
    rw [final_of_ok (filter_of_none h)]
    exact refl_of Reached c
  | some m =>
    rcases filter_of_some h with ⟨change, c', -, hm, hfilter⟩ | ⟨e, c', hm, hfilter⟩
    · exact final_of_ok hfilter ▸ ⟨_, hm⟩
    · exact final_of_error hfilter ▸ ⟨_, hm⟩

theorem final_compileHost (source : Text) (c : Compiler σ) : final (compileHost source) c = c := by
  unfold final compileHost
  cases Host.compile c.host source <;> rfl

theorem reached_pass (source : Text) : Keeps Reached (pass source : Action σ Text) := by
  refine (reached_filter _ _).bind fun source => (reached_filter _ _).bind fun source c => ?_
  rw [final_compileHost]
  exact refl_of Reached c

/-! ### The revert -/

theorem applyRevert_of_not_pending {c : Compiler σ} (h : c.revertPending = false) :
    applyRevert c = .ok () c := by
  show (if c.revertPending then _ else _ : Action σ Unit) c = _
  rw [h]
  rfl

theorem applyRevert_of_pending {c : Compiler σ} (h : c.revertPending = true) :
    applyRevert c = (do
      pushTags .plain c.histories.plain.first
      pushTags .escaped c.histories.escaped.first : Action σ Unit)
        { c with revertPending := false } := by
  show (if c.revertPending then _ else _ : Action σ Unit) c = _
  rw [h]
  rfl

/-- A revert fails on the plain default, or it fails on the escaped one and leaves the plain one in
force and recorded, or both are granted. -/
theorem applyRevert_cases {c : Compiler σ} (h : c.revertPending = true) :
    (∃ e host, Host.setTags .plain c.histories.plain.first c.host = .error e host ∧
        applyRevert c = .error e { c with host := host, revertPending := false }) ∨
      (∃ e host host', Host.setTags .plain c.histories.plain.first c.host = .ok () host ∧
        Host.setTags .escaped c.histories.escaped.first host = .error e host' ∧
        applyRevert c = .error e { c with
          host := host', revertPending := false
          histories := record [⟨.plain, c.histories.plain.first⟩] c.histories }) ∨
      ∃ host host', Host.setTags .plain c.histories.plain.first c.host = .ok () host ∧
        Host.setTags .escaped c.histories.escaped.first host = .ok () host' ∧
        applyRevert c = .ok () { c with
          host := host', revertPending := false
          histories := record
            [⟨.plain, c.histories.plain.first⟩, ⟨.escaped, c.histories.escaped.first⟩]
            c.histories } := by
  rw [applyRevert_of_pending h]
  cases hplain : Host.setTags .plain c.histories.plain.first c.host with
  | error e host =>
    have hfirst := pushTags_of_error (c := { c with revertPending := false }) hplain
    exact .inl ⟨e, host, rfl, bind_of_error hfirst _⟩
  | ok _ host =>
    have hfirst := pushTags_of_ok (c := { c with revertPending := false }) hplain
    cases hescaped : Host.setTags .escaped c.histories.escaped.first host with
    | error e host' =>
      refine .inr (.inl ⟨e, host, host', rfl, hescaped, ?_⟩)
      rw [bind_of_ok hfirst, pushTags_of_error hescaped]
    | ok _ host' =>
      refine .inr (.inr ⟨host, host', rfl, hescaped, ?_⟩)
      rw [bind_of_ok hfirst, pushTags_of_ok hescaped, ← TagChange.record_cons]

/-- The revert uses up the request and makes changes. -/
theorem reached_applyRevert (c : Compiler σ) :
    Reached { c with revertPending := false } (final applyRevert c) := by
  cases h : c.revertPending with
  | false =>
    rw [final_of_ok (applyRevert_of_not_pending h), ← h]
    exact refl_of Reached c
  | true =>
    rw [final, applyRevert_of_pending h]
    exact (reached_pushTags _ _).bind (fun _ => reached_pushTags _ _) _

theorem revertPending_applyRevert (c : Compiler σ) : (final applyRevert c).revertPending = false := by
  obtain ⟨changes, hm⟩ := reached_applyRevert c
  exact hm.revertPending

/-! ### Compiling -/

theorem compile_of_applyRevert_error {c c' : Compiler σ} {e : Error}
    (h : applyRevert c = .error e c') (source : Text) : compile source c = .error e c' := by
  rw [compile, bind_of_error h]

/-- Compiling goes on from where the revert has led. -/
theorem compile_of_applyRevert_ok {c start : Compiler σ} (h : applyRevert c = .ok () start)
    (source : Text) : compile source c = compile source start := by
  have hrevert : start.revertPending = false := by
    rw [← final_of_ok h]
    exact revertPending_applyRevert c
  rw [compile, bind_of_ok h, bind_of_ok (applyRevert_of_not_pending hrevert)]

theorem compile_of_pass_ok {c start c' : Compiler σ} {source text : Text}
    (hr : applyRevert c = .ok () start) (hp : pass source start = .ok text c') :
    compile source c = .ok text c' := by
  rw [compile, bind_of_ok hr]
  exact (bind_of_ok rfl _).trans (tryCatch_of_ok hp _)

theorem attempt_setHostTags (flavor : Flavor) (tags : Delims) (c : Compiler σ) :
    attempt (setHostTags flavor tags) c =
      .ok () { c with host := final (Host.setTags flavor tags) c.host } := by
  cases h : Host.setTags flavor tags c.host with
  | ok _ host => rw [attempt, setHostTags_of_ok h, final_of_ok h]
  | error e host => rw [attempt, setHostTags_of_error h, final_of_error h]

theorem rollback_eq (start c : Compiler σ) :
    rollback start c = .ok () { c with
      host := Host.restore start.tags c.host
      histories := .of fun flavor =>
        (c.histories.get flavor).truncate (start.histories.get flavor).size } := by
  rw [rollback]
  refine (bind_of_ok rfl _).trans ?_
  rw [bind_of_ok (attempt_setHostTags _ _ _), attempt_setHostTags]
  rfl

/-- A failed pass leaves nothing but a host that was asked for the earlier tags. -/
theorem compile_of_pass_error {c start c' : Compiler σ} {source : Text} {e : Error}
    (hr : applyRevert c = .ok () start) (hp : pass source start = .error e c') :
    compile source c = .error e { start with host := Host.restore start.tags c'.host } := by
  obtain ⟨changes, hm⟩ := reached_pass source start
  rw [final_of_error hp] at hm
  -- the rollback takes off exactly what the pass has recorded
  have hhistories : (PerFlavor.of fun flavor =>
      (c'.histories.get flavor).truncate (start.histories.get flavor).size) = start.histories := by
    refine PerFlavor.ext_get fun flavor => ?_
    rw [PerFlavor.get_of, hm.histories, TagChange.get_record, History.truncate_extend]
  rw [compile, bind_of_ok hr]
  refine (bind_of_ok rfl _).trans ((tryCatch_of_error hp _).trans ?_)
  rw [bind_of_ok (rollback_eq start c'), hhistories, hm.keywords, hm.revertPending]
  rfl

/-- A compilation makes changes once the request for the revert is used up, or the revert fails, or
the pass fails and the host is asked for the tags before it. -/
theorem compile_cases (source : Text) (c : Compiler σ) :
    (∃ text c', compile source c = .ok text c' ∧
        Reached { c with revertPending := false } c') ∨
      (∃ e start, compile source c = .error e start ∧
        Reached { c with revertPending := false } start) ∨
      ∃ e start c', Reached { c with revertPending := false } start ∧ Reached start c' ∧
        compile source c = .error e { start with host := Host.restore start.tags c'.host } := by
  have hr := reached_applyRevert c
  cases ha : applyRevert c with
  | error e start =>
    rw [final_of_error ha] at hr
    exact .inr (.inl ⟨e, start, compile_of_applyRevert_error ha source, hr⟩)
  | ok _ start =>
    rw [final_of_ok ha] at hr
    have hp := reached_pass source start
    cases hpass : pass source start with
    | ok text c' =>
      rw [final_of_ok hpass] at hp
      exact .inl ⟨text, c', compile_of_pass_ok ha hpass, trans_of Reached hr hp⟩
    | error e c' =>
      rw [final_of_error hpass] at hp
      exact .inr (.inr ⟨e, start, c', hr, hp, compile_of_pass_error ha hpass⟩)

/-- No revert is due after a compilation. -/
theorem revertPending_compile (source : Text) (c : Compiler σ) :
    (final (compile source) c).revertPending = false := by
  rcases compile_cases source c with ⟨text, c', hcompile, changes, hm⟩ |
    ⟨e, start, hcompile, changes, hm⟩ | ⟨e, start, c', ⟨changes, hm⟩, -, hcompile⟩
  · rw [final_of_ok hcompile]
    exact hm.revertPending
  · rw [final_of_error hcompile]
    exact hm.revertPending
  · rw [final_of_error hcompile]
    exact hm.revertPending

/-! ## What every command keeps -/

/-- A relation that holds across changes, across a request for the revert, and across a failed pass. -/
structure Kept (R : Compiler σ → Compiler σ → Prop) : Prop where
  reached : ∀ {c c'}, Reached c c' → R c c'
  request : ∀ c revert, R c { c with revertPending := revert }
  restore : ∀ {start c'}, Reached start c' →
    R start { start with host := Host.restore start.tags c'.host }

namespace Kept

variable {R : Compiler σ → Compiler σ → Prop} [IsPreorder (Compiler σ) R]

theorem applyRevert (h : Kept R) : Keeps R (Compiler.applyRevert : Action σ Unit) := fun c =>
  trans_of R (h.request c false) (h.reached (reached_applyRevert c))

theorem compile (h : Kept R) (source : Text) : Keeps R (Compiler.compile source : Action σ Text) := by
  intro c
  have hrequest := h.request c false
  rcases compile_cases source c with ⟨text, c', hcompile, hr⟩ | ⟨e, start, hcompile, hr⟩ |
    ⟨e, start, c', hr, hp, hcompile⟩
  · rw [final_of_ok hcompile]
    exact trans_of R hrequest (h.reached hr)
  · rw [final_of_error hcompile]
    exact trans_of R hrequest (h.reached hr)
  · rw [final_of_error hcompile]
    exact trans_of R hrequest (trans_of R (h.reached hr) (h.restore hp))

theorem run (h : Kept R) (command : Command) :
    Keeps R (command.run : Action σ (Option Text)) := by
  have of_reached {α : Type} {action : Action σ α} (ha : Keeps Reached action) : Keeps R action :=
    fun c => h.reached (ha c)
  cases command with
  | compile source => exact (h.compile source).map _
  | filter flavor source => exact (of_reached (reached_filter flavor source)).map _
  | pushTags flavor tags => exact (of_reached (reached_pushTags flavor tags)).bind fun _ => .pure _
  | requestRevert revert => exact fun c => h.request c revert
  | applyRevert => exact h.applyRevert.bind fun _ => .pure _

end Kept

end Compiler

end Stencil
