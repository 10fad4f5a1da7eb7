import Stencil.Compiler.Command
import Stencil.Proofs.Compiler.Steps

/-!
# Compilers that differ in their histories

What a compiler does depends on its histories through the pairs at their bottoms only. So two
compilers that agree in the rest give the same answers, and their histories grow by the same pairs
(`alike_compile`, `alike_run`).
-/

namespace Stencil

open TagChange (record)

namespace Compiler

variable {σ : Type}

/-- Two compilers whose histories have grown by the same pairs from `h` and from `h'`. Else they are
the same. -/
structure Twins (h h' : PerFlavor History) (c c' : Compiler σ) : Prop where
  host : c.host = c'.host
  keywords : c.keywords = c'.keywords
  revertPending : c.revertPending = c'.revertPending
  bottoms : ∀ flavor, (h.get flavor).first = (h'.get flavor).first
  grown : ∃ changes, c.histories = record changes h ∧ c'.histories = record changes h'

variable {h h' : PerFlavor History} {c c' d d' : Compiler σ}

theorem Twins.first_eq (ht : Twins h h' c c') (flavor : Flavor) :
    (c.histories.get flavor).first = (c'.histories.get flavor).first := by
  obtain ⟨changes, hc, hc'⟩ := ht.grown
  rw [hc, hc', TagChange.get_record, TagChange.get_record]
  exact ht.bottoms flavor

theorem Twins.of_now (host : c.host = c'.host) (keywords : c.keywords = c'.keywords)
    (revertPending : c.revertPending = c'.revertPending)
    (bottoms : ∀ flavor, (c.histories.get flavor).first = (c'.histories.get flavor).first) :
    Twins c.histories c'.histories c c' :=
  ⟨host, keywords, revertPending, bottoms, [], (TagChange.record_nil _).symm,
    (TagChange.record_nil _).symm⟩

theorem Twins.eq (ht : Twins h h c c') : c = c' := by
  obtain ⟨host, histories, revertPending, keywords⟩ := c
  obtain ⟨host', histories', revertPending', keywords'⟩ := c'
  obtain ⟨rfl, rfl, rfl, -, changes, rfl, rfl⟩ := ht
  rfl

theorem Twins.push (ht : Twins h h' c c') (change : TagChange) (host : σ) :
    Twins h h' { c with host := host, histories := record [change] c.histories }
      { c' with host := host, histories := record [change] c'.histories } := by
  obtain ⟨changes, hc, hc'⟩ := ht.grown
  refine ⟨rfl, ht.keywords, ht.revertPending, ht.bottoms, changes ++ [change], ?_, ?_⟩
  · rw [TagChange.record_append, ← hc]
  · rw [TagChange.record_append, ← hc']

/-! ## Actions -/

/-- A filter makes at most one request, and which one it makes depends on the keywords only. -/
theorem alike_filter_of_pushTags [Host σ] {R : Compiler σ → Compiler σ → Prop}
    (hkeywords : ∀ {c c'}, R c c' → c.keywords = c'.keywords)
    (hpush : ∀ flavor tags, Alike R (pushTags flavor tags) (pushTags flavor tags))
    (flavor : Flavor) (source : Text) : Alike R (filter flavor source) (filter flavor source) := by
  refine Alike.get_bind fun c c' hc => ?_
  rw [hkeywords hc]
  split
  · exact .pure source
  · refine .bind ?_ fun _ => .pure _
    unfold change
    split
    · exact hpush _ _
    · exact .throw _

theorem alike_requestRevert (revert : Bool) :
    Alike (Twins (σ := σ) h h') (requestRevert revert) (requestRevert revert) := fun _ _ ht =>
  .inl ⟨(), _, _, rfl, rfl, ht.host, ht.keywords, rfl, ht.bottoms, ht.grown⟩

variable [Host σ]

theorem alike_setHostTags (flavor : Flavor) (tags : Delims) :
    Alike (Twins (σ := σ) h h') (setHostTags flavor tags) (setHostTags flavor tags) := by
  intro c c' ht
  cases hset : Host.setTags flavor tags c.host with
  | ok _ host =>
    exact .inl ⟨(), _, _, setHostTags_of_ok hset, setHostTags_of_ok (ht.host ▸ hset), rfl,
      ht.keywords, ht.revertPending, ht.bottoms, ht.grown⟩
  | error e host =>
    exact .inr ⟨e, _, _, setHostTags_of_error hset, setHostTags_of_error (ht.host ▸ hset), rfl,
      ht.keywords, ht.revertPending, ht.bottoms, ht.grown⟩

theorem alike_pushTags (flavor : Flavor) (tags : Delims) :
    Alike (Twins (σ := σ) h h') (pushTags flavor tags) (pushTags flavor tags) := by
  intro c c' ht
  cases hset : Host.setTags flavor tags c.host with
  | ok _ host =>
    exact .inl ⟨(), _, _, pushTags_of_ok hset, pushTags_of_ok (ht.host ▸ hset), ht.push _ host⟩
  | error e host =>
    exact .inr ⟨e, _, _, pushTags_of_error hset, pushTags_of_error (ht.host ▸ hset), rfl,
      ht.keywords, ht.revertPending, ht.bottoms, ht.grown⟩

theorem alike_filter (flavor : Flavor) (source : Text) :
    Alike (Twins (σ := σ) h h') (filter flavor source) (filter flavor source) :=
  alike_filter_of_pushTags Twins.keywords alike_pushTags flavor source

theorem alike_compileHost (source : Text) :
    Alike (Twins (σ := σ) h h') (compileHost source) (compileHost source) := by
  intro c c' ht
  show (∃ a s t, compileHost source c = .ok a s ∧ compileHost source c' = .ok a t ∧ _) ∨ _
  unfold compileHost
  rw [← ht.host]
  cases Host.compile c.host source with
  | ok text => exact .inl ⟨text, c, c', rfl, rfl, ht⟩
  | error e => exact .inr ⟨e, c, c', rfl, rfl, ht⟩

theorem alike_pass (source : Text) :
    Alike (Twins (σ := σ) h h') (pass source) (pass source) :=
  (alike_filter .plain source).bind fun source =>
    (alike_filter .escaped source).bind fun source => alike_compileHost source

theorem alike_applyRevert : Alike (Twins (σ := σ) h h') applyRevert applyRevert := by
  refine Alike.get_bind fun c c' ht => ?_
  rw [ht.revertPending]
  split
  · have hplain : c.histories.plain.first = c'.histories.plain.first := ht.first_eq .plain
    have hescaped : c.histories.escaped.first = c'.histories.escaped.first := ht.first_eq .escaped
    rw [hplain, hescaped]
    refine .bind (.set ⟨ht.host, ht.keywords, rfl, ht.bottoms, ht.grown⟩) fun _ => ?_
    exact (alike_pushTags _ _).bind fun _ => alike_pushTags _ _
  · exact .pure ()

/-- **Compilations do not depend on what stands above the bottoms of the histories.** -/
theorem alike_compile (source : Text) :
    Alike (Twins (σ := σ) h h') (compile source) (compile source) := by
  intro c c' ht
  rcases alike_applyRevert c c' ht with ⟨_, start, start', ha, ha', hs⟩ |
    ⟨e, start, start', ha, ha', hs⟩
  · rcases alike_pass source start start' hs with ⟨text, d, d', hp, hp', hd⟩ |
      ⟨e, d, d', hp, hp', hd⟩
    · exact .inl ⟨text, d, d', compile_of_pass_ok ha hp, compile_of_pass_ok ha' hp', hd⟩
    · refine .inr ⟨e, _, _, compile_of_pass_error ha hp, compile_of_pass_error ha' hp', ?_,
        hs.keywords, hs.revertPending, hs.bottoms, hs.grown⟩
      show Host.restore (Host.tags start.host) d.host = Host.restore (Host.tags start'.host) d'.host
      rw [hs.host, hd.host]
  · exact .inr ⟨e, start, start', compile_of_applyRevert_error ha source,
      compile_of_applyRevert_error ha' source, hs⟩

theorem alike_run (command : Command) :
    Alike (Twins (σ := σ) h h') command.run command.run := by
  cases command with
  | compile source => exact (alike_compile source).map some
  | filter flavor source => exact (alike_filter flavor source).map some
  | pushTags flavor tags => exact (alike_pushTags flavor tags).bind fun _ => .pure none
  | requestRevert revert => exact (alike_requestRevert revert).bind fun _ => .pure none
  | applyRevert => exact alike_applyRevert.bind fun _ => .pure none

end Compiler

end Stencil
