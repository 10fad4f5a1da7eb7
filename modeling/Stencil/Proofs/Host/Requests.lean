import Stencil.Host
import Stencil.Proofs.Action
import Stencil.Proofs.Tags.Changes

/-!
# Requests to a host

`Granted` follows a host through requests and keeps the changes that it grants. Of an `Exact` host
these are the changes of its tags (`Granted.tags_eq`). A `Lawful` one decides by a fixed predicate, so
it grants again what it has once granted (`Lawful.tags_restore`). Of a host of which nothing but the tags
matters (`TagsOnly`), states with the same tags in force cannot be told apart.
-/

namespace Stencil

open TagChange (apply)

namespace Host

variable {σ : Type} [Host σ]

/-- From one state of a host to another by requests, of which these were granted, in this order. -/
inductive Granted : σ → List TagChange → σ → Prop where
  | nil (host : σ) : Granted host [] host
  | accepted {host host' host'' : σ} {changes : List TagChange} {flavor : Flavor} {tags : Delims}
      (run : Granted host changes host') (set : setTags flavor tags host' = .ok () host'') :
      Granted host (changes ++ [⟨flavor, tags⟩]) host''
  | refused {host host' host'' : σ} {changes : List TagChange} {flavor : Flavor} {tags : Delims}
      {e : Error} (run : Granted host changes host')
      (set : setTags flavor tags host' = .error e host'') : Granted host changes host''

theorem Granted.trans {h h' h'' : σ} {first second : List TagChange} (hf : Granted h first h')
    (hs : Granted h' second h'') : Granted h (first ++ second) h'' := by
  induction hs with
  | nil => rw [List.append_nil]; exact hf
  | accepted _ set ih => rw [← List.append_assoc]; exact .accepted ih set
  | refused _ set ih => exact .refused ih set

/-- A host that sets exactly the pairs that it accepts. -/
structure Exact (σ : Type) [Host σ] : Prop where
  ok : ∀ {flavor tags} {host host' : σ}, setTags flavor tags host = .ok () host' →
    Host.tags host' = (Host.tags host).set flavor tags
  error : ∀ {flavor tags e} {host host' : σ}, setTags flavor tags host = .error e host' →
    Host.tags host' = Host.tags host

/-- An exact host that accepts by a fixed predicate. -/
structure Lawful (σ : Type) [Host σ] (accepts : Flavor → Delims → Prop) : Prop
    extends Exact σ where
  decides : ∀ flavor tags (host : σ),
    (∃ host', setTags flavor tags host = .ok () host') ↔ accepts flavor tags

theorem Granted.tags_eq (exact : Exact σ) {h h' : σ} {changes : List TagChange}
    (hg : Granted h changes h') : Host.tags h' = apply changes (Host.tags h) := by
  induction hg with
  | nil => rfl
  | accepted _ set ih => rw [exact.ok set, ih, TagChange.apply_append]; rfl
  | refused _ set ih => rw [exact.error set, ih]

theorem Granted.accepts {accepts : Flavor → Delims → Prop} (lawful : Lawful σ accepts) {h h' : σ}
    {changes : List TagChange} (hg : Granted h changes h') :
    ∀ change ∈ changes, accepts change.flavor change.tags := by
  induction hg with
  | nil => nofun
  | accepted _ set ih =>
    intro change hmem
    rcases List.mem_append.mp hmem with hmem | hmem
    · exact ih change hmem
    · obtain rfl := List.mem_singleton.mp hmem
      exact (lawful.decides _ _ _).mp ⟨_, set⟩
  | refused _ _ ih => exact ih

theorem Lawful.setTags_ok {accepts : Flavor → Delims → Prop} (lawful : Lawful σ accepts)
    {flavor : Flavor} {tags : Delims} (h : accepts flavor tags) (host : σ) :
    ∃ host', setTags flavor tags host = .ok () host' ∧
      Host.tags host' = (Host.tags host).set flavor tags := by
  obtain ⟨host', hset⟩ := (lawful.decides flavor tags host).mpr h
  exact ⟨host', hset, lawful.ok hset⟩

/-- The host after requests for earlier tags, granted or not. -/
def restore (tags : Tags) (host : σ) : σ :=
  final (setTags .escaped tags.escaped) (final (setTags .plain tags.plain) host)

/-- From one state of a host to another by requests. -/
def Asked (h h' : σ) : Prop := ∃ changes, Granted h changes h'

instance : IsPreorder σ Asked where
  refl h := ⟨[], .nil h⟩
  trans _ _ _ := fun ⟨_, hf⟩ ⟨_, hs⟩ => ⟨_, hf.trans hs⟩

theorem asked_setTags (flavor : Flavor) (tags : Delims) :
    Keeps Asked (setTags flavor tags : EStateM Error σ Unit) := by
  intro host
  cases hset : setTags flavor tags host with
  | ok _ host' => exact final_of_ok hset ▸ ⟨_, .accepted (.nil host) hset⟩
  | error e host' => exact final_of_error hset ▸ ⟨_, .refused (.nil host) hset⟩

theorem asked_restore (tags : Tags) (host : σ) : Asked host (restore tags host) :=
  trans_of Asked (asked_setTags _ _ host) (asked_setTags _ _ _)

/-- What a host does depends on its tags only: in two states that requests lead to, it compiles the same
if the tags in force are the same, and it answers the same to a request. -/
structure TagsOnly (host : σ) : Prop where
  compile : ∀ {h h' : σ}, Asked host h → Asked host h' → Host.tags h = Host.tags h' →
    Host.compile h = Host.compile h'
  answers : ∀ {h h' : σ} (flavor : Flavor) (tags : Delims), Asked host h → Asked host h' →
    Host.tags h = Host.tags h' → answer (setTags flavor tags) h = answer (setTags flavor tags) h'

/-- A host that requests change in nothing but its tags does what these say. -/
theorem TagsOnly.of_unique {host : σ} (h : ∀ {h h' : σ}, Asked host h → Asked host h' →
    Host.tags h = Host.tags h' → h = h') : TagsOnly host where
  compile ha ha' htags := by rw [h ha ha' htags]
  answers flavor tags ha ha' htags := by rw [h ha ha' htags]

/-- Earlier tags that are accepted are in force again. -/
theorem Lawful.tags_restore {accepts : Flavor → Delims → Prop} (lawful : Lawful σ accepts)
    {tags : Tags} (h : ∀ flavor, accepts flavor (tags.get flavor)) (host : σ) :
    Host.tags (restore tags host) = tags := by
  obtain ⟨host', hplain, htags'⟩ := lawful.setTags_ok (h .plain) host
  obtain ⟨host'', hescaped, htags''⟩ := lawful.setTags_ok (h .escaped) host'
  have hrestore : restore tags host = host'' := by
    show final (setTags .escaped (tags.get .escaped)) (final (setTags .plain (tags.get .plain)) host) = _
    rw [final_of_ok hplain, final_of_ok hescaped]
  rw [hrestore, htags'', htags']
  rfl

end Host

end Stencil
