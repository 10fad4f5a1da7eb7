import Mathlib.Data.List.Forall2
import Stencil.Host.Recorder
import Stencil.Options
import Stencil.Proofs.Compiler.Steps

/-!
# How histories grow

Whatever a host refuses, and whether a command fails or not, each history is a beginning of what it is
afterwards (`kept_extends`): only the rollback takes pairs off, and it takes off what the failed
pass itself has recorded. So a compilation without a revert leaves either the histories from before or
these with one pair for each directive that was taken out of the source (`histories_grow`).
-/

namespace Stencil

open TagChange (record pairs)

/-! ## The directives that are taken out of a source -/

namespace Directive

/-- What is left of a source without its first directive. -/
def rest (keyword source : Text) : Text :=
  match find? keyword source with
  | none => source
  | some m => strip m.text source

/-- The directives that a compilation takes out of a source, with their flavors: the first one for
plain tags, then the first one for escaped tags in what is left. -/
def taken (keywords : PerFlavor Text) (source : Text) : List (Flavor × Match) :=
  (find? keywords.plain source).toList.map (Flavor.plain, ·) ++
    (find? keywords.escaped (rest keywords.plain source)).toList.map (Flavor.escaped, ·)

theorem length_toList_le (found : Option Match) : found.toList.length ≤ 1 := by
  cases found <;> simp

theorem length_taken_le (keywords : PerFlavor Text) (source : Text) :
    (taken keywords source).length ≤ 2 := by
  have hplain := length_toList_le (find? keywords.plain source)
  have hescaped := length_toList_le (find? keywords.escaped (rest keywords.plain source))
  simp only [taken, List.length_append, List.length_map]
  omega

theorem countP_plain_taken_le (keywords : PerFlavor Text) (source : Text) :
    (taken keywords source).countP (·.1 = .plain) ≤ 1 := by
  have hplain := length_toList_le (find? keywords.plain source)
  simp only [taken, List.countP_append, List.countP_map, Function.comp_def, reduceCtorEq,
    decide_true, decide_false, List.countP_true, List.countP_false]
  exact hplain

theorem taken_eq_nil {keywords : PerFlavor Text} {source : Text}
    (h : ∀ flavor, find? (keywords.get flavor) source = none) : taken keywords source = [] := by
  have hplain : find? keywords.plain source = none := h .plain
  have hescaped : find? keywords.escaped source = none := h .escaped
  rw [taken, rest, hplain]
  show [] ++ (find? keywords.escaped source).toList.map _ = []
  rw [hescaped]
  rfl

end Directive

/-- The changes that directives ask for, one for each. -/
def TagChange.AskedBy (directives : List (Flavor × Directive.Match)) (changes : List TagChange) :
    Prop :=
  List.Forall₂ (fun directive change => ofArgs directive.1 directive.2.args = .ok change) directives
    changes

namespace TagChange

theorem flavor_of_ofArgs {flavor : Flavor} {args : List Text} {change : TagChange}
    (h : ofArgs flavor args = .ok change) : change.flavor = flavor ∨ change.flavor = .escaped := by
  unfold ofArgs at h
  split at h
  · cases h
    exact .inl rfl
  · next opening closing word =>
    cases hword : truth word with
    | error e => rw [hword] at h; cases h
    | ok escaped =>
      rw [hword] at h
      cases h
      cases escaped
      · exact .inl rfl
      · exact .inr rfl
  · cases h

theorem length_pairs (flavor : Flavor) (changes : List TagChange) :
    (pairs flavor changes).length = changes.countP (·.flavor = flavor) := by
  rw [pairs, List.length_map, List.countP_eq_length_filter]

/-- Every change is for one of the two flavors. -/
theorem length_pairs_add (changes : List TagChange) :
    (pairs .plain changes).length + (pairs .escaped changes).length = changes.length := by
  rw [length_pairs, length_pairs]
  induction changes with
  | nil => rfl
  | cons change changes ih =>
    rw [List.countP_cons, List.countP_cons, List.length_cons, ← ih]
    cases change.flavor <;> simp <;> omega

/-- Only directives for plain tags can ask for plain tags. -/
theorem AskedBy.length_pairs_plain_le {directives : List (Flavor × Directive.Match)}
    {changes : List TagChange} (h : AskedBy directives changes) :
    (pairs .plain changes).length ≤ directives.countP (·.1 = .plain) := by
  rw [length_pairs]
  induction h with
  | nil => exact Nat.le_refl 0
  | @cons directive change _ _ hargs _ ih =>
    have hplain : change.flavor = .plain → directive.1 = .plain := by
      intro hplain
      rcases flavor_of_ofArgs hargs with hflavor | hflavor
      · exact hflavor.symm.trans hplain
      · cases hplain.symm.trans hflavor
    rw [List.countP_cons, List.countP_cons]
    by_cases h : change.flavor = .plain
    · simp only [h, hplain h, decide_true, if_true]
      omega
    · simp only [h, decide_false, Bool.false_eq_true, if_false]
      omega

end TagChange

namespace Compiler

variable {σ : Type} [Host σ]

/-! ## Commands only add to the histories -/

/-- Each history is a beginning of what it is later. -/
def Extends (c c' : Compiler σ) : Prop :=
  ∀ flavor, (c.histories.get flavor).toList <+: (c'.histories.get flavor).toList

instance : IsPreorder (Compiler σ) Extends where
  refl _ _ := List.prefix_refl _
  trans _ _ _ hf hs flavor := (hf flavor).trans (hs flavor)

omit [Host σ] in
theorem Extends.first_eq {c c' : Compiler σ} (h : Extends c c') (flavor : Flavor) :
    (c'.histories.get flavor).first = (c.histories.get flavor).first :=
  (List.cons_prefix_cons.mp (h flavor)).1.symm

omit [Host σ] in
theorem extends_of_record {c c' : Compiler σ} {changes : List TagChange}
    (h : c'.histories = record changes c.histories) : Extends c c' := by
  intro flavor
  rw [h, TagChange.get_record]
  exact ⟨pairs flavor changes, rfl⟩

/-- **No command takes anything off a history**, over whatever host. -/
theorem kept_extends : Kept (Extends : Compiler σ → Compiler σ → Prop) where
  reached := by
    rintro c c' ⟨changes, hm⟩
    exact extends_of_record hm.histories
  request c _ := refl_of Extends c
  -- the rollback leaves the histories that the pass has started with
  restore {start _} _ := refl_of Extends start

/-! ## What is added -/

/-- The number of pairs on both histories. -/
def total (c : Compiler σ) : Nat := c.histories.plain.size + c.histories.escaped.size

/-- The histories have grown by the pairs that some directives ask for, one for each. -/
def Grown (directives : List (Flavor × Directive.Match)) (c c' : Compiler σ) : Prop :=
  ∃ changes, TagChange.AskedBy directives changes ∧ c'.histories = record changes c.histories

namespace Grown

variable {directives more : List (Flavor × Directive.Match)} {c c' c'' : Compiler σ}

omit [Host σ]

theorem size_eq {changes : List TagChange} (h : c'.histories = record changes c.histories)
    (flavor : Flavor) : (c'.histories.get flavor).size =
      (c.histories.get flavor).size + (pairs flavor changes).length := by
  rw [h, TagChange.get_record, History.size_extend]

theorem nil_iff : Grown [] c c' ↔ c'.histories = c.histories := by
  constructor
  · rintro ⟨changes, hasked, h⟩
    cases hasked
    rw [h, TagChange.record_nil]
  · intro h
    exact ⟨[], .nil, h.trans (TagChange.record_nil _).symm⟩

theorem append (h : Grown directives c c') (h' : Grown more c' c'') :
    Grown (directives ++ more) c c'' := by
  obtain ⟨first, hasked, hfirst⟩ := h
  obtain ⟨second, hasked', hsecond⟩ := h'
  refine ⟨first ++ second, List.rel_append hasked hasked', ?_⟩
  rw [hsecond, hfirst, TagChange.record_append]

theorem total_eq (h : Grown directives c c') : c'.total = c.total + directives.length := by
  obtain ⟨changes, hasked, h⟩ := h
  have hplain := size_eq h .plain
  have hescaped := size_eq h .escaped
  have hboth := TagChange.length_pairs_add changes
  have hlength := hasked.length_eq
  simp only [PerFlavor.get] at hplain hescaped
  rw [total, total]
  omega

theorem size_plain_le (h : Grown directives c c') :
    c'.histories.plain.size ≤ c.histories.plain.size + directives.countP (·.1 = .plain) := by
  obtain ⟨changes, hasked, h⟩ := h
  have hplain : c'.histories.plain.size = _ := size_eq h .plain
  rw [hplain]
  exact Nat.add_le_add_left hasked.length_pairs_plain_le _

end Grown

/-- A filter that succeeds adds the pair that its directive asks for, if it finds one. -/
theorem grown_of_filter_ok {flavor : Flavor} {source text : Text} {c c' : Compiler σ}
    (h : filter flavor source c = .ok text c') :
    text = Directive.rest (c.keywords.get flavor) source ∧ c'.keywords = c.keywords ∧
      Grown ((Directive.find? (c.keywords.get flavor) source).toList.map (flavor, ·)) c c' := by
  unfold Directive.rest
  rcases filter_ok_cases h with ⟨hfind, rfl, rfl⟩ | ⟨m, change, hfind, rfl, hargs, hm⟩
  · rw [hfind]
    exact ⟨rfl, rfl, Grown.nil_iff.mpr rfl⟩
  · rw [hfind]
    exact ⟨rfl, hm.keywords, [change], .cons hargs .nil, hm.histories⟩

theorem histories_of_filter_error {flavor : Flavor} {source : Text} {c c' : Compiler σ} {e : Error}
    (h : filter flavor source c = .error e c') : c'.histories = c.histories := by
  rw [(filter_error_cases h).2.histories, TagChange.record_nil]

/-- A pass that succeeds adds the pairs that its directives ask for. -/
theorem grown_of_pass_ok {source text : Text} {c c' : Compiler σ} (h : pass source c = .ok text c') :
    Grown (Directive.taken c.keywords source) c c' := by
  cases hplain : filter .plain source c with
  | error e d =>
    rw [pass, bind_of_error hplain] at h
    cases h
  | ok between d =>
    rw [pass, bind_of_ok hplain] at h
    obtain ⟨rfl, hkeywords, hfirst⟩ := grown_of_filter_ok hplain
    cases hescaped : filter .escaped (Directive.rest (c.keywords.get .plain) source) d with
    | error e d' =>
      rw [bind_of_error hescaped] at h
      cases h
    | ok stripped d' =>
      rw [bind_of_ok hescaped] at h
      obtain ⟨-, -, hsecond⟩ := grown_of_filter_ok hescaped
      rw [hkeywords] at hsecond
      -- the steps of the host change nothing
      obtain rfl : d' = c' := by rw [← final_of_ok h, final_compileHost]
      exact hfirst.append hsecond

/-- **Histories only grow, by one pair for each directive that is taken out of a source.** This holds
over whatever host, in whatever state: after any commands each history begins with what it was before;
a filter adds one pair if it finds a directive and succeeds, and else none; and a compilation without
a revert adds the pairs of its directives if it succeeds, at most one of them for plain tags and at
most two in all, and none if it fails. -/
theorem histories_grow (c : Compiler σ) :
    (∀ commands flavor,
      (c.histories.get flavor).toList <+:
          ((after Command.run commands c).histories.get flavor).toList ∧
        ((after Command.run commands c).histories.get flavor).first =
          (c.histories.get flavor).first) ∧
      (∀ flavor source,
        let c' := final (filter flavor source) c
        (c'.total = c.total + 1 ↔ (∃ m, Directive.find? (c.keywords.get flavor) source = some m) ∧
            ∃ text, answer (filter flavor source) c = .ok text) ∧
          (∀ text, answer (filter flavor source) c = .ok text →
            Grown ((Directive.find? (c.keywords.get flavor) source).toList.map (flavor, ·)) c c') ∧
          ∀ e, answer (filter flavor source) c = .error e → c'.histories = c.histories) ∧
      (c.revertPending = false → ∀ source,
        let c' := final (compile source) c
        (∀ text, answer (compile source) c = .ok text →
          Grown (Directive.taken c.keywords source) c c' ∧
            c'.total = c.total + (Directive.taken c.keywords source).length ∧
            c'.histories.plain.size ≤ c.histories.plain.size + 1 ∧ c'.total ≤ c.total + 2 ∧
            ((∀ flavor, Directive.find? (c.keywords.get flavor) source = none) →
              c'.histories = c.histories)) ∧
          ∀ e, answer (compile source) c = .error e → c'.histories = c.histories) := by
  refine ⟨fun commands flavor => ?_, fun flavor source => ?_, fun hrevert source => ?_⟩
  · have hextends : Extends c (after Command.run commands c) :=
      keeps_after (fun command _ => kept_extends.run command) c
    exact ⟨hextends flavor, hextends.first_eq flavor⟩
  · cases hfilter : filter flavor source c with
    | ok text c' =>
      obtain ⟨-, -, hgrown⟩ := grown_of_filter_ok hfilter
      have htotal := hgrown.total_eq
      rw [answer_of_ok hfilter, final_of_ok hfilter]
      refine ⟨?_, fun _ _ => hgrown, nofun⟩
      cases hfind : Directive.find? (c.keywords.get flavor) source with
      | none => simp [htotal, hfind]
      | some m => simp [htotal, hfind]
    | error e c' =>
      have hsame := histories_of_filter_error hfilter
      have htotal : c'.total = c.total := by rw [total, hsame, total]
      rw [answer_of_error hfilter, final_of_error hfilter]
      exact ⟨by simp [htotal], nofun, fun _ _ => hsame⟩
  · have happly := applyRevert_of_not_pending hrevert
    cases hpass : pass source c with
    | ok text c' =>
      have hcompile := compile_of_pass_ok happly hpass
      have hgrown := grown_of_pass_ok hpass
      rw [answer_of_ok hcompile, final_of_ok hcompile]
      refine ⟨fun _ _ => ⟨hgrown, hgrown.total_eq, ?_, ?_, fun hnone => ?_⟩, nofun⟩
      · exact Nat.le_trans hgrown.size_plain_le
          (Nat.add_le_add_left (Directive.countP_plain_taken_le _ _) _)
      · rw [hgrown.total_eq]
        exact Nat.add_le_add_left (Directive.length_taken_le _ _) _
      · rw [Directive.taken_eq_nil hnone] at hgrown
        exact Grown.nil_iff.mp hgrown
    | error e c' =>
      have hcompile := compile_of_pass_error happly hpass
      rw [answer_of_error hcompile, final_of_error hcompile]
      exact ⟨nofun, fun _ _ => rfl⟩

/-- With a host that accepts one request only: of two directives the second one fails, and the host
refuses the requests of the rollback too, so the pair of the first one stays in force, but not on the
history. The pair of an escaped directive alone is recorded, whatever came before. -/
theorem histories_grow_refused :
    let host : Recorder := { tags := ({} : Options).tags, limit := some 1 }
    let c := ofHost host ({} : Options).keywords
    let both := "changecontenttags('[',']')changeescapedtags('<','>')".toList
    let flagged := "changecontenttags('[',']',yes)".toList
    c.revertPending = false ∧
      answer (compile both) c = .error (.tags (.refused ⟨['<'], ['>']⟩)) ∧
      (final (compile both) c).tags.plain = ⟨['['], [']']⟩ ∧
      (final (compile both) c).histories = c.histories ∧
      answer (compile flagged) c = .ok ['<', '>'] ∧
      (final (compile flagged) c).total = c.total + 1 ∧
      (final (compile flagged) c).histories.plain.size ≤ c.histories.plain.size + 1 ∧
      c.histories.escaped.toList <+:
        (after Command.run [.compile both, .compile flagged] c).histories.escaped.toList := by
  intro host c both flagged
  have hboth : answer (compile both) c = .error (.tags (.refused ⟨['<'], ['>']⟩)) := by
    decide +kernel
  have hflagged : answer (compile flagged) c = .ok ['<', '>'] := by decide +kernel
  obtain ⟨hruns, -, hcompile⟩ := histories_grow c
  obtain ⟨hgrown, htotal, hplain, -⟩ := (hcompile rfl flagged).1 _ hflagged
  have htaken : (Directive.taken c.keywords flagged).length = 1 := by decide +kernel
  rw [htaken] at htotal
  exact ⟨rfl, hboth, by decide +kernel, (hcompile rfl both).2 _ hboth, hflagged, htotal, hplain,
    (hruns [.compile both, .compile flagged] .escaped).1⟩

end Compiler

end Stencil
