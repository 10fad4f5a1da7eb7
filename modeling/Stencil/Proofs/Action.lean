import Mathlib.Order.Defs.Unbundled

/-!
# Actions and runs

An action may fail, and the state that it leaves is known in either case. `Keeps R` says of an action
that it leaves a state in the relation `R` to the one it starts in, and `Alike R` of two actions that
they give the same answers in related states and leave related states. Both are proved action by
action and carry over to runs of commands (`keeps_after`, `trace_eq_of_alike`).
-/

namespace Stencil

variable {ε σ τ α β κ ω : Type}

instance decidableEqExcept [DecidableEq ε] [DecidableEq α] : DecidableEq (Except ε α)
  | .ok a, .ok b => decidable_of_iff (a = b) (by rw [Except.ok.injEq])
  | .error e, .error f => decidable_of_iff (e = f) (by rw [Except.error.injEq])
  | .ok _, .error _ => .isFalse fun h => by cases h
  | .error _, .ok _ => .isFalse fun h => by cases h

/-- The answer of an action. -/
def answer (x : EStateM ε σ α) (s : σ) : Except ε α :=
  match x s with
  | .ok a _ => .ok a
  | .error e _ => .error e

/-- The state that an action leaves, whether it fails or not. -/
def final (x : EStateM ε σ α) (s : σ) : σ :=
  match x s with
  | .ok _ s => s
  | .error _ s => s

theorem answer_of_ok {x : EStateM ε σ α} {s s' : σ} {a : α} (h : x s = .ok a s') :
    answer x s = .ok a := by
  rw [answer, h]

theorem answer_of_error {x : EStateM ε σ α} {s s' : σ} {e : ε} (h : x s = .error e s') :
    answer x s = .error e := by
  rw [answer, h]

theorem final_of_ok {x : EStateM ε σ α} {s s' : σ} {a : α} (h : x s = .ok a s') :
    final x s = s' := by
  rw [final, h]

theorem final_of_error {x : EStateM ε σ α} {s s' : σ} {e : ε} (h : x s = .error e s') :
    final x s = s' := by
  rw [final, h]

theorem eq_ok_of_answer {x : EStateM ε σ α} {s : σ} {a : α} (h : answer x s = .ok a) :
    x s = .ok a (final x s) := by
  cases hx : x s with
  | ok b s' =>
    rw [answer_of_ok hx] at h
    cases h
    rw [final_of_ok hx]
  | error e s' =>
    rw [answer_of_error hx] at h
    cases h

theorem eq_error_of_answer {x : EStateM ε σ α} {s : σ} {e : ε} (h : answer x s = .error e) :
    x s = .error e (final x s) := by
  cases hx : x s with
  | ok b s' =>
    rw [answer_of_ok hx] at h
    cases h
  | error f s' =>
    rw [answer_of_error hx] at h
    cases h
    rw [final_of_error hx]

theorem answer_congr {x y : EStateM ε σ α} {s s' : σ} (h : x s = y s') :
    answer x s = answer y s' := by
  rw [answer, answer, h]

theorem final_congr {x y : EStateM ε σ α} {s s' : σ} (h : x s = y s') : final x s = final y s' := by
  rw [final, final, h]

theorem bind_of_ok {x : EStateM ε σ α} {s s' : σ} {a : α} (h : x s = .ok a s')
    (f : α → EStateM ε σ β) : (x >>= f) s = f a s' := by
  show EStateM.bind x f s = _
  rw [EStateM.bind, h]

theorem bind_of_error {x : EStateM ε σ α} {s s' : σ} {e : ε} (h : x s = .error e s')
    (f : α → EStateM ε σ β) : (x >>= f) s = .error e s' := by
  show EStateM.bind x f s = _
  rw [EStateM.bind, h]

theorem bind_congr_state {x : EStateM ε σ α} {s s' : σ} (h : x s = x s')
    (f : α → EStateM ε σ β) : (x >>= f) s = (x >>= f) s' := by
  show EStateM.bind x f s = EStateM.bind x f s'
  rw [EStateM.bind, EStateM.bind, h]

theorem map_of_ok {x : EStateM ε σ α} {s s' : σ} {a : α} (h : x s = .ok a s') (f : α → β) :
    (f <$> x) s = .ok (f a) s' := by
  show EStateM.map f x s = _
  rw [EStateM.map, h]

theorem map_of_error {x : EStateM ε σ α} {s s' : σ} {e : ε} (h : x s = .error e s') (f : α → β) :
    (f <$> x) s = .error e s' := by
  show EStateM.map f x s = _
  rw [EStateM.map, h]

theorem answer_map (x : EStateM ε σ α) (f : α → β) (s : σ) :
    answer (f <$> x) s = (answer x s).map f := by
  cases h : x s with
  | ok a s' =>
    rw [answer_of_ok h, answer_of_ok (map_of_ok h f)]
    rfl
  | error e s' =>
    rw [answer_of_error h, answer_of_error (map_of_error h f)]
    rfl

theorem final_map (x : EStateM ε σ α) (f : α → β) (s : σ) : final (f <$> x) s = final x s := by
  cases h : x s with
  | ok a s' => rw [final_of_ok h, final_of_ok (map_of_ok h f)]
  | error e s' => rw [final_of_error h, final_of_error (map_of_error h f)]

theorem map_congr_state {x y : EStateM ε σ α} {s s' : σ} (h : x s = y s') (f : α → β) :
    (f <$> x) s = (f <$> y) s' := by
  show EStateM.map f x s = EStateM.map f y s'
  rw [EStateM.map, EStateM.map, h]

theorem tryCatch_of_ok {x : EStateM ε σ α} {s s' : σ} {a : α} (h : x s = .ok a s')
    (handle : ε → EStateM ε σ α) : (tryCatch x handle : EStateM ε σ α) s = .ok a s' := by
  show EStateM.tryCatch x handle s = _
  delta EStateM.tryCatch
  rw [h]

theorem tryCatch_of_error {x : EStateM ε σ α} {s s' : σ} {e : ε} (h : x s = .error e s')
    (handle : ε → EStateM ε σ α) : (tryCatch x handle : EStateM ε σ α) s = handle e s' := by
  show EStateM.tryCatch x handle s = _
  delta EStateM.tryCatch
  rw [h]
  rfl

/-- In a sequence of actions that succeeds, each of them has succeeded. -/
theorem exists_ok_of_forM_ok {f : κ → EStateM ε σ PUnit} {items : List κ} {s s' : σ}
    (h : items.forM f s = .ok () s') {item : κ} (hmem : item ∈ items) :
    ∃ start next, f item start = .ok () next := by
  induction items generalizing s with
  | nil => cases hmem
  | cons first items ih =>
    replace h : (f first >>= fun _ => items.forM f) s = .ok () s' := h
    cases hfirst : f first s with
    | error e left =>
      rw [bind_of_error hfirst] at h
      cases h
    | ok _ next =>
      rw [bind_of_ok hfirst] at h
      rcases List.mem_cons.mp hmem with rfl | hmem
      · exact ⟨s, next, hfirst⟩
      · exact ih h hmem

/-! ## What an action leaves -/

/-- An action relates each state to the one that it leaves. -/
def Keeps (R : σ → σ → Prop) (x : EStateM ε σ α) : Prop := ∀ s, R s (final x s)

/-- The relation that says nothing. -/
def Anything (_ _ : σ) : Prop := True

instance : IsPreorder σ Anything where
  refl _ := trivial
  trans _ _ _ _ _ := trivial

theorem keeps_anything (x : EStateM ε σ α) : Keeps Anything x := fun _ => trivial

namespace Keeps

variable {R : σ → σ → Prop} [IsPreorder σ R]

theorem pure (a : α) : Keeps R (Pure.pure a : EStateM ε σ α) := refl_of R

theorem throw (e : ε) : Keeps R (MonadExcept.throw e : EStateM ε σ α) := refl_of R

theorem get : Keeps R (MonadState.get : EStateM ε σ σ) := refl_of R

theorem bind {x : EStateM ε σ α} {f : α → EStateM ε σ β} (hx : Keeps R x)
    (hf : ∀ a, Keeps R (f a)) : Keeps R (x >>= f) := by
  intro s
  have hs := hx s
  cases h : x s with
  | ok a s' =>
    rw [final_of_ok h] at hs
    rw [final, bind_of_ok h]
    exact trans_of R hs (hf a s')
  | error e s' =>
    rw [final_of_error h] at hs
    rw [final, bind_of_error h]
    exact hs

/-- A sequence of actions, by induction on the list. -/
theorem forM {f : κ → EStateM ε σ PUnit} {items : List κ} (h : ∀ item ∈ items, Keeps R (f item)) :
    Keeps R (items.forM f) := by
  induction items with
  | nil => exact .pure _
  | cons item items ih =>
    exact (h item List.mem_cons_self).bind fun _ =>
      ih fun other hmem => h other (List.mem_cons_of_mem _ hmem)

omit [IsPreorder σ R] in
theorem map {x : EStateM ε σ α} (hx : Keeps R x) (f : α → β) : Keeps R (f <$> x) := by
  intro s
  rw [final_map]
  exact hx s

omit [IsPreorder σ R] in
theorem of_map {x : EStateM ε σ α} {f : α → β} (h : Keeps R (f <$> x)) : Keeps R x := by
  intro s
  rw [← final_map x f]
  exact h s

omit [IsPreorder σ R] in
theorem of_bind_pure {x : EStateM ε σ α} {f : α → β} (h : Keeps R (x >>= fun a => Pure.pure (f a))) :
    Keeps R x := by
  rw [bind_pure_comp] at h
  exact of_map h

end Keeps

/-! ## Two actions side by side -/

/-- In related states, two actions give the same answer and leave related states. -/
def Alike (R : σ → τ → Prop) (x : EStateM ε σ α) (y : EStateM ε τ α) : Prop :=
  ∀ s t, R s t →
    (∃ a s' t', x s = .ok a s' ∧ y t = .ok a t' ∧ R s' t') ∨
      ∃ e s' t', x s = .error e s' ∧ y t = .error e t' ∧ R s' t'

namespace Alike

variable {R : σ → τ → Prop} {x : EStateM ε σ α} {y : EStateM ε τ α}

theorem answer_eq (h : Alike R x y) {s : σ} {t : τ} (hst : R s t) : answer x s = answer y t := by
  rcases h s t hst with ⟨a, s', t', hx, hy, -⟩ | ⟨e, s', t', hx, hy, -⟩
  · rw [answer_of_ok hx, answer_of_ok hy]
  · rw [answer_of_error hx, answer_of_error hy]

theorem final (h : Alike R x y) {s : σ} {t : τ} (hst : R s t) : R (final x s) (final y t) := by
  rcases h s t hst with ⟨a, s', t', hx, hy, h'⟩ | ⟨e, s', t', hx, hy, h'⟩
  · rw [final_of_ok hx, final_of_ok hy]
    exact h'
  · rw [final_of_error hx, final_of_error hy]
    exact h'

theorem pure (a : α) : Alike R (Pure.pure a : EStateM ε σ α) (Pure.pure a) :=
  fun s t h => .inl ⟨a, s, t, rfl, rfl, h⟩

theorem throw (e : ε) : Alike R (MonadExcept.throw e : EStateM ε σ α) (MonadExcept.throw e) :=
  fun s t h => .inr ⟨e, s, t, rfl, rfl, h⟩

theorem bind {f : α → EStateM ε σ β} {g : α → EStateM ε τ β} (hx : Alike R x y)
    (hf : ∀ a, Alike R (f a) (g a)) : Alike R (x >>= f) (y >>= g) := by
  intro s t hst
  rcases hx s t hst with ⟨a, s', t', hxs, hyt, h'⟩ | ⟨e, s', t', hxs, hyt, h'⟩
  · rw [bind_of_ok hxs, bind_of_ok hyt]
    exact hf a s' t' h'
  · rw [bind_of_error hxs, bind_of_error hyt]
    exact .inr ⟨e, s', t', rfl, rfl, h'⟩

theorem get_bind {f : σ → EStateM ε σ β} {g : τ → EStateM ε τ β}
    (h : ∀ s t, R s t → Alike R (f s) (g t)) : Alike R (get >>= f) (get >>= g) :=
  fun s t hst => h s t hst s t hst

theorem set {s : σ} {t : τ} (h : R s t) :
    Alike R (MonadStateOf.set s : EStateM ε σ PUnit) (MonadStateOf.set t) :=
  fun _ _ _ => .inl ⟨⟨⟩, s, t, rfl, rfl, h⟩

theorem forM {f : κ → EStateM ε σ PUnit} {g : κ → EStateM ε τ PUnit}
    (h : ∀ item, Alike R (f item) (g item)) (items : List κ) :
    Alike R (items.forM f) (items.forM g) := by
  induction items with
  | nil => exact .pure _
  | cons item items ih => exact (h item).bind fun _ => ih

theorem map (hx : Alike R x y) (f : α → β) : Alike R (f <$> x) (f <$> y) := by
  intro s t hst
  show (∃ a s' t', EStateM.map f x s = .ok a s' ∧ EStateM.map f y t = .ok a t' ∧ R s' t') ∨
    ∃ e s' t', EStateM.map f x s = .error e s' ∧ EStateM.map f y t = .error e t' ∧ R s' t'
  rcases hx s t hst with ⟨a, s', t', hxs, hyt, h'⟩ | ⟨e, s', t', hxs, hyt, h'⟩
  · exact .inl ⟨f a, s', t', by rw [EStateM.map, hxs], by rw [EStateM.map, hyt], h'⟩
  · exact .inr ⟨e, s', t', by rw [EStateM.map, hxs], by rw [EStateM.map, hyt], h'⟩

end Alike

/-! ## Runs -/

/-- The state after some commands, whether they fail or not. -/
def after (run : κ → EStateM ε σ α) (commands : List κ) (s : σ) : σ :=
  commands.foldl (fun s command => final (run command) s) s

theorem after_append (run : κ → EStateM ε σ α) (first second : List κ) (s : σ) :
    after run (first ++ second) s = after run second (after run first s) := List.foldl_append

/-- The answers to some commands, each with a view of the state that the command leaves. -/
def trace (run : κ → EStateM ε σ α) (view : σ → ω) : List κ → σ → List (Except ε α × ω)
  | [], _ => []
  | command :: commands, s =>
    (answer (run command) s, view (final (run command) s)) ::
      trace run view commands (final (run command) s)

theorem keeps_after {R : σ → σ → Prop} [IsPreorder σ R] {run : κ → EStateM ε σ α}
    {commands : List κ} (h : ∀ command ∈ commands, Keeps R (run command)) (s : σ) :
    R s (after run commands s) := by
  induction commands generalizing s with
  | nil => exact refl_of R s
  | cons command commands ih =>
    exact trans_of R (h command List.mem_cons_self s)
      (ih (fun c hc => h c (List.mem_cons_of_mem _ hc)) _)

theorem trace_append (run : κ → EStateM ε σ α) (view : σ → ω) (first second : List κ) (s : σ) :
    trace run view (first ++ second) s =
      trace run view first s ++ trace run view second (after run first s) := by
  induction first generalizing s with
  | nil => rfl
  | cons command first ih =>
    rw [List.cons_append, trace, ih]
    rfl

theorem after_of_alike {R : σ → τ → Prop} {run : κ → EStateM ε σ α} {run' : κ → EStateM ε τ α}
    {commands : List κ} (h : ∀ command ∈ commands, Alike R (run command) (run' command)) {s : σ}
    {t : τ} (hst : R s t) : R (after run commands s) (after run' commands t) := by
  induction commands generalizing s t with
  | nil => exact hst
  | cons command commands ih =>
    exact ih (fun c hc => h c (List.mem_cons_of_mem _ hc))
      ((h command List.mem_cons_self).final hst)

/-- Commands that are alike have the same traces from related states. -/
theorem trace_eq_of_alike {R : σ → τ → Prop} {run : κ → EStateM ε σ α}
    {run' : κ → EStateM ε τ α} {view : σ → ω} {view' : τ → ω} {commands : List κ}
    (h : ∀ command ∈ commands, Alike R (run command) (run' command))
    (hview : ∀ s t, R s t → view s = view' t) {s : σ} {t : τ} (hst : R s t) :
    trace run view commands s = trace run' view' commands t := by
  induction commands generalizing s t with
  | nil => rfl
  | cons command commands ih =>
    have hc := h command List.mem_cons_self
    rw [trace, trace, hc.answer_eq hst, hview _ _ (hc.final hst),
      ih (fun c hc => h c (List.mem_cons_of_mem _ hc)) (hc.final hst)]

end Stencil
