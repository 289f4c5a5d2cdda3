/-! # What a run ends in

A run over a state ends in a value or in an error, and keeps what it did until then in both cases.
`Ends` states what is so of the value and the state, and of the state that an error leaves.  A loop ends in an
error if it came through some values and fails at the next one (`foldlM_eq_error_iff`). -/

namespace ProtoSchema

variable {ε σ α β : Type}

theorem get_apply (s : σ) : (get : EStateM ε σ σ) s = .ok s s := rfl

theorem set_apply (s s' : σ) : (set s' : EStateM ε σ PUnit) s = .ok ⟨⟩ s' := rfl

theorem modify_apply (f : σ → σ) (s : σ) : (modify f : EStateM ε σ PUnit) s = .ok ⟨⟩ (f s) := rfl

theorem bind_of_ok {m : EStateM ε σ α} {a : α} {s s' : σ} (h : m s = .ok a s') (k : α → EStateM ε σ β) :
    (m >>= k) s = k a s' := by
  show EStateM.bind m k s = _
  rw [EStateM.bind, h]

theorem bind_of_error {m : EStateM ε σ α} {e : ε} {s s' : σ} (h : m s = .error e s')
    (k : α → EStateM ε σ β) : (m >>= k) s = .error e s' := by
  show EStateM.bind m k s = _
  rw [EStateM.bind, h]

/-- A loop that came through some values goes on with the next one. -/
theorem foldlM_of_ok {k : β → α → EStateM ε σ β} {xs : List α} {b c : β} {s s' : σ}
    (h : xs.foldlM k b s = .ok c s') (ys : List α) :
    (xs ++ ys).foldlM k b s = ys.foldlM k c s' := by
  rw [List.foldlM_append]
  exact bind_of_ok h _

/-- A loop fails at one of its values, behind those that it came through. -/
theorem foldlM_eq_error_iff {k : β → α → EStateM ε σ β} {xs : List α} {b : β} {s t : σ} {e : ε} :
    xs.foldlM k b s = .error e t ↔ ∃ before x behind c s', xs = before ++ x :: behind ∧
      before.foldlM k b s = .ok c s' ∧ k c x s' = .error e t := by
  constructor
  · intro h
    induction xs generalizing b s with
    | nil => cases h
    | cons x xs ih =>
      rw [List.foldlM_cons] at h
      cases hx : k b x s with
      | error e' t' => exact ⟨[], x, xs, b, s, rfl, rfl, hx.trans ((bind_of_error hx _).symm.trans h)⟩
      | ok c s' =>
        obtain ⟨before, y, behind, d, s'', rfl, hbefore, hy⟩ := ih ((bind_of_ok hx _).symm.trans h)
        refine ⟨x :: before, y, behind, d, s'', rfl, ?_, hy⟩
        rw [List.foldlM_cons]
        exact (bind_of_ok hx _).trans hbefore
  · rintro ⟨before, x, behind, c, s', rfl, hbefore, hx⟩
    rw [foldlM_of_ok hbefore, List.foldlM_cons]
    exact bind_of_error hx _

/-- What is so of the result of a run, and of the state that an error leaves. -/
def Ends (result : EStateM.Result ε σ α) (ok : α → σ → Prop) (error : σ → Prop) : Prop :=
  match result with
  | .ok a s => ok a s
  | .error _ s => error s

/-- The error that a run ends in, if it does. -/
def errorOf? (result : EStateM.Result ε σ α) : Option ε :=
  match result with
  | .ok .. => none
  | .error e _ => some e

theorem exists_ok_of_errorOf? {result : EStateM.Result ε σ α} (h : errorOf? result = none) :
    ∃ a s, result = .ok a s := by
  cases result with
  | ok a s => exact ⟨a, s, rfl⟩
  | error e s => cases h

theorem exists_error_of_errorOf? {result : EStateM.Result ε σ α} {e : ε} (h : errorOf? result = some e) :
    ∃ s, result = .error e s := by
  cases result with
  | ok a s => cases h
  | error e' s =>
    cases h
    exact ⟨s, rfl⟩

theorem Ends.mono {result : EStateM.Result ε σ α} {ok ok' : α → σ → Prop} {error error' : σ → Prop}
    (h : Ends result ok error) (hok : ∀ a s, ok a s → ok' a s) (herror : ∀ s, error s → error' s) :
    Ends result ok' error' := by
  cases result with
  | ok a s => exact hok a s h
  | error e s => exact herror s h

theorem Ends.bind {m : EStateM ε σ α} {f : α → EStateM ε σ β} {s : σ} {ok : β → σ → Prop}
    {error : σ → Prop} (h : Ends (m s) (fun a s' => Ends (f a s') ok error) error) :
    Ends ((m >>= f) s) ok error := by
  show Ends (EStateM.bind m f s) ok error
  unfold EStateM.bind
  cases hm : m s with
  | ok a s' =>
    rw [hm] at h
    exact h
  | error e s' =>
    rw [hm] at h
    exact h

/-- An invariant of the steps of a loop, which may depend on the values that were gone through. -/
theorem Ends.forM {f : α → EStateM ε σ PUnit} {p : List α → σ → Prop} {q : σ → Prop}
    (xs : List α) (hstep : ∀ x ∈ xs, ∀ before s, p before s →
      Ends (f x s) (fun _ s' => p (before ++ [x]) s') q) :
    ∀ before s, p before s → Ends (xs.forM f s) (fun _ s' => p (before ++ xs) s') q := by
  induction xs with
  | nil =>
    intro before s h
    rw [List.append_nil]
    exact h
  | cons x xs ih =>
    intro before s h
    have hx := hstep x (List.mem_cons_self ..) before s h
    show Ends ((f x >>= fun _ => xs.forM f) s) _ _
    refine Ends.bind (hx.mono ?_ fun _ he => he)
    intro _ s' h'
    have := ih (fun y hy => hstep y (List.mem_cons_of_mem x hy)) (before ++ [x]) s' h'
    rwa [List.append_assoc, List.singleton_append] at this

/-- A loop that fails has a step that fails, where the invariant of the steps holds. -/
theorem exists_of_forM_error {f : α → EStateM ε σ PUnit} {p : σ → Prop} {e : ε} {t : σ} (xs : List α)
    (hstep : ∀ x ∈ xs, ∀ s, p s → Ends (f x s) (fun _ => p) fun _ => True) :
    ∀ {s}, p s → xs.forM f s = .error e t → ∃ x ∈ xs, ∃ s', p s' ∧ f x s' = .error e t := by
  induction xs with
  | nil =>
    intro s _ h
    cases h
  | cons x xs ih =>
    intro s hs h
    have hx := hstep x (List.mem_cons_self ..) s hs
    replace h : EStateM.bind (f x) (fun _ => xs.forM f) s = .error e t := h
    unfold EStateM.bind at h
    cases hrun : f x s with
    | error e' t' =>
      rw [hrun] at h
      cases h
      exact ⟨x, List.mem_cons_self .., s, hs, hrun⟩
    | ok u s' =>
      rw [hrun] at h hx
      obtain ⟨y, hy, s'', hs'', hfails⟩ := ih (fun y hy => hstep y (List.mem_cons_of_mem x hy)) hx h
      exact ⟨y, List.mem_cons_of_mem x hy, s'', hs'', hfails⟩

end ProtoSchema
