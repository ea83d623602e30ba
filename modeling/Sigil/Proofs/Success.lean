import Mathlib.Tactic.Common

namespace Sigil

variable {ε σ α β : Type}

/-- The action succeeds in the state `s`, with an answer and a state of which `Q` holds. -/
def Succeeds (x : EStateM ε σ α) (s : σ) (Q : α → σ → Prop) : Prop := ∃ a t, x s = .ok a t ∧ Q a t

namespace Succeeds

variable {x : EStateM ε σ α} {f : α → EStateM ε σ β} {s t : σ} {a : α} {P R : α → σ → Prop}
  {Q : β → σ → Prop}

theorem of_eq (hrun : x s = .ok a t) (h : P a t) : Succeeds x s P := ⟨a, t, hrun, h⟩

theorem pure (h : P a s) : Succeeds (Pure.pure a : EStateM ε σ α) s P := ⟨a, s, rfl, h⟩

theorem get {P : σ → σ → Prop} (h : P s s) : Succeeds (MonadState.get : EStateM ε σ σ) s P :=
  ⟨s, s, rfl, h⟩

theorem modify {f : σ → σ} {P : PUnit → σ → Prop} (h : P ⟨⟩ (f s)) :
    Succeeds (modify f : EStateM ε σ PUnit) s P := ⟨⟨⟩, f s, rfl, h⟩

theorem mono (h : Succeeds x s P) (hPR : ∀ a t, P a t → R a t) : Succeeds x s R := by
  obtain ⟨a, t, hrun, hP⟩ := h
  exact ⟨a, t, hrun, hPR a t hP⟩

theorem and (h : Succeeds x s P) (h' : Succeeds x s R) : Succeeds x s fun a t => P a t ∧ R a t := by
  obtain ⟨a, t, hrun, hP⟩ := h
  obtain ⟨a', t', hrun', hR⟩ := h'
  obtain ⟨rfl, rfl⟩ := EStateM.Result.ok.inj (hrun.symm.trans hrun')
  exact ⟨a, t, hrun, hP, hR⟩

theorem bind (h : Succeeds x s P) (hf : ∀ a t, P a t → Succeeds (f a) t Q) :
    Succeeds (x >>= f) s Q := by
  obtain ⟨a, t, hrun, hP⟩ := h
  obtain ⟨b, u, hrun', hQ⟩ := hf a t hP
  refine ⟨b, u, ?_, hQ⟩
  show EStateM.bind x f s = _
  rw [EStateM.bind, hrun]
  exact hrun'

/-- A loop that is not left early, by an invariant that may look at the elements to come. -/
theorem forIn {I : List α → β → σ → Prop} {g : α → β → EStateM ε σ (ForInStep β)}
    (step : ∀ a rest b s, I (a :: rest) b s →
      Succeeds (g a b) s fun next t => ∃ b', next = .yield b' ∧ I rest b' t)
    (xs : List α) {b : β} (h : I xs b s) : Succeeds (ForIn.forIn xs b g) s fun b t => I [] b t := by
  induction xs generalizing b s with
  | nil => exact pure h
  | cons a rest ih =>
    rw [List.forIn_cons]
    refine (step a rest b s h).bind ?_
    rintro next t ⟨b', rfl, hrest⟩
    exact ih hrest

end Succeeds

def Fails (x : EStateM ε σ α) (s t : σ) : Prop := ∃ e, x s = .error e t

section Fails

variable {x : EStateM ε σ α} {f : α → EStateM ε σ β} {s t : σ} {P : α → σ → Prop}

theorem Fails.bind (h : Fails x s t) (f : α → EStateM ε σ β) : Fails (x >>= f) s t := by
  obtain ⟨e, hrun⟩ := h
  refine ⟨e, ?_⟩
  show EStateM.bind x f s = _
  rw [EStateM.bind, hrun]

theorem Succeeds.not_fails (h : Succeeds x s P) : ¬ Fails x s t := by
  obtain ⟨a, u, hrun, -⟩ := h
  rintro ⟨e, hfails⟩
  rw [hrun] at hfails
  exact nomatch hfails

theorem Succeeds.bind_fails (h : Succeeds x s P) (hf : ∀ a u, P a u → Fails (f a) u t) :
    Fails (x >>= f) s t := by
  obtain ⟨a, u, hrun, hP⟩ := h
  obtain ⟨e, hrun'⟩ := hf a u hP
  refine ⟨e, ?_⟩
  show EStateM.bind x f s = _
  rw [EStateM.bind, hrun]
  exact hrun'

end Fails

/-- Whatever becomes of the action in the state `s`, `Q` holds of an answer and `F` of a failure. -/
def Yields (x : EStateM ε σ α) (s : σ) (Q : α → σ → Prop) (F : σ → Prop) : Prop :=
  match x s with
  | .ok a t => Q a t
  | .error _ t => F t

namespace Yields

variable {x : EStateM ε σ α} {f : α → EStateM ε σ β} {s : σ} {P R : α → σ → Prop} {Q : β → σ → Prop}
  {F G : σ → Prop}

theorem pure {a : α} (h : P a s) : Yields (Pure.pure a : EStateM ε σ α) s P F := h

theorem modify {f : σ → σ} {P : PUnit → σ → Prop} (h : P ⟨⟩ (f s)) :
    Yields (modify f : EStateM ε σ PUnit) s P F := h

theorem of_succeeds (h : Succeeds x s P) : Yields x s P F := by
  obtain ⟨a, t, hrun, hP⟩ := h
  rwa [Yields, hrun]

theorem of_ok {a : α} {t : σ} (h : Yields x s P F) (hrun : x s = .ok a t) : P a t := by
  rwa [Yields, hrun] at h

theorem of_error {e : ε} {t : σ} (h : Yields x s P F) (hrun : x s = .error e t) : F t := by
  rwa [Yields, hrun] at h

theorem mono (h : Yields x s P F) (hP : ∀ a t, P a t → R a t) (hF : ∀ t, F t → G t) :
    Yields x s R G := by
  unfold Yields at h ⊢
  split
  case h_1 a t hrun =>
    rw [hrun] at h
    exact hP a t h
  case h_2 e t hrun =>
    rw [hrun] at h
    exact hF t h

theorem bind (h : Yields x s P F) (hf : ∀ a t, P a t → Yields (f a) t Q F) :
    Yields (x >>= f) s Q F := by
  unfold Yields at h
  show match EStateM.bind x f s with
    | .ok b t => Q b t
    | .error _ t => F t
  unfold EStateM.bind
  cases hrun : x s with
  | ok a t =>
    rw [hrun] at h
    exact hf a t h
  | error e t =>
    rw [hrun] at h
    exact h

/-- A loop that is not left early, by an invariant that failures keep too. -/
theorem forIn {I : σ → Prop} {γ : Type} {g : γ → β → EStateM ε σ (ForInStep β)}
    (step : ∀ c b s, I s → Yields (g c b) s (fun next t => (∃ b', next = .yield b') ∧ I t) F)
    (xs : List γ) {b : β} (h : I s) : Yields (ForIn.forIn xs b g) s (fun _ t => I t) F := by
  induction xs generalizing b s with
  | nil => exact h
  | cons c rest ih =>
    rw [List.forIn_cons]
    refine (step c b s h).bind ?_
    rintro next t ⟨⟨b', rfl⟩, ht⟩
    exact ih ht

/-- What holds of a success in general holds of one that is known. -/
theorem and_succeeds (h : Yields x s P F) (h' : Succeeds x s R) :
    Succeeds x s fun a t => P a t ∧ R a t := by
  obtain ⟨a, t, hrun, hR⟩ := h'
  exact ⟨a, t, hrun, h.of_ok hrun, hR⟩

end Yields

end Sigil
