import Mathlib.Init

/-! # Computations that change a state and may fail

A computation that fails keeps the changes it made before.
-/

namespace F1r3Node.Lib.Stateful

variable {ε σ α β : Type} {s s' : σ} {e : ε}

def final : EStateM.Result ε σ α → σ
  | .ok _ s => s
  | .error _ s => s

variable {x : EStateM ε σ α} {f : α → EStateM ε σ β}

theorem run_bind_eq_ok {b : β} :
    (x >>= f).run s = .ok b s' ↔ ∃ a t, x.run s = .ok a t ∧ (f a).run t = .ok b s' := by
  rw [EStateM.run_bind]
  cases x.run s with
  | ok a t => simp [and_assoc]
  | error e t => simp

theorem run_bind_eq_error :
    (x >>= f).run s = .error e s' ↔
      x.run s = .error e s' ∨ ∃ a t, x.run s = .ok a t ∧ (f a).run t = .error e s' := by
  rw [EStateM.run_bind]
  cases x.run s with
  | ok a t => simp [and_assoc]
  | error e t => simp

variable {a : α}

theorem run_bind_of_ok {t : σ} (h : x.run s = .ok a t) :
    (x >>= f).run s = (f a).run t := by
  rw [EStateM.run_bind, h]

theorem run_bind_of_error {t : σ} (h : x.run s = .error e t) :
    (x >>= f).run s = .error e t := by
  rw [EStateM.run_bind, h]

def Respects (R : σ → σ → Prop) (x : EStateM ε σ α) : Prop := ∀ s, R s (final (x.run s))

namespace Respects

variable {R : σ → σ → Prop}

variable {x : EStateM ε σ α}

theorem of_ok (h : Respects R x) {a : α} (hOk : x.run s = .ok a s') : R s s' := by
  have hFinal := h s
  rw [hOk] at hFinal
  exact hFinal

theorem of_error (h : Respects R x) (hError : x.run s = .error e s') : R s s' := by
  have hFinal := h s
  rw [hError] at hFinal
  exact hFinal

theorem bind {f : α → EStateM ε σ β} (hTrans : ∀ r s t, R r s → R s t → R r t)
    (hx : Respects R x) (hf : ∀ a, Respects R (f a)) : Respects R (x >>= f) := by
  intro s
  have hFirst := hx s
  rw [EStateM.run_bind]
  cases hRun : x.run s with
  | error e t =>
    rw [hRun] at hFirst
    exact hFirst
  | ok a t =>
    rw [hRun] at hFirst
    exact hTrans s t _ hFirst (hf a t)

theorem forM {f : α → EStateM ε σ PUnit} {items : List α} (hRefl : ∀ s, R s s)
    (hTrans : ∀ r s t, R r s → R s t → R r t) (hf : ∀ a ∈ items, Respects R (f a)) : Respects R (items.forM f) := by
  induction items with
  | nil => exact hRefl
  | cons a items ih =>
    obtain ⟨hHead, hTail⟩ := List.forall_mem_cons.mp hf
    exact bind hTrans hHead fun _ => ih hTail

end Respects

def Yields (x : EStateM ε σ α) (s : σ) (returned : α → σ → Prop) (failed : σ → Prop) : Prop :=
  match x.run s with
  | .ok a s' => returned a s'
  | .error _ s' => failed s'

variable {failed : σ → Prop}

theorem Yields.bind {M : α → σ → Prop} {returned : β → σ → Prop}
    (hx : Yields x s M failed) (hf : ∀ a t, M a t → Yields (f a) t returned failed) :
    Yields (x >>= f) s returned failed := by
  rw [Yields, EStateM.run_bind]
  rw [Yields] at hx
  cases hRun : x.run s with
  | error e t =>
    rw [hRun] at hx
    exact hx
  | ok a t =>
    rw [hRun] at hx
    exact hf a t hx

theorem Yields.get_bind {f : σ → EStateM ε σ β} {returned : β → σ → Prop}
    (h : Yields (f s) s returned failed) : Yields (get >>= f) s returned failed := h

theorem Yields.modify_bind {write : σ → σ} {f : PUnit → EStateM ε σ β} {returned : β → σ → Prop}
    (h : Yields (f ⟨⟩) (write s) returned failed) : Yields (modify write >>= f) s returned failed := h

variable {returned : α → σ → Prop}

theorem Yields.imp {returned' : α → σ → Prop} {failed' : σ → Prop}
    (h : Yields x s returned failed) (hOk : ∀ a t, returned a t → returned' a t) (hFail : ∀ t, failed t → failed' t) :
    Yields x s returned' failed' := by
  rw [Yields] at h ⊢
  cases hRun : x.run s with
  | error e t =>
    rw [hRun] at h
    exact hFail t h
  | ok a t =>
    rw [hRun] at h
    exact hOk a t h

theorem Yields.of_ok
    (h : Yields x s returned failed) (hRun : x.run s = .ok a s') : returned a s' := by
  rw [Yields, hRun] at h
  exact h

variable {P : σ → Prop}

theorem Yields.final (h : Yields x s (fun _ => P) P) :
    P (final (x.run s)) := by
  rw [Yields] at h
  cases hRun : x.run s with
  | error e t =>
    rw [hRun] at h
    exact h
  | ok a t =>
    rw [hRun] at h
    exact h

theorem Yields.of_final (h : P (Stateful.final (x.run s))) :
    Yields x s (fun _ => P) P := by
  rw [Yields]
  cases hRun : x.run s with
  | error e t =>
    rw [hRun] at h
    exact h
  | ok a t =>
    rw [hRun] at h
    exact h

theorem Yields.forM {f : α → EStateM ε σ PUnit} {items : List α} (h : P s)
    (hf : ∀ a ∈ items, ∀ t, P t → Yields (f a) t (fun _ => P) P) : Yields (items.forM f) s (fun _ => P) P := by
  induction items generalizing s with
  | nil => exact h
  | cons a items ih =>
    obtain ⟨hHead, hTail⟩ := List.forall_mem_cons.mp hf
    exact Yields.bind (hHead s h) fun _ t ht => ih ht hTail

def query (f : σ → Except ε α) : EStateM ε σ α := fun s =>
  match f s with
  | .ok a => .ok a s
  | .error e => .error e s

def update (f : σ → Except ε (α × σ)) : EStateM ε σ α := fun s =>
  match f s with
  | .ok (a, s') => .ok a s'
  | .error e => .error e s

def adapt {ε' : Type} (wrap : ε → ε') (x : EStateM ε σ α) : EStateM ε' σ α := fun s =>
  match x s with
  | .ok a s' => .ok a s'
  | .error e s' => .error (wrap e) s'

theorem Yields.adapt {ε' : Type} {wrap : ε → ε'}
    (h : Yields x s returned failed) : Yields (adapt wrap x) s returned failed := by
  have hRun : (Stateful.adapt wrap x).run s = match x.run s with
    | .ok a s' => .ok a s'
    | .error e s' => .error (wrap e) s' := rfl
  rw [Yields] at h ⊢
  rw [hRun]
  cases hx : x.run s with
  | ok a t =>
    rw [hx] at h
    exact h
  | error e t =>
    rw [hx] at h
    exact h

theorem run_query_of_ok {f : σ → Except ε α} (h : f s = .ok a) : (query f).run s = .ok a s := by
  change query f s = _
  rw [query, h]

theorem run_update_of_ok {f : σ → Except ε (α × σ)} (h : f s = .ok (a, s')) : (update f).run s = .ok a s' := by
  change update f s = _
  rw [update, h]

theorem Yields.query {f : σ → Except ε α}
    (hOk : ∀ a, f s = .ok a → returned a s) (hFailed : failed s) : Yields (query f) s returned failed := by
  change match Stateful.query f s with
    | .ok a s' => returned a s'
    | .error _ s' => failed s'
  rw [Stateful.query]
  cases hf : f s with
  | ok a => exact hOk a hf
  | error e => exact hFailed

theorem Yields.update {f : σ → Except ε (α × σ)}
    (hOk : ∀ a t, f s = .ok (a, t) → returned a t) (hFailed : failed s) : Yields (update f) s returned failed := by
  change match Stateful.update f s with
    | .ok a s' => returned a s'
    | .error _ s' => failed s'
  rw [Stateful.update]
  cases hf : f s with
  | ok p => exact hOk p.1 p.2 hf
  | error e => exact hFailed

end F1r3Node.Lib.Stateful
