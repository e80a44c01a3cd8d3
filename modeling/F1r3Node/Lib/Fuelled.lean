import Mathlib.Data.List.Forall2
import Mathlib.Order.Filter.AtTopBot.Basic

/-! # Loops that may not end

A computation reads a budget of rounds and is cut off when a loop uses it up. `Reaches x r` says that `x` ends with `r`
under every budget that is large enough and is cut off under every other one.
-/

namespace F1r3Node.Lib

variable {ε α β σ ρ : Type}

/-- A computation with errors and a budget for its loops. -/
abbrev Fuelled (ε : Type) := ReaderT Nat (ExceptT ε Option)

namespace Fuelled

/-- The outcome under a budget; `none` when it is used up. -/
def within (x : Fuelled ε α) (fuel : Nat) : Option (Except ε α) := x fuel

def ofExcept (x : Except ε α) : Fuelled ε α := fun _ => some x

def rounds (step : σ → Fuelled ε (σ ⊕ ρ)) (fuel : Nat) : Nat → σ → Option (Except ε ρ)
  | 0, _ => none
  | n + 1, s =>
    match (step s).within fuel with
    | none => none
    | some (.error e) => some (.error e)
    | some (.ok (.inl s')) => rounds step fuel n s'
    | some (.ok (.inr r)) => some (.ok r)

/-- `loop`, left with a result or an error. -/
def loop (step : σ → Fuelled ε (σ ⊕ ρ)) (s : σ) : Fuelled ε ρ := fun fuel => rounds step fuel fuel s

theorem within_ofExcept (x : Except ε α) (fuel : Nat) : (ofExcept x).within fuel = some x := rfl

theorem within_loop (step : σ → Fuelled ε (σ ⊕ ρ)) (s : σ) (fuel : Nat) :
    (loop step s).within fuel = rounds step fuel fuel s := rfl

def adaptError {ε' : Type} (f : ε → ε') (x : Fuelled ε α) : Fuelled ε' α := fun fuel => (x.within fuel).map (·.mapError f)

variable {x : Fuelled ε α} {fuel : Nat}

theorem within_adaptError_ok {ε' : Type} {f : ε → ε'} {a : α}
    (h : (x.adaptError f).within fuel = some (.ok a)) : x.within fuel = some (.ok a) := by
  obtain ⟨r, hr, hMap⟩ := Option.map_eq_some_iff.mp h
  cases r with
  | error e => cases hMap
  | ok b =>
    cases hMap
    exact hr

theorem exists_of_within_bind {f : α → Fuelled ε β} {b : β}
    (h : (x >>= f).within fuel = some (.ok b)) :
    ∃ a, x.within fuel = some (.ok a) ∧ (f a).within fuel = some (.ok b) := by
  change Option.bind (x.within fuel) _ = _ at h
  cases hx : x.within fuel with
  | none =>
    rw [hx] at h
    cases h
  | some r =>
    rw [hx] at h
    cases r with
    | error e => cases h
    | ok a => exact ⟨a, rfl, h⟩

theorem within_bind_of_ok {f : α → Fuelled ε β} {a : α}
    (h : x.within fuel = some (.ok a)) : (x >>= f).within fuel = (f a).within fuel := by
  change Option.bind (x.within fuel) _ = _
  rw [h]
  rfl

theorem rounds_simulated {τ ω : Type} {step : σ → Fuelled ε (σ ⊕ ρ)} {step' : τ → Fuelled ε (τ ⊕ ω)}
    {R : σ → τ → Prop} {Q : ρ → ω → Prop}
    (hNext : ∀ s t s', R s t → (step s).within fuel = some (.ok (.inl s')) →
      ∃ t', (step' t).within fuel = some (.ok (.inl t')) ∧ R s' t')
    (hDone : ∀ s t r, R s t → (step s).within fuel = some (.ok (.inr r)) →
      ∃ r', (step' t).within fuel = some (.ok (.inr r')) ∧ Q r r')
    (n : Nat) {s : σ} {t : τ} (hRel : R s t) {r : ρ} (hRun : rounds step fuel n s = some (.ok r)) :
    ∃ r', rounds step' fuel n t = some (.ok r') ∧ Q r r' := by
  induction n generalizing s t with
  | zero => cases hRun
  | succ n ih =>
    rw [rounds] at hRun
    cases hStep : (step s).within fuel with
    | none =>
      rw [hStep] at hRun
      cases hRun
    | some outcome =>
      rw [hStep] at hRun
      match outcome, hStep, hRun with
      | .ok (.inl s'), hStep, hRun =>
        obtain ⟨t', hStep', hRel'⟩ := hNext s t s' hRel hStep
        rw [rounds, hStep']
        exact ih hRel' hRun
      | .ok (.inr result), hStep, hRun =>
        obtain ⟨r', hStep', hQ⟩ := hDone s t result hRel hStep
        cases hRun
        exact ⟨r', by rw [rounds, hStep'], hQ⟩

end Fuelled

open Fuelled

/-- `x` ends with `r` as soon as its budget allows. -/
structure Reaches (x : Fuelled ε α) (r : Except ε α) : Prop where
  only : ∀ fuel, x.within fuel = none ∨ x.within fuel = some r
  enough : ∃ bound, ∀ fuel, bound ≤ fuel → x.within fuel = some r

namespace Reaches

variable {x : Fuelled ε α}

theorem unique {r r' : Except ε α} (h : Reaches x r) {fuel : Nat} (hEnd : x.within fuel = some r') :
    r' = r := by
  obtain hNone | hSome := h.only fuel
  · rw [hNone] at hEnd
    cases hEnd
  · exact Option.some.inj (hEnd.symm.trans hSome)

theorem pure (a : α) : Reaches (Pure.pure a : Fuelled ε α) (.ok a) :=
  ⟨fun _ => .inr rfl, 0, fun _ _ => rfl⟩

theorem throw (e : ε) : Reaches (MonadExcept.throw e : Fuelled ε α) (.error e) :=
  ⟨fun _ => .inr rfl, 0, fun _ _ => rfl⟩

theorem ofExcept (x : Except ε α) : Reaches (Fuelled.ofExcept x) x :=
  ⟨fun _ => .inr rfl, 0, fun _ _ => rfl⟩

theorem of_eq {x r : Except ε α} (h : x = r) : Reaches (Fuelled.ofExcept x) r := h ▸ ofExcept x

theorem bind {f : α → Fuelled ε β} {a : α} {r : Except ε β} (hx : Reaches x (.ok a))
    (hf : Reaches (f a) r) : Reaches (x >>= f) r := by
  obtain ⟨bound, hBound⟩ := hx.enough
  obtain ⟨bound', hBound'⟩ := hf.enough
  refine ⟨fun fuel => ?_, bound + bound', fun fuel hFuel => ?_⟩
  · obtain hNone | hOk := hx.only fuel
    · refine .inl ?_
      change Option.bind (x.within fuel) _ = _
      rw [hNone]
      rfl
    · rw [within_bind_of_ok hOk]
      exact hf.only fuel
  · rw [within_bind_of_ok (hBound fuel (by omega))]
    exact hBound' fuel (by omega)

theorem bind_error {f : α → Fuelled ε β} {e : ε} (hx : Reaches x (.error e)) :
    Reaches (x >>= f) (.error e) := by
  obtain ⟨bound, hBound⟩ := hx.enough
  refine ⟨fun fuel => ?_, bound, fun fuel hFuel => ?_⟩
  · refine (hx.only fuel).imp (fun hNone => ?_) fun hError => ?_
    · change Option.bind (x.within fuel) _ = _
      rw [hNone]
      rfl
    · change Option.bind (x.within fuel) _ = _
      rw [hError]
      rfl
  · change Option.bind (x.within fuel) _ = _
    rw [hBound fuel hFuel]
    rfl

end Reaches

/-- The rounds from a state end with `r` as soon as there are enough of them. -/
structure RoundsReach (step : σ → Fuelled ε (σ ⊕ ρ)) (s : σ) (r : Except ε ρ) : Prop where
  only : ∀ fuel n, rounds step fuel n s = none ∨ rounds step fuel n s = some r
  enough : ∃ bound, ∀ fuel n, bound ≤ fuel → bound ≤ n → rounds step fuel n s = some r

namespace RoundsReach

variable {step : σ → Fuelled ε (σ ⊕ ρ)} {s s' : σ} {r : Except ε ρ}

theorem loop (h : RoundsReach step s r) : Reaches (loop step s) r := by
  obtain ⟨bound, hBound⟩ := h.enough
  exact ⟨fun fuel => h.only fuel fuel, bound, fun fuel hFuel => hBound fuel fuel hFuel hFuel⟩

theorem of_step {outcome : Except ε (σ ⊕ ρ)} (hStep : Reaches (step s) outcome)
    (hEnd : ∀ fuel n, (step s).within fuel = some outcome → rounds step fuel (n + 1) s = some r) :
    RoundsReach step s r := by
  obtain ⟨bound, hBound⟩ := hStep.enough
  refine ⟨fun fuel n => ?_, bound + 1, fun fuel n hFuel hn => ?_⟩
  · cases n with
    | zero => exact .inl rfl
    | succ n =>
      obtain hNone | hSome := hStep.only fuel
      · refine .inl ?_
        rw [rounds, hNone]
      · exact .inr (hEnd fuel n hSome)
  · obtain ⟨n, rfl⟩ : ∃ m, n = m + 1 := ⟨n - 1, by omega⟩
    exact hEnd fuel n (hBound fuel (by omega))

theorem done {result : ρ} (hStep : Reaches (step s) (.ok (.inr result))) : RoundsReach step s (.ok result) :=
  of_step hStep fun fuel n hSome => by rw [rounds, hSome]

theorem error {e : ε} (hStep : Reaches (step s) (.error e)) : RoundsReach step s (.error e) :=
  of_step hStep fun fuel n hSome => by rw [rounds, hSome]

theorem next (hStep : Reaches (step s) (.ok (.inl s'))) (hRest : RoundsReach step s' r) : RoundsReach step s r := by
  have hRounds : ∀ fuel n, (step s).within fuel = some (.ok (.inl s')) →
      rounds step fuel (n + 1) s = rounds step fuel n s' := by
    intro fuel n hSome
    rw [rounds, hSome]
  obtain ⟨bound, hBound⟩ := hStep.enough
  obtain ⟨bound', hBound'⟩ := hRest.enough
  refine ⟨fun fuel n => ?_, bound + bound' + 1, fun fuel n hFuel hn => ?_⟩
  · cases n with
    | zero => exact .inl rfl
    | succ n =>
      obtain hNone | hSome := hStep.only fuel
      · refine .inl ?_
        rw [rounds, hNone]
      · rw [hRounds fuel n hSome]
        exact hRest.only fuel n
  · obtain ⟨n, rfl⟩ : ∃ m, n = m + 1 := ⟨n - 1, by omega⟩
    rw [hRounds fuel n (hBound fuel (by omega))]
    exact hBound' fuel n (by omega) (by omega)

end RoundsReach

def Steady (x : Fuelled ε α) : Prop := ∀ fuel fuel' r, fuel ≤ fuel' → x.within fuel = some r → x.within fuel' = some r

namespace Steady

theorem reaches {x : Fuelled ε α} (h : Steady x) {fuel : Nat} {r : Except ε α} (hEnd : x.within fuel = some r) :
    Reaches x r := by
  refine ⟨fun fuel' => ?_, fuel, fun fuel' hFuel => h fuel fuel' r hFuel hEnd⟩
  cases hOther : x.within fuel' with
  | none => exact .inl rfl
  | some r' =>
    have hLater := h fuel' (fuel + fuel') r' (by omega) hOther
    rw [h fuel (fuel + fuel') r (by omega) hEnd] at hLater
    exact .inr hLater.symm

theorem pure (a : α) : Steady (Pure.pure a : Fuelled ε α) := fun _ _ _ _ h => h

theorem throw (e : ε) : Steady (MonadExcept.throw e : Fuelled ε α) := fun _ _ _ _ h => h

theorem ofExcept (x : Except ε α) : Steady (Fuelled.ofExcept x) := fun _ _ _ _ h => h

theorem bind {x : Fuelled ε α} {f : α → Fuelled ε β} (hx : Steady x) (hf : ∀ a, Steady (f a)) : Steady (x >>= f) := by
  intro fuel fuel' r hFuel hEnd
  change Option.bind (x.within fuel) _ = _ at hEnd
  change Option.bind (x.within fuel') _ = _
  cases hFirst : x.within fuel with
  | none =>
    rw [hFirst] at hEnd
    cases hEnd
  | some outcome =>
    rw [hFirst] at hEnd
    rw [hx fuel fuel' outcome hFuel hFirst]
    cases outcome with
    | error e => exact hEnd
    | ok a => exact hf a fuel fuel' r hFuel hEnd

theorem loop {step : σ → Fuelled ε (σ ⊕ ρ)} (hStep : ∀ s, Steady (step s)) (s : σ) : Steady (Fuelled.loop step s) := by
  have hRounds : ∀ n n' s fuel fuel' r, n ≤ n' → fuel ≤ fuel' → rounds step fuel n s = some r →
      rounds step fuel' n' s = some r := by
    intro n
    induction n with
    | zero =>
      intro n' s fuel fuel' r hn hFuel hEnd
      cases hEnd
    | succ n ih =>
      intro n' s fuel fuel' r hn hFuel hEnd
      obtain ⟨n', rfl⟩ : ∃ m, n' = m + 1 := ⟨n' - 1, by omega⟩
      rw [rounds] at hEnd ⊢
      cases hFirst : (step s).within fuel with
      | none =>
        rw [hFirst] at hEnd
        cases hEnd
      | some outcome =>
        rw [hFirst] at hEnd
        rw [hStep s fuel fuel' outcome hFuel hFirst]
        match outcome, hEnd with
        | .error e, hEnd => exact hEnd
        | .ok (.inl s'), hEnd => exact ih n' s' fuel fuel' r (by omega) hFuel hEnd
        | .ok (.inr result), hEnd => exact hEnd
  intro fuel fuel' r hFuel hEnd
  exact hRounds fuel fuel' s fuel fuel' r hFuel hFuel hEnd

end Steady

/-! ## Recursion by fuel

A recursive call is given the fuel that is left, and is cut off where there is none. `Ends call outcome` says that the
call has this outcome with enough fuel.
-/

/-- A call that may fail, or that is cut off at the end of the fuel. -/
abbrev Steps (ε : Type) := ExceptT ε Option

open Filter

def Ends (call : Nat → Steps ε α) (outcome : Except ε α) : Prop := ∀ᶠ fuel in atTop, call fuel = some outcome

def Fails (call : Nat → Steps ε α) : Prop := ∃ err, Ends call (.error err)

theorem eventually_of_succ {P : Nat → Prop} (h : ∀ᶠ fuel in atTop, P (fuel + 1)) : ∀ᶠ fuel in atTop, P fuel := by
  rw [← map_add_atTop_eq_nat 1]
  exact h

namespace Ends

variable {call : Nat → Steps ε α}

theorem succ {outcome : Except ε α} (h : Ends (fun fuel => call (fuel + 1)) outcome) :
    Ends call outcome := eventually_of_succ h

theorem unique {x y : Except ε α} (hx : Ends call x) (hy : Ends call y) : x = y := by
  obtain ⟨fuel, hx, hy⟩ := (hx.and hy).exists
  exact Option.some.inj (hx.symm.trans hy)

theorem pure (a : α) : Ends (fun _ => (Pure.pure a : Steps ε α)) (.ok a) := Eventually.of_forall fun _ => rfl

theorem lift (x : Except ε α) : Ends (fun _ => (liftM x : Steps ε α)) x := Eventually.of_forall fun _ => rfl

variable {f : Nat → α → Steps ε β}

theorem bind {a : α} {outcome : Except ε β}
    (h : Ends call (.ok a)) (hf : Ends (fun fuel => f fuel a) outcome) :
    Ends (fun fuel => call fuel >>= f fuel) outcome := by
  filter_upwards [h, hf] with fuel h hf
  rw [h]
  exact hf

theorem bind_error {err : ε} (h : Ends call (.error err)) :
    Ends (fun fuel => call fuel >>= f fuel) (.error err) := by
  filter_upwards [h] with fuel h
  rw [h]
  rfl

theorem mapM {γ : Type} {R : β → γ → Prop} {as : List α} {cs : List γ}
    (h : List.Forall₂ (fun a c => ∃ b, Ends (fun fuel => f fuel a) (.ok b) ∧ R b c) as cs) :
    ∃ bs, Ends (fun fuel => as.mapM (f fuel)) (.ok bs) ∧ List.Forall₂ R bs cs := by
  induction h with
  | nil => exact ⟨[], Eventually.of_forall fun _ => rfl, .nil⟩
  | cons hHead _ ih =>
    obtain ⟨b, hb, hR⟩ := hHead
    obtain ⟨bs, hbs, hRs⟩ := ih
    refine ⟨b :: bs, ?_, .cons hR hRs⟩
    simp only [List.mapM_cons]
    exact hb.bind (hbs.bind (pure _))

end Ends

namespace Fails

theorem succ {call : Nat → Steps ε α} (h : Fails fun fuel => call (fuel + 1)) : Fails call :=
  h.imp fun _ h => h.succ

theorem throw (err : ε) : Fails (fun _ => (MonadExcept.throw err : Steps ε α)) := ⟨err, Eventually.of_forall fun _ => rfl⟩

theorem bind {call : Nat → Steps ε α} {f : Nat → α → Steps ε β} (h : Fails call) :
    Fails fun fuel => call fuel >>= f fuel :=
  h.imp fun _ h => h.bind_error

end Fails

theorem Ends.bind_fails {call : Nat → Steps ε α} {f : Nat → α → Steps ε β} {a : α} (h : Ends call (.ok a))
    (hf : Fails fun fuel => f fuel a) : Fails fun fuel => call fuel >>= f fuel :=
  hf.imp fun _ hf => h.bind hf

theorem mapM_cases {f : Nat → α → Steps ε β} {as : List α}
    (h : ∀ a ∈ as, (∃ b, Ends (fun fuel => f fuel a) (.ok b)) ∨ Fails fun fuel => f fuel a) :
    (∃ bs, Ends (fun fuel => as.mapM (f fuel)) (.ok bs) ∧
      List.Forall₂ (fun b a => Ends (fun fuel => f fuel a) (.ok b)) bs as) ∨ Fails fun fuel => as.mapM (f fuel) := by
  induction as with
  | nil => exact .inl ⟨[], Eventually.of_forall fun _ => rfl, .nil⟩
  | cons a as ih =>
    simp only [List.mapM_cons]
    obtain ⟨b, hb⟩ | hHead := h a List.mem_cons_self
    · obtain ⟨bs, hbs, hEach⟩ | hTail := ih fun a' ha' => h a' (List.mem_cons_of_mem a ha')
      · exact .inl ⟨b :: bs, hb.bind (hbs.bind (Ends.pure _)), .cons hb hEach⟩
      · exact .inr (hb.bind_fails (Fails.bind hTail))
    · exact .inr (Fails.bind hHead)

end F1r3Node.Lib
