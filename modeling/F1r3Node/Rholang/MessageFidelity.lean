import F1r3Node.Rholang.SpatialMatcher

/-! # Receiving a process through a variable

The value of a variable that is a pattern on its own is put together from the seven slots of the target. Other
components of a process do not come through.
-/

/-! ## Patterns that bind nothing

A pattern without connectives, free variables and wildcards is compared with the target. The comparison accepts
targets that differ from the pattern in what it does not look at.
-/

namespace F1r3Node.Rholang

open Term

def Accepts (orders : Orders) (fuel : Nat) (target pattern : Par) : Prop :=
  ∃ freeMap, intoMatchResult orders fuel target pattern = some (some freeMap)

theorem accepts_iff_matchPars {orders : Orders} {fuel : Nat} {target pattern : Par} (hFuel : 0 < fuel)
    (hUsed : pattern.connectiveUsed = false) : Accepts orders fuel target pattern ↔ matchPars target pattern = true := by
  obtain ⟨fuel, rfl⟩ := Nat.exists_eq_add_one.mpr hFuel
  rw [Accepts, intoMatchResult_eq_matchResult, matchResult, hUsed]
  cases matchPars target pattern <;> simp

theorem accepts_iff_eqv {orders : Orders} {fuel : Nat} {target pattern : Par} (hFuel : 0 < fuel)
    (hUsed : pattern.connectiveUsed = false) :
    (Accepts orders fuel target pattern ↔ eqv target pattern = true) ↔
      SkippedAgree target pattern ∨ ¬ ComparedAgree target pattern := by
  rw [accepts_iff_matchPars hFuel hUsed, eqv_iff_compare, ← compare_iff_comparedAgree, matchPars]
  tauto

def givenOrder : Orders where
  le _ _ := true
  leUnforgeable _ _ := true
  sortedPars ps := ps
  sortedList kvs := kvs

theorem accepts_iff_eqv_one :
    0 < 1 ∧ (ofExpr (ground (.gInt 1))).connectiveUsed = false ∧
      ((Accepts givenOrder 1 (ofExpr (ground (.gInt 1))) (ofExpr (ground (.gInt 1))) ↔
          eqv (ofExpr (ground (.gInt 1))) (ofExpr (ground (.gInt 1))) = true) ↔
        SkippedAgree (ofExpr (ground (.gInt 1))) (ofExpr (ground (.gInt 1))) ∨
          ¬ ComparedAgree (ofExpr (ground (.gInt 1))) (ofExpr (ground (.gInt 1)))) :=
  ⟨one_pos, rfl, accepts_iff_eqv one_pos rfl⟩

/-- `if (true) { Nil } else { Nil }`. -/
def onlyConditional : Par :=
  par nil nil nil nil nil [] nil nil
    (cons (conditional (ofExpr (ground (.gBool true))) emptyPar emptyPar [] false) nil) [] false

/-- `Nil` accepts a process that is a conditional. -/
theorem not_accepts_iff_eqv_conditional :
    ¬ (Accepts givenOrder 1 onlyConditional emptyPar ↔ eqv onlyConditional emptyPar = true) := by
  rw [accepts_iff_matchPars one_pos rfl]
  decide

end F1r3Node.Rholang

namespace F1r3Node.Rholang

open F1r3Node.Shared

structure BindPattern where
  patterns : List Par
  remainder : Option Var
  freeCount : Int

structure ListParWithRandom where
  pars : List Par
  randomState : Bytes

/-- A variable without a binding gets `Nil`. -/
def toVec (fm : FreeMap) (max : Int) : List Par := (List.range max.toNat).map fun i => (fm i).getD Term.emptyPar

namespace Matcher

def get (orders : Orders) (fuel : Nat) (pattern : BindPattern) (data : ListParWithRandom) :
    Option (Option ListParWithRandom) := do
  let (caughtRem, freeMap) ←
    (foldMatch (spatialMatch orders fuel) data.pars pattern.patterns pattern.remainder).run.run newFreeMap
  return caughtRem.map fun caughtRem =>
    let remainderMap := match pattern.remainder with
      | some (.free level) =>
        let list := Term.eList (.ofList caughtRem) [] false none
        Function.update freeMap level (some ((Term.vectorPar [] false).withExprs [list]))
      | _ => freeMap
    { pars := toVec remainderMap pattern.freeCount, randomState := data.randomState }

end Matcher

end F1r3Node.Rholang

namespace F1r3Node.Rholang

open Term Matching

def freeVarPattern (level : Int) : Par := par nil nil nil (cons (eVar (.free level)) nil) nil [] nil nil nil [] true

/-- The cache of a closed process is empty, and so are those of its components. -/
structure ClosedPar (t : Par) : Prop where
  par : t.locallyFreeCache = []
  sends : ∀ send ∈ t.sends, send.locallyFree 0 = []
  receives : ∀ receive ∈ t.receives, receive.locallyFree 0 = []
  news : ∀ new ∈ t.news, new.locallyFree 0 = []
  exprs : ∀ expr ∈ t.exprs, expr.locallyFree 0 = []
  matchProcs : ∀ matchProc ∈ t.matchProcs, matchProc.locallyFree 0 = []
  bundles : ∀ bundle ∈ t.bundles, bundle.locallyFree 0 = []

section

variable {T : Type} [DecidableEq T]

theorem listMatchSingle'_nil (c : Component T) (tlist : List T) (merger : Par → List T → Par) (level : Int)
    (h : ∀ t ∈ tlist, c.locallyFree t = []) :
    listMatchSingle' c tlist [] merger (some level) false = handleRemainder tlist level merger := by
  have hAll : (tlist.all fun t => (c.locallyFree t).isEmpty) = true := by
    rw [List.all_eq_true]
    intro t ht
    rw [h t ht]
    rfl
  simp [listMatchSingle', hAll]

omit [DecidableEq T] in
theorem run_handleRemainder (tlist : List T) (merger : Par → List T → Par) (level : Int) (freeMap : FreeMap) :
    (handleRemainder tlist level merger).run.run freeMap =
      some (some (), Function.update freeMap level (some (merger ((freeMap level).getD (vectorPar [] false)) tlist))) :=
  rfl

end

theorem matchPar_freeVar (orders : Orders) (spatialMatch : {k : Kind} → Term k → Term k → Matching Unit) {t : Par}
    (h : ClosedPar t) (level : Int) :
    matchPar orders spatialMatch t (freeVarPattern level) = (do
      handleRemainder t.sends level withSends
      handleRemainder t.receives level withReceives
      handleRemainder t.news level withNews
      handleRemainder t.exprs level withExprs
      handleRemainder t.matchProcs level withMatches
      handleRemainder t.bundles level withBundles
      handleRemainder t.unforgeables level withUnforgeables) := by
  have hSends := listMatchSingle'_nil (component orders spatialMatch .send) t.sends withSends level h.sends
  have hReceives := listMatchSingle'_nil (component orders spatialMatch .receive) t.receives withReceives level h.receives
  have hNews := listMatchSingle'_nil (component orders spatialMatch .new) t.news withNews level h.news
  have hExprs := listMatchSingle'_nil (component orders spatialMatch .expr) t.exprs withExprs level h.exprs
  have hMatchProcs := listMatchSingle'_nil (component orders spatialMatch .matchProc) t.matchProcs withMatches level
    h.matchProcs
  have hBundles := listMatchSingle'_nil (component orders spatialMatch .bundle) t.bundles withBundles level h.bundles
  have hUnforgeables := listMatchSingle'_nil (unforgeableComponent orders) t.unforgeables withUnforgeables level
    fun _ _ => rfl
  rw [← hSends, ← hReceives, ← hNews, ← hExprs, ← hMatchProcs, ← hBundles, ← hUnforgeables]
  rfl

theorem run_spatialMatch_freeVar (orders : Orders) (fuel : Nat) {t : Par} (h : ClosedPar t) (level : Int)
    {freeMap : FreeMap} (hFree : freeMap level = none) :
    (spatialMatch orders (fuel + 1) t (freeVarPattern level)).run.run freeMap =
      some (some (), Function.update freeMap level (some t.onlySlots)) := by
  rw [spatialMatch_par, matchPar_freeVar orders _ h, run_bind_of_run (run_handleRemainder _ _ _ _),
    run_bind_of_run (run_handleRemainder _ _ _ _), run_bind_of_run (run_handleRemainder _ _ _ _),
    run_bind_of_run (run_handleRemainder _ _ _ _), run_bind_of_run (run_handleRemainder _ _ _ _),
    run_bind_of_run (run_handleRemainder _ _ _ _), run_handleRemainder]
  simp only [Function.update_self, Function.update_idem, hFree, Option.getD_some, Option.getD_none]
  rfl

theorem eqv_onlySlots_iff (t : Par) :
    eqv t.onlySlots t = true ↔ t.connectives = [] ∧ t.conditionals = [] ∧ t.connectiveUsed = false := by
  cases t with
  | par s r n e m u b c i l f =>
    simp only [onlySlots, ofSlots, sends, receives, news, exprs, matchProcs, unforgeables, bundles, connectives,
      conditionals, ofList_toList, toList_eq_nil_iff, eqv_par_iff, eqv_self, eqv_nil_iff, connectiveUsed_par, true_and]
    rw [eq_comm (a := false)]

def ReceivedAsSent (orders : Orders) (fuel : Nat) (t : Par) : Prop :=
  (∀ level, ∃ freeMap value, intoMatchResult orders fuel t (freeVarPattern level) = some (some freeMap) ∧
      freeMap level = some value ∧ eqv value t = true) ∧
    ∀ randomState, ∃ value, Matcher.get orders fuel ⟨[freeVarPattern 0], none, 1⟩ ⟨[t], randomState⟩ =
      some (some ⟨[value], randomState⟩) ∧ eqv value t = true

theorem intoMatchResult_freeVar (orders : Orders) {fuel : Nat} (hFuel : 0 < fuel) {t : Par} (h : ClosedPar t)
    (level : Int) :
    intoMatchResult orders fuel t (freeVarPattern level) =
      some (some (Function.update newFreeMap level (some t.onlySlots))) := by
  obtain ⟨fuel, rfl⟩ := Nat.exists_eq_add_one.mpr hFuel
  rw [intoMatchResult, run_spatialMatch_freeVar orders fuel h level rfl]
  rfl

theorem get_freeVar (orders : Orders) {fuel : Nat} (hFuel : 0 < fuel) {t : Par} (h : ClosedPar t)
    (randomState : F1r3Node.Shared.Bytes) :
    Matcher.get orders fuel ⟨[freeVarPattern 0], none, 1⟩ ⟨[t], randomState⟩ =
      some (some ⟨[t.onlySlots], randomState⟩) := by
  obtain ⟨fuel, rfl⟩ := Nat.exists_eq_add_one.mpr hFuel
  have hFold : (foldMatch (spatialMatch orders (fuel + 1)) [t] [freeVarPattern 0] none).run.run newFreeMap =
      some (some [], Function.update newFreeMap 0 (some t.onlySlots)) := by
    have hRun : (spatialMatch orders (fuel + 1) t (freeVarPattern 0)).run.run newFreeMap =
        some (some (), Function.update newFreeMap 0 (some t.onlySlots)) := run_spatialMatch_freeVar orders fuel h 0 rfl
    have hAll : ([(t, freeVarPattern 0)].forM fun (t, p) => spatialMatch orders (fuel + 1) t p).run.run newFreeMap =
        some (some (), Function.update newFreeMap 0 (some t.onlySlots)) := by
      change (spatialMatch orders (fuel + 1) t (freeVarPattern 0) >>= fun _ => pure ()).run.run newFreeMap = _
      rw [run_bind_of_run hRun]
      rfl
    rw [foldMatch]
    exact run_bind_of_run hAll
  rw [Matcher.get, hFold]
  rfl

/-- A process comes through as it is when it has components in the seven slots only. -/
theorem receivedAsSent_iff (orders : Orders) {fuel : Nat} (hFuel : 0 < fuel) {t : Par} (h : ClosedPar t) :
    ReceivedAsSent orders fuel t ↔ t.connectives = [] ∧ t.conditionals = [] ∧ t.connectiveUsed = false := by
  rw [← eqv_onlySlots_iff]
  constructor
  · rintro ⟨hMatch, -⟩
    obtain ⟨freeMap, value, hResult, hValue, hEqv⟩ := hMatch 0
    rw [intoMatchResult_freeVar orders hFuel h] at hResult
    obtain rfl := Option.some.inj (Option.some.inj hResult)
    rw [Function.update_self] at hValue
    obtain rfl := Option.some.inj hValue
    exact hEqv
  · intro hEqv
    exact ⟨fun level => ⟨_, _, intoMatchResult_freeVar orders hFuel h level, Function.update_self .., hEqv⟩,
      fun randomState => ⟨_, get_freeVar orders hFuel h randomState, hEqv⟩⟩

theorem closedPar_ofExpr_ground (value : Ground) : ClosedPar (ofExpr (ground value)) where
  par := rfl
  sends := nofun
  receives := nofun
  news := nofun
  exprs := by
    intro expr hMem
    obtain rfl := List.mem_singleton.mp hMem
    rfl
  matchProcs := nofun
  bundles := nofun

theorem receivedAsSent_iff_one :
    0 < 1 ∧ ClosedPar (ofExpr (ground (.gInt 1))) ∧
      (ReceivedAsSent givenOrder 1 (ofExpr (ground (.gInt 1))) ↔
        (ofExpr (ground (.gInt 1))).connectives = [] ∧ (ofExpr (ground (.gInt 1))).conditionals = [] ∧
          (ofExpr (ground (.gInt 1))).connectiveUsed = false) :=
  ⟨one_pos, closedPar_ofExpr_ground _, receivedAsSent_iff givenOrder one_pos (closedPar_ofExpr_ground _)⟩

/-- A conditional is lost on the way. -/
theorem not_receivedAsSent_conditional :
    ClosedPar onlyConditional ∧ ¬ ReceivedAsSent givenOrder 1 onlyConditional := by
  have hClosed : ClosedPar onlyConditional := ⟨rfl, nofun, nofun, nofun, nofun, nofun, nofun⟩
  refine ⟨hClosed, ?_⟩
  rintro ⟨hMatch, -⟩
  obtain ⟨freeMap, value, hResult, hValue, hEqv⟩ := hMatch 0
  rw [intoMatchResult_freeVar givenOrder one_pos hClosed] at hResult
  obtain rfl := Option.some.inj (Option.some.inj hResult)
  obtain rfl := Option.some.inj hValue
  exact absurd hEqv (by decide)

end F1r3Node.Rholang
