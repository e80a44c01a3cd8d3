import F1r3Node.Rholang.GuardSemantics

/-! # Guards in the two evaluators

The reducer wraps sums and differences around, evaluates the elements of list and tuple literals, and knows the
arithmetic of more kinds of numbers and additions to collections.
-/

namespace F1r3Node.Rholang

open F1r3Node.Lib Term Filter

def UnarySafe (r : Reducer) (op : UnaryOp) (v : Par) : Prop :=
  op = .neg → ∀ g, singleGround v = some g → isNegatable g = true → Failed (r.negate g)

def isOrderOrArithmetic : BinaryOp → Bool
  | .lt | .lte | .gt | .gte | .plus | .minus | .mult | .div | .mod => true
  | _ => false

structure BinarySafe (r : Reducer) (op : BinaryOp) (v1 v2 : Par) : Prop where
  /-- A sum or a difference does not wrap around. -/
  ints : ∀ a b, singleGround v1 = some (.gInt a) → singleGround v2 = some (.gInt b) →
    (op = .plus → inRange (a.toInt + b.toInt) = true) ∧ (op = .minus → inRange (a.toInt - b.toInt) = true)
  /-- The operator on other numbers fails in the reducer too. -/
  numbers : ∀ g1 g2, singleGround v1 = some g1 → singleGround v2 = some g2 → isNumberPair g1 g2 = true →
    isOrderOrArithmetic op = true → Failed (r.numbers op g1 g2)
  /-- Nothing is added to a collection or taken from one. -/
  collections : ∀ e1 e2, single v1 = some e1 → single v2 = some e2 →
    (op = .plus → Reducer.takesElement e1 = false) ∧ (op = .minus → Reducer.givesElement e1 = false)

def RootSafe (r : Reducer) (env : Env) : Expr → Prop
  | .eList ps _ _ _ => ∀ p ∈ ps.toList, IsLiteral p
  | .eTuple ps _ _ => ∀ p ∈ ps.toList, IsLiteral p
  | .unary op p => ∀ v, denote env p = some v → UnarySafe r op v
  | .binary op p1 p2 => ∀ v1 v2, denote env p1 = some v1 → denote env p2 = some v2 → BinarySafe r op v1 v2
  | _ => True

inductive Safe (r : Reducer) (env : Env) : Par → Prop
  | intro {e : Expr} {locallyFree : BitSet} (below : ∀ p ∈ parts e, Safe r env p) (root : RootSafe r env e) :
      Safe r env (exprPar e locallyFree false)

def Agrees (r : Reducer) (env : Env) (p : Par) : Prop :=
  (∃ v w, Ends (fun fuel => PureEval.eval env fuel p) (.ok v) ∧ Ends (fun fuel => r.evalExpr env fuel p) (.ok w) ∧
    w.eqv v = true) ∨
  (Fails (fun fuel => PureEval.eval env fuel p) ∧ Fails fun fuel => r.evalExpr env fuel p)

def YieldsBool {ε : Type} (call : Nat → Steps ε Bool) : Option Ground → Prop
  | some (.gBool b) => Ends call (.ok b)
  | _ => Fails call

/-- The three ways in which the reducer evaluates a process end with its value, as far as they can use it. -/
structure Evaluated (r : Reducer) (env : Env) (p : Par) (d : Option Par) : Prop where
  expr : Yields (fun fuel => (r.calls env fuel).evalExpr p) d
  singleExpr : Yields (fun fuel => (r.calls env fuel).evalSingleExpr p) (d.bind single)
  bool : YieldsBool (fun fuel => (r.calls env fuel).evalToBool p) (d.bind singleGround)

section

variable {r : Reducer} {env : Env}

def isPlain : Expr → Bool
  | .eVar _ | .eMethod .. => false
  | _ => true

variable {p v : Par}

theorem Evaluated.congr {w : Par} (h : Evaluated r env p (some v)) (hEqv : v.eqv w = true) :
    Evaluated r env p (some w) := by
  obtain ⟨t, ht, htv⟩ := h.expr
  refine ⟨⟨t, ht, eqv_trans htv hEqv⟩, ?_, ?_⟩
  · have hSingle := h.singleExpr
    change Yields _ (single v) at hSingle
    change Yields _ (single w)
    cases hw : single w with
    | none =>
      rw [single_none_of_eqv hEqv hw] at hSingle
      exact hSingle
    | some e =>
      obtain ⟨e', he', hee⟩ := single_of_eqv hEqv hw
      rw [he'] at hSingle
      obtain ⟨t', ht', hte⟩ := hSingle
      exact ⟨t', ht', eqv_trans hte hee⟩
  · have hBool := h.bool
    change YieldsBool _ (singleGround v) at hBool
    change YieldsBool _ (singleGround w)
    rwa [← singleGround_congr hEqv]

variable {e : Expr}

theorem evalToBoolStep_exprPar (calls : Reducer.Calls) (hPlain : isPlain e = true) (l : BitSet) (f : Bool) :
    r.evalToBoolStep calls env (exprPar e l f) = (do
      match ← r.evalExprToExpr calls env e with
      | .ground (.gBool b) => return b
      | _ => throw (.reduceError "Error: expression didn't evaluate to boolean.")) := by
  cases e with
  | ground g => cases g <;> rfl
  | eVar => cases hPlain
  | _ => rfl

theorem evalExprToPar_of_isPlain (calls : Reducer.Calls) (hPlain : isPlain e = true) :
    r.evalExprToPar calls env e = (do
      let e ← r.evalExprToExpr calls env e
      return ofExpr e) := by
  cases e with
  | eVar | eMethod => cases hPlain
  | _ => rfl

theorem evaluated_exprPar (hPlain : isPlain e = true) (l : BitSet) (f : Bool) {oe : Option Expr}
    (h : Yields (fun fuel => r.evalExprToExpr (r.calls env fuel) env e) oe) :
    Evaluated r env (exprPar e l f) (oe.map fun e => exprPar e l f) := by
  have hStep : ∀ fuel, (r.calls env (fuel + 1)).evalExpr (exprPar e l f) = ((do
      let evaled ← r.evalExprToExpr (r.calls env fuel) env e
      return concatenatePars ((exprPar e l f).cloneWithExprs []) (ofExpr evaled)) : Steps InterpreterError Par) := by
    intro fuel
    change (List.mapM (r.evalExprToPar (r.calls env fuel) env) [e] >>= _) = _
    rw [List.mapM_cons, evalExprToPar_of_isPlain _ hPlain]
    simp only [List.mapM_nil, bind_assoc]
    rfl
  have hBoolStep : ∀ fuel, (r.calls env (fuel + 1)).evalToBool (exprPar e l f) = _ := fun fuel =>
    evalToBoolStep_exprPar (r.calls env fuel) hPlain l f
  cases oe with
  | none =>
    refine ⟨Fails.succ ?_, Fails.succ h, Fails.succ ?_⟩
    · simp only [hStep]
      exact Fails.bind h
    · simp only [hBoolStep]
      exact Fails.bind h
  | some e0 =>
    obtain ⟨e', he', hEqv⟩ := h
    refine ⟨⟨_, Ends.succ ?_, eqv_exprPar hEqv (union [] l) l f⟩, ⟨e', he'.succ, hEqv⟩, ?_⟩
    · simp only [hStep]
      refine he'.bind ?_
      cases f <;> exact Ends.pure _
    · change YieldsBool _ (asGround e0)
      rw [← asGround_congr hEqv]
      cases e' with
      | ground g =>
        cases g with
        | gBool b =>
          apply Ends.succ
          simp only [hBoolStep]
          exact he'.bind (Ends.pure _)
        | _ =>
          apply Fails.succ
          simp only [hBoolStep]
          exact he'.bind_fails (Fails.throw _)
      | _ =>
        apply Fails.succ
        simp only [hBoolStep]
        exact he'.bind_fails (Fails.throw _)

theorem evaluated_process (h : p.exprs = []) : Evaluated r env p (some p) := by
  have hSingle : single p = none := by
    rw [single_eq, h]
    split_ifs <;> rfl
  refine ⟨⟨p.cloneWithExprs [], Ends.succ (Eventually.of_forall fun fuel => ?_), ?_⟩, ?_, ?_⟩
  · change (List.mapM (r.evalExprToPar (r.calls env fuel) env) p.exprs >>= _) = _
    rw [h]
    rfl
  · cases p with
    | par s r n es m u b c i l f =>
      cases toList_eq_nil_iff.mp h
      exact eqv_self _
  · change Yields _ (single p)
    rw [hSingle]
    apply Fails.succ
    change Fails fun fuel => r.evalSingleExprStep (r.calls env fuel) env p
    simp only [Reducer.evalSingleExprStep, h]
    split_ifs <;> exact Fails.throw _
  · change YieldsBool _ ((single p).bind asGround)
    rw [hSingle]
    apply Fails.succ
    change Fails fun fuel => r.evalToBoolStep (r.calls env fuel) env p
    simp only [Reducer.evalToBoolStep, h]
    split_ifs <;> exact Fails.throw _

variable {ps : List Par}

theorem evalElements_ends {ps' : List Par} (hEqv : List.Forall₂ (fun p' p => eqv p' p = true) ps' ps)
    (hps : ∀ p ∈ ps, ∀ p', p'.eqv p = true → Evaluated r env p' (some p)) :
    ∃ qs, Ends (fun fuel => Reducer.evalElements (r.calls env fuel) ps') (.ok qs) ∧
      List.Forall₂ (fun q p => eqv q p = true) qs ps := by
  have hAll : List.Forall₂ (fun p' p => ∃ q, Ends (fun fuel => (r.calls env fuel).evalExpr p') (.ok q) ∧
      (updateLocallyFreePar q).eqv p = true) ps' ps := by
    induction hEqv with
    | nil => exact .nil
    | @cons p' p ps' ps hHead _ ih =>
      obtain ⟨q, hq, hqp⟩ := (hps p List.mem_cons_self p' hHead).expr
      refine .cons ⟨q, hq, eqv_trans (eqv_updateLocallyFreePar q) hqp⟩ ?_
      exact ih fun p hp => hps p (List.mem_cons_of_mem _ hp)
  obtain ⟨qs, hqs, hRel⟩ := Ends.mapM hAll
  refine ⟨qs.map updateLocallyFreePar, hqs.bind (Ends.pure _), ?_⟩
  rwa [List.forall₂_map_left_iff]

theorem evalRows_ends {kvs' kvs : List (Term .keyValuePair)}
    (hEqv : List.Forall₂ (fun kv' kv => eqv kv' kv = true) kvs' kvs)
    (hKeys : ∀ kv ∈ kvs, ∀ p', p'.eqv (Sorter.keyOf kv) = true → Evaluated r env p' (some (Sorter.keyOf kv)))
    (hValues : ∀ kv ∈ kvs, ∀ p', p'.eqv (Sorter.valueOf kv) = true → Evaluated r env p' (some (Sorter.valueOf kv))) :
    ∃ rows, Ends (fun fuel => kvs'.mapM (Reducer.evalRow (r.calls env fuel))) (.ok rows) ∧
      List.Forall₂ (fun row kv => eqv row kv = true) rows kvs := by
  apply Ends.mapM
  induction hEqv with
  | nil => exact .nil
  | @cons kv' kv kvs' kvs hHead _ ih =>
    refine .cons ?_ (ih (fun kv hkv => hKeys kv (List.mem_cons_of_mem _ hkv)) fun kv hkv =>
      hValues kv (List.mem_cons_of_mem _ hkv))
    cases kv' with
    | keyValuePair key' value' =>
      cases kv with
      | keyValuePair key value =>
        simp only [eqv, Bool.and_eq_true] at hHead
        obtain ⟨k, hk, hkEqv⟩ := (hKeys _ List.mem_cons_self key' hHead.1).expr
        obtain ⟨v, hv, hvEqv⟩ := (hValues _ List.mem_cons_self value' hHead.2).expr
        refine ⟨keyValuePair k v, hk.bind (hv.bind (Ends.pure _)), ?_⟩
        simp only [eqv, Bool.and_eq_true]
        exact ⟨hkEqv, hvEqv⟩

theorem eqv_ofList_iff {k : Kind} {ts : List (Term k)} {us : Term (.list k)} :
    (ofList ts).eqv us = true ↔ List.Forall₂ (fun t u => eqv t u = true) ts us.toList := by
  rw [eqv_iff_forall₂, toList_ofList]

theorem evaluated_value (hv : IsValue r.sorter v) :
    ∀ v', v'.eqv v = true → Evaluated r env v' (some v) := by
  -- one expression whose kind says how its parts are evaluated
  have hExpr : ∀ {e : Expr} {l : BitSet} {f : Bool}, isPlain e = true →
      (∀ e', e'.eqv e = true → Yields (fun fuel => r.evalExprToExpr (r.calls env fuel) env e') (some e)) →
      ∀ v', v'.eqv (exprPar e l f) = true → Evaluated r env v' (some (exprPar e l f)) := by
    intro e l f hPlain he v' hEqv
    obtain ⟨e', l', rfl, hEqv'⟩ := exists_of_eqv_exprPar hEqv
    have hPlain' : isPlain e' = true := by
      have hErase : ∀ e : Expr, isPlain e.erase = isPlain e := fun e => by cases e <;> rfl
      rw [← hErase, (eqv_iff _ _).mp hEqv', hErase]
      exact hPlain
    exact (evaluated_exprPar hPlain' l' f (he e' hEqv')).congr (eqv_exprPar (eqv_self e) _ _ _)
  induction hv with
  | @process p noExprs =>
    intro v' hEqv
    have hNil : v'.exprs = [] := by
      cases v'
      cases p
      obtain ⟨_, _, _, he, _⟩ := eqv_par_iff.mp hEqv
      cases toList_eq_nil_iff.mp noExprs
      cases eqv_nil_iff.mp (eqv_symm he)
      rfl
    exact (evaluated_process hNil).congr hEqv
  | ground g l f =>
    apply hExpr rfl
    intro e' he'
    cases eq_ground_of_asGround (asGround_congr he')
    exact ⟨_, Ends.pure _, eqv_self _⟩
  | @list ps below l l' f f' ih =>
    apply hExpr rfl
    intro e' he'
    cases e' with
    | eList ps' l'' f'' remainder =>
      simp only [eqv, Bool.and_eq_true, beq_iff_eq, decide_eq_true_eq] at he'
      obtain ⟨⟨hps, rfl⟩, rfl⟩ := he'
      obtain ⟨qs, hqs, hRel⟩ := evalElements_ends (eqv_iff_forall₂.mp hps) ih
      refine ⟨_, hqs.bind (Ends.pure _), ?_⟩
      simp [eqv, eqv_ofList_iff.mpr hRel]
    | _ => cases he'
  | @tuple ps below l l' f f' ih =>
    apply hExpr rfl
    intro e' he'
    cases e' with
    | eTuple ps' l'' f'' =>
      simp only [eqv, Bool.and_eq_true, beq_iff_eq] at he'
      obtain ⟨hps, rfl⟩ := he'
      obtain ⟨qs, hqs, hRel⟩ := evalElements_ends (eqv_iff_forall₂.mp hps) ih
      refine ⟨_, hqs.bind (Ends.pure _), ?_⟩
      simp [eqv, eqv_ofList_iff.mpr hRel]
    | _ => cases he'
  | @set ps below canonical l l' f f' remainder ih =>
    apply hExpr rfl
    intro e' he'
    cases e' with
    | eSet ps' l'' f'' remainder' =>
      simp only [eqv, Bool.and_eq_true, beq_iff_eq, decide_eq_true_eq] at he'
      obtain ⟨⟨hps, rfl⟩, rfl⟩ := he'
      obtain ⟨qs, hqs, hRel⟩ := evalElements_ends (eqv_iff_forall₂.mp (canonical ps' hps)) ih
      refine ⟨_, hqs.bind (Ends.pure _), ?_⟩
      simp [eqv, canonical _ (eqv_ofList_iff.mpr hRel)]
    | _ => cases he'
  | @map kvs keys values canonical l l' f f' remainder ihKeys ihValues =>
    apply hExpr rfl
    intro e' he'
    cases e' with
    | eMap kvs' l'' f'' remainder' =>
      simp only [eqv, Bool.and_eq_true, beq_iff_eq, decide_eq_true_eq] at he'
      obtain ⟨⟨hkvs, rfl⟩, rfl⟩ := he'
      obtain ⟨rows, hRows, hRel⟩ := evalRows_ends (eqv_iff_forall₂.mp (canonical kvs' hkvs)) ihKeys ihValues
      refine ⟨_, hRows.bind (Ends.pure _), ?_⟩
      simp [eqv, canonical _ (eqv_ofList_iff.mpr hRel)]
    | _ => cases he'

variable {s : Sorter}

theorem IsLiteral.isValue (h : IsLiteral p) : IsValue s p := by
  induction h with
  | @intro e l node below ih =>
    match e, node, ih with
    | .ground g, _, _ => exact .ground g l false
    | .eList ps l' false none, _, ih => exact .list ih l' l false false
    | .eTuple ps l' false, _, ih => exact .tuple ih l' l false false

variable {e' : Expr}

theorem substitute_exprPar {fuel : Nat} (hPlain : isPlain e = true)
    (hFree : e'.connectiveUsed = false) (h : substituteNoSort s fuel e 0 env = .ok e') (l : BitSet) :
    substituteNoSort s (fuel + 1) (exprPar e l false) 0 env =
      .ok (exprPar e' (union (union (setBitsUntil l env.shift) []) (union [] (e'.locallyFree 0))) false) := by
  have hExp : subExp (substituteNoSort s fuel) 0 env (cons e nil) = .ok (prependExpr 0 e' emptyPar) := by
    change (subExpStep (substituteNoSort s fuel) 0 env emptyPar e >>= Pure.pure) = _
    have hStep : subExpStep (substituteNoSort s fuel) 0 env emptyPar e = (do
        let e ← substituteNoSort s fuel e 0 env
        return prependExpr 0 e emptyPar) := by
      cases e with
      | eVar => cases hPlain
      | _ => rfl
    rw [hStep, h]
    rfl
  change (subExp (substituteNoSort s fuel) 0 env (cons e nil) >>= _) = _
  rw [hExp]
  simp only [prependExpr, emptyPar, ofSlots, hFree]
  rfl

/-- Substitution and sorting give back `t`. -/
def Restores {k : Kind} (s : Sorter) (env : Env) (t' t : Term k) : Prop :=
  ∃ w, (∀ᶠ fuel in atTop, substituteNoSort s fuel t' 0 env = .ok w) ∧ (w.sortMatch s).eqv t = true

theorem substituteAll_restores {ps' ps : Term (.list .par)} (hEqv : ps'.eqv ps = true)
    (h : ∀ p ∈ ps.toList, ∀ p', p'.eqv p = true → Restores s env p' p) :
    ∃ ws : List Par, (∀ᶠ fuel in atTop, substituteAllNoSort (substituteNoSort s fuel) ps' 0 env = .ok (ofList ws)) ∧
      ((ofList ws).sortMatch s).eqv ps = true := by
  have hAll : ∀ {qs' qs : List Par}, List.Forall₂ (fun q' q => eqv q' q = true) qs' qs →
      (∀ q ∈ qs, ∀ q', q'.eqv q = true → Restores s env q' q) →
      ∃ ws : List Par, (∀ᶠ fuel in atTop, (qs'.mapM fun q => substituteNoSort s fuel q 0 env) = .ok ws) ∧
        List.Forall₂ (fun w q => eqv (w.sortMatch s) q = true) ws qs := by
    intro qs' qs hRel hRestores
    induction hRel with
    | nil => exact ⟨[], Eventually.of_forall fun _ => rfl, .nil⟩
    | @cons q' q qs' qs hHead _ ih =>
      obtain ⟨w, hw, hwEqv⟩ := hRestores q List.mem_cons_self q' hHead
      obtain ⟨ws, hws, hwsEqv⟩ := ih fun q hq => hRestores q (List.mem_cons_of_mem _ hq)
      refine ⟨w :: ws, ?_, .cons hwEqv hwsEqv⟩
      filter_upwards [hw, hws] with fuel hw hws
      rw [List.mapM_cons, hw, hws]
      rfl
  have hSort : ∀ ws : List Par, ((ofList ws).sortMatch s) = ofList (ws.map (sortMatch s)) := by
    intro ws
    induction ws with
    | nil => rfl
    | cons w ws ih => exact congrArg (cons (w.sortMatch s)) ih
  obtain ⟨ws, hws, hRel⟩ := hAll (eqv_iff_forall₂.mp hEqv) h
  refine ⟨ws, ?_, ?_⟩
  · filter_upwards [hws] with fuel hws
    rw [substituteAllNoSort, hws]
    rfl
  · rw [hSort, eqv_ofList_iff, List.forall₂_map_left_iff]
    exact hRel

theorem IsLiteral.restores (h : IsLiteral p) : ∀ p', p'.eqv p = true → Restores s env p' p := by
  have hExpr : ∀ {e : Expr} {l : BitSet}, isPlain e = true →
      (∀ e', e'.eqv e = true → isPlain e' = true ∧ ∃ w, w.connectiveUsed = false ∧
        (∀ᶠ fuel in atTop, substituteNoSort s fuel e' 0 env = .ok w) ∧ (w.sortMatch s).eqv e = true) →
      ∀ p', p'.eqv (exprPar e l false) = true → Restores s env p' (exprPar e l false) := by
    intro e l hPlain he p' hEqv
    obtain ⟨e', l', rfl, hEqv'⟩ := exists_of_eqv_exprPar hEqv
    obtain ⟨hPlain', w, hFree, hEnds, hSorted⟩ := he e' hEqv'
    refine ⟨exprPar w (union (union (setBitsUntil l' env.shift) []) (union [] (w.locallyFree 0))) false,
      eventually_of_succ ?_, ?_⟩
    · filter_upwards [hEnds] with fuel hEnds
      exact substitute_exprPar hPlain' hFree hEnds l'
    · exact eqv_exprPar hSorted _ l false
  induction h with
  | @intro e l node below ih =>
    match e, node, ih with
    | .ground g, _, _ =>
      apply hExpr rfl
      intro e' he'
      cases eq_ground_of_asGround (asGround_congr he')
      exact ⟨rfl, ground g, rfl, eventually_of_succ (Eventually.of_forall fun _ => rfl), eqv_self _⟩
    | .eList ps l' false none, _, ih =>
      apply hExpr rfl
      intro e' he'
      cases e' with
      | eList ps' l'' f remainder =>
        simp only [eqv, Bool.and_eq_true, beq_iff_eq, decide_eq_true_eq] at he'
        obtain ⟨⟨hps, rfl⟩, rfl⟩ := he'
        obtain ⟨ws, hws, hSorted⟩ := substituteAll_restores hps ih
        refine ⟨rfl, eList (ofList ws) (setBitsUntil l'' env.shift) false none, rfl, eventually_of_succ ?_, ?_⟩
        · filter_upwards [hws] with fuel hws
          change (substituteAllNoSort (substituteNoSort s fuel) ps' 0 env >>= _) = _
          rw [hws]
          rfl
        · simp [sortMatch, eqv, hSorted]
      | _ => cases he'
    | .eTuple ps l' false, _, ih =>
      apply hExpr rfl
      intro e' he'
      cases e' with
      | eTuple ps' l'' f =>
        simp only [eqv, Bool.and_eq_true, beq_iff_eq] at he'
        obtain ⟨hps, rfl⟩ := he'
        obtain ⟨ws, hws, hSorted⟩ := substituteAll_restores hps ih
        refine ⟨rfl, eTuple (ofList ws) (setBitsUntil l'' env.shift) false, rfl, eventually_of_succ ?_, ?_⟩
        · filter_upwards [hws] with fuel hws
          change (substituteAllNoSort (substituteNoSort s fuel) ps' 0 env >>= _) = _
          rw [hws]
          rfl
        · simp [sortMatch, eqv, hSorted]
      | _ => cases he'

theorem IsLiteral.fixed (h : IsLiteral v) : Fixed r env v := by
  intro v' hEqv
  obtain ⟨w, hw, hSorted⟩ : Restores r.sorter env v' v := h.restores v' hEqv
  refine ⟨w.sortMatch r.sorter, ?_, hSorted⟩
  filter_upwards [hw] with fuel hw
  simp only [Reducer.substituteStep, substitute, hw]
  rfl

def Gives {ε : Type} (x : Except ε Expr) : Option Ground → Prop
  | some g => x = .ok (ground g)
  | none => Failed x

section

variable {op : BinaryOp} {e1 e2 : Expr}
  (hNumbers : ∀ g1 g2, asGround e1 = some g1 → asGround e2 = some g2 → isNumberPair g1 g2 = true →
    Failed (r.numbers op g1 g2))
include hNumbers

variable {f : Int64 → Int64 → Option Int64}

theorem arithmetic_gives {symbol : String} {ints : Int64 → Int64 → Except InterpreterError Int64}
    (hInts : ∀ a b, (∃ i, f a b = some i ∧ ints a b = .ok i) ∨ (f a b = none ∧ Failed (ints a b))) :
    Gives (r.arithmetic op symbol ints e1 e2) (onInts f (asGround e1) (asGround e2)) := by
  unfold Reducer.arithmetic
  split
  next a b =>
    simp only [asGround, onInts]
    obtain ⟨i, hf, hi⟩ | ⟨hf, err, hErr⟩ := hInts a b
    · rw [hf, hi]
      rfl
    · rw [hf, hErr]
      exact ⟨err, rfl⟩
  next g1 g2 hOther =>
    rw [onInts_of_not_ints fun a b h1 h2 => hOther a b (Term.ground.inj h1) (Term.ground.inj h2)]
    split_ifs with hPair
    · obtain ⟨err, hErr⟩ := hNumbers g1 g2 rfl rfl hPair
      rw [hErr]
      exact ⟨err, rfl⟩
    · exact ⟨_, rfl⟩
  next hOther =>
    rw [onInts_of_not_ints fun a b h1 h2 => hOther _ _ h1 h2]
    exact ⟨_, rfl⟩

theorem sumOrDifference_gives {symbol : String} {wrapping : Int64 → Int64 → Int64} {takes : Expr → Bool}
    (hTakes : takes e1 = false)
    (hInts : ∀ a b, asGround e1 = some (.gInt a) → asGround e2 = some (.gInt b) → f a b = some (wrapping a b)) :
    Gives (r.sumOrDifference op symbol wrapping takes e1 e2) (onInts f (asGround e1) (asGround e2)) := by
  unfold Reducer.sumOrDifference
  split
  next a b =>
    simp only [asGround, onInts, hInts a b rfl rfl]
    rfl
  next g1 g2 hOther =>
    rw [onInts_of_not_ints fun a b h1 h2 => hOther a b (Term.ground.inj h1) (Term.ground.inj h2)]
    split_ifs with hPair
    · obtain ⟨err, hErr⟩ := hNumbers g1 g2 rfl rfl hPair
      rw [hErr]
      exact ⟨err, rfl⟩
    · exact ⟨_, rfl⟩
  next hOther =>
    rw [onInts_of_not_ints fun a b h1 h2 => hOther _ _ h1 h2, hTakes]
    exact ⟨_, rfl⟩

theorem relop_gives {relopb : Bool → Bool → Bool} {relopi : Int64 → Int64 → Bool} {relops : String → String → Bool}
    {f : Ordering → Bool} (hb : ∀ a b, relopb a b = f (compare a b))
    (hi : ∀ a b, relopi a b = f (compare a.toInt b.toInt)) (hs : ∀ a b, relops a b = f (compare a b)) :
    Gives (r.relop op relopb relopi relops e1 e2) (onOrder f (asGround e1) (asGround e2)) := by
  unfold Reducer.relop
  split
  next a b =>
    rw [hb]
    rfl
  next a b =>
    rw [hi]
    rfl
  next a b =>
    rw [hs]
    rfl
  next g1 g2 hBool hInt hString =>
    have hNone : onOrder f (some g1) (some g2) = none := by
      unfold onOrder
      split
      next h1 h2 => exact (hInt _ _ (Option.some.inj h1) (Option.some.inj h2)).elim
      next h1 h2 => exact (hString _ _ (Option.some.inj h1) (Option.some.inj h2)).elim
      next h1 h2 => exact (hBool _ _ (Option.some.inj h1) (Option.some.inj h2)).elim
      · rfl
    rw [asGround, asGround, hNone]
    split_ifs with hPair
    · obtain ⟨err, hErr⟩ := hNumbers g1 g2 rfl rfl hPair
      rw [hErr]
      exact ⟨err, rfl⟩
    · exact ⟨_, rfl⟩
  next hOther =>
    have hNone : asGround e1 = none ∨ asGround e2 = none := by
      cases h1 : asGround e1 with
      | none => exact .inl rfl
      | some g1 =>
        cases h2 : asGround e2 with
        | none => exact .inr rfl
        | some g2 => exact (hOther g1 g2 (eq_ground_of_asGround h1) (eq_ground_of_asGround h2)).elim
    rw [onOrder_none hNone]
    exact ⟨_, rfl⟩

end

theorem compare_views {α : Type} [LinearOrder α] (a b : α) :
    (a < b ↔ (compare a b).isLT = true) ∧ (a ≤ b ↔ (compare a b).isLE = true) ∧
      (a > b ↔ (compare a b).isGT = true) ∧ (a ≥ b ↔ (compare a b).isGE = true) := by
  obtain h | rfl | h := lt_trichotomy a b
  · rw [compare_lt_iff_lt.mpr h]
    simp [h, h.le, h.not_gt, h.not_ge]
  · rw [compare_eq_iff_eq.mpr rfl]
    simp
  · rw [compare_gt_iff_gt.mpr h]
    simp [h, h.le, h.not_gt, h.not_ge]

theorem multiply_cases (a b : Int64) :
    (∃ i, checkedMul a b = some i ∧ Reducer.multiply a b = .ok i) ∨
      (checkedMul a b = none ∧ Failed (Reducer.multiply a b)) := by
  unfold Reducer.multiply
  cases checkedMul a b with
  | none => exact .inr ⟨rfl, _, rfl⟩
  | some i => exact .inl ⟨i, rfl, rfl⟩

theorem divide_cases (a b : Int64) :
    (∃ i, checkedDiv a b = some i ∧ Reducer.divide a b = .ok i) ∨
      (checkedDiv a b = none ∧ Failed (Reducer.divide a b)) := by
  unfold Reducer.divide checkedDiv
  cases b == 0 with
  | true => exact .inr ⟨rfl, _, rfl⟩
  | false =>
    cases quotientOverflows a b with
    | true => exact .inr ⟨rfl, _, rfl⟩
    | false => exact .inl ⟨_, rfl, rfl⟩

theorem modulo_cases (a b : Int64) :
    (∃ i, checkedRem a b = some i ∧ Reducer.modulo a b = .ok i) ∨
      (checkedRem a b = none ∧ Failed (Reducer.modulo a b)) := by
  unfold Reducer.modulo checkedRem
  cases b == 0 with
  | true => exact .inr ⟨rfl, _, rfl⟩
  | false =>
    cases quotientOverflows a b with
    | true => exact .inr ⟨rfl, _, rfl⟩
    | false => exact .inl ⟨_, rfl, rfl⟩

section

variable {op : BinaryOp} {g1 g2 g : Ground} (hPair : isNumberPair g1 g2 = true)
include hPair

theorem onInts_of_isNumberPair (f : Int64 → Int64 → Option Int64) : onInts f (some g1) (some g2) = none := by
  unfold onInts
  split
  next h1 h2 =>
    cases h1
    cases hPair
  · rfl

theorem onOrder_of_isNumberPair (f : Ordering → Bool) : onOrder f (some g1) (some g2) = none := by
  unfold onOrder
  split
  next h1 h2 =>
    cases h1
    cases hPair
  next h1 h2 =>
    cases h1
    cases hPair
  next h1 h2 =>
    cases h1
    cases hPair
  · rfl

variable (h : r.numbers op g1 g2 = .ok g)
include h

theorem arithmetic_of_isNumberPair (symbol : String) (ints : Int64 → Int64 → Except InterpreterError Int64) :
    r.arithmetic op symbol ints (ground g1) (ground g2) = .ok (ground g) := by
  unfold Reducer.arithmetic
  split
  next h1 h2 =>
    cases h1
    cases hPair
  next h1 h2 =>
    cases h1
    cases h2
    rw [if_pos hPair, h]
    rfl
  next hOther => exact (hOther g1 g2 rfl rfl).elim

theorem sumOrDifference_of_isNumberPair (symbol : String) (wrapping : Int64 → Int64 → Int64) (takes : Expr → Bool) :
    r.sumOrDifference op symbol wrapping takes (ground g1) (ground g2) = .ok (ground g) := by
  unfold Reducer.sumOrDifference
  split
  next h1 h2 =>
    cases h1
    cases hPair
  next h1 h2 =>
    cases h1
    cases h2
    rw [if_pos hPair, h]
    rfl
  next hOther => exact (hOther g1 g2 rfl rfl).elim

theorem relop_of_isNumberPair (relopb : Bool → Bool → Bool) (relopi : Int64 → Int64 → Bool)
    (relops : String → String → Bool) : r.relop op relopb relopi relops (ground g1) (ground g2) = .ok (ground g) := by
  unfold Reducer.relop
  split
  next h1 h2 =>
    cases h1
    cases hPair
  next h1 h2 =>
    cases h1
    cases hPair
  next h1 h2 =>
    cases h1
    cases hPair
  next h1 h2 =>
    cases h1
    cases h2
    rw [if_pos hPair, h]
    rfl
  next hOther => exact (hOther g1 g2 rfl rfl).elim

theorem applyToExprs_of_isNumberPair (hOp : isOrderOrArithmetic op = true) :
    r.applyToExprs op (ground g1) (ground g2) = .ok (ground g) := by
  cases op with
  | mult => exact arithmetic_of_isNumberPair hPair h _ _
  | div => exact arithmetic_of_isNumberPair hPair h _ _
  | mod => exact arithmetic_of_isNumberPair hPair h _ _
  | plus => exact sumOrDifference_of_isNumberPair hPair h _ _ _
  | minus => exact sumOrDifference_of_isNumberPair hPair h _ _ _
  | lt => exact relop_of_isNumberPair hPair h _ _ _
  | lte => exact relop_of_isNumberPair hPair h _ _ _
  | gt => exact relop_of_isNumberPair hPair h _ _ _
  | gte => exact relop_of_isNumberPair hPair h _ _ _
  | _ => cases hOp

end

section

variable {op : BinaryOp} {v1 v2 : Par} {e1 e2 : Expr} (h1 : single v1 = some e1) (h2 : single v2 = some e2)
  {e1' e2' : Expr} (hEqv1 : e1'.eqv e1 = true) (hEqv2 : e2'.eqv e2 = true)

include h1 hEqv1 in
theorem singleGround_of_single : singleGround v1 = asGround e1' := by
  rw [singleGround, h1, asGround_congr hEqv1]
  rfl

include h1 h2 hEqv1 hEqv2

theorem applyToExprs_gives (hOp : isOrderOrArithmetic op = true) (hSafe : BinarySafe r op v1 v2) :
    Gives (r.applyToExprs op e1' e2') (applyBinary op v1 v2) := by
  have hGround1 := singleGround_of_single h1 hEqv1
  have hGround2 := singleGround_of_single h2 hEqv2
  have hNumbers : ∀ g1 g2, asGround e1' = some g1 → asGround e2' = some g2 → isNumberPair g1 g2 = true →
      Failed (r.numbers op g1 g2) := by
    intro g1 g2 hg1 hg2 hPair
    exact hSafe.numbers g1 g2 (hGround1.trans hg1) (hGround2.trans hg2) hPair hOp
  have hInts : ∀ a b, asGround e1' = some (.gInt a) → asGround e2' = some (.gInt b) →
      (op = .plus → inRange (a.toInt + b.toInt) = true) ∧ (op = .minus → inRange (a.toInt - b.toInt) = true) := by
    intro a b ha hb
    exact hSafe.ints a b (hGround1.trans ha) (hGround2.trans hb)
  have hTakes := (hSafe.collections e1 e2 h1 h2).1
  have hGives := (hSafe.collections e1 e2 h1 h2).2
  rw [← takesElement_congr hEqv1] at hTakes
  rw [← givesElement_congr hEqv1] at hGives
  unfold applyBinary Reducer.applyToExprs
  rw [hGround1, hGround2]
  cases op with
  | mult => exact arithmetic_gives hNumbers multiply_cases
  | div => exact arithmetic_gives hNumbers divide_cases
  | mod => exact arithmetic_gives hNumbers modulo_cases
  | plus =>
    refine sumOrDifference_gives hNumbers (hTakes rfl) fun a b ha hb => ?_
    rw [checkedAdd, (hInts a b ha hb).1 rfl]
    rfl
  | minus =>
    refine sumOrDifference_gives hNumbers (hGives rfl) fun a b ha hb => ?_
    rw [checkedSub, (hInts a b ha hb).2 rfl]
    rfl
  | lt =>
    refine relop_gives hNumbers (fun a b => by cases a <;> cases b <;> rfl) (fun a b => ?_) fun a b => ?_
    · rw [Bool.eq_iff_iff, decide_eq_true_iff, Int64.lt_iff_toInt_lt, (compare_views _ _).1]
    · rw [Bool.eq_iff_iff, decide_eq_true_iff, (compare_views _ _).1]
  | lte =>
    refine relop_gives hNumbers (fun a b => by cases a <;> cases b <;> rfl) (fun a b => ?_) fun a b => ?_
    · rw [Bool.eq_iff_iff, decide_eq_true_iff, Int64.le_iff_toInt_le, (compare_views _ _).2.1]
    · rw [Bool.eq_iff_iff, decide_eq_true_iff, (compare_views _ _).2.1]
  | gt =>
    refine relop_gives hNumbers (fun a b => by cases a <;> cases b <;> rfl) (fun a b => ?_) fun a b => ?_
    · rw [Bool.eq_iff_iff, decide_eq_true_iff, ← (compare_views _ _).2.2.1]
      exact Int64.lt_iff_toInt_lt
    · rw [Bool.eq_iff_iff, decide_eq_true_iff, (compare_views _ _).2.2.1]
  | gte =>
    refine relop_gives hNumbers (fun a b => by cases a <;> cases b <;> rfl) (fun a b => ?_) fun a b => ?_
    · rw [Bool.eq_iff_iff, decide_eq_true_iff, ← (compare_views _ _).2.2.2]
      exact Int64.le_iff_toInt_le
    · rw [Bool.eq_iff_iff, decide_eq_true_iff, (compare_views _ _).2.2.2]
  | _ => cases hOp

theorem applyToExprs_of_not_safe (hSafe : ¬ BinarySafe r op v1 v2) :
    isOrderOrArithmetic op = true ∧ applyBinary op v1 v2 = none ∧ ∃ e, r.applyToExprs op e1' e2' = .ok e := by
  have hGround1 := singleGround_of_single h1 hEqv1
  have hGround2 := singleGround_of_single h2 hEqv2
  by_contra hAgree
  refine hSafe ⟨fun a b ha hb => ?_, fun g1 g2 hg1 hg2 hPair hOp => ?_, fun f1 f2 hf1 hf2 => ?_⟩
  · obtain rfl := eq_ground_of_asGround (hGround1.symm.trans ha)
    obtain rfl := eq_ground_of_asGround (hGround2.symm.trans hb)
    constructor
    · rintro rfl
      by_contra hRange
      refine hAgree ⟨rfl, ?_, _, rfl⟩
      rw [applyBinary, ha, hb, onInts, checkedAdd, if_neg hRange]
      rfl
    · rintro rfl
      by_contra hRange
      refine hAgree ⟨rfl, ?_, _, rfl⟩
      rw [applyBinary, ha, hb, onInts, checkedSub, if_neg hRange]
      rfl
  · obtain rfl := eq_ground_of_asGround (hGround1.symm.trans hg1)
    obtain rfl := eq_ground_of_asGround (hGround2.symm.trans hg2)
    cases hNumbers : r.numbers op g1 g2 with
    | error err => exact ⟨err, rfl⟩
    | ok g =>
      refine (hAgree ⟨hOp, ?_, ground g, applyToExprs_of_isNumberPair hPair hNumbers hOp⟩).elim
      unfold applyBinary
      rw [hg1, hg2]
      cases op with
      | mult | div | mod | plus | minus => exact onInts_of_isNumberPair hPair _
      | lt | lte | gt | gte => exact onOrder_of_isNumberPair hPair _
      | _ => cases hOp
  · cases h1.symm.trans hf1
    cases h2.symm.trans hf2
    constructor
    · rintro rfl
      by_contra hTakes
      rw [Bool.not_eq_false, ← takesElement_congr hEqv1] at hTakes
      cases e1' with
      | eSet =>
        refine hAgree ⟨rfl, ?_, _, rfl⟩
        rw [applyBinary, hGround1]
        exact onInts_none (.inl rfl)
      | _ => cases hTakes
    · rintro rfl
      by_contra hGives
      rw [Bool.not_eq_false, ← givesElement_congr hEqv1] at hGives
      cases e1' with
      | eSet | eMap =>
        refine hAgree ⟨rfl, ?_, _, rfl⟩
        rw [applyBinary, hGround1]
        exact onInts_none (.inl rfl)
      | _ => cases hGives

end

theorem negation_gives (h : single v = some e) (hEqv : e'.eqv e = true)
    (hSafe : UnarySafe r .neg v) : Gives (r.negation e') (applyUnary .neg (singleGround v)) := by
  have hGround := singleGround_of_single h hEqv
  rw [hGround]
  cases e' with
  | ground g =>
    have hOther : ∀ g, singleGround v = some g → isNegatable g = false ∨ Failed (r.negate g) := by
      intro g hg
      cases hNeg : isNegatable g with
      | false => exact .inl rfl
      | true => exact .inr (hSafe rfl g hg hNeg)
    cases g with
    | gInt i =>
      simp only [Reducer.negation, asGround, applyUnary]
      cases checkedNeg i with
      | none => exact ⟨_, rfl⟩
      | some i => rfl
    | _ =>
      obtain hNeg | ⟨err, hErr⟩ := hOther _ hGround
      · first | exact ⟨_, rfl⟩ | cases hNeg
      · first | exact ⟨_, rfl⟩ | exact ⟨err, by simp only [Reducer.negation, isNegatable, hErr]; rfl⟩
  | _ => exact ⟨_, rfl⟩

theorem negation_of_not_safe {op : UnaryOp} (h : single v = some e) (hEqv : e'.eqv e = true)
    (hSafe : ¬ UnarySafe r op v) :
    op = .neg ∧ applyUnary .neg (singleGround v) = none ∧ ∃ e, r.negation e' = .ok e := by
  have hGround := singleGround_of_single h hEqv
  unfold UnarySafe at hSafe
  simp only [Classical.not_imp, not_forall] at hSafe
  obtain ⟨hOp, g, hg, hNeg, hFailed⟩ := hSafe
  obtain rfl := eq_ground_of_asGround (hGround.symm.trans hg)
  refine ⟨hOp, ?_, ?_⟩
  · rw [hg]
    cases g <;> first | rfl | cases hNeg
  · cases hNegate : r.negate g with
    | error err => exact (hFailed ⟨err, hNegate⟩).elim
    | ok g' =>
      refine ⟨ground g', ?_⟩
      cases g with
      | gInt => cases hNeg
      | _ =>
        simp only [Reducer.negation, hNeg, hNegate]
        rfl

theorem isLiteral_groundPar (g : Ground) : IsLiteral (groundPar g) :=
  @IsLiteral.intro (ground g) [] rfl fun _ hp => (List.not_mem_nil hp).elim

theorem evaluated_operator (hPlain : isPlain e = true) (l : BitSet) {og : Option Ground}
    (h : Yields (fun fuel => r.evalExprToExpr (r.calls env fuel) env e) (og.map ground)) :
    Evaluated r env (exprPar e l false) (og.map groundPar) := by
  cases og with
  | none => exact evaluated_exprPar hPlain l false h
  | some g => exact (evaluated_exprPar hPlain l false h).congr (eqv_exprPar (eqv_self _) _ _ _)

theorem Gives.yields {x : Except InterpreterError Expr} {og : Option Ground} (h : Gives x og) :
    Yields (fun _ => (liftM x : Steps InterpreterError Expr)) (og.map ground) := by
  cases og with
  | none =>
    obtain ⟨err, rfl⟩ := h
    exact ⟨err, Ends.lift _⟩
  | some g =>
    cases h
    exact ⟨_, Ends.lift _, eqv_self _⟩

theorem yields_evalUnary {d : Option Par} (h : Evaluated r env p d) {op : UnaryOp}
    (hSafe : ∀ v, d = some v → UnarySafe r op v) :
    Yields (fun fuel => r.evalExprToExpr (r.calls env fuel) env (unary op p))
      ((applyUnary op (d.bind singleGround)).map ground) := by
  cases op with
  | not =>
    have hBool := h.bool
    unfold YieldsBool at hBool
    split at hBool
    next b hd =>
      rw [hd]
      exact ⟨_, hBool.bind (Ends.pure _), eqv_self _⟩
    next hOther =>
      have hNone : applyUnary .not (d.bind singleGround) = none := by
        unfold applyUnary
        split
        next hd => exact (hOther _ hd).elim
        next hOp _ => cases hOp
        · rfl
      rw [hNone]
      exact Fails.bind hBool
  | neg =>
    have hSingle := h.singleExpr
    cases d with
    | none => exact Fails.bind hSingle
    | some v =>
      change Yields _ (single v) at hSingle
      change Yields _ ((applyUnary .neg (singleGround v)).map ground)
      cases hv : single v with
      | none =>
        rw [hv] at hSingle
        rw [singleGround, hv]
        exact Fails.bind hSingle
      | some e =>
        rw [hv] at hSingle
        obtain ⟨e', he', hEqv⟩ := hSingle
        exact yields_bind he' (negation_gives hv hEqv (hSafe v rfl)).yields

section

variable {p1 p2 : Par} {d1 d2 : Option Par} (h1 : Evaluated r env p1 d1) (h2 : Evaluated r env p2 d2)

theorem evalExprToExpr_binary (calls : Reducer.Calls) {op : BinaryOp} (hOp : isOrderOrArithmetic op = true) :
    r.evalExprToExpr calls env (binary op p1 p2) = (do
      let v1 ← calls.evalSingleExpr p1
      let v2 ← calls.evalSingleExpr p2
      r.applyToExprs op v1 v2) := by
  cases op <;> first | rfl | cases hOp

theorem applyBinary_none {op : BinaryOp} (hOp : isOrderOrArithmetic op = true) {v1 v2 : Par}
    (h : singleGround v1 = none ∨ singleGround v2 = none) : applyBinary op v1 v2 = none := by
  cases op with
  | mult | div | mod | plus | minus => exact onInts_none h
  | lt | lte | gt | gte => exact onOrder_none h
  | _ => cases hOp

include h1 h2

theorem yields_evalOperands {op : BinaryOp} (hOp : isOrderOrArithmetic op = true)
    (hSafe : ∀ v1 v2, d1 = some v1 → d2 = some v2 → BinarySafe r op v1 v2) :
    Yields (fun fuel => r.evalExprToExpr (r.calls env fuel) env (binary op p1 p2))
      ((d1.bind fun v1 => d2.bind fun v2 => applyBinary op v1 v2).map ground) := by
  simp only [evalExprToExpr_binary _ hOp]
  have hFirst := h1.singleExpr
  have hSecond := h2.singleExpr
  cases d1 with
  | none => exact Fails.bind hFirst
  | some v1 =>
    change Yields _ (single v1) at hFirst
    cases hv1 : single v1 with
    | none =>
      rw [hv1] at hFirst
      have hNone : ((some v1).bind fun v1 => d2.bind fun v2 => applyBinary op v1 v2) = none := by
        have hGround : singleGround v1 = none := by
          rw [singleGround, hv1]
          rfl
        cases d2 with
        | none => rfl
        | some v2 => exact applyBinary_none hOp (.inl hGround)
      rw [hNone]
      exact Fails.bind hFirst
    | some e1 =>
      rw [hv1] at hFirst
      obtain ⟨e1', he1, hEqv1⟩ := hFirst
      cases d2 with
      | none => exact he1.bind_fails (Fails.bind hSecond)
      | some v2 =>
        change Yields _ (single v2) at hSecond
        change Yields _ ((applyBinary op v1 v2).map ground)
        cases hv2 : single v2 with
        | none =>
          rw [hv2] at hSecond
          have hGround : singleGround v2 = none := by
            rw [singleGround, hv2]
            rfl
          rw [applyBinary_none hOp (.inr hGround)]
          exact he1.bind_fails (Fails.bind hSecond)
        | some e2 =>
          rw [hv2] at hSecond
          obtain ⟨e2', he2, hEqv2⟩ := hSecond
          refine yields_bind he1 (yields_bind he2 ?_)
          exact (applyToExprs_gives hv1 hv2 hEqv1 hEqv2 hOp (hSafe v1 v2 rfl rfl)).yields

theorem yields_evalBools {f : Bool → Bool → Bool} :
    Yields (fun fuel => (do
      let b1 ← (r.calls env fuel).evalToBool p1
      let b2 ← (r.calls env fuel).evalToBool p2
      return ground (.gBool (f b1 b2)) : Steps InterpreterError Expr))
      ((onBools f (d1.bind singleGround) (d2.bind singleGround)).map ground) := by
  have hFirst := h1.bool
  have hSecond := h2.bool
  unfold YieldsBool at hFirst hSecond
  split at hFirst
  next b1 hd1 =>
    split at hSecond
    next b2 hd2 =>
      rw [hd1, hd2]
      exact ⟨_, hFirst.bind (hSecond.bind (Ends.pure _)), eqv_self _⟩
    next hOther =>
      have hNone : onBools f (d1.bind singleGround) (d2.bind singleGround) = none := by
        unfold onBools
        split
        next hd2 => exact (hOther _ hd2).elim
        · rfl
      rw [hNone]
      exact hFirst.bind_fails (Fails.bind hSecond)
  next hOther =>
    have hNone : onBools f (d1.bind singleGround) (d2.bind singleGround) = none := by
      unfold onBools
      split
      next hd1 _ => exact (hOther _ hd1).elim
      · rfl
    rw [hNone]
    exact Fails.bind hFirst

theorem evalEquality_ends {v1 v2 : Par} (hd1 : d1 = some v1) (hd2 : d2 = some v2) (hFixed1 : Fixed r env v1)
    (hFixed2 : Fixed r env v2) :
    Ends (fun fuel => Reducer.evalEquality (r.calls env fuel) p1 p2) (.ok (equal v1 v2)) := by
  subst hd1 hd2
  obtain ⟨w1, hw1, hEqv1⟩ := h1.expr
  obtain ⟨w2, hw2, hEqv2⟩ := h2.expr
  obtain ⟨s1, hs1, hSubst1⟩ := hFixed1 w1 hEqv1
  obtain ⟨s2, hs2, hSubst2⟩ := hFixed2 w2 hEqv2
  have hs1' : Ends (fun fuel => (r.calls env fuel).substituteAndCharge w1) (.ok s1) := Ends.succ hs1
  have hs2' : Ends (fun fuel => (r.calls env fuel).substituteAndCharge w2) (.ok s2) := Ends.succ hs2
  have hEqual : (if s1.parContainsNanDouble || s2.parContainsNanDouble then false else s1.eqv s2) = equal v1 v2 := by
    rw [← equal_congr hSubst1 hSubst2, equal]
    cases s1.parContainsNanDouble || s2.parContainsNanDouble <;> rfl
  rw [← hEqual]
  exact hw1.bind (hw2.bind (hs1'.bind (hs2'.bind (Ends.pure _))))

theorem yields_evalEquality (hFixed1 : ∀ v, d1 = some v → Fixed r env v) (hFixed2 : ∀ v, d2 = some v → Fixed r env v)
    (f : Bool → Bool) :
    Yields (fun fuel => (do
      let result ← Reducer.evalEquality (r.calls env fuel) p1 p2
      return ground (.gBool (f result)) : Steps InterpreterError Expr))
      ((d1.bind fun v1 => d2.bind fun v2 => some (Ground.gBool (f (equal v1 v2)))).map ground) := by
  cases hd1 : d1 with
  | none =>
    rw [hd1] at h1
    exact Fails.bind (Fails.bind h1.expr)
  | some v1 =>
    cases hd2 : d2 with
    | none =>
      rw [hd1] at h1
      rw [hd2] at h2
      obtain ⟨w1, hw1, _⟩ := h1.expr
      exact Fails.bind (hw1.bind_fails (Fails.bind h2.expr))
    | some v2 =>
      have hEnds := evalEquality_ends h1 h2 hd1 hd2 (hFixed1 v1 hd1) (hFixed2 v2 hd2)
      exact ⟨_, hEnds.bind (Ends.pure _), eqv_self _⟩

theorem yields_evalBinary {op : BinaryOp} (hGuard : isGuardNode (binary op p1 p2) = true)
    (hFixed1 : ∀ v, d1 = some v → Fixed r env v) (hFixed2 : ∀ v, d2 = some v → Fixed r env v)
    (hSafe : ∀ v1 v2, d1 = some v1 → d2 = some v2 → BinarySafe r op v1 v2) :
    Yields (fun fuel => r.evalExprToExpr (r.calls env fuel) env (binary op p1 p2))
      ((d1.bind fun v1 => d2.bind fun v2 => applyBinary op v1 v2).map ground) := by
  have hBools : ∀ f : Bool → Bool → Bool, (d1.bind fun v1 => d2.bind fun v2 =>
      onBools f (singleGround v1) (singleGround v2)) = onBools f (d1.bind singleGround) (d2.bind singleGround) := by
    intro f
    cases d1 with
    | none => exact (onBools_none (.inl rfl)).symm
    | some v1 =>
      cases d2 with
      | none => exact (onBools_none (.inr rfl)).symm
      | some v2 => rfl
  cases op with
  | and =>
    have h := yields_evalBools h1 h2 (f := fun a b => a && b)
    rw [← hBools] at h
    exact h
  | or =>
    have h := yields_evalBools h1 h2 (f := fun a b => a || b)
    rw [← hBools] at h
    exact h
  | eq => exact yields_evalEquality h1 h2 hFixed1 hFixed2 id
  | neq => exact yields_evalEquality h1 h2 hFixed1 hFixed2 not
  | percentPercent | plusPlus | minusMinus => cases hGuard
  | _ => exact yields_evalOperands h1 h2 rfl hSafe

end

variable {l : BitSet}

theorem evaluated_var {k : Int} (hEnv : ∀ v ∈ env.bindings, IsValue r.sorter v) :
    Evaluated r env (exprPar (eVar (.bound k)) l false) (env.get k) := by
  have hStep : ∀ fuel, (r.calls env (fuel + 1)).evalExpr (exprPar (eVar (.bound k)) l false) = ((do
      let p ← (liftM (evalVar (.bound k) env) : Steps InterpreterError Par)
      let evaled ← (r.calls env fuel).evalExpr p
      return concatenatePars ((exprPar (eVar (.bound k)) l false).cloneWithExprs []) evaled) :
        Steps InterpreterError Par) := by
    intro fuel
    change (List.mapM (r.evalExprToPar (r.calls env fuel) env) [eVar (.bound k)] >>= _) = _
    rw [List.mapM_cons]
    simp only [List.mapM_nil, bind_assoc, Reducer.evalExprToPar]
    rfl
  have hVar : evalVar (.bound k) env = (env.get k).elim (.error (.unboundVariable k env)) .ok := rfl
  cases hGet : env.get k with
  | none =>
    rw [hGet] at hVar
    have hFails : Fails fun _ => (liftM (evalVar (.bound k) env) : Steps InterpreterError Par) := by
      rw [hVar]
      exact ⟨_, Ends.lift _⟩
    refine ⟨Fails.succ ?_, Fails.succ (Fails.bind hFails), Fails.succ (Fails.bind hFails)⟩
    simp only [hStep]
    exact Fails.bind hFails
  | some v =>
    rw [hGet] at hVar
    have hEnds : Ends (fun _ => (liftM (evalVar (.bound k) env) : Steps InterpreterError Par)) (.ok v) := by
      rw [hVar]
      exact Ends.lift _
    have hv : Evaluated r env v (some v) := evaluated_value (hEnv v (Env.mem_of_get hGet)) v (eqv_self v)
    refine ⟨?_, Yields.succ (yields_bind hEnds hv.singleExpr), ?_⟩
    · obtain ⟨w, hw, hEqv⟩ := hv.expr
      refine ⟨concatenatePars ((exprPar (eVar (.bound k)) l false).cloneWithExprs []) w, Ends.succ ?_, ?_⟩
      · simp only [hStep]
        exact hEnds.bind (hw.bind (Ends.pure _))
      · refine eqv_trans ?_ hEqv
        cases w
        simp [exprPar, cloneWithExprs, concatenatePars, append, ofList, eqv_par_iff]
    · have hBool := hv.bool
      unfold YieldsBool at hBool ⊢
      split at hBool
      · exact Ends.succ (hEnds.bind hBool)
      · exact Fails.succ (hEnds.bind_fails hBool)

theorem evaluated_literalNode (h : IsLiteral (exprPar e l false)) :
    Evaluated r env (exprPar e l false) (some (ofExpr e)) :=
  (evaluated_value h.isValue _ (eqv_self _)).congr (eqv_exprPar (eqv_self e) _ _ _)

theorem evaluated_guard (hEnv : Settled r env) (hGuard : Guard p) (hSafe : Safe r env p) :
    Evaluated r env p (denote env p) ∧ ∀ v, denote env p = some v → Fixed r env v := by
  have hGround : ∀ {og : Option Ground} (v : Par), og.map groundPar = some v → Fixed r env v := by
    intro og v hv
    obtain ⟨g, _, rfl⟩ := Option.map_eq_some_iff.mp hv
    exact (isLiteral_groundPar g).fixed
  have hLiteral : ∀ {e : Expr} {l : BitSet}, IsLiteral (exprPar e l false) →
      Evaluated r env (exprPar e l false) (some (ofExpr e)) ∧ ∀ v, some (ofExpr e) = some v → Fixed r env v := by
    intro e l hLiteral
    refine ⟨evaluated_literalNode hLiteral, ?_⟩
    rintro _ ⟨⟩ v' hv'
    obtain ⟨w, hw, hEqv⟩ := hLiteral.fixed v' (eqv_trans hv' (eqv_exprPar (eqv_self e) _ _ _))
    exact ⟨w, hw, eqv_trans hEqv (eqv_exprPar (eqv_self e) _ _ _)⟩
  induction hGuard with
  | @intro e l node below ih =>
    obtain ⟨hBelow, hRoot⟩ : (∀ p ∈ parts e, Safe r env p) ∧ RootSafe r env e := by
      cases hSafe with
      | intro hBelow hRoot => exact ⟨hBelow, hRoot⟩
    change Evaluated r env _ (denote env e) ∧ ∀ v, denote env e = some v → _
    match e, node, ih, hBelow, hRoot with
    | .ground g, _, _, _, _ => exact hLiteral (.intro rfl fun _ hp => (List.not_mem_nil hp).elim)
    | .eList ps l' false none, _, _, _, hRoot => exact hLiteral (.intro rfl hRoot)
    | .eTuple ps l' false, _, _, _, hRoot => exact hLiteral (.intro rfl hRoot)
    | .eVar (.bound k), _, _, _, _ =>
      refine ⟨evaluated_var hEnv.isValue, fun v hv => ?_⟩
      exact hEnv.fixed v (Env.mem_of_get hv)
    | .unary op p, _, ih, hBelow, hRoot =>
      have hp := ih p (List.mem_singleton_self p) (hBelow p (List.mem_singleton_self p))
      exact ⟨evaluated_operator rfl l (yields_evalUnary hp.1 hRoot), fun v hv => hGround v hv⟩
    | .binary op p1 p2, node, ih, hBelow, hRoot =>
      have h1 := ih p1 List.mem_cons_self (hBelow p1 List.mem_cons_self)
      have hMem : p2 ∈ parts (binary op p1 p2) := List.mem_cons_of_mem p1 List.mem_cons_self
      have h2 := ih p2 hMem (hBelow p2 hMem)
      have hOperator := evaluated_operator rfl l (yields_evalBinary h1.1 h2.1 node h1.2 h2.2 hRoot)
      have hMap : ((denote env p1).bind fun v1 => (denote env p2).bind fun v2 => applyBinary op v1 v2).map groundPar =
          denote env (binary op p1 p2) := by
        rw [denote]
        cases denote env p1 <;> cases denote env p2 <;> rfl
      rw [hMap] at hOperator
      refine ⟨hOperator, fun v hv => ?_⟩
      rw [← hMap] at hv
      exact hGround v hv

theorem Yields.agrees {d : Option Par} (hPure : Yields (fun fuel => PureEval.eval env fuel p) d)
    (hReducer : Yields (fun fuel => r.evalExpr env fuel p) d) : Agrees r env p := by
  cases d with
  | none => exact .inr ⟨hPure, hReducer⟩
  | some v =>
    obtain ⟨v', hv', hEqv⟩ := hPure
    obtain ⟨w, hw, hEqv'⟩ := hReducer
    exact .inl ⟨v', w, hv', hw, eqv_trans hEqv' (eqv_symm hEqv)⟩

theorem agrees_of_safe (hEnv : Settled r env) (hGuard : Guard p) (hSafe : Safe r env p) : Agrees r env p :=
  (yields_guard hEnv.isValue hGuard).agrees (evaluated_guard hEnv hGuard hSafe).1.expr

theorem not_agrees (hPure : Fails fun fuel => PureEval.eval env fuel p) {w : Par}
    (hReducer : Ends (fun fuel => r.evalExpr env fuel p) (.ok w)) : ¬ Agrees r env p := by
  rintro (⟨v, _, hv, _⟩ | ⟨_, err, hErr⟩)
  · obtain ⟨err, hErr⟩ := hPure
    cases hv.unique hErr
  · cases hReducer.unique hErr

theorem IsValue.not_eqv_var (hv : IsValue s v) {x : Var} :
    ¬ v.eqv (exprPar (eVar x) l false) = true := by
  intro hEqv
  obtain ⟨e, l', rfl, he⟩ := exists_of_eqv_exprPar hEqv
  cases e with
  | eVar x' =>
    cases hv with
    | process noExprs => cases noExprs
  | _ => cases he

theorem isLiteral_of_eqv (hEnv : Settled r env) (hGuard : Guard p) (hSafe : Safe r env p)
    (hd : denote env p = some v) (hEqv : v.eqv p = true) : IsLiteral p := by
  obtain ⟨node, below⟩ := hGuard
  rename_i e l
  have hRoot : RootSafe r env e := by
    cases hSafe with
    | intro _ hRoot => exact hRoot
  change denote env e = some v at hd
  match e, node, hd, hEqv, hRoot with
  | .ground g, _, _, _, _ => exact .intro rfl fun _ hp => (List.not_mem_nil hp).elim
  | .eList ps l' false none, _, _, _, hRoot => exact .intro rfl hRoot
  | .eTuple ps l' false, _, _, _, hRoot => exact .intro rfl hRoot
  | .eVar (.bound k), _, hd, hEqv, _ => exact ((hEnv.isValue v (Env.mem_of_get hd)).not_eqv_var hEqv).elim
  | .unary op p, _, hd, hEqv, _ =>
    obtain ⟨g, _, rfl⟩ := Option.map_eq_some_iff.mp hd
    cases hEqv
  | .binary op p1 p2, _, hd, hEqv, _ =>
    obtain ⟨v1, _, hd⟩ := Option.bind_eq_some_iff.mp hd
    obtain ⟨v2, _, hd⟩ := Option.bind_eq_some_iff.mp hd
    obtain ⟨g, _, rfl⟩ := Option.map_eq_some_iff.mp hd
    cases hEqv

theorem exists_of_forall₂ {α β : Type} {R S : α → β → Prop} {as : List α} {bs : List β} (hR : List.Forall₂ R as bs)
    (hS : List.Forall₂ S as bs) : ∀ b ∈ bs, ∃ a, R a b ∧ S a b := by
  induction hR with
  | nil => exact fun b hb => (List.not_mem_nil hb).elim
  | @cons a b as bs hHead _ ih =>
    cases hS with
    | cons hHead' hTail' =>
      intro b' hb'
      obtain rfl | hb' := List.mem_cons.mp hb'
      · exact ⟨a, hHead, hHead'⟩
      · exact ih hTail' b' hb'

theorem elements_isLiteral (hEnv : Settled r env) (hGuard : ∀ p ∈ ps, Guard p)
    (hSafe : ∀ p ∈ ps, Safe r env p) {qs : List Par}
    (hEnds : List.Forall₂ (fun q p => Ends (fun fuel => (r.calls env fuel).evalExpr p) (.ok q)) qs ps)
    (hEqv : List.Forall₂ (fun q p => eqv (updateLocallyFreePar q) p = true) qs ps) : ∀ p ∈ ps, IsLiteral p := by
  intro p hp
  obtain ⟨q, hq, hqp⟩ := exists_of_forall₂ hEnds hEqv p hp
  have hEvaluated := (evaluated_guard hEnv (hGuard p hp) (hSafe p hp)).1.expr
  cases hd : denote env p with
  | none =>
    rw [hd] at hEvaluated
    obtain ⟨err, hErr⟩ := hEvaluated
    cases hq.unique hErr
  | some v =>
    rw [hd] at hEvaluated
    obtain ⟨w, hw, hwv⟩ := hEvaluated
    cases hq.unique hw
    have hSame : v.eqv p = true :=
      eqv_trans (eqv_symm hwv) (eqv_trans (eqv_symm (eqv_updateLocallyFreePar q)) hqp)
    exact isLiteral_of_eqv hEnv (hGuard p hp) (hSafe p hp) hd hSame

theorem elements_isLiteral_of_agrees (hEnv : Settled r env) (hPlain : isPlain e = true)
    (hGuard : Guard (exprPar e l false)) (hDenote : denote env e = some (ofExpr e)) (hParts : parts e = ps)
    (hBelow : ∀ p ∈ ps, Safe r env p) {build : List Par → Expr}
    (hEval : ∀ fuel, r.evalExprToExpr (r.calls env fuel) env e = (do
      let qs ← Reducer.evalElements (r.calls env fuel) ps
      return build qs : Steps InterpreterError Expr))
    (hBuild : ∀ qs, (build qs).eqv e = true → List.Forall₂ (fun q p => eqv q p = true) qs ps)
    (hAgrees : Agrees r env (exprPar e l false)) : ∀ p ∈ ps, IsLiteral p := by
  have hGuards : ∀ p ∈ ps, Guard p := by
    cases hGuard with
    | intro _ below => rwa [hParts] at below
  have hPure := yields_guard hEnv.isValue hGuard
  change Yields _ (denote env e) at hPure
  rw [hDenote] at hPure
  obtain ⟨v, hv, hEqv⟩ := hPure
  obtain ⟨v', w, hv', hw, hSame⟩ | ⟨⟨err, hErr⟩, _⟩ := hAgrees
  · cases hv.unique hv'
    have hEach : ∀ p ∈ ps, (∃ q, Ends (fun fuel => (r.calls env fuel).evalExpr p) (.ok q)) ∨
        Fails fun fuel => (r.calls env fuel).evalExpr p := by
      intro p hp
      have hEvaluated := (evaluated_guard hEnv (hGuards p hp) (hBelow p hp)).1.expr
      cases hd : denote env p with
      | none =>
        rw [hd] at hEvaluated
        exact .inr hEvaluated
      | some v =>
        rw [hd] at hEvaluated
        exact .inl (hEvaluated.imp fun _ h => h.1)
    obtain ⟨qs, hqs, hElements⟩ | hFails := mapM_cases hEach
    · have hUpdated : Ends (fun fuel => Reducer.evalElements (r.calls env fuel) ps)
          (.ok (qs.map updateLocallyFreePar)) := hqs.bind (Ends.pure _)
      have hExpr : Yields (fun fuel => r.evalExprToExpr (r.calls env fuel) env e)
          (some (build (qs.map updateLocallyFreePar))) := by
        simp only [hEval]
        exact ⟨_, hUpdated.bind (Ends.pure _), eqv_self _⟩
      obtain ⟨w', hw', hBuilt⟩ := (evaluated_exprPar hPlain l false hExpr).expr
      cases hw.unique hw'
      obtain ⟨e', l', hSplit, he'⟩ := exists_of_eqv_exprPar (eqv_trans (eqv_symm hBuilt) (eqv_trans hSame hEqv))
      cases hSplit
      have hSameElements := hBuild _ he'
      rw [List.forall₂_map_left_iff] at hSameElements
      exact elements_isLiteral hEnv hGuards hBelow hElements hSameElements
    · have hExpr : Yields (fun fuel => r.evalExprToExpr (r.calls env fuel) env e) none := by
        simp only [hEval]
        exact Fails.bind (Fails.bind hFails)
      obtain ⟨err, hErr⟩ := (evaluated_exprPar hPlain l false hExpr).expr
      cases hw.unique hErr
  · cases hv.unique hErr

theorem rootSafe_of_agrees (hEnv : Settled r env) (hGuard : Guard (exprPar e l false))
    (hBelow : ∀ p ∈ parts e, Safe r env p) (hAgrees : Agrees r env (exprPar e l false)) : RootSafe r env e := by
  have hPure := yields_guard hEnv.isValue hGuard
  change Yields _ (denote env e) at hPure
  obtain ⟨node, below⟩ : isGuardNode e = true ∧ ∀ p ∈ parts e, Guard p := by
    cases hGuard with
    | intro node below => exact ⟨node, below⟩
  have hOk : ∀ e', isPlain e = true → denote env e = none →
      Ends (fun fuel => r.evalExprToExpr (r.calls env fuel) env e) (.ok e') → False := by
    intro e' hPlain hNone hEnds
    rw [hNone] at hPure
    have hYields : Yields (fun fuel => r.evalExprToExpr (r.calls env fuel) env e) (some e') :=
      ⟨e', hEnds, eqv_self _⟩
    obtain ⟨w, hw, _⟩ := (evaluated_exprPar hPlain l false hYields).expr
    exact not_agrees hPure hw hAgrees
  match e, node, below, hBelow, hOk with
  | .ground g, _, _, _, _ => exact trivial
  | .eVar (.bound k), _, _, _, _ => exact trivial
  | .eList ps l' false none, _, _, hBelow, _ =>
    refine elements_isLiteral_of_agrees hEnv rfl hGuard rfl rfl hBelow (fun _ => rfl) (fun qs hqs => ?_) hAgrees
    simp only [eqv, Bool.and_eq_true] at hqs
    exact eqv_ofList_iff.mp hqs.1.1
  | .eTuple ps l' false, _, _, hBelow, _ =>
    refine elements_isLiteral_of_agrees hEnv rfl hGuard rfl rfl hBelow (fun _ => rfl) (fun qs hqs => ?_) hAgrees
    simp only [eqv, Bool.and_eq_true] at hqs
    exact eqv_ofList_iff.mp hqs.1
  | .unary op p, _, below, hBelow, hOk =>
    intro v hv
    by_contra hSafe
    have hMem := List.mem_singleton_self p
    have hSingle := (evaluated_guard hEnv (below p hMem) (hBelow p hMem)).1.singleExpr
    rw [hv] at hSingle
    change Yields _ (single v) at hSingle
    cases hs : single v with
    | none =>
      refine hSafe fun _ g hg => ?_
      rw [singleGround, hs] at hg
      cases hg
    | some e =>
      rw [hs] at hSingle
      obtain ⟨e', he', hEqv⟩ := hSingle
      obtain ⟨rfl, hNone, e'', hNegation⟩ := negation_of_not_safe hs hEqv hSafe
      refine hOk e'' rfl ?_ (he'.bind ?_)
      · rw [denote, hv, Option.bind_some, hNone]
        rfl
      · change Ends (fun _ => liftM (r.negation e')) _
        rw [hNegation]
        exact Ends.lift _
  | .binary op p1 p2, _, below, hBelow, hOk =>
    intro v1 v2 hv1 hv2
    by_contra hSafe
    have hMem : p2 ∈ parts (binary op p1 p2) := List.mem_cons_of_mem p1 List.mem_cons_self
    have h1 := (evaluated_guard hEnv (below p1 List.mem_cons_self) (hBelow p1 List.mem_cons_self)).1.singleExpr
    have h2 := (evaluated_guard hEnv (below p2 hMem) (hBelow p2 hMem)).1.singleExpr
    change Yields _ ((denote env p1).bind single) at h1
    change Yields _ ((denote env p2).bind single) at h2
    rw [hv1] at h1
    rw [hv2] at h2
    change Yields _ (single v1) at h1
    change Yields _ (single v2) at h2
    have hVacuous : single v1 = none ∨ single v2 = none → BinarySafe r op v1 v2 := by
      intro hNone
      have hGround : singleGround v1 = none ∨ singleGround v2 = none := by
        refine hNone.imp (fun h => ?_) fun h => ?_
        · rw [singleGround, h]
          rfl
        · rw [singleGround, h]
          rfl
      refine ⟨fun a b ha hb => ?_, fun g1 g2 hg1 hg2 => ?_, fun e1 e2 he1 he2 => ?_⟩
      · simp [ha, hb] at hGround
      · simp [hg1, hg2] at hGround
      · simp [he1, he2] at hNone
    cases hs1 : single v1 with
    | none => exact hSafe (hVacuous (.inl hs1))
    | some e1 =>
      cases hs2 : single v2 with
      | none => exact hSafe (hVacuous (.inr hs2))
      | some e2 =>
        rw [hs1] at h1
        rw [hs2] at h2
        obtain ⟨e1', he1, hEqv1⟩ := h1
        obtain ⟨e2', he2, hEqv2⟩ := h2
        obtain ⟨hOp, hNone, e', hApply⟩ := applyToExprs_of_not_safe hs1 hs2 hEqv1 hEqv2 hSafe
        refine hOk e' rfl ?_ ?_
        · rw [denote, hv1, hv2, Option.bind_some, Option.bind_some, hNone]
          rfl
        · simp only [evalExprToExpr_binary _ hOp]
          refine he1.bind (he2.bind ?_)
          rw [hApply]
          exact Ends.lift _

end

def intPar (i : Int64) : Par := groundPar (.gInt i)

def intEnv (i : Int64) : Env := Env.new.put (intPar i)

def lastVar : Par := exprPar (eVar (.bound 0)) [] false

theorem settled_intEnv (r : Reducer) (i : Int64) : Settled r (intEnv i) := by
  refine ⟨fun v hv => ?_, fun v hv => ?_⟩
  · obtain rfl := List.mem_singleton.mp hv
    exact (isLiteral_groundPar _).isValue
  · obtain rfl := List.mem_singleton.mp hv
    exact (isLiteral_groundPar _).fixed

theorem guard_intPar (i : Int64) : Guard (intPar i) :=
  @Guard.intro (ground (.gInt i)) [] rfl fun _ hp => (List.not_mem_nil hp).elim

theorem guard_lastVar : Guard lastVar := .intro rfl fun _ hp => (List.not_mem_nil hp).elim

theorem safe_intPar (r : Reducer) (env : Env) (i : Int64) : Safe r env (intPar i) :=
  @Safe.intro r env (ground (.gInt i)) [] (fun _ hp => (List.not_mem_nil hp).elim) trivial

theorem safe_lastVar (r : Reducer) (env : Env) : Safe r env lastVar :=
  .intro (fun _ hp => (List.not_mem_nil hp).elim) trivial

theorem forall_mem_pair {P : Par → Prop} {p q : Par} (hp : P p) (hq : P q) : ∀ x ∈ [p, q], P x := by
  intro x hx
  obtain rfl | hx := List.mem_cons.mp hx
  · exact hp
  · obtain rfl := List.mem_singleton.mp hx
    exact hq

/-- `x + 1`. -/
def successor : Par := exprPar (binary .plus lastVar (intPar 1)) [] false

theorem guard_successor : Guard successor := .intro rfl (forall_mem_pair guard_lastVar (guard_intPar 1))

def plainReducer : Reducer where
  sorter := evenSorter
  numbers _ g _ := .ok g
  negate := .ok
  collections _ e _ := e
  concatenations _ e _ := .ok e
  others e _ := .ok e
  method e _ := .ok (ofExpr e)

theorem safe_successor : Safe plainReducer (intEnv 41) successor := by
  refine .intro (forall_mem_pair (safe_lastVar _ _) (safe_intPar _ _ 1)) ?_
  intro v1 v2 hv1 hv2
  obtain rfl : intPar 41 = v1 := Option.some.inj hv1
  obtain rfl : intPar 1 = v2 := Option.some.inj hv2
  refine ⟨fun a b ha hb => ?_, fun g1 g2 hg1 hg2 hPair => ?_, fun e1 e2 he1 he2 => ?_⟩
  · cases ha
    cases hb
    exact ⟨fun _ => by decide, nofun⟩
  · cases hg1
    cases hPair
  · cases he1
    exact ⟨fun _ => rfl, nofun⟩

/-- `[x]`. -/
def oneElement : Par := exprPar (eList (cons lastVar nil) [] false none) [] false

theorem guard_oneElement : Guard oneElement := by
  refine .intro rfl fun p hp => ?_
  obtain rfl := List.mem_singleton.mp hp
  exact guard_lastVar

end F1r3Node.Rholang
