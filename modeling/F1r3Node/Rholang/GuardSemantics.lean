import F1r3Node.Rholang.EvalExpr

/-! # The value of a guard

Its value is given once, by `denote`, for the two evaluators to be compared with; the pure evaluator computes it on
every guard.
-/

namespace F1r3Node.Rholang

open F1r3Node.Lib Term Filter

/-- The call ends with a term equal to the one given, or with an error where none is given. -/
def Yields {ε : Type} {k : Kind} (call : Nat → Steps ε (Term k)) : Option (Term k) → Prop
  | some t => ∃ t', Ends call (.ok t') ∧ t'.eqv t = true
  | none => Fails call

variable {k : Kind}

theorem Yields.succ {ε : Type} {call : Nat → Steps ε (Term k)} {t : Option (Term k)}
    (h : Yields (fun fuel => call (fuel + 1)) t) : Yields call t := by
  cases t with
  | none => exact Fails.succ h
  | some t => exact h.imp fun _ h => ⟨h.1.succ, h.2⟩

theorem yields_bind {ε α : Type} {call : Nat → Steps ε α} {f : Nat → α → Steps ε (Term k)} {a : α}
    {t : Option (Term k)} (h : Ends call (.ok a)) (hf : Yields (fun fuel => f fuel a) t) :
    Yields (fun fuel => call fuel >>= f fuel) t := by
  cases t with
  | none => exact h.bind_fails hf
  | some t => exact hf.imp fun _ hf => ⟨h.bind hf.1, hf.2⟩

namespace Term

variable {k : Kind}

variable {t t' : Term k}

theorem eqv_symm (h : t.eqv t' = true) : t'.eqv t = true :=
  (eqv_iff _ _).mpr ((eqv_iff _ _).mp h).symm

theorem eqv_trans {t'' : Term k} (h : t.eqv t' = true) (h' : t'.eqv t'' = true) : t.eqv t'' = true :=
  (eqv_iff _ _).mpr (((eqv_iff _ _).mp h).trans ((eqv_iff _ _).mp h'))

theorem eqv_congr {u u' : Term k} (ht : t.eqv t' = true) (hu : u.eqv u' = true) :
    t.eqv u = t'.eqv u' := by
  rw [Bool.eq_iff_iff, eqv_iff, eqv_iff, (eqv_iff _ _).mp ht, (eqv_iff _ _).mp hu]

theorem eqv_iff_forall₂ : {ts us : Term (.list k)} →
    (ts.eqv us = true ↔ List.Forall₂ (fun t u => eqv t u = true) ts.toList us.toList)
  | nil, nil => by simp [eqv]
  | nil, cons _ _ => by simp [eqv]
  | cons _ _, nil => by simp [eqv]
  | cons t ts, cons u us => by
    simp only [eqv, Bool.and_eq_true, toList_cons, List.forall₂_cons]
    exact and_congr_right fun _ => eqv_iff_forall₂

theorem parContainsNanDouble_erase (t : Term k) :
    t.erase.parContainsNanDouble = t.parContainsNanDouble := by
  induction t with
  | cons _ _ ihHead ihTail => exact congrArg₂ (· || ·) ihHead ihTail
  | keyValuePair _ _ ihKey ihValue => exact congrArg₂ (· || ·) ihKey ihValue
  | par _ _ _ _ _ _ _ _ _ _ _ _ _ _ ihExprs => exact ihExprs
  | eList _ _ _ _ ih | eTuple _ _ _ ih | eSet _ _ _ _ ih | eMap _ _ _ _ ih => exact ih
  | _ => rfl

theorem parContainsNanDouble_congr (h : t.eqv t' = true) :
    t.parContainsNanDouble = t'.parContainsNanDouble := by
  rw [← parContainsNanDouble_erase, (eqv_iff _ _).mp h, parContainsNanDouble_erase]

def exprPar (e : Expr) (locallyFree : BitSet) (connectiveUsed : Bool) : Par :=
  par nil nil nil (cons e nil) nil [] nil nil nil locallyFree connectiveUsed

theorem eqv_exprPar {e e' : Expr} (h : e.eqv e' = true) (l l' : BitSet) (f : Bool) :
    (exprPar e l f).eqv (exprPar e' l' f) = true := by
  simp [exprPar, eqv, h]

theorem exists_of_eqv_exprPar {p : Par} {e : Expr} {l : BitSet} {f : Bool} (h : p.eqv (exprPar e l f) = true) :
    ∃ e' l', p = exprPar e' l' f ∧ e'.eqv e = true := by
  cases p with
  | par s r n es m u b c i l' f' =>
    obtain ⟨hs, hr, hn, he, hm, rfl, hb, hc, hi, rfl⟩ := eqv_par_iff.mp h
    have hNil : ∀ {k : Kind} {ts : Term (.list k)}, ts.eqv nil = true → ts = nil := fun h =>
      eqv_nil_iff.mp (eqv_symm h)
    cases hNil hs
    cases hNil hr
    cases hNil hn
    cases hNil hm
    cases hNil hb
    cases hNil hc
    cases hNil hi
    cases es with
    | nil => cases he
    | cons e' es =>
      simp only [eqv, Bool.and_eq_true] at he
      cases hNil he.2
      exact ⟨e', l', rfl, he.1⟩

theorem eqv_updateLocallyFreePar (p : Par) : (updateLocallyFreePar p).eqv p = true := by
  cases p
  simp [updateLocallyFreePar, eqv_par_iff]

end Term

def asGround : Expr → Option Ground
  | .ground g => some g
  | _ => none

def single (p : Par) : Option Expr := (PureEval.singleExprInstance p).toOption

def singleGround (p : Par) : Option Ground := (single p).bind asGround

def onBools (f : Bool → Bool → Bool) : Option Ground → Option Ground → Option Ground
  | some (.gBool a), some (.gBool b) => some (.gBool (f a b))
  | _, _ => none

def onInts (f : Int64 → Int64 → Option Int64) : Option Ground → Option Ground → Option Ground
  | some (.gInt a), some (.gInt b) => (f a b).map .gInt
  | _, _ => none

def onOrder (f : Ordering → Bool) : Option Ground → Option Ground → Option Ground
  | some (.gInt a), some (.gInt b) => some (.gBool (f (compare a.toInt b.toInt)))
  | some (.gString a), some (.gString b) => some (.gBool (f (compare a b)))
  | some (.gBool a), some (.gBool b) => some (.gBool (f (compare a b)))
  | _, _ => none

def equal (v1 v2 : Par) : Bool := !(v1.parContainsNanDouble || v2.parContainsNanDouble) && v1.eqv v2

def applyUnary : UnaryOp → Option Ground → Option Ground
  | .not, some (.gBool b) => some (.gBool !b)
  | .neg, some (.gInt i) => (checkedNeg i).map .gInt
  | _, _ => none

def applyBinary (op : BinaryOp) (v1 v2 : Par) : Option Ground :=
  match op with
  | .and => onBools (fun a b => a && b) (singleGround v1) (singleGround v2)
  | .or => onBools (fun a b => a || b) (singleGround v1) (singleGround v2)
  | .eq => some (.gBool (equal v1 v2))
  | .neq => some (.gBool !equal v1 v2)
  | .lt => onOrder Ordering.isLT (singleGround v1) (singleGround v2)
  | .lte => onOrder Ordering.isLE (singleGround v1) (singleGround v2)
  | .gt => onOrder Ordering.isGT (singleGround v1) (singleGround v2)
  | .gte => onOrder Ordering.isGE (singleGround v1) (singleGround v2)
  | .plus => onInts checkedAdd (singleGround v1) (singleGround v2)
  | .minus => onInts checkedSub (singleGround v1) (singleGround v2)
  | .mult => onInts checkedMul (singleGround v1) (singleGround v2)
  | .div => onInts checkedDiv (singleGround v1) (singleGround v2)
  | .mod => onInts checkedRem (singleGround v1) (singleGround v2)
  | .percentPercent | .plusPlus | .minusMinus => none

def groundPar (g : Ground) : Par := ofExpr (ground g)

/-- The value of a process that is one expression: a literal is its own value, and the operators are exact. -/
def denote (env : Env) : {k : Kind} → Term k → Option Par
  | _, par _ _ _ exprs _ _ _ _ _ _ _ => denote env exprs
  | _, cons e _ => denote env e
  | _, ground g => some (ofExpr (ground g))
  | _, eList ps locallyFree connectiveUsed remainder => some (ofExpr (eList ps locallyFree connectiveUsed remainder))
  | _, eTuple ps locallyFree connectiveUsed => some (ofExpr (eTuple ps locallyFree connectiveUsed))
  | _, eVar (.bound k) => env.get k
  | _, unary op p => (applyUnary op ((denote env p).bind singleGround)).map groundPar
  | _, binary op p1 p2 =>
    (denote env p1).bind fun v1 => (denote env p2).bind fun v2 => (applyBinary op v1 v2).map groundPar
  | _, _ => none

def parts : Expr → List Par
  | .unary _ p => [p]
  | .binary _ p1 p2 => [p1, p2]
  | .eList ps _ _ _ => ps.toList
  | .eTuple ps _ _ => ps.toList
  | _ => []

def isGuardNode : Expr → Bool
  | .ground (.gBool _) | .ground (.gInt _) | .ground (.gString _) => true
  | .eVar (.bound _) => true
  | .eList _ _ false none | .eTuple _ _ false => true
  | .unary _ _ => true
  | .binary op _ _ =>
    match op with
    | .percentPercent | .plusPlus | .minusMinus => false
    | _ => true
  | _ => false

/-- An expression over booleans, integers, strings, bound variables, lists and tuples. -/
inductive Guard : Par → Prop
  | intro {e : Expr} {locallyFree : BitSet} (node : isGuardNode e = true) (below : ∀ p ∈ parts e, Guard p) :
      Guard (exprPar e locallyFree false)

def isLiteralNode : Expr → Bool
  | .ground _ | .eList _ _ false none | .eTuple _ _ false => true
  | _ => false

/-- A literal is made of ground terms, lists and tuples, without variables and operators. -/
inductive IsLiteral : Par → Prop
  | intro {e : Expr} {locallyFree : BitSet} (node : isLiteralNode e = true) (below : ∀ p ∈ parts e, IsLiteral p) :
      IsLiteral (exprPar e locallyFree false)

/-- A term that evaluation leaves as it is: no variable and no operator in it, and its collections canonical. -/
inductive IsValue (s : Sorter) : Par → Prop
  | process {p : Par} (noExprs : p.exprs = []) : IsValue s p
  | ground (g : Ground) (locallyFree : BitSet) (connectiveUsed : Bool) :
      IsValue s (exprPar (ground g) locallyFree connectiveUsed)
  | list {ps : Term (.list .par)} (below : ∀ p ∈ ps.toList, IsValue s p) (locallyFree locallyFree' : BitSet)
      (connectiveUsed connectiveUsed' : Bool) :
      IsValue s (exprPar (eList ps locallyFree connectiveUsed none) locallyFree' connectiveUsed')
  | tuple {ps : Term (.list .par)} (below : ∀ p ∈ ps.toList, IsValue s p) (locallyFree locallyFree' : BitSet)
      (connectiveUsed connectiveUsed' : Bool) :
      IsValue s (exprPar (eTuple ps locallyFree connectiveUsed) locallyFree' connectiveUsed')
  | set {ps : Term (.list .par)} (below : ∀ p ∈ ps.toList, IsValue s p)
      (canonical : ∀ ps', ps'.eqv ps = true → (s.sortedPars ps').eqv ps = true) (locallyFree locallyFree' : BitSet)
      (connectiveUsed connectiveUsed' : Bool) (remainder : Option Var) :
      IsValue s (exprPar (eSet ps locallyFree connectiveUsed remainder) locallyFree' connectiveUsed')
  | map {kvs : Term (.list .keyValuePair)} (keys : ∀ kv ∈ kvs.toList, IsValue s (Sorter.keyOf kv))
      (values : ∀ kv ∈ kvs.toList, IsValue s (Sorter.valueOf kv))
      (canonical : ∀ kvs', kvs'.eqv kvs = true → (s.sortedList kvs').eqv kvs = true)
      (locallyFree locallyFree' : BitSet) (connectiveUsed connectiveUsed' : Bool) (remainder : Option Var) :
      IsValue s (exprPar (eMap kvs locallyFree connectiveUsed remainder) locallyFree' connectiveUsed')

def Fixed (r : Reducer) (env : Env) (v : Par) : Prop :=
  ∀ v', v'.eqv v = true → ∃ w, Ends (fun fuel => r.substituteStep env fuel v') (.ok w) ∧ w.eqv v = true

structure Settled (r : Reducer) (env : Env) : Prop where
  isValue : ∀ v ∈ env.bindings, IsValue r.sorter v
  fixed : ∀ v ∈ env.bindings, Fixed r env v

@[simp] theorem asGround_erase (e : Expr) : asGround e.erase = asGround e := by
  cases e <;> rfl

@[simp] theorem takesElement_erase (e : Expr) : Reducer.takesElement e.erase = Reducer.takesElement e := by
  cases e <;> rfl

@[simp] theorem givesElement_erase (e : Expr) : Reducer.givesElement e.erase = Reducer.givesElement e := by
  cases e <;> rfl

variable {e e' : Expr}

theorem asGround_congr (h : e.eqv e' = true) : asGround e = asGround e' := by
  rw [← asGround_erase, (eqv_iff _ _).mp h, asGround_erase]

theorem takesElement_congr (h : e.eqv e' = true) :
    Reducer.takesElement e = Reducer.takesElement e' := by
  rw [← takesElement_erase, (eqv_iff _ _).mp h, takesElement_erase]

theorem givesElement_congr (h : e.eqv e' = true) :
    Reducer.givesElement e = Reducer.givesElement e' := by
  rw [← givesElement_erase, (eqv_iff _ _).mp h, givesElement_erase]

theorem eq_ground_of_asGround {g : Ground} (h : asGround e = some g) : e = ground g := by
  cases e with
  | ground g' =>
    cases h
    rfl
  | _ => cases h

theorem Term.toList_erase : (ts : Term (.list k)) → ts.erase.toList = ts.toList.map erase
  | nil => rfl
  | cons t ts => congrArg (t.erase :: ·) (toList_erase ts)

def onlyExprs (p : Par) : Bool :=
  p.sends.isEmpty && p.receives.isEmpty && p.news.isEmpty && p.matchProcs.isEmpty && p.bundles.isEmpty &&
    p.unforgeables.isEmpty && p.connectives.isEmpty && p.conditionals.isEmpty

theorem single_eq (p : Par) :
    single p = if onlyExprs p then (match p.exprs with | [e] => some e | _ => none) else none := by
  unfold single PureEval.singleExprInstance onlyExprs
  split_ifs
  · cases p.exprs with
    | nil => rfl
    | cons e es => cases es <;> rfl
  · rfl

theorem single_erase (p : Par) : single p.erase = (single p).map erase := by
  have hOnly : onlyExprs p.erase = onlyExprs p := by
    cases p
    simp [onlyExprs, erase, sends, receives, news, matchProcs, unforgeables, bundles, connectives, conditionals,
      toList_erase]
  have hExprs : p.erase.exprs = p.exprs.map erase := by
    cases p
    exact toList_erase _
  rw [single_eq, single_eq, hOnly, hExprs]
  cases onlyExprs p with
  | false => rfl
  | true =>
    cases p.exprs with
    | nil => rfl
    | cons e es => cases es <;> rfl

variable {p p' : Par}

theorem single_congr (h : p.eqv p' = true) : (single p).map erase = (single p').map erase := by
  rw [← single_erase, (eqv_iff _ _).mp h, single_erase]

theorem singleGround_congr (h : p.eqv p' = true) : singleGround p = singleGround p' := by
  have hBind : ∀ e : Option Expr, e.bind asGround = (e.map erase).bind asGround := by
    intro e
    cases e with
    | none => rfl
    | some e => exact (asGround_erase e).symm
  rw [singleGround, singleGround, hBind, single_congr h, ← hBind]

theorem single_of_eqv (h : p.eqv p' = true) (he : single p' = some e) :
    ∃ e', single p = some e' ∧ e'.eqv e = true := by
  have hErase := single_congr h
  rw [he] at hErase
  obtain ⟨e', he', hEq⟩ := Option.map_eq_some_iff.mp hErase
  exact ⟨e', he', (eqv_iff _ _).mpr hEq⟩

theorem single_none_of_eqv (h : p.eqv p' = true) (he : single p' = none) : single p = none := by
  have hErase := single_congr h
  rw [he] at hErase
  exact Option.map_eq_none_iff.mp hErase

theorem equal_congr {q q' : Par} (hp : p.eqv p' = true) (hq : q.eqv q' = true) : equal p q = equal p' q' := by
  rw [equal, equal, parContainsNanDouble_congr hp, parContainsNanDouble_congr hq, eqv_congr hp hq]

def Failed {ε α : Type} (x : Except ε α) : Prop := ∃ err, x = .error err

section

variable {env : Env}

variable {p : Par}

theorem singleExprInstance_of_some {e : Expr} (h : single p = some e) :
    PureEval.singleExprInstance p = .ok e := by
  unfold single at h
  cases hSingle : PureEval.singleExprInstance p with
  | error err =>
    rw [hSingle] at h
    cases h
  | ok e' =>
    rw [hSingle] at h
    cases h
    rfl

theorem failed_singleExprInstance (h : single p = none) : Failed (PureEval.singleExprInstance p) := by
  unfold single at h
  cases hSingle : PureEval.singleExprInstance p with
  | error err => exact ⟨err, rfl⟩
  | ok e =>
    rw [hSingle] at h
    cases h

theorem bind_singleGround (d : Option Par) : d.bind singleGround = (d.bind single).bind asGround := by
  cases d <;> rfl

variable {p1 p2 : Par} {d d1 d2 : Option Par}

theorem yields_evalSingle (h : Yields (fun fuel => PureEval.eval env fuel p) d) :
    Yields (fun fuel => PureEval.evalSingle (PureEval.eval env fuel) p) (d.bind single) := by
  cases d with
  | none => exact Fails.bind h
  | some v =>
    obtain ⟨w, hw, hEqv⟩ := h
    change Yields _ (single v)
    cases hSingle : single v with
    | none =>
      obtain ⟨err, hErr⟩ := failed_singleExprInstance (single_none_of_eqv hEqv hSingle)
      refine ⟨err, hw.bind ?_⟩
      rw [hErr]
      exact Ends.lift _
    | some e =>
      obtain ⟨e', he', hEqv'⟩ := single_of_eqv hEqv hSingle
      refine ⟨e', hw.bind ?_, hEqv'⟩
      rw [singleExprInstance_of_some he']
      exact Ends.lift _

variable {g1 g2 : Option Ground}

theorem onBools_none {f : Bool → Bool → Bool} (h : g1 = none ∨ g2 = none) :
    onBools f g1 g2 = none := by
  unfold onBools
  split
  · simp at h
  · rfl

variable {f : Int64 → Int64 → Option Int64}

theorem onInts_none (h : g1 = none ∨ g2 = none) :
    onInts f g1 g2 = none := by
  unfold onInts
  split
  · simp at h
  · rfl

theorem onOrder_none {f : Ordering → Bool} (h : g1 = none ∨ g2 = none) :
    onOrder f g1 g2 = none := by
  unfold onOrder
  split <;> first | rfl | simp at h

theorem onInts_of_not_ints {e1 e2 : Expr} (h : ∀ i1 i2, e1 = ground (.gInt i1) → e2 = ground (.gInt i2) → False) :
    onInts f (asGround e1) (asGround e2) = none := by
  unfold onInts
  split
  next h1 h2 => exact (h _ _ (eq_ground_of_asGround h1) (eq_ground_of_asGround h2)).elim
  · rfl

variable {result : Option Ground → Option Ground → Option Ground}

theorem yields_operands (hNone : ∀ {g1 g2}, g1 = none ∨ g2 = none → result g1 g2 = none)
    {f : Expr → Expr → Steps PureEval.EvalError Par}
    (hf : ∀ e1 e2, Yields (fun _ => f e1 e2) ((result (asGround e1) (asGround e2)).map groundPar))
    (h1 : Yields (fun fuel => PureEval.eval env fuel p1) d1) (h2 : Yields (fun fuel => PureEval.eval env fuel p2) d2) :
    Yields (fun fuel => do
      let v1 ← PureEval.evalSingle (PureEval.eval env fuel) p1
      let v2 ← PureEval.evalSingle (PureEval.eval env fuel) p2
      f v1 v2) ((result (d1.bind singleGround) (d2.bind singleGround)).map groundPar) := by
  have hFirst := yields_evalSingle h1
  have hSecond := yields_evalSingle h2
  rw [bind_singleGround, bind_singleGround]
  cases hd1 : d1.bind single with
  | none =>
    rw [hd1] at hFirst
    rw [Option.bind_none, hNone (.inl rfl)]
    exact Fails.bind hFirst
  | some e1 =>
    rw [hd1] at hFirst
    obtain ⟨e1', he1, hEqv1⟩ := hFirst
    cases hd2 : d2.bind single with
    | none =>
      rw [hd2] at hSecond
      rw [Option.bind_none, hNone (.inr rfl)]
      exact he1.bind_fails (Fails.bind hSecond)
    | some e2 =>
      rw [hd2] at hSecond
      obtain ⟨e2', he2, hEqv2⟩ := hSecond
      refine yields_bind he1 (yields_bind he2 ?_)
      have hLast := hf e1' e2'
      rwa [asGround_congr hEqv1, asGround_congr hEqv2] at hLast

section

variable (h1 : Yields (fun fuel => PureEval.eval env fuel p1) d1) (h2 : Yields (fun fuel => PureEval.eval env fuel p2) d2)
include h1 h2

theorem yields_boolBinop (op : String) (f : Bool → Bool → Bool) :
    Yields (fun fuel => PureEval.boolBinop (PureEval.eval env fuel) op p1 p2 f)
      ((onBools f (d1.bind singleGround) (d2.bind singleGround)).map groundPar) := by
  refine yields_operands onBools_none (fun e1 e2 => ?_) h1 h2
  split
  · exact ⟨_, Ends.pure _, eqv_self _⟩
  next hOther =>
    have hNone : onBools f (asGround e1) (asGround e2) = none := by
      unfold onBools
      split
      next h1 h2 => exact (hOther _ _ (eq_ground_of_asGround h1) (eq_ground_of_asGround h2)).elim
      · rfl
    rw [hNone]
    exact Fails.throw _

theorem yields_cmpBinop (op : String) {interpret : Int → Bool} {f : Ordering → Bool}
    (hf : ∀ order, interpret (PureEval.orderValue order) = f order) :
    Yields (fun fuel => PureEval.cmpBinop (PureEval.eval env fuel) op p1 p2 interpret)
      ((onOrder f (d1.bind singleGround) (d2.bind singleGround)).map groundPar) := by
  refine yields_operands onOrder_none (fun e1 e2 => ?_) h1 h2
  simp only [hf]
  split
  · exact ⟨_, Ends.pure _, eqv_self _⟩
  · exact ⟨_, Ends.pure _, eqv_self _⟩
  · exact ⟨_, Ends.pure _, eqv_self _⟩
  next hInt hString hBool =>
    have hNone : onOrder f (asGround e1) (asGround e2) = none := by
      unfold onOrder
      split
      next h1 h2 => exact (hInt _ _ (eq_ground_of_asGround h1) (eq_ground_of_asGround h2)).elim
      next h1 h2 => exact (hString _ _ (eq_ground_of_asGround h1) (eq_ground_of_asGround h2)).elim
      next h1 h2 => exact (hBool _ _ (eq_ground_of_asGround h1) (eq_ground_of_asGround h2)).elim
      · rfl
    rw [hNone]
    exact Fails.throw _

theorem yields_intBinopChecked (op : String) (f : Int64 → Int64 → Option Int64) :
    Yields (fun fuel => PureEval.intBinopChecked (PureEval.eval env fuel) op p1 p2 f)
      ((onInts f (d1.bind singleGround) (d2.bind singleGround)).map groundPar) := by
  refine yields_operands onInts_none (fun e1 e2 => ?_) h1 h2
  split
  next i1 i2 =>
    simp only [asGround, onInts]
    cases f i1 i2 with
    | none => exact Fails.throw _
    | some i => exact ⟨_, Ends.pure _, eqv_self _⟩
  next hOther =>
    rw [onInts_of_not_ints hOther]
    exact Fails.throw _

theorem yields_intDivOrMod (op : String) {f : Int64 → Int64 → Option Int64} (hZero : ∀ i, f i 0 = none) :
    Yields (fun fuel => PureEval.intDivOrMod (PureEval.eval env fuel) op p1 p2 f)
      ((onInts f (d1.bind singleGround) (d2.bind singleGround)).map groundPar) := by
  refine yields_operands onInts_none (fun e1 e2 => ?_) h1 h2
  split
  next i1 i2 =>
    simp only [asGround, onInts]
    split_ifs with hi
    · rw [eq_of_beq hi, hZero]
      exact Fails.throw _
    · cases f i1 i2 with
      | none => exact Fails.throw _
      | some i => exact ⟨_, Ends.pure _, eqv_self _⟩
  next hOther =>
    rw [onInts_of_not_ints hOther]
    exact Fails.throw _

theorem yields_eqBinop (expectEq : Bool) :
    Yields (fun fuel => PureEval.eqBinop (PureEval.eval env fuel) p1 p2 expectEq)
      (d1.bind fun v1 => d2.map fun v2 => groundPar (.gBool (if expectEq then equal v1 v2 else !equal v1 v2))) := by
  cases d1 with
  | none => exact Fails.bind h1
  | some v1 =>
    obtain ⟨w1, hw1, hEqv1⟩ := h1
    cases d2 with
    | none => exact hw1.bind_fails (Fails.bind h2)
    | some v2 =>
      obtain ⟨w2, hw2, hEqv2⟩ := h2
      refine ⟨_, hw1.bind (hw2.bind (Ends.pure _)), ?_⟩
      have hEqual : (if w1.parContainsNanDouble || w2.parContainsNanDouble then false else w1.eqv w2) = equal v1 v2 := by
        rw [← equal_congr hEqv1 hEqv2, equal]
        cases w1.parContainsNanDouble || w2.parContainsNanDouble <;> rfl
      rw [hEqual]
      exact eqv_self _

end

theorem yields_unary (h : Yields (fun fuel => PureEval.eval env fuel p) d) (op : UnaryOp) :
    Yields (fun fuel => PureEval.evalExprToPar (PureEval.eval env fuel) env (unary op p))
      ((applyUnary op (d.bind singleGround)).map groundPar) := by
  have hSingle := yields_evalSingle h
  rw [bind_singleGround]
  cases hd : d.bind single with
  | none =>
    rw [hd] at hSingle
    cases op <;> exact Fails.bind hSingle
  | some e =>
    rw [hd] at hSingle
    obtain ⟨e', he', hEqv⟩ := hSingle
    rw [Option.bind_some, ← asGround_congr hEqv]
    cases op with
    | not =>
      refine yields_bind he' ?_
      cases e' with
      | ground g => cases g <;> first | exact ⟨_, Ends.pure _, eqv_self _⟩ | exact Fails.throw _
      | _ => exact Fails.throw _
    | neg =>
      refine yields_bind he' ?_
      cases e' with
      | ground g =>
        cases g with
        | gInt i =>
          simp only [asGround, applyUnary]
          cases checkedNeg i with
          | none => exact Fails.throw _
          | some i => exact ⟨_, Ends.pure _, eqv_self _⟩
        | _ => exact Fails.throw _
      | _ => exact Fails.throw _

theorem bind_onGrounds (hNone : ∀ {g1 g2}, g1 = none ∨ g2 = none → result g1 g2 = none) :
    (d1.bind fun v1 => d2.bind fun v2 => (result (singleGround v1) (singleGround v2)).map groundPar) =
      (result (d1.bind singleGround) (d2.bind singleGround)).map groundPar := by
  cases d1 with
  | none =>
    rw [Option.bind_none, Option.bind_none, hNone (.inl rfl)]
    rfl
  | some v1 =>
    cases d2 with
    | none =>
      rw [Option.bind_none, hNone (.inr rfl)]
      rfl
    | some v2 => rfl

theorem yields_binary (h1 : Yields (fun fuel => PureEval.eval env fuel p1) d1)
    (h2 : Yields (fun fuel => PureEval.eval env fuel p2) d2) (op : BinaryOp) :
    Yields (fun fuel => PureEval.evalExprToPar (PureEval.eval env fuel) env (binary op p1 p2))
      (d1.bind fun v1 => d2.bind fun v2 => (applyBinary op v1 v2).map groundPar) := by
  have hOrder : ∀ (sym : String) (interpret : Int → Bool) (f : Ordering → Bool),
      (∀ order, interpret (PureEval.orderValue order) = f order) →
      Yields (fun fuel => PureEval.cmpBinop (PureEval.eval env fuel) sym p1 p2 interpret)
        (d1.bind fun v1 => d2.bind fun v2 => (onOrder f (singleGround v1) (singleGround v2)).map groundPar) := by
    intro sym interpret f hf
    rw [bind_onGrounds onOrder_none]
    exact yields_cmpBinop h1 h2 sym hf
  have hInts : ∀ (sym : String) (f : Int64 → Int64 → Option Int64),
      Yields (fun fuel => PureEval.intBinopChecked (PureEval.eval env fuel) sym p1 p2 f)
        (d1.bind fun v1 => d2.bind fun v2 => (onInts f (singleGround v1) (singleGround v2)).map groundPar) := by
    intro sym f
    rw [bind_onGrounds onInts_none]
    exact yields_intBinopChecked h1 h2 sym f
  have hDiv : ∀ (sym : String) (f : Int64 → Int64 → Option Int64), (∀ i, f i 0 = none) →
      Yields (fun fuel => PureEval.intDivOrMod (PureEval.eval env fuel) sym p1 p2 f)
        (d1.bind fun v1 => d2.bind fun v2 => (onInts f (singleGround v1) (singleGround v2)).map groundPar) := by
    intro sym f hf
    rw [bind_onGrounds onInts_none]
    exact yields_intDivOrMod h1 h2 sym hf
  have hBools : ∀ (sym : String) (f : Bool → Bool → Bool),
      Yields (fun fuel => PureEval.boolBinop (PureEval.eval env fuel) sym p1 p2 f)
        (d1.bind fun v1 => d2.bind fun v2 => (onBools f (singleGround v1) (singleGround v2)).map groundPar) := by
    intro sym f
    rw [bind_onGrounds onBools_none]
    exact yields_boolBinop h1 h2 sym f
  have hEq : ∀ expectEq : Bool, Yields (fun fuel => PureEval.eqBinop (PureEval.eval env fuel) p1 p2 expectEq)
      (d1.bind fun v1 => d2.bind fun v2 =>
        (some (Ground.gBool (if expectEq then equal v1 v2 else !equal v1 v2))).map groundPar) := by
    intro expectEq
    have h := yields_eqBinop h1 h2 expectEq
    cases d1 <;> cases d2 <;> exact h
  have hUnsupported : ∀ kind : String, Yields
      (fun _ => (throw (.unsupportedExpression kind) : Steps PureEval.EvalError Par))
        (d1.bind fun _ => d2.bind fun _ => (none : Option Ground).map groundPar) := by
    intro kind
    cases d1 <;> cases d2 <;> exact Fails.throw _
  cases op with
  | and => exact hBools "&&" fun a b => a && b
  | or => exact hBools "||" fun a b => a || b
  | eq => exact hEq true
  | neq => exact hEq false
  | lt => exact hOrder "<" (· == -1) Ordering.isLT fun order => by cases order <;> rfl
  | lte => exact hOrder "<=" (· ≤ 0) Ordering.isLE fun order => by cases order <;> rfl
  | gt => exact hOrder ">" (· == 1) Ordering.isGT fun order => by cases order <;> rfl
  | gte => exact hOrder ">=" (· ≥ 0) Ordering.isGE fun order => by cases order <;> rfl
  | plus => exact hInts "+" checkedAdd
  | minus => exact hInts "-" checkedSub
  | mult => exact hInts "*" checkedMul
  | div => exact hDiv "/" checkedDiv fun _ => rfl
  | mod => exact hDiv "%" checkedRem fun _ => rfl
  | percentPercent => exact hUnsupported "EPercentPercentBody"
  | plusPlus => exact hUnsupported "EPlusPlusBody"
  | minusMinus => exact hUnsupported "EMinusMinusBody"

theorem eqv_concatenate_cleared (e : Expr) (l : BitSet) (w : Par) :
    (PureEval.concatenate ((exprPar e l false).cloneWithExprs []) w).eqv w = true := by
  cases w
  simp [exprPar, cloneWithExprs, PureEval.concatenate, append, ofList, eqv_par_iff]

theorem yields_exprPar {e : Expr} (l : BitSet)
    (h : Yields (fun fuel => PureEval.evalExprToPar (PureEval.eval env fuel) env e) d) :
    Yields (fun fuel => PureEval.eval env fuel (exprPar e l false)) d := by
  apply Yields.succ
  change Yields (fun fuel => (do
    let evaled ← PureEval.evalExprToPar (PureEval.eval env fuel) env e
    return PureEval.concatenate ((exprPar e l false).cloneWithExprs []) evaled) >>= Pure.pure) d
  cases d with
  | none => exact Fails.bind (Fails.bind h)
  | some v =>
    obtain ⟨w, hw, hEqv⟩ := h
    refine ⟨PureEval.concatenate ((exprPar e l false).cloneWithExprs []) w, ?_, ?_⟩
    · refine Ends.bind ?_ (Ends.pure _)
      exact hw.bind (Ends.pure _)
    · exact eqv_trans (eqv_concatenate_cleared e l w) hEqv

theorem yields_value {s : Sorter} {v : Par} (hv : IsValue s v) :
    Yields (fun fuel => PureEval.eval env fuel v) (some v) := by
  have hExpr : ∀ (e : Expr) (l : BitSet) (f : Bool),
      (∀ fuel, PureEval.evalExprToPar (PureEval.eval env fuel) env e = Pure.pure (ofExpr e)) →
      Yields (fun fuel => PureEval.eval env fuel (exprPar e l f)) (some (exprPar e l f)) := by
    intro e l f he
    refine ⟨PureEval.concatenate ((exprPar e l f).cloneWithExprs []) (ofExpr e), Ends.succ ?_, ?_⟩
    · refine Eventually.of_forall fun fuel => ?_
      change (PureEval.evalExprToPar (PureEval.eval env fuel) env e >>= _) >>= _ = _
      rw [he]
      rfl
    · cases f <;> exact eqv_exprPar (eqv_self e) _ _ _
  cases hv with
  | process noExprs =>
    refine ⟨v.cloneWithExprs [], Ends.succ (Eventually.of_forall fun fuel => ?_), ?_⟩
    · simp only [PureEval.eval, noExprs]
      rfl
    · cases v with
      | par s r n es m u b c i l f =>
        cases toList_eq_nil_iff.mp noExprs
        exact eqv_self _
  | ground => exact hExpr _ _ _ fun _ => rfl
  | list => exact hExpr _ _ _ fun _ => rfl
  | tuple => exact hExpr _ _ _ fun _ => rfl
  | set => exact hExpr _ _ _ fun _ => rfl
  | map => exact hExpr _ _ _ fun _ => rfl

theorem yields_guard {s : Sorter} (hEnv : ∀ v ∈ env.bindings, IsValue s v) (hGuard : Guard p) :
    Yields (fun fuel => PureEval.eval env fuel p) (denote env p) := by
  induction hGuard with
  | @intro e l node below ih =>
    apply yields_exprPar
    change Yields _ (denote env e)
    cases e with
    | ground g => exact ⟨_, Ends.pure _, eqv_self _⟩
    | eList ps l' f remainder => exact ⟨_, Ends.pure _, eqv_self _⟩
    | eTuple ps l' f => exact ⟨_, Ends.pure _, eqv_self _⟩
    | eVar v =>
      cases v with
      | bound k =>
        simp only [PureEval.evalExprToPar, PureEval.resolveVar, denote]
        cases hGet : env.get k with
        | none => exact Fails.bind ⟨_, Ends.lift _⟩
        | some v =>
          refine yields_bind (Ends.lift _) ?_
          exact yields_value (hEnv v (Env.mem_of_get hGet))
      | free => cases node
      | wildcard => cases node
    | unary op p => exact yields_unary (ih p (List.mem_singleton_self p)) op
    | binary op p1 p2 =>
      exact yields_binary (ih p1 List.mem_cons_self) (ih p2 (List.mem_cons_of_mem p1 List.mem_cons_self)) op
    | _ => cases node

end

end F1r3Node.Rholang
