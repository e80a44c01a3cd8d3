import F1r3Node.Rholang.HasLocallyFree
import F1r3Node.Rholang.Sorter

/-! # Substitution

An environment replaces bound variables at depth 0 and the variable references that name its depth. Sets and maps are
put into canonical form before they are entered, so the recursion goes by fuel.
-/

namespace F1r3Node.Rholang

structure Env where
  bindings : List Par
  shift : Int

namespace Env

def new : Env := ⟨[], 0⟩

def level (env : Env) : Int := env.bindings.length

def put (env : Env) (a : Par) : Env := { env with bindings := env.bindings ++ [a] }

/-- Every binding as if `put` had been called in order. -/
def extended (env : Env) (bindings : List Par) : Env := { env with bindings := env.bindings ++ bindings }

def position (env : Env) (k : Int) : Int := env.level + env.shift - k - 1

def get (env : Env) (k : Int) : Option Par :=
  if env.position k < 0 then none else env.bindings[(env.position k).toNat]?

/-- `shift`. -/
def shiftBy (env : Env) (j : Int) : Env := { env with shift := env.shift + j }

@[simp] theorem shiftBy_zero (env : Env) : env.shiftBy 0 = env := by
  simp [shiftBy]

theorem shiftBy_shiftBy (env : Env) (i j : Int) : (env.shiftBy i).shiftBy j = env.shiftBy (i + j) := by
  simp [shiftBy, Int.add_assoc]

theorem position_shiftBy (env : Env) (j k : Int) : (env.shiftBy j).position k = env.position (k - j) := by
  simp only [position, shiftBy, level]
  omega

theorem get_shiftBy (env : Env) (j k : Int) : (env.shiftBy j).get k = env.get (k - j) := by
  rw [get, get, position_shiftBy]
  rfl

theorem get_of_lt_shift {env : Env} {k : Int} (h : k < env.shift) : env.get k = none := by
  rw [get]
  split_ifs
  · rfl
  · apply List.getElem?_eq_none
    rw [position, level]
    omega

theorem mem_of_get {env : Env} {k : Int} {p : Par} (h : env.get k = some p) : p ∈ env.bindings := by
  rw [get] at h
  split_ifs at h
  exact List.mem_of_getElem? h

end Env

/-- `SubstituteError` with the variable that its text shows, or the end of the fuel. -/
inductive SubstituteFailure
  | illegalSubstitution (term : Var)
  | exhausted
  deriving DecidableEq

def maybeSubstituteVar (term : Var) (depth : Int) (env : Env) : Except SubstituteFailure (Var ⊕ Par) :=
  if depth ≠ 0 then .ok (.inl term)
  else
    match term with
    | .bound index =>
      match env.get index with
      | some p => .ok (.inr p)
      | none => .ok (.inl term)
    | .free _ | .wildcard => .error (.illegalSubstitution term)

def maybeSubstituteVarRef (index termDepth depth : Int) (env : Env) : Option Par :=
  if termDepth ≠ depth then none else env.get index

def setBitsUntil (bits : BitSet) (till : Int) : BitSet := if till ≤ 0 then [] else bits.take till.toNat

namespace Term

def append {k : Kind} (ts us : Term (.list k)) : Term (.list k) := ofList (ts.toList ++ us.toList)

def concatenatePars : Par → Par → Par
  | par sends receives news exprs matchProcs unforgeables bundles connectives conditionals locallyFree connectiveUsed,
    par sends' receives' news' exprs' matchProcs' unforgeables' bundles' connectives' conditionals' locallyFree'
      connectiveUsed' =>
    par (sends'.append sends) (receives'.append receives) (news'.append news) (exprs'.append exprs)
      (matchProcs'.append matchProcs) (unforgeables' ++ unforgeables) (bundles'.append bundles)
      (connectives'.append connectives) (conditionals'.append conditionals) (union locallyFree' locallyFree)
      (connectiveUsed' || connectiveUsed)

def singleBundle (p : Par) : Option Bundle :=
  if p.sends.isEmpty && p.receives.isEmpty && p.news.isEmpty && p.exprs.isEmpty && p.matchProcs.isEmpty &&
      p.unforgeables.isEmpty && p.connectives.isEmpty then
    match p.bundles with
    | [b] => some b
    | _ => none
  else none

/-- `BundleOps::merge`. -/
def mergeBundle (writeFlag readFlag : Bool) : Bundle → Bundle
  | bundle body writeFlag' readFlag' => bundle body (writeFlag' && writeFlag) (readFlag' && readFlag)

def rebundle (writeFlag readFlag : Bool) (body : Par) : Bundle :=
  match singleBundle body with
  | some inner => mergeBundle writeFlag readFlag inner
  | none => bundle body writeFlag readFlag

def prependExpr (depth : Int) (e : Expr) : Par → Par
  | par sends receives news exprs matchProcs unforgeables bundles connectives conditionals free used =>
    par sends receives news (cons e exprs) matchProcs unforgeables bundles connectives conditionals
      (union free (e.locallyFree depth)) (used || e.connectiveUsed)

def prependConnective (depth : Int) (c : Connective) : Par → Par
  | par sends receives news exprs matchProcs unforgeables bundles connectives conditionals _ used =>
    par sends receives news exprs matchProcs unforgeables bundles (cons c connectives) conditionals
      (c.locallyFree depth) (used || c.connectiveUsed)

end Term

open Term

section

variable (s : Sorter) (go : {k : Kind} → Term k → Int → Env → Except SubstituteFailure (Term k))

/-- One round of `sub_exp`. -/
def subExpStep (depth : Int) (env : Env) (acc : Par) (e : Expr) : Except SubstituteFailure Par :=
  match e with
  | .eVar v => do
    match ← maybeSubstituteVar v depth env with
    | .inl v => return prependExpr depth (eVar v) acc
    | .inr p => return concatenatePars p acc
  | e => do
    let e ← go e depth env
    return prependExpr depth e acc

def subExp (depth : Int) (env : Env) (exprs : Term (.list .expr)) : Except SubstituteFailure Par :=
  exprs.toList.foldlM (subExpStep go depth env) emptyPar

/-- One round of `sub_conn`. -/
def subConnStep (depth : Int) (env : Env) (acc : Par) (c : Connective) : Except SubstituteFailure Par :=
  match c with
  | .varRef index termDepth =>
    match maybeSubstituteVarRef index termDepth depth env with
    | none => return prependConnective depth (varRef index termDepth) acc
    | some p => return concatenatePars p acc
  | c => do
    let c ← go c depth env
    return prependConnective depth c acc

def subConn (depth : Int) (env : Env) (conns : Term (.list .connective)) : Except SubstituteFailure Par :=
  conns.toList.foldlM (subConnStep go depth env) emptyPar

def substituteAllNoSort {k : Kind} (terms : Term (.list k)) (depth : Int) (env : Env) :
    Except SubstituteFailure (Term (.list k)) := do
  let terms ← terms.toList.mapM fun term => go term depth env
  return ofList terms

def substituteOption (term : Term (.option .par)) (depth : Int) (env : Env) :
    Except SubstituteFailure (Term (.option .par)) :=
  match term with
  | .absent => return absent
  | .present p => do
    let p ← go p depth env
    return present p

/-- `substitute_no_sort` for every message, with `go` for its parts. -/
def substituteTerm : {k : Kind} → Term k → Int → Env → Except SubstituteFailure (Term k)
  | _, par sends receives news exprs matchProcs unforgeables bundles connectives conditionals locallyFree
      connectiveUsed, depth, env => do
    let exprs ← subExp go depth env exprs
    let connectives ← subConn go depth env connectives
    let sends ← substituteAllNoSort go sends depth env
    let bundles ← substituteAllNoSort go bundles depth env
    let receives ← substituteAllNoSort go receives depth env
    let news ← substituteAllNoSort go news depth env
    let matchProcs ← substituteAllNoSort go matchProcs depth env
    let conditionals ← substituteAllNoSort go conditionals depth env
    return concatenatePars exprs (concatenatePars connectives
      (par sends receives news nil matchProcs unforgeables bundles nil conditionals
        (setBitsUntil locallyFree env.shift) connectiveUsed))
  | _, send chan data persistent locallyFree connectiveUsed, depth, env => do
    let chan ← go chan depth env
    let data ← substituteAllNoSort go data depth env
    return send chan data persistent (setBitsUntil locallyFree env.shift) connectiveUsed
  | _, receiveBind patterns source remainder freeCount, depth, env => do
    let source ← go source depth env
    let patterns ← substituteAllNoSort go patterns (depth + 1) env
    return receiveBind patterns source remainder freeCount
  | _, receive binds body persistent peek bindCount condition locallyFree connectiveUsed, depth, env => do
    let binds ← substituteAllNoSort go binds depth env
    let body ← go body depth (env.shiftBy bindCount)
    let condition ← substituteOption go condition depth (env.shiftBy bindCount)
    return receive binds body persistent peek bindCount condition (setBitsUntil locallyFree env.shift) connectiveUsed
  | _, new bindCount p uri injections locallyFree, depth, env => do
    let p ← go p depth (env.shiftBy bindCount)
    return new bindCount p uri injections (setBitsUntil locallyFree env.shift)
  | _, matchCase pattern source freeCount guard, depth, env => do
    let source ← go source depth (env.shiftBy freeCount)
    let pattern ← go pattern (depth + 1) env
    let guard ← substituteOption go guard depth (env.shiftBy freeCount)
    return matchCase pattern source freeCount guard
  | _, matchProc target cases locallyFree connectiveUsed, depth, env => do
    let target ← go target depth env
    let cases ← substituteAllNoSort go cases depth env
    return matchProc target cases (setBitsUntil locallyFree env.shift) connectiveUsed
  | _, conditional condition ifTrue ifFalse locallyFree connectiveUsed, depth, env => do
    let condition ← go condition depth env
    let ifTrue ← go ifTrue depth env
    let ifFalse ← go ifFalse depth env
    return conditional condition ifTrue ifFalse (setBitsUntil locallyFree env.shift) connectiveUsed
  | _, bundle body writeFlag readFlag, depth, env => do
    let body ← go body depth env
    return rebundle writeFlag readFlag body
  | _, unary op p, depth, env => do
    let p ← go p depth env
    return unary op p
  | _, binary op p1 p2, depth, env => do
    let p1 ← go p1 depth env
    let p2 ← go p2 depth env
    return binary op p1 p2
  | _, eList ps locallyFree connectiveUsed remainder, depth, env => do
    let ps ← substituteAllNoSort go ps depth env
    return eList ps (setBitsUntil locallyFree env.shift) connectiveUsed remainder
  | _, eTuple ps locallyFree connectiveUsed, depth, env => do
    let ps ← substituteAllNoSort go ps depth env
    return eTuple ps (setBitsUntil locallyFree env.shift) connectiveUsed
  | _, eSet ps locallyFree connectiveUsed remainder, depth, env => do
    let ps ← substituteAllNoSort go (s.sortedPars ps) depth env
    return eSet (s.sortedPars ps) (setBitsUntil locallyFree env.shift) connectiveUsed remainder
  | _, eMap kvs locallyFree connectiveUsed remainder, depth, env => do
    let kvs ← substituteAllNoSort go (s.sortedList kvs) depth env
    return eMap (s.sortedList kvs) (setBitsUntil locallyFree env.shift) connectiveUsed remainder
  | _, keyValuePair key value, depth, env => do
    let key ← go key depth env
    let value ← go value depth env
    return keyValuePair key value
  | _, eMethod methodName target arguments locallyFree connectiveUsed, depth, env => do
    let target ← go target depth env
    let arguments ← substituteAllNoSort go arguments depth env
    return eMethod methodName target arguments (setBitsUntil locallyFree env.shift) connectiveUsed
  | _, eMatches target pattern, depth, env => do
    let target ← go target depth env
    let pattern ← go pattern depth env
    return eMatches target pattern
  | _, connAnd ps, depth, env => do
    let ps ← substituteAllNoSort go ps depth env
    return connAnd ps
  | _, connOr ps, depth, env => do
    let ps ← substituteAllNoSort go ps depth env
    return connOr ps
  | _, connNot p, depth, env => do
    let p ← go p depth env
    return connNot p
  -- every other expression, path maps and zippers among them, is left as it is
  | _, term, _, _ => return term

end

def substituteNoSort (s : Sorter) : Nat → {k : Kind} → Term k → Int → Env → Except SubstituteFailure (Term k)
  | 0, _, _, _, _ => .error .exhausted
  | fuel + 1, _, term, depth, env => substituteTerm s (substituteNoSort s fuel) term depth env

/-- `substitute` for a process. -/
def substitute (s : Sorter) (fuel : Nat) (term : Par) (depth : Int) (env : Env) : Except SubstituteFailure Par := do
  let p ← substituteNoSort s fuel term depth env
  return p.sortMatch s

end F1r3Node.Rholang
