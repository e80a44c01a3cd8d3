import F1r3Node.Rholang.MatchPars
import F1r3Node.Rholang.MaximumBipartiteMatch
import F1r3Node.Rholang.SubPars

/-! # The spatial matcher

A match writes its bindings into one map, which keeps what failed attempts have written. The order of targets and the
sorting of sets and maps are parameters.
-/

namespace F1r3Node.Rholang

deriving instance DecidableEq for Term

abbrev FreeMap := Int → Option Par

def newFreeMap : FreeMap := fun _ => none

/-- `Extend` of a map: the later entries win. -/
def FreeMap.extend (freeMap other : FreeMap) : FreeMap := fun level => (other level).or (freeMap level)

/-- A failed match keeps its bindings. No result at all means that the fuel ran out. -/
abbrev Matching := OptionT (StateT FreeMap Option)

namespace Matching

def exhausted {A : Type} : Matching A := OptionT.mk fun _ => none

def getFreeMap : Matching FreeMap := OptionT.lift get

def setFreeMap (freeMap : FreeMap) : Matching Unit := OptionT.lift (set freeMap)

def attempt {A : Type} (m : Matching A) : Matching (Option A) := OptionT.lift m.run

theorem run_bind_of_run {A B : Type} {m : Matching A} {f : A → Matching B} {freeMap freeMap' : FreeMap} {a : A}
    (h : m.run.run freeMap = some (some a, freeMap')) : (m >>= f).run.run freeMap = (f a).run.run freeMap' := by
  change (m.run.run freeMap >>= fun x => _) = _
  rw [h]
  rfl

end Matching

open Matching

/-- Orders that the matcher takes from derived code and from the sorter of the models crate. -/
structure Orders where
  le : {k : Kind} → Term k → Term k → Bool
  leUnforgeable : GUnforgeable → GUnforgeable → Bool
  /-- The elements of a set in canonical form and order, each once. -/
  sortedPars : List Par → List Par
  /-- The entries of a map in canonical form and order, one for each key. -/
  sortedList : List (Term .keyValuePair) → List (Term .keyValuePair)

namespace ParCount

def new (p : Par) : ParCount :=
  ⟨p.sends.length, p.receives.length, p.news.length, p.exprs.length, p.matchProcs.length, p.unforgeables.length,
    p.bundles.length⟩

def zero : ParCount := ⟨0, 0, 0, 0, 0, 0, 0⟩

def most : ParCount := ⟨1000, 1000, 1000, 1000, 1000, 1000, 1000⟩

def combine (f : Nat → Nat → Nat) (a b : ParCount) : ParCount :=
  ⟨f a.sends b.sends, f a.receives b.receives, f a.news b.news, f a.exprs b.exprs, f a.matchProcs b.matchProcs,
    f a.unforgeables b.unforgeables, f a.bundles b.bundles⟩

def max : ParCount → ParCount → ParCount := combine Max.max

def min : ParCount → ParCount → ParCount := combine Min.min

/-- Addition on `usize` that stays at the largest value. -/
def add : ParCount → ParCount → ParCount := combine fun a b => Min.min (a + b) (2 ^ 64 - 1)

end ParCount

def isFree : Expr → Bool
  | .eVar (.free _) | .eVar .wildcard => true
  | _ => false

def noFreesExprs (exprs : List Expr) : List Expr := exprs.filter fun e => !isFree e

namespace Term

def withSends (p : Par) (sends : List Send) : Par :=
  match p with | par _ r n e m u b c i l f => par (ofList sends) r n e m u b c i l f

def withReceives (p : Par) (receives : List Receive) : Par :=
  match p with | par s _ n e m u b c i l f => par s (ofList receives) n e m u b c i l f

def withNews (p : Par) (news : List New) : Par :=
  match p with | par s r _ e m u b c i l f => par s r (ofList news) e m u b c i l f

def withExprs (p : Par) (exprs : List Expr) : Par :=
  match p with | par s r n _ m u b c i l f => par s r n (ofList exprs) m u b c i l f

def withMatches (p : Par) (matchProcs : List MatchProc) : Par :=
  match p with | par s r n e _ u b c i l f => par s r n e (ofList matchProcs) u b c i l f

def withUnforgeables (p : Par) (unforgeables : List GUnforgeable) : Par :=
  match p with | par s r n e m _ b c i l f => par s r n e m unforgeables b c i l f

def withBundles (p : Par) (bundles : List Bundle) : Par :=
  match p with | par s r n e m u _ c i l f => par s r n e m u (ofList bundles) c i l f

def noFrees (p : Par) : Par := p.withExprs (noFreesExprs p.exprs)

def vectorPar (locallyFree : BitSet) (connectiveUsed : Bool) : Par :=
  par nil nil nil nil nil [] nil nil nil locallyFree connectiveUsed

def singleExpr (p : Par) : Option Expr :=
  if p.sends.isEmpty && p.receives.isEmpty && p.news.isEmpty && p.matchProcs.isEmpty && p.bundles.isEmpty then
    match p.exprs with
    | [expr] => some expr
    | _ => none
  else none

def minMax : {k : Kind} → Term k → List (ParCount × ParCount)
  | _, nil => []
  | _, cons head tail => minMax head ++ minMax tail
  | _, par s r n e m u b connectives c l f =>
    let p := par s r n e m u b connectives c l f
    let pc := ParCount.new p.noFrees
    [(minMax connectives).foldl (fun acc bounds => (acc.1.add bounds.1, acc.2.add bounds.2))
      (pc, if p.exprs.any isFree then .most else pc)]
  | _, connAnd ps =>
    [((minMax ps).foldl (fun acc bounds => acc.max bounds.1) .zero,
      (minMax ps).foldl (fun acc bounds => acc.min bounds.2) .most)]
  | _, connOr ps =>
    [((minMax ps).foldl (fun acc bounds => acc.min bounds.1) .most,
      (minMax ps).foldl (fun acc bounds => acc.max bounds.2) .zero)]
  | _, connNot _ => [(.zero, .most)]
  | _, varRef _ _ => [(.zero, .zero)]
  | _, connType _ _ => [({ ParCount.zero with exprs := 1 }, { ParCount.zero with exprs := 1 })]
  | _, _ => []

def minMaxCon (connective : Connective) : ParCount × ParCount := (minMax connective).headD (.zero, .zero)

end Term

/-- What the matcher of a list needs to know about its components. -/
structure Component (T : Type) where
  eqv : T → T → Bool
  le : T → T → Bool
  connectiveUsed : T → Bool
  locallyFree : T → BitSet
  spatialMatch : T → T → Matching Unit

inductive ListPattern (T : Type)
  | term (p : T)
  | remainder (level : Int)

def aggregateUpdates (currentFreeMap : FreeMap) (freeMaps : List FreeMap) : FreeMap :=
  freeMaps.foldl FreeMap.extend currentFreeMap

section

variable {T : Type}

def matchEffect (c : Component T) (t : T) : ListPattern T → Matching Unit
  | .term p => if !c.connectiveUsed p then guard (c.eqv t p) else c.spatialMatch t p
  | .remainder _ => guard (c.locallyFree t).isEmpty

/-- Every attempt goes on with the bindings of the attempts before. The result is a copy of the whole map. -/
def matchFunction (c : Component T) (pattern : ListPattern T) (t : T) :
    Option FreeMap → Option FreeMap × Option FreeMap
  | none => (none, none)
  | some freeMap =>
    match (matchEffect c t pattern).run.run freeMap with
    | none => (none, none)
    | some (some _, freeMap) => (some freeMap, some freeMap)
    | some (none, freeMap) => (none, some freeMap)

def handleRemainder (remainderTargets : List T) (level : Int) (merger : Par → List T → Par) : Matching Unit := do
  let freeMap ← getFreeMap
  let remainderPar := (freeMap level).getD (Term.vectorPar [] false)
  setFreeMap (Function.update freeMap level (some (merger remainderPar remainderTargets)))

variable [DecidableEq T]

def listMatch (c : Component T) (targets patterns : List T) (merger : Par → List T → Par) (remainder : Option Int)
    (wildcard : Bool) : Matching Unit := do
  let remainderPatterns := (remainder.map fun level =>
    List.replicate (targets.length - patterns.length) (ListPattern.remainder level)).getD []
  let allPatterns := remainderPatterns ++ patterns.map .term
  let freeMap ← getFreeMap
  match MaximumBipartiteMatch.findMatches (matchFunction c) c.le (some freeMap) allPatterns targets with
  | none | some (_, none) => exhausted
  | some (none, _) => failure
  | some (some found, some _) =>
    setFreeMap (aggregateUpdates freeMap (found.map fun m => m.2.2))
    let remainderTargets := found.filterMap fun m => match m.2.1 with
      | .remainder _ => some m.1
      | .term _ => none
    let remainderTargetsSorted := targets.filter fun target => remainderTargets.any (c.eqv · target)
    match remainder with
    | none => guard (wildcard || remainderTargetsSorted.isEmpty)
    | some level => handleRemainder remainderTargetsSorted level merger

def listMatchSingle' (c : Component T) (tlist plist : List T) (merger : Par → List T → Par) (remainder : Option Int)
    (wildcard : Bool) : Matching Unit :=
  let exactMatch := !wildcard && remainder.isNone
  let plen := plist.length
  let tlen := tlist.length
  if exactMatch && plen != tlen then failure
  else if plen > tlen then failure
  else if plen == 0 && tlen == 0 && remainder.isNone then pure ()
  else
    match plen, remainder with
    | 0, some level => if tlist.all fun t => (c.locallyFree t).isEmpty then handleRemainder tlist level merger else failure
    | _, _ => listMatch c tlist plist merger remainder wildcard

def listMatchSingle (c : Component T) (tlist plist : List T) : Matching Unit :=
  listMatchSingle' c tlist plist (fun p _ => p) none false

end

def foldMatch {k : Kind} (spatialMatch : Term k → Term k → Matching Unit) (tlist plist : List (Term k))
    (remainder : Option Var) : Matching (List (Term k)) := do
  (tlist.zip plist).forM fun (t, p) => spatialMatch t p
  if tlist.length = plist.length then return []
  else if plist.length < tlist.length then
    let trem := tlist.drop plist.length
    match remainder with
    | some (.free _) => if trem.all fun t => (t.locallyFree 0).isEmpty then return trem else failure
    | some .wildcard => return []
    | _ => failure
  else failure

section

variable (orders : Orders) (spatialMatch : {k : Kind} → Term k → Term k → Matching Unit)

def component (k : Kind) : Component (Term k) where
  eqv := Term.eqv
  le := orders.le
  connectiveUsed := Term.connectiveUsed
  locallyFree := Term.locallyFree 0
  spatialMatch := spatialMatch

def unforgeableComponent : Component GUnforgeable where
  eqv t p := decide (t = p)
  le := orders.leUnforgeable
  connectiveUsed _ := false
  locallyFree _ := []
  spatialMatch
    | .gPrivate t, .gPrivate p => guard (t = p)
    | .gDeployerId t, .gDeployerId p => guard (t = p)
    | _, _ => failure

def matchConnective (target : Par) : Connective → Matching Unit
  | .connAnd ps => ps.toList.forM fun p => spatialMatch target p
  | .connOr ps =>
    -- the first alternative that matches counts, and its bindings are dropped
    ps.toList.foldr (fun p others => do
      let freeMap ← getFreeMap
      match ← attempt (spatialMatch target p) with
      | some _ => setFreeMap freeMap
      | none => others) failure
  | .connNot p => do
    match ← attempt (spatialMatch target p) with
    | some _ => failure
    | none => pure ()
  | .varRef _ _ => failure
  | .connType type _ =>
    match type, target.singleExpr with
    | .bool, some (.ground (.gBool _)) | .int, some (.ground (.gInt _)) | .string, some (.ground (.gString _))
    | .uri, some (.ground (.gUri _)) | .byteArray, some (.ground (.gByteArray _)) => pure ()
    | _, _ => failure

/-- The first part of the target that the connective accepts; what is left is the result. -/
def matchConnectiveWithBounds (target : Par) (con : Connective) (bounds remainders : ParCount × ParCount) :
    Matching Par :=
  (subPars target bounds.1 bounds.2 remainders.1 remainders.2).foldr (fun sp others => do
    match ← attempt (matchConnective spatialMatch sp.1 con) with
    | some _ => pure sp.2
    | none => others) failure

def remainderBounds (rem : ParCount × ParCount) : List (ParCount × ParCount) → List (ParCount × ParCount)
  | [] => []
  | _ :: bounds =>
    bounds.foldr (fun b acc => (b.1.add acc.1, b.2.add acc.2)) rem :: remainderBounds rem bounds

def varLevel (exprs : List Expr) : Option Int := exprs.findSome? fun
  | .eVar (.free level) => some level
  | _ => none

def hasWildcard (exprs : List Expr) : Bool := exprs.any fun
  | .eVar .wildcard => true
  | _ => false

def matchConnectives (target pattern : Par) (var : Option Int) (wildcard : Bool) : Matching Par :=
  let pc := ParCount.new pattern.noFrees
  let maxRem := if wildcard || var.isSome then .most else pc
  let individualBounds := pattern.connectives.map Term.minMaxCon
  (pattern.connectives.zip (individualBounds.zip (remainderBounds (pc, maxRem) individualBounds))).foldlM
    (fun acc (con, bounds, remainders) => matchConnectiveWithBounds spatialMatch acc con bounds remainders) target

def matchPar (target pattern : Par) : Matching Unit :=
  if !pattern.connectiveUsed then guard (target.matchPars pattern)
  else do
    let var := varLevel pattern.exprs
    let wildcard := hasWildcard pattern.exprs
    let remainder ← matchConnectives spatialMatch target pattern var wildcard
    listMatchSingle' (component orders spatialMatch .send) remainder.sends pattern.sends Term.withSends var wildcard
    listMatchSingle' (component orders spatialMatch .receive) remainder.receives pattern.receives Term.withReceives var
      wildcard
    listMatchSingle' (component orders spatialMatch .new) remainder.news pattern.news Term.withNews var wildcard
    listMatchSingle' (component orders spatialMatch .expr) remainder.exprs (noFreesExprs pattern.exprs) Term.withExprs
      var wildcard
    listMatchSingle' (component orders spatialMatch .matchProc) remainder.matchProcs pattern.matchProcs
      Term.withMatches var wildcard
    listMatchSingle' (component orders spatialMatch .bundle) remainder.bundles pattern.bundles Term.withBundles var
      wildcard
    listMatchSingle' (unforgeableComponent orders) remainder.unforgeables pattern.unforgeables Term.withUnforgeables var
      wildcard

def remainderVar : Option Var → Option Int
  | some (.free level) => some level
  | _ => none

def matchExpr : Expr → Expr → Matching Unit
  | .eList tlist _ _ _, .eList plist _ _ rem => do
    let matchedRem ← foldMatch spatialMatch tlist.toList plist.toList rem
    match rem with
    | some (.free level) => do
      let freeMap ← getFreeMap
      let list := Term.eList (.ofList matchedRem) [] false none
      setFreeMap (Function.update freeMap level (some ((Term.vectorPar [] false).withExprs [list])))
    | _ => pure ()
  | .eTuple tlist _ _, .eTuple plist _ _ => do
    let _ ← foldMatch spatialMatch tlist.toList plist.toList none
  | .eSet tlist _ _ _, .eSet plist _ _ rem =>
    listMatchSingle' (component orders spatialMatch .par) (orders.sortedPars tlist.toList) (orders.sortedPars plist.toList)
      (fun p r => p.withExprs [.eSet (.ofList (orders.sortedPars r)) [] false none]) (remainderVar rem)
      (rem == some .wildcard)
  | .eMap tlist _ _ _, .eMap plist _ _ rem =>
    listMatchSingle' (component orders spatialMatch .keyValuePair) (orders.sortedList tlist.toList)
      (orders.sortedList plist.toList)
      (fun p r => p.withExprs [.eMap (.ofList (orders.sortedList r)) [] false none]) (remainderVar rem)
      (rem == some .wildcard)
  | .eVar vp, .eVar vt => guard (vp = vt)
  | .unary .not t, .unary .not p | .unary .neg t, .unary .neg p => spatialMatch t p
  | .binary .mult t1 t2, .binary .mult p1 p2 | .binary .div t1 t2, .binary .div p1 p2
  | .binary .mod t1 t2, .binary .mod p1 p2 | .binary .percentPercent t1 t2, .binary .percentPercent p1 p2
  | .binary .plus t1 t2, .binary .plus p1 p2 | .binary .plusPlus t1 t2, .binary .plusPlus p1 p2
  | .binary .minusMinus t1 t2, .binary .minusMinus p1 p2 => do
    spatialMatch t1 p1
    spatialMatch t2 p2
  | _, _ => failure

def matchTerm : {k : Kind} → Term k → Term k → Matching Unit
  | .par, target, pattern => matchPar orders spatialMatch target pattern
  | .expr, target, pattern => matchExpr orders spatialMatch target pattern
  | .keyValuePair, .keyValuePair tk tv, .keyValuePair pk pv => do
    spatialMatch tk pk
    spatialMatch tv pv
  | .bundle, target, pattern => guard (pattern.eqv target)
  | .send, .send tchan tdata tpersistent _ _, .send pchan pdata ppersistent _ _ => do
    guard (tpersistent = ppersistent)
    spatialMatch tchan pchan
    let _ ← foldMatch spatialMatch tdata.toList pdata.toList none
  | .receive, .receive tbinds tbody tpersistent _ _ _ _ _, .receive pbinds pbody ppersistent _ _ _ _ _ => do
    guard (tpersistent = ppersistent)
    listMatchSingle (component orders spatialMatch .receiveBind) tbinds.toList pbinds.toList
    spatialMatch tbody pbody
  | .new, .new tcount tp _ _ _, .new pcount pp _ _ _ => do
    guard (tcount = pcount)
    spatialMatch tp pp
  | .matchProc, .matchProc ttarget tcases _ _, .matchProc ptarget pcases _ _ => do
    spatialMatch ttarget ptarget
    let _ ← foldMatch spatialMatch tcases.toList pcases.toList none
  | .receiveBind, .receiveBind tpatterns tsource _ _, .receiveBind ppatterns psource _ _ => do
    guard (tpatterns.eqv ppatterns)
    spatialMatch tsource psource
  | .matchCase, .matchCase tpattern tsource _ _, .matchCase ppattern psource _ _ => do
    guard (tpattern.eqv ppattern)
    spatialMatch tsource psource
  | _, _, _ => failure

end

def spatialMatch (orders : Orders) : Nat → {k : Kind} → Term k → Term k → Matching Unit
  | 0, _, _, _ => exhausted
  | fuel + 1, _, target, pattern => matchTerm orders (spatialMatch orders fuel) target pattern

def intoMatchResult (orders : Orders) (fuel : Nat) (target pattern : Par) : Option (Option FreeMap) :=
  ((spatialMatch orders fuel target pattern).run.run newFreeMap).map fun result => result.1.map fun _ => result.2

def matchResult (orders : Orders) (fuel : Nat) (target pattern : Par) : Option (Option FreeMap) :=
  if !pattern.connectiveUsed then some (if target.matchPars pattern then some newFreeMap else none)
  else intoMatchResult orders fuel target pattern

theorem spatialMatch_par (orders : Orders) (fuel : Nat) (target pattern : Par) :
    spatialMatch orders (fuel + 1) target pattern = matchPar orders (spatialMatch orders fuel) target pattern := rfl

theorem intoMatchResult_eq_matchResult (orders : Orders) (fuel : Nat) (target pattern : Par) :
    intoMatchResult orders (fuel + 1) target pattern = matchResult orders (fuel + 1) target pattern := by
  cases hUsed : pattern.connectiveUsed with
  | true => simp [matchResult, hUsed]
  | false =>
    rw [intoMatchResult, spatialMatch_par, matchPar, matchResult, hUsed]
    cases target.matchPars pattern <;> rfl

end F1r3Node.Rholang
