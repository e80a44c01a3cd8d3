import F1r3Node.Rholang.Term

/-! # What a term says about its free variables

Most messages keep their locally free variables and whether they are patterns. The others ask their parts.
-/

namespace F1r3Node.Rholang

def createBitVector (indices : List Nat) : BitSet :=
  (List.range (indices.foldl max 0 + 1)).map fun i => if i ∈ indices then 1 else 0

def union (bitset1 bitset2 : BitSet) : BitSet :=
  (List.range (max bitset1.length bitset2.length)).map fun i => bitset1.getD i 0 ||| bitset2.getD i 0

namespace Var

def connectiveUsed : Var → Bool
  | bound _ => false
  | free _ | wildcard => true

/-- An index is cast to `usize`, so it is taken modulo the width. -/
def locallyFree (depth : Int) : Var → BitSet
  | bound index => if depth = 0 then createBitVector [(index % 2 ^ 64).toNat] else []
  | free _ | wildcard => []

end Var

namespace Term

def locallyFreeCache : Par → BitSet
  | par _ _ _ _ _ _ _ _ _ locallyFree _ => locallyFree

def connectiveUsedFlag : Par → Bool
  | par _ _ _ _ _ _ _ _ _ _ connectiveUsed => connectiveUsed

/-- Whether a connective, a free variable or a wildcard occurs in the term. The messages that have no such
method are given as ones without. -/
def connectiveUsed : {k : Kind} → Term k → Bool
  | _, par _ _ _ _ _ _ _ _ _ _ connectiveUsed => connectiveUsed
  | _, send _ _ _ _ connectiveUsed => connectiveUsed
  | _, receive _ _ _ _ _ _ _ connectiveUsed => connectiveUsed
  | _, receiveBind _ source _ _ => source.connectiveUsedFlag
  | _, new _ p _ _ _ => p.connectiveUsedFlag
  | _, matchProc _ _ _ connectiveUsed => connectiveUsed
  | _, matchCase _ source _ _ => source.connectiveUsedFlag
  | _, keyValuePair key value => key.connectiveUsedFlag || value.connectiveUsedFlag
  | _, eVar v => v.connectiveUsed
  | _, unary _ p => p.connectiveUsedFlag
  | _, binary _ p1 p2 => p1.connectiveUsedFlag || p2.connectiveUsedFlag
  | _, eList _ _ connectiveUsed _ => connectiveUsed
  | _, eTuple _ _ connectiveUsed => connectiveUsed
  | _, eSet _ _ connectiveUsed _ => connectiveUsed
  | _, eMap _ _ connectiveUsed _ => connectiveUsed
  | _, ePathMap (pathMap _ _ connectiveUsed _) => connectiveUsed
  | _, eZipper _ _ _ _ connectiveUsed => connectiveUsed
  | _, eMethod _ _ _ _ connectiveUsed => connectiveUsed
  | _, eMatches target _ => target.connectiveUsedFlag
  | _, connAnd _ | _, connOr _ | _, connNot _ | _, connType _ _ => true
  | _, _ => false

@[simp] theorem connectiveUsed_par {s r n e m u b c i l f} :
    (par s r n e m u b c i l f).connectiveUsed = f := rfl

/-- The variables locally free in the term when it stands at pattern nesting `depth`. -/
def locallyFree (depth : Int) : {k : Kind} → Term k → BitSet
  | _, par _ _ _ _ _ _ _ _ _ locallyFree _ => locallyFree
  | _, send _ _ _ locallyFree _ => locallyFree
  | _, receive _ _ _ _ _ _ locallyFree _ => locallyFree
  | _, receiveBind patterns source _ _ =>
    union source.locallyFreeCache (patterns.toList.foldl (fun acc pattern => union acc pattern.locallyFreeCache) [])
  | _, new _ _ _ _ locallyFree => locallyFree
  | _, matchProc _ _ locallyFree _ => locallyFree
  | _, matchCase pattern source _ _ => union source.locallyFreeCache pattern.locallyFreeCache
  | _, bundle body _ _ => body.locallyFreeCache
  | _, keyValuePair key value => union key.locallyFreeCache value.locallyFreeCache
  | _, eVar v => v.locallyFree depth
  | _, unary _ p => p.locallyFreeCache
  | _, binary _ p1 p2 => union p1.locallyFreeCache p2.locallyFreeCache
  | _, eList _ locallyFree _ _ => locallyFree
  | _, eTuple _ locallyFree _ => locallyFree
  | _, eSet _ locallyFree _ _ => locallyFree
  | _, eMap _ locallyFree _ _ => locallyFree
  | _, ePathMap (pathMap _ locallyFree _ _) => locallyFree
  | _, eZipper _ _ _ locallyFree _ => locallyFree
  | _, eMethod _ _ _ locallyFree _ => locallyFree
  | _, eMatches target _ => target.locallyFreeCache
  | _, varRef index varDepth => if depth = varDepth then createBitVector [(index % 2 ^ 64).toNat] else []
  | _, _ => []

end Term

end F1r3Node.Rholang
