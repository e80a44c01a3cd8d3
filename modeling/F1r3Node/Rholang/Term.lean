import F1r3Node.Shared.Bytes

/-! # Rholang terms

Lists and optional terms are kinds of their own, so that one recursion goes through every message. A field that every
normalized term has is not optional. Indices, levels and counts are integers.
-/

namespace F1r3Node.Rholang

open F1r3Node.Shared

abbrev BitSet := List UInt8

inductive Var
  | bound (index : Int)
  | free (level : Int)
  | wildcard
  deriving DecidableEq

inductive GUnforgeable
  | gPrivate (id : Bytes)
  | gDeployId (sig : Bytes)
  | gDeployerId (publicKey : Bytes)
  | gSysAuthToken
  deriving DecidableEq

inductive Ground
  | gBool (value : Bool)
  | gInt (value : Int64)
  | gString (value : String)
  | gUri (value : String)
  | gByteArray (value : Bytes)
  | gDouble (bits : UInt64)
  | gBigInt (value : Bytes)
  | gBigRat (numerator denominator : Bytes)
  | gFixedPoint (unscaled : Bytes) (scale : UInt32)
  | gUint64 (value : UInt64)
  | gFloat32 (bits : UInt32)
  | gInt32 (value : Int32)
  | gUint32 (value : UInt32)
  | gUint16 (value : UInt32)
  | gUint8 (value : UInt32)
  deriving DecidableEq

inductive BinaryOp
  | mult | div | mod | plus | minus | lt | lte | gt | gte | eq | neq | and | or | percentPercent | plusPlus | minusMinus
  deriving DecidableEq
inductive UnaryOp | not | neg deriving DecidableEq
inductive ConnType | bool | int | string | uri | byteArray deriving DecidableEq

inductive Kind
  | par | send | receive | receiveBind | new | injection | matchProc | matchCase | bundle | conditional | expr | pathMap
  | keyValuePair | connective
  | option (k : Kind)
  | list (k : Kind)
  deriving DecidableEq

inductive Term : Kind → Type
  | nil {k : Kind} : Term (.list k)
  | cons {k : Kind} (head : Term k) (tail : Term (.list k)) : Term (.list k)
  | absent {k : Kind} : Term (.option k)
  | present {k : Kind} (value : Term k) : Term (.option k)
  | par (sends : Term (.list .send)) (receives : Term (.list .receive)) (news : Term (.list .new))
      (exprs : Term (.list .expr)) (matchProcs : Term (.list .matchProc)) (unforgeables : List GUnforgeable)
      (bundles : Term (.list .bundle)) (connectives : Term (.list .connective))
      (conditionals : Term (.list .conditional)) (locallyFree : BitSet) (connectiveUsed : Bool) : Term .par
  | send (chan : Term .par) (data : Term (.list .par)) (persistent : Bool) (locallyFree : BitSet)
      (connectiveUsed : Bool) : Term .send
  | receiveBind (patterns : Term (.list .par)) (source : Term .par) (remainder : Option Var) (freeCount : Int) :
      Term .receiveBind
  | receive (binds : Term (.list .receiveBind)) (body : Term .par) (persistent peek : Bool) (bindCount : Int)
      (condition : Term (.option .par)) (locallyFree : BitSet) (connectiveUsed : Bool) : Term .receive
  | injection (name : String) (value : Term .par) : Term .injection
  | new (bindCount : Int) (p : Term .par) (uri : List String) (injections : Term (.list .injection))
      (locallyFree : BitSet) : Term .new
  | matchCase (pattern source : Term .par) (freeCount : Int) (guard : Term (.option .par)) : Term .matchCase
  | matchProc (target : Term .par) (cases : Term (.list .matchCase)) (locallyFree : BitSet) (connectiveUsed : Bool) :
      Term .matchProc
  | conditional (condition ifTrue ifFalse : Term .par) (locallyFree : BitSet) (connectiveUsed : Bool) :
      Term .conditional
  | bundle (body : Term .par) (writeFlag readFlag : Bool) : Term .bundle
  | ground (value : Ground) : Term .expr
  | eVar (v : Var) : Term .expr
  | unary (op : UnaryOp) (p : Term .par) : Term .expr
  | binary (op : BinaryOp) (p1 p2 : Term .par) : Term .expr
  | eList (ps : Term (.list .par)) (locallyFree : BitSet) (connectiveUsed : Bool) (remainder : Option Var) : Term .expr
  | eTuple (ps : Term (.list .par)) (locallyFree : BitSet) (connectiveUsed : Bool) : Term .expr
  | eSet (ps : Term (.list .par)) (locallyFree : BitSet) (connectiveUsed : Bool) (remainder : Option Var) : Term .expr
  | eMap (kvs : Term (.list .keyValuePair)) (locallyFree : BitSet) (connectiveUsed : Bool) (remainder : Option Var) :
      Term .expr
  | keyValuePair (key value : Term .par) : Term .keyValuePair
  | pathMap (ps : Term (.list .par)) (locallyFree : BitSet) (connectiveUsed : Bool) (remainder : Option Var) :
      Term .pathMap
  | ePathMap (pathmap : Term .pathMap) : Term .expr
  | eZipper (pathmap : Term .pathMap) (currentPath : List Bytes) (isWriteZipper : Bool) (locallyFree : BitSet)
      (connectiveUsed : Bool) : Term .expr
  | eMethod (methodName : String) (target : Term .par) (arguments : Term (.list .par)) (locallyFree : BitSet)
      (connectiveUsed : Bool) : Term .expr
  | eMatches (target pattern : Term .par) : Term .expr
  | connAnd (ps : Term (.list .par)) : Term .connective
  | connOr (ps : Term (.list .par)) : Term .connective
  | connNot (p : Term .par) : Term .connective
  | varRef (index depth : Int) : Term .connective
  | connType (type : ConnType) (flag : Bool) : Term .connective

abbrev Par := Term .par
abbrev Send := Term .send
abbrev Receive := Term .receive
abbrev ReceiveBind := Term .receiveBind
abbrev New := Term .new
abbrev MatchProc := Term .matchProc
abbrev MatchCase := Term .matchCase
abbrev Bundle := Term .bundle
abbrev Conditional := Term .conditional
abbrev Expr := Term .expr
abbrev Connective := Term .connective

namespace Term

/-- What `toList` gives at each kind. -/
def Elems : Kind → Type
  | .list k => List (Term k)
  | _ => Unit

def elems : {k : Kind} → Term k → Elems k
  | .list _, nil => []
  | .list _, cons head tail => head :: elems tail
  | .option _, _ | .par, _ | .send, _ | .receive, _ | .receiveBind, _ | .new, _ | .injection, _ | .matchProc, _
  | .matchCase, _ | .bundle, _ | .conditional, _ | .expr, _ | .pathMap, _ | .keyValuePair, _ | .connective, _ => ()

def toList {k : Kind} (ts : Term (.list k)) : List (Term k) := elems ts

variable {k : Kind}

@[simp] theorem toList_nil : (nil : Term (.list k)).toList = [] := rfl

@[simp] theorem toList_cons (head : Term k) (tail : Term (.list k)) :
    (cons head tail).toList = head :: tail.toList := rfl

def ofList {k : Kind} : List (Term k) → Term (.list k)
  | [] => nil
  | head :: tail => cons head (ofList tail)

@[simp] theorem toList_ofList (ts : List (Term k)) : (ofList ts).toList = ts := by
  induction ts with
  | nil => rfl
  | cons head tail ih => simp [ofList, ih]

@[simp] theorem ofList_toList : (ts : Term (.list k)) → ofList ts.toList = ts
  | nil => rfl
  | cons head tail => congrArg (cons head) (ofList_toList tail)

theorem toList_eq_nil_iff {ts : Term (.list k)} : ts.toList = [] ↔ ts = nil := by
  cases ts <;> simp

theorem ofList_injective : Function.Injective (ofList : List (Term k) → Term (.list k)) :=
  Function.LeftInverse.injective toList_ofList

def sends : Par → List Send
  | par sends .. => sends.toList

def receives : Par → List Receive
  | par _ receives .. => receives.toList

def news : Par → List New
  | par _ _ news .. => news.toList

def exprs : Par → List Expr
  | par _ _ _ exprs .. => exprs.toList

def matchProcs : Par → List MatchProc
  | par _ _ _ _ matchProcs .. => matchProcs.toList

def unforgeables : Par → List GUnforgeable
  | par _ _ _ _ _ unforgeables .. => unforgeables

def bundles : Par → List Bundle
  | par _ _ _ _ _ _ bundles .. => bundles.toList

def connectives : Par → List Connective
  | par _ _ _ _ _ _ _ connectives .. => connectives.toList

def conditionals : Par → List Conditional
  | par _ _ _ _ _ _ _ _ conditionals .. => conditionals.toList

def ofSlots (sends : List Send) (receives : List Receive) (news : List New) (exprs : List Expr)
    (matchProcs : List MatchProc) (unforgeables : List GUnforgeable) (bundles : List Bundle) : Par :=
  par (ofList sends) (ofList receives) (ofList news) (ofList exprs) (ofList matchProcs) unforgeables (ofList bundles)
    nil nil [] false

/-- `Par::default()`. -/
def emptyPar : Par := ofSlots [] [] [] [] [] [] []

def ofExpr (expr : Expr) : Par := ofSlots [] [] [] [expr] [] [] []

section

variable (sends : List Send) (receives : List Receive) (news : List New) (exprs : List Expr)
  (matchProcs : List MatchProc) (unforgeables : List GUnforgeable) (bundles : List Bundle)

@[simp] theorem sends_ofSlots :
    (ofSlots sends receives news exprs matchProcs unforgeables bundles).sends = sends := toList_ofList sends

@[simp] theorem receives_ofSlots :
    (ofSlots sends receives news exprs matchProcs unforgeables bundles).receives = receives := toList_ofList receives

@[simp] theorem news_ofSlots :
    (ofSlots sends receives news exprs matchProcs unforgeables bundles).news = news := toList_ofList news

@[simp] theorem exprs_ofSlots :
    (ofSlots sends receives news exprs matchProcs unforgeables bundles).exprs = exprs := toList_ofList exprs

@[simp] theorem matchProcs_ofSlots :
    (ofSlots sends receives news exprs matchProcs unforgeables bundles).matchProcs = matchProcs :=
  toList_ofList matchProcs

@[simp] theorem unforgeables_ofSlots :
    (ofSlots sends receives news exprs matchProcs unforgeables bundles).unforgeables = unforgeables := rfl

@[simp] theorem bundles_ofSlots :
    (ofSlots sends receives news exprs matchProcs unforgeables bundles).bundles = bundles := toList_ofList bundles

end

def onlySlots (p : Par) : Par :=
  ofSlots p.sends p.receives p.news p.exprs p.matchProcs p.unforgeables p.bundles

end Term

end F1r3Node.Rholang
