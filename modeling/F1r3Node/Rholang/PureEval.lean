import F1r3Node.Lib.Fuelled
import F1r3Node.Rholang.Substitute
import Mathlib.Data.String.Basic

/-! # The evaluator of guards

A variable is looked up and its value evaluated again, so the recursion goes by fuel.
-/

namespace F1r3Node.Rholang

open F1r3Node.Lib Term

def inRange (i : Int) : Bool := decide (-2 ^ 63 ≤ i) && decide (i < 2 ^ 63)

def checkedNeg (a : Int64) : Option Int64 := if inRange (-a.toInt) then some (-a) else none
def checkedAdd (a b : Int64) : Option Int64 := if inRange (a.toInt + b.toInt) then some (a + b) else none
def checkedSub (a b : Int64) : Option Int64 := if inRange (a.toInt - b.toInt) then some (a - b) else none
def checkedMul (a b : Int64) : Option Int64 := if inRange (a.toInt * b.toInt) then some (a * b) else none

def quotientOverflows (a b : Int64) : Bool := a == Int64.minValue && b == -1

def checkedDiv (a b : Int64) : Option Int64 := if b == 0 || quotientOverflows a b then none else some (a / b)
def checkedRem (a b : Int64) : Option Int64 := if b == 0 || quotientOverflows a b then none else some (a % b)

/-- `f64::from_bits(bits).is_nan()`. -/
def isNanDouble (bits : UInt64) : Bool := 0x7ff0000000000000 < bits &&& 0x7fffffffffffffff

/-- `f32::from_bits(bits).is_nan()`. -/
def isNanFloat32 (bits : UInt32) : Bool := 0x7f800000 < bits &&& 0x7fffffff

namespace Term

def parContainsNanDouble : {k : Kind} → Term k → Bool
  | _, par _ _ _ exprs _ _ _ _ _ _ _ => exprs.parContainsNanDouble
  | _, cons head tail => head.parContainsNanDouble || tail.parContainsNanDouble
  | _, ground (.gDouble bits) => isNanDouble bits
  | _, ground (.gFloat32 bits) => isNanFloat32 bits
  | _, eList ps _ _ _ => ps.parContainsNanDouble
  | _, eTuple ps _ _ => ps.parContainsNanDouble
  | _, eSet ps _ _ _ => ps.parContainsNanDouble
  | _, eMap kvs _ _ _ => kvs.parContainsNanDouble
  | _, keyValuePair key value => key.parContainsNanDouble || value.parContainsNanDouble
  | _, _ => false

/-- `clone_with_exprs`. -/
def cloneWithExprs (newExprs : List Expr) : Par → Par
  | par sends receives news _ matchProcs unforgeables bundles connectives conditionals locallyFree connectiveUsed =>
    par sends receives news (ofList newExprs) matchProcs unforgeables bundles connectives conditionals locallyFree
      connectiveUsed

end Term

namespace PureEval

inductive EvalError
  | unboundVariable (index : Int)
  | operatorTypeMismatch (op left : String) (right : Option String)
  | divisionByZero
  | arithmeticOverflow (op : String)
  | unsupportedExpression (kind : String)
  | missingExprInstance
  | notASingleValue (actual : Par)

def unionBytes (a b : BitSet) : BitSet :=
  (a ++ List.replicate (b.length - a.length) 0).zipIdx.map fun (byte, i) => byte ||| b.getD i 0

def concatenate : Par → Par → Par
  | par sends receives news exprs matchProcs unforgeables bundles connectives conditionals locallyFree connectiveUsed,
    par sends' receives' news' exprs' matchProcs' unforgeables' bundles' connectives' conditionals' locallyFree'
      connectiveUsed' =>
    par (sends.append sends') (receives.append receives') (news.append news') (exprs.append exprs')
      (matchProcs.append matchProcs') (unforgeables ++ unforgeables') (bundles.append bundles')
      (connectives.append connectives') (conditionals.append conditionals') (unionBytes locallyFree locallyFree')
      (connectiveUsed || connectiveUsed')

def typeName : Expr → String
  | .ground (.gBool _) => "Bool"
  | .ground (.gInt _) => "Int"
  | .ground (.gUint64 _) => "UInt64"
  | .ground (.gInt32 _) => "Int32"
  | .ground (.gUint32 _) => "UInt32"
  | .ground (.gUint16 _) => "UInt16"
  | .ground (.gUint8 _) => "UInt8"
  | .ground (.gBigInt _) => "BigInt"
  | .ground (.gBigRat _ _) => "BigRat"
  | .ground (.gFixedPoint _ _) => "FixedPoint"
  | .ground (.gString _) => "String"
  | .ground (.gUri _) => "Uri"
  | .ground (.gByteArray _) => "ByteArray"
  | .ground (.gDouble _) => "Double"
  | .ground (.gFloat32 _) => "Float32"
  | .eList .. => "List"
  | .eTuple .. => "Tuple"
  | .eSet .. => "Set"
  | .eMap .. => "Map"
  | .eVar _ => "EVar"
  | _ => "Expr"

def operatorMismatchUnary (op : String) (e : Expr) : EvalError := .operatorTypeMismatch op (typeName e) none

def operatorMismatchBinary (op : String) (a b : Expr) : EvalError :=
  .operatorTypeMismatch op (typeName a) (some (typeName b))

def resolveVar (v : Var) (env : Env) : Except EvalError Par :=
  match v with
  | .bound index => (env.get index).elim (.error (.unboundVariable index)) .ok
  | .free level => .error (.unboundVariable level)
  | .wildcard => .error .missingExprInstance

def singleExprInstance (p : Par) : Except EvalError Expr :=
  if p.sends.isEmpty && p.receives.isEmpty && p.news.isEmpty && p.matchProcs.isEmpty && p.bundles.isEmpty &&
      p.unforgeables.isEmpty && p.connectives.isEmpty && p.conditionals.isEmpty then
    match p.exprs with
    | [e] => .ok e
    | _ => .error (.notASingleValue p)
  else .error (.notASingleValue p)

def parWithBool (b : Bool) : Par := ofExpr (ground (.gBool b))
def parWithInt (i : Int64) : Par := ofExpr (ground (.gInt i))

/-- `Ordering as i8`. -/
def orderValue : Ordering → Int
  | .lt => -1
  | .eq => 0
  | .gt => 1

section

variable (eval : Par → Steps EvalError Par)

/-- `single_expr_instance(&eval(p, env)?)?`. -/
def evalSingle (p : Par) : Steps EvalError Expr := do
  let evaled ← eval p
  singleExprInstance evaled

def boolBinop (op : String) (p1 p2 : Par) (f : Bool → Bool → Bool) : Steps EvalError Par := do
  let v1 ← evalSingle eval p1
  let v2 ← evalSingle eval p2
  match v1, v2 with
  | .ground (.gBool b1), .ground (.gBool b2) => return parWithBool (f b1 b2)
  | v1, v2 => throw (operatorMismatchBinary op v1 v2)

def eqBinop (p1 p2 : Par) (expectEq : Bool) : Steps EvalError Par := do
  let lhs ← eval p1
  let rhs ← eval p2
  let eq := if lhs.parContainsNanDouble || rhs.parContainsNanDouble then false else lhs.eqv rhs
  return parWithBool (if expectEq then eq else !eq)

def cmpBinop (op : String) (p1 p2 : Par) (interpret : Int → Bool) : Steps EvalError Par := do
  let v1 ← evalSingle eval p1
  let v2 ← evalSingle eval p2
  match v1, v2 with
  | .ground (.gInt i1), .ground (.gInt i2) =>
    return parWithBool (interpret (orderValue (compare i1.toInt i2.toInt)))
  | .ground (.gString s1), .ground (.gString s2) => return parWithBool (interpret (orderValue (compare s1 s2)))
  | .ground (.gBool b1), .ground (.gBool b2) => return parWithBool (interpret (orderValue (compare b1 b2)))
  | v1, v2 => throw (operatorMismatchBinary op v1 v2)

def intBinopChecked (op : String) (p1 p2 : Par) (f : Int64 → Int64 → Option Int64) : Steps EvalError Par := do
  let v1 ← evalSingle eval p1
  let v2 ← evalSingle eval p2
  match v1, v2 with
  | .ground (.gInt i1), .ground (.gInt i2) =>
    match f i1 i2 with
    | some i => return parWithInt i
    | none => throw (.arithmeticOverflow op)
  | v1, v2 => throw (operatorMismatchBinary op v1 v2)

def intDivOrMod (op : String) (p1 p2 : Par) (f : Int64 → Int64 → Option Int64) : Steps EvalError Par := do
  let v1 ← evalSingle eval p1
  let v2 ← evalSingle eval p2
  match v1, v2 with
  | .ground (.gInt i1), .ground (.gInt i2) =>
    if i2 == 0 then throw .divisionByZero
    else
      match f i1 i2 with
      | some i => return parWithInt i
      | none => throw (.arithmeticOverflow op)
  | v1, v2 => throw (operatorMismatchBinary op v1 v2)

/-- `eval_expr_to_par`, with `eval` for the processes in it. -/
def evalExprToPar (env : Env) : Expr → Steps EvalError Par
  | .ground value => return ofExpr (ground value)
  -- collections pass through with their elements as they are
  | .eList ps locallyFree connectiveUsed remainder => return ofExpr (eList ps locallyFree connectiveUsed remainder)
  | .eTuple ps locallyFree connectiveUsed => return ofExpr (eTuple ps locallyFree connectiveUsed)
  | .eSet ps locallyFree connectiveUsed remainder => return ofExpr (eSet ps locallyFree connectiveUsed remainder)
  | .eMap kvs locallyFree connectiveUsed remainder => return ofExpr (eMap kvs locallyFree connectiveUsed remainder)
  | .eVar v => do
    let p ← resolveVar v env
    eval p
  | .unary .not p => do
    match ← evalSingle eval p with
    | .ground (.gBool b) => return parWithBool !b
    | other => throw (operatorMismatchUnary "!" other)
  | .unary .neg p => do
    match ← evalSingle eval p with
    | .ground (.gInt i) =>
      match checkedNeg i with
      | some i => return parWithInt i
      | none => throw (.arithmeticOverflow "-")
    | other => throw (operatorMismatchUnary "-" other)
  | .binary .and p1 p2 => boolBinop eval "&&" p1 p2 fun a b => a && b
  | .binary .or p1 p2 => boolBinop eval "||" p1 p2 fun a b => a || b
  | .binary .eq p1 p2 => eqBinop eval p1 p2 true
  | .binary .neq p1 p2 => eqBinop eval p1 p2 false
  | .binary .lt p1 p2 => cmpBinop eval "<" p1 p2 (· == -1)
  | .binary .lte p1 p2 => cmpBinop eval "<=" p1 p2 (· ≤ 0)
  | .binary .gt p1 p2 => cmpBinop eval ">" p1 p2 (· == 1)
  | .binary .gte p1 p2 => cmpBinop eval ">=" p1 p2 (· ≥ 0)
  | .binary .plus p1 p2 => intBinopChecked eval "+" p1 p2 checkedAdd
  | .binary .minus p1 p2 => intBinopChecked eval "-" p1 p2 checkedSub
  | .binary .mult p1 p2 => intBinopChecked eval "*" p1 p2 checkedMul
  | .binary .div p1 p2 => intDivOrMod eval "/" p1 p2 checkedDiv
  | .binary .mod p1 p2 => intDivOrMod eval "%" p1 p2 checkedRem
  | .eMethod .. => throw (.unsupportedExpression "EMethodBody")
  | .eMatches .. => throw (.unsupportedExpression "EMatchesBody")
  | .binary .percentPercent _ _ => throw (.unsupportedExpression "EPercentPercentBody")
  | .binary .plusPlus _ _ => throw (.unsupportedExpression "EPlusPlusBody")
  | .binary .minusMinus _ _ => throw (.unsupportedExpression "EMinusMinusBody")
  | .ePathMap .. => throw (.unsupportedExpression "EPathmapBody")
  | .eZipper .. => throw (.unsupportedExpression "EZipperBody")

end

def eval (env : Env) : Nat → Par → Steps EvalError Par
  | 0, _ => none
  | fuel + 1, p =>
    p.exprs.foldlM (fun acc expr => do
      let evaled ← evalExprToPar (eval env fuel) env expr
      return concatenate acc evaled) (p.cloneWithExprs [])

end PureEval

end F1r3Node.Rholang
