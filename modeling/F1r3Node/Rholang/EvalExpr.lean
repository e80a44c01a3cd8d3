import F1r3Node.Rholang.PureEval

/-! # The expressions of the reducer

The arithmetic of the number kinds other than `GInt`, what is added to or taken from a collection, and the expressions
that are neither operators nor literals are parameters. Nothing is charged.
-/

namespace F1r3Node.Rholang

open F1r3Node.Lib Term

/-- The errors of the reducer. Those that show terms in their text carry the terms. -/
inductive InterpreterError
  | reduceError (message : String)
  | unboundVariable (level : Int) (env : Env)
  | unexpectedCompare (v1 v2 : Expr)
  | operatorNotDefined (op otherType : String)
  | operatorExpectedError (op expected otherType : String)
  | substituteError (term : Var)

structure Reducer where
  sorter : Sorter
  /-- The operators on two numbers of one kind that is not `GInt`. -/
  numbers : BinaryOp → Ground → Ground → Except InterpreterError Ground
  negate : Ground → Except InterpreterError Ground
  /-- The `add` and `delete` methods on an evaluated collection. -/
  collections : BinaryOp → Expr → Expr → Expr
  /-- `%%`, `++` and `--` on evaluated operands. -/
  concatenations : BinaryOp → Expr → Expr → Except InterpreterError Expr
  /-- The expressions that are neither operators nor literals. -/
  others : Expr → Env → Except InterpreterError Expr
  method : Expr → Env → Except InterpreterError Par

def getType : Expr → String
  | .ground (.gBool _) => "bool"
  | .ground (.gInt _) => "int"
  | .ground (.gUint64 _) => "uint64"
  | .ground (.gInt32 _) => "int32"
  | .ground (.gUint32 _) => "uint32"
  | .ground (.gUint16 _) => "uint16"
  | .ground (.gUint8 _) => "uint8"
  | .ground (.gDouble _) => "float"
  | .ground (.gFloat32 _) => "float32"
  | .ground (.gBigInt _) => "bigint"
  | .ground (.gBigRat _ _) => "bigrat"
  | .ground (.gFixedPoint _ _) => "fixedpoint"
  | .ground (.gString _) => "string"
  | .ground (.gUri _) => "uri"
  | .ground (.gByteArray _) => "byte array"
  | .unary .not _ => "enot"
  | .unary .neg _ => "eneg"
  | .binary .mult _ _ => "mult"
  | .binary .div _ _ => "div"
  | .binary .mod _ _ => "mod"
  | .binary .plus _ _ => "plus"
  | .binary .minus _ _ => "minus"
  | .binary .lt _ _ => "elt"
  | .binary .lte _ _ => "elte"
  | .binary .gt _ _ => "egt"
  | .binary .gte _ _ => "egte"
  | .binary .eq _ _ => "eeq"
  | .binary .neq _ _ => "eneq"
  | .binary .and _ _ => "eand"
  | .binary .or _ _ => "eor"
  | .binary .percentPercent _ _ => "epercent percent"
  | .binary .plusPlus _ _ => "plus plus"
  | .binary .minusMinus _ _ => "minus minus"
  | .eVar _ => "evar"
  | .eList .. => "list"
  | .eTuple .. => "tuple"
  | .eSet .. => "set"
  | .eMap .. => "map"
  | .ePathMap _ => "pathmap"
  | .eZipper .. => "zipper"
  | .eMethod .. => "emethod"
  | .eMatches .. => "ematches"

/-- Two numbers of one kind that is not `GInt`. -/
def isNumberPair : Ground → Ground → Bool
  | .gUint64 _, .gUint64 _ | .gInt32 _, .gInt32 _ | .gUint32 _, .gUint32 _ | .gUint16 _, .gUint16 _
  | .gUint8 _, .gUint8 _ | .gDouble _, .gDouble _ | .gFloat32 _, .gFloat32 _ | .gBigInt _, .gBigInt _
  | .gBigRat _ _, .gBigRat _ _ | .gFixedPoint _ _, .gFixedPoint _ _ => true
  | _, _ => false

/-- What stands to the left of `+` and `-` with the expectation of a number to the right. -/
def isNumber : Expr → Bool
  | .ground (.gInt _) => true
  | .ground g => isNumberPair g g
  | _ => false

/-- The numbers other than `GInt` that have a negation: the unsigned ones have none. -/
def isNegatable : Ground → Bool
  | .gInt32 _ | .gDouble _ | .gFloat32 _ | .gBigInt _ | .gBigRat _ _ | .gFixedPoint _ _ => true
  | _ => false

def evalVar (v : Var) (env : Env) : Except InterpreterError Par :=
  match v with
  | .bound level => (env.get level).elim (.error (.unboundVariable level env)) .ok
  | .wildcard | .free _ => .error (.reduceError "Unbound variable: attempting to evaluate a pattern")

/-- The bytes of one kind of component are put behind each other before they are joined with the rest. -/
def updateLocallyFreePar : Par → Par
  | par sends receives news exprs matchProcs unforgeables bundles connectives conditionals _ connectiveUsed =>
    let locallyFree := union [] (sends.toList.flatMap (Term.locallyFree 0))
    let locallyFree := union locallyFree (receives.toList.flatMap (Term.locallyFree 0))
    let locallyFree := union locallyFree (news.toList.flatMap (Term.locallyFree 0))
    let locallyFree := union locallyFree (exprs.toList.flatMap (Term.locallyFree 0))
    let locallyFree := union locallyFree (matchProcs.toList.flatMap (Term.locallyFree 0))
    let locallyFree := union locallyFree (bundles.toList.flatMap (Term.locallyFree 0))
    par sends receives news exprs matchProcs unforgeables bundles connectives conditionals locallyFree connectiveUsed

/-- The cache that `update_locally_free_elist` and `update_locally_free_etuple` give a collection. -/
def elementsLocallyFree (ps : List Par) : BitSet := ps.foldl (fun acc p => union acc p.locallyFreeCache) []

namespace Reducer

variable (r : Reducer)

def arithmeticMismatch (symbol : String) (v1 v2 : Expr) : InterpreterError :=
  if getType v1 == getType v2 then .operatorNotDefined symbol (getType v1)
  else .operatorExpectedError symbol (getType v1) (getType v2)

/-- `*`, `/` and `%` on evaluated operands. -/
def arithmetic (op : BinaryOp) (symbol : String) (ints : Int64 → Int64 → Except InterpreterError Int64)
    (v1 v2 : Expr) : Except InterpreterError Expr :=
  match v1, v2 with
  | .ground (.gInt lhs), .ground (.gInt rhs) => do
    let result ← ints lhs rhs
    return ground (.gInt result)
  | .ground lhs, .ground rhs =>
    if isNumberPair lhs rhs then do
      let result ← r.numbers op lhs rhs
      return ground result
    else .error (arithmeticMismatch symbol (ground lhs) (ground rhs))
  | lhs, rhs => .error (arithmeticMismatch symbol lhs rhs)

def multiply (lhs rhs : Int64) : Except InterpreterError Int64 :=
  match checkedMul lhs rhs with
  | some result => .ok result
  | none => .error (.reduceError s!"Arithmetic overflow in multiplication: {lhs} * {rhs}")

def divide (lhs rhs : Int64) : Except InterpreterError Int64 :=
  if rhs == 0 then .error (.reduceError "Division by zero")
  else if quotientOverflows lhs rhs then .error (.reduceError "Arithmetic overflow in division")
  else .ok (lhs / rhs)

def modulo (lhs rhs : Int64) : Except InterpreterError Int64 :=
  if rhs == 0 then .error (.reduceError "Modulo by zero")
  else if quotientOverflows lhs rhs then .error (.reduceError "Arithmetic overflow in modulo")
  else .ok (lhs % rhs)

def sumMismatch (symbol : String) (v1 v2 : Expr) : InterpreterError :=
  if isNumber v1 then .operatorExpectedError symbol "matching numeric types" (getType v2)
  else .operatorNotDefined symbol (getType v1)

/-- `+` and `-` on evaluated operands. -/
def sumOrDifference (op : BinaryOp) (symbol : String) (wrapping : Int64 → Int64 → Int64) (takes : Expr → Bool)
    (v1 v2 : Expr) : Except InterpreterError Expr :=
  match v1, v2 with
  | .ground (.gInt lhs), .ground (.gInt rhs) => .ok (ground (.gInt (wrapping lhs rhs)))
  | .ground lhs, .ground rhs =>
    if isNumberPair lhs rhs then do
      let result ← r.numbers op lhs rhs
      return ground result
    else .error (sumMismatch symbol (ground lhs) (ground rhs))
  | lhs, rhs => if takes lhs then .ok (r.collections op lhs rhs) else .error (sumMismatch symbol lhs rhs)

def takesElement : Expr → Bool
  | .eSet .. => true
  | _ => false

def givesElement : Expr → Bool
  | .eSet .. | .eMap .. => true
  | _ => false

def plus : Expr → Expr → Except InterpreterError Expr :=
  r.sumOrDifference .plus "+" (fun lhs rhs => lhs + rhs) takesElement

def minus : Expr → Expr → Except InterpreterError Expr :=
  r.sumOrDifference .minus "-" (fun lhs rhs => lhs - rhs) givesElement

/-- The closure `relop` on evaluated operands. -/
def relop (op : BinaryOp) (relopb : Bool → Bool → Bool) (relopi : Int64 → Int64 → Bool)
    (relops : String → String → Bool) (v1 v2 : Expr) : Except InterpreterError Expr :=
  match v1, v2 with
  | .ground (.gBool b1), .ground (.gBool b2) => .ok (ground (.gBool (relopb b1 b2)))
  | .ground (.gInt i1), .ground (.gInt i2) => .ok (ground (.gBool (relopi i1 i2)))
  | .ground (.gString s1), .ground (.gString s2) => .ok (ground (.gBool (relops s1 s2)))
  | .ground lhs, .ground rhs =>
    if isNumberPair lhs rhs then do
      let result ← r.numbers op lhs rhs
      return ground result
    else .error (.unexpectedCompare (ground lhs) (ground rhs))
  | v1, v2 => .error (.unexpectedCompare v1 v2)

def applyToExprs : BinaryOp → Expr → Expr → Except InterpreterError Expr
  | .mult => r.arithmetic .mult "*" multiply
  | .div => r.arithmetic .div "/" divide
  | .mod => r.arithmetic .mod "%" modulo
  | .plus => r.plus
  | .minus => r.minus
  | .lt => r.relop .lt (fun b1 b2 => !b1 && b2) (fun i1 i2 => i1 < i2) fun s1 s2 => s1 < s2
  | .lte => r.relop .lte (fun b1 b2 => b1 ≤ b2) (fun i1 i2 => i1 ≤ i2) fun s1 s2 => s1 ≤ s2
  | .gt => r.relop .gt (fun b1 b2 => b1 && !b2) (fun i1 i2 => i1 > i2) fun s1 s2 => s1 > s2
  | .gte => r.relop .gte (fun b1 b2 => b1 ≥ b2) (fun i1 i2 => i1 ≥ i2) fun s1 s2 => s1 ≥ s2
  | op => r.concatenations op

def negation : Expr → Except InterpreterError Expr
  | .ground (.gInt i) =>
    match checkedNeg i with
    | some result => .ok (ground (.gInt result))
    | none => .error (.reduceError "Arithmetic overflow in negation")
  | .ground g =>
    if isNegatable g then do
      let result ← r.negate g
      return ground result
    else .error (.operatorNotDefined "neg" (getType (ground g)))
  | other => .error (.operatorNotDefined "neg" (getType other))

/-- The calls of one evaluation, with the fuel that is left. -/
structure Calls where
  evalExpr : Par → Steps InterpreterError Par
  evalSingleExpr : Par → Steps InterpreterError Expr
  evalToBool : Par → Steps InterpreterError Bool
  /-- `substitute_and_charge` at depth 0. -/
  substituteAndCharge : Par → Steps InterpreterError Par

section

variable (calls : Calls) (env : Env)

def evalEquality (p1 p2 : Par) : Steps InterpreterError Bool := do
  let v1 ← calls.evalExpr p1
  let v2 ← calls.evalExpr p2
  let sv1 ← calls.substituteAndCharge v1
  let sv2 ← calls.substituteAndCharge v2
  return if sv1.parContainsNanDouble || sv2.parContainsNanDouble then false else sv1.eqv sv2

def evalElements (ps : List Par) : Steps InterpreterError (List Par) := do
  let evaledPs ← ps.mapM calls.evalExpr
  return evaledPs.map updateLocallyFreePar

def evalRow : Term .keyValuePair → Steps InterpreterError (Term .keyValuePair)
  | .keyValuePair key value => do
    let eKey ← calls.evalExpr key
    let eValue ← calls.evalExpr value
    return keyValuePair eKey eValue

def evalExprToExpr : Expr → Steps InterpreterError Expr
  | .ground value => return ground value
  | .unary .not p => do
    let b ← calls.evalToBool p
    return ground (.gBool !b)
  | .unary .neg p => do
    let v ← calls.evalSingleExpr p
    r.negation v
  | .binary .eq p1 p2 => do
    let result ← evalEquality calls p1 p2
    return ground (.gBool result)
  | .binary .neq p1 p2 => do
    let result ← evalEquality calls p1 p2
    return ground (.gBool !result)
  | .binary .and p1 p2 => do
    let b1 ← calls.evalToBool p1
    let b2 ← calls.evalToBool p2
    return ground (.gBool (b1 && b2))
  | .binary .or p1 p2 => do
    let b1 ← calls.evalToBool p1
    let b2 ← calls.evalToBool p2
    return ground (.gBool (b1 || b2))
  | .eVar v => do
    let p ← evalVar v env
    calls.evalSingleExpr p
  | .eList ps _ connectiveUsed _ => do
    let updatedPs ← evalElements calls ps.toList
    return eList (ofList updatedPs) (elementsLocallyFree updatedPs) connectiveUsed none
  | .eTuple ps _ connectiveUsed => do
    let updatedPs ← evalElements calls ps.toList
    return eTuple (ofList updatedPs) (elementsLocallyFree updatedPs) connectiveUsed
  | .eSet ps locallyFree connectiveUsed remainder => do
    let updatedPs ← evalElements calls (r.sorter.sortedPars ps).toList
    return eSet (r.sorter.sortedPars (ofList updatedPs)) locallyFree connectiveUsed remainder
  | .eMap kvs locallyFree connectiveUsed remainder => do
    let evaledPs ← (r.sorter.sortedList kvs).toList.mapM (evalRow calls)
    return eMap (r.sorter.sortedList (ofList evaledPs)) locallyFree connectiveUsed remainder
  | .binary op p1 p2 => do
    let v1 ← calls.evalSingleExpr p1
    let v2 ← calls.evalSingleExpr p2
    r.applyToExprs op v1 v2
  | e => r.others e env

def evalExprToPar : Expr → Steps InterpreterError Par
  | .eVar v => do
    let p ← evalVar v env
    calls.evalExpr p
  | .eMethod methodName target arguments locallyFree connectiveUsed =>
    r.method (eMethod methodName target arguments locallyFree connectiveUsed) env
  | e => do
    let e ← r.evalExprToExpr calls env e
    return ofExpr e

def evalExprStep (p : Par) : Steps InterpreterError Par := do
  let evaledExprs ← p.exprs.mapM (r.evalExprToPar calls env)
  return evaledExprs.foldl concatenatePars (p.cloneWithExprs [])

def evalSingleExprStep (p : Par) : Steps InterpreterError Expr :=
  if !p.sends.isEmpty || !p.receives.isEmpty || !p.news.isEmpty || !p.matchProcs.isEmpty || !p.unforgeables.isEmpty ||
      !p.bundles.isEmpty then
    throw (.reduceError "Error: parallel or non expression found where expression expected.")
  else
    match p.exprs with
    | [e] => r.evalExprToExpr calls env e
    | _ => throw (.reduceError "Error: Multiple expressions given.")

def evalToBoolStep (p : Par) : Steps InterpreterError Bool :=
  if !p.sends.isEmpty && !p.receives.isEmpty && !p.news.isEmpty && !p.matchProcs.isEmpty && !p.unforgeables.isEmpty &&
      !p.bundles.isEmpty then
    throw (.reduceError "Error: parallel or non expression found where expression expected.")
  else
    match p.exprs with
    | [.ground (.gBool b)] => return b
    | [.eVar v] => do
      let p ← evalVar v env
      calls.evalToBool p
    | [e] => do
      match ← r.evalExprToExpr calls env e with
      | .ground (.gBool b) => return b
      | _ => throw (.reduceError "Error: expression didn't evaluate to boolean.")
    | _ => throw (.reduceError "Error: Multiple expressions given.")

end

def substituteStep (env : Env) (fuel : Nat) (p : Par) : Steps InterpreterError Par :=
  match substitute r.sorter fuel p 0 env with
  | .ok p => return p
  | .error (.illegalSubstitution term) => throw (.substituteError term)
  | .error .exhausted => none

def calls (env : Env) : Nat → Calls
  | 0 => ⟨fun _ => none, fun _ => none, fun _ => none, fun _ => none⟩
  | fuel + 1 =>
    ⟨r.evalExprStep (calls env fuel) env, r.evalSingleExprStep (calls env fuel) env,
      r.evalToBoolStep (calls env fuel) env, r.substituteStep env fuel⟩

def evalExpr (env : Env) (fuel : Nat) (p : Par) : Steps InterpreterError Par := (r.calls env fuel).evalExpr p

end Reducer

end F1r3Node.Rholang
