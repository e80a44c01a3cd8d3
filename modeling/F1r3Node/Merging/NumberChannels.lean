import F1r3Node.Merging.EventLogIndex
import F1r3Node.Space.HotStore

/-! # Reading number channels

A number channel holds at most one datum, and that datum is one process that is an integer and
nothing else.
-/

namespace F1r3Node.Merging

open Shared Space

/-- The errors of the layers below are passed on as their text. -/
inductive HistoryError where
  | actionError (message : String)
  | radixTreeError (message : String)
  | kvStoreError (message : String)
  | rootError (message : String)
  | mergeError (message : String)
  deriving DecidableEq

inductive ExprInstance where
  | gInt (value : Int64)
  | gBigInt (bytes : Bytes)
  /-- Every other expression, encoded. -/
  | other (encoded : Bytes)
  deriving DecidableEq

/-- The parts of a process that reading a number looks at, the ones tested for emptiness encoded. -/
structure Par where
  sends : List Bytes
  receives : List Bytes
  news : List Bytes
  exprs : List (Option ExprInstance)
  matchCases : List Bytes
  bundles : List Bytes
  deriving DecidableEq

structure ListParWithRandom where
  pars : List Par
  randomState : Bytes
  deriving DecidableEq

def singleExpr (p : Par) : Option (Option ExprInstance) :=
  if p.sends.isEmpty && p.receives.isEmpty && p.news.isEmpty && p.matchCases.isEmpty && p.bundles.isEmpty then
    match p.exprs with
    | [expr] => some expr
    | _ => none
  else none

def fromSignedBytesBe (bytes : Bytes) : Int :=
  let magnitude : Int := bytes.foldl (fun acc b => 256 * acc + (b.toNat : Int)) 0
  if 128 ≤ (bytes.headD 0).toNat then magnitude - 256 ^ bytes.length else magnitude

def rhoNumber (p : Par) : Option Int64 :=
  match singleExpr p with
  | some (some (.gInt value)) => some value
  | _ => none

def rhoBigInt (p : Par) : Option Int :=
  match singleExpr p with
  | some (some (.gBigInt bytes)) => some (fromSignedBytesBe bytes)
  | _ => none

def tryGetNumberWithRnd (parWithRnd : ListParWithRandom) : Option (Int × Bytes) :=
  match parWithRnd.pars with
  | [par] => (((rhoNumber par).map Int64.toInt).or (rhoBigInt par)).map fun num => (num, parWithRnd.randomState)
  | _ => none

def hexDigits (b : UInt8) : List Char := [Nat.digitChar (b.toNat / 16), Nat.digitChar (b.toNat % 16)]

def hexEncode (bytes : Bytes) : String := String.ofList (bytes.flatMap hexDigits)

def displayHash (hash : Bytes) : String := "Blake2b256Hash(" ++ hexEncode hash ++ ")"

/-- No data reads as no number; more than one datum, or one that is no number, is an error. -/
def convertToReadNumber (getData : Bytes → Except HistoryError (List (Datum ListParWithRandom))) (hash : Bytes) :
    Except HistoryError (Option Int) := do
  let data ← getData hash
  if data.length > 1 then
    throw (.mergeError ("Number channel " ++ displayHash hash ++ " has " ++ toString data.length ++
      " pre-state values; single-value invariant violated"))
  match data.head? with
  | none => pure none
  | some datum =>
    match tryGetNumberWithRnd datum.a with
    | some (n, _) => pure (some n)
    | none => throw (.mergeError ("Number channel " ++ displayHash hash ++
        " pre-state value is non-numeric; channel-type invariant violated"))

end F1r3Node.Merging
