import F1r3Node.Accounting.CostManager
import F1r3Node.Space.RSpace

/-! # The charging tuple space

A consume or produce pays for its storage before it reaches the space and is refunded for what its result says was
removed.
-/

namespace F1r3Node.Accounting

open Shared Space

structure ListParWithRandom (Par : Type) where
  pars : List Par
  randomState : Bytes
  deriving DecidableEq

inductive TaggedCont (Par : Type) where
  | parBody (body : Option Par) (randomState : Bytes)
  | scalaBodyRef (value : Int)
  deriving DecidableEq

structure TaggedContinuation (Par : Type) where
  taggedCont : Option (TaggedCont Par)
  deriving DecidableEq

inductive ChargingError where
  | panic (p : Panic)
  | noTaggedCont
  | interpreter (e : InterpreterError)
  deriving DecidableEq

/-- The encoded sizes of the messages of the two generated types. -/
structure EncodedLen (Par BindPattern : Type) where
  par : Par → Nat
  bindPattern : BindPattern → Nat

/-- One call of `charge`: its amount and what it is for. -/
structure Charge where
  value : Int
  operation : String
  deriving DecidableEq

inductive TriggeredBy where
  | consume (id : Bytes) (persistent : Bool) (channelsCount : Int)
  | produce (id : Bytes) (persistent : Bool) (channelsCount : Int)

def hashLength : Int := 32

def eventStorageCost (channelsInvolved : Int) : Charge :=
  ⟨hashLength + channelsInvolved * hashLength, "event storage cost"⟩

def commEventStorageCost (channelsInvolved : Int) : Charge :=
  ⟨(eventStorageCost channelsInvolved).value + (eventStorageCost 1).value * channelsInvolved,
    "comm event storage cost"⟩

variable {Par BindPattern : Type}

def consumeIdBytes (continuation : TaggedContinuation Par) : Option Bytes :=
  continuation.taggedCont.map fun
    | .parBody _ randomState => randomState
    | .scalaBodyRef value => (toLeBytes 8 value).reverse

section costs

variable (len : EncodedLen Par BindPattern)

def storageCostConsume (channels : List Par) (patterns : List BindPattern)
    (continuation : TaggedContinuation Par) : Charge :=
  let bodyCost : Nat := match continuation.taggedCont with
    | some (.parBody (some body) _) => len.par body
    | _ => 0
  ⟨(channels.map len.par).sum + (patterns.map len.bindPattern).sum + bodyCost, "consume storage"⟩

def storageCostProduce (channel : Par) (data : ListParWithRandom Par) : Charge :=
  ⟨len.par channel + (data.pars.map len.par).sum, "produces storage"⟩

def refundForRemovingProduces (dataList : List (RSpaceResult Par (ListParWithRandom Par)))
    (channels : List Par) (triggeredId : Bytes) : Int :=
  (((dataList.zip channels).filter fun item =>
    !item.1.persistent || item.1.removedDatum.randomState = triggeredId).map fun item =>
    (storageCostProduce len item.2 item.1.removedDatum).value).sum

def handleResult (result : MaybeConsumeResult Par BindPattern (ListParWithRandom Par) (TaggedContinuation Par))
    (triggeredBy : TriggeredBy) : Except ChargingError (List Charge) :=
  let (triggeredId, channelsCount, persistent) := match triggeredBy with
    | .consume id persistent channelsCount => (id, channelsCount, persistent)
    | .produce id persistent _ => (id, 1, persistent)
  match result with
  | some (cont, dataList) =>
    match consumeIdBytes cont.continuation with
    | none => .error .noTaggedCont
    | some consumeId =>
      let refundForConsume :=
        if !cont.persistent || consumeId = triggeredId then
          (storageCostConsume len cont.channels cont.patterns cont.continuation).value
        else 0
      let refundForProduces := refundForRemovingProduces len dataList cont.channels triggeredId
      .ok ([⟨-refundForConsume, "consume storage refund"⟩,
          ⟨-refundForProduces, "produces storage refund"⟩] ++
        (if persistent then [] else [eventStorageCost channelsCount]) ++
        [commEventStorageCost cont.channels.length])
  | none => .ok [eventStorageCost channelsCount]

end costs

/-- The space with its balance and every charge made so far. -/
structure ChargingRSpace (Par BindPattern : Type) where
  space : RSpace Par BindPattern (ListParWithRandom Par) (TaggedContinuation Par)
  cost : CostManager
  charged : List Charge

namespace ChargingRSpace

def charge (st : ChargingRSpace Par BindPattern) (amount : Charge) :
    Except ChargingError (ChargingRSpace Par BindPattern) :=
  match st.cost.charge ⟨Int64.ofInt amount.value, amount.operation⟩ with
  | (cost, .ok _) => .ok { st with cost := cost, charged := st.charged ++ [amount] }
  | (_, .error e) => .error (.interpreter e)

variable [DecidableEq Par] [DecidableEq BindPattern] (len : EncodedLen Par BindPattern)
  (env : SpaceEnv Par BindPattern (ListParWithRandom Par) (TaggedContinuation Par))
  (sh : Shuffle Par BindPattern (ListParWithRandom Par) (TaggedContinuation Par))

def prepay : Op Par BindPattern (ListParWithRandom Par) (TaggedContinuation Par) →
    Charge × Except ChargingError TriggeredBy
  | .consume channels patterns continuation persist _ =>
    (storageCostConsume len channels patterns continuation,
      match consumeIdBytes continuation with
      | some id => .ok (.consume id persist channels.length)
      | none => .error .noTaggedCont)
  | .produce channel data persist =>
    (storageCostProduce len channel data, .ok (.produce data.randomState persist 1))

/-- A consume or produce: the charge in advance, the operation of the space, and the charges that
follow from its result. -/
def step (st : ChargingRSpace Par BindPattern)
    (op : Op Par BindPattern (ListParWithRandom Par) (TaggedContinuation Par)) :
    Except ChargingError
      (MaybeConsumeResult Par BindPattern (ListParWithRandom Par) (TaggedContinuation Par) ×
        ChargingRSpace Par BindPattern) := do
  let st ← st.charge (prepay len op).1
  let triggeredBy ← (prepay len op).2
  let (result, space) ← (st.space.step env sh op).mapError .panic
  let charges ← handleResult len result triggeredBy
  let st ← charges.foldlM charge { st with space := space }
  return (result, st)

def run : List (Op Par BindPattern (ListParWithRandom Par) (TaggedContinuation Par) ×
      Shuffle Par BindPattern (ListParWithRandom Par) (TaggedContinuation Par)) →
    ChargingRSpace Par BindPattern → Except ChargingError (ChargingRSpace Par BindPattern)
  | [], st => .ok st
  | (op, sh) :: ops, st => do
    let (_, st) ← step len env sh st op
    run ops st

end ChargingRSpace

end F1r3Node.Accounting
