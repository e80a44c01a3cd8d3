import Mathlib.Algebra.Order.Group.Int

/-! # The phlogiston balance

`charge` subtracts from the shared balance with saturating `i64` arithmetic and logs the amount in a bounded queue. A
refund is a charge of a negative amount.
-/

namespace F1r3Node.Accounting

structure Cost where
  value : Int64
  operation : String
  deriving DecidableEq

inductive InterpreterError where
  | outOfPhlogistonsError
  deriving DecidableEq

structure CostManager where
  state : Cost
  log : List Cost
  maxLogEntries : Nat

def resolveMaxLogEntries : Nat := 1024

def CostManager.new (initialValue : Cost) : CostManager :=
  ⟨initialValue, [], resolveMaxLogEntries⟩

def saturatingSub (a b : Int64) : Int64 := Int64.ofIntClamp (a.toInt - b.toInt)

def CostManager.pushLog (m : CostManager) (amount : Cost) : List Cost :=
  if 0 < m.maxLogEntries then
    (if m.maxLogEntries ≤ m.log.length then m.log.tail else m.log) ++ [amount]
  else m.log

def CostManager.charge (m : CostManager) (amount : Cost) : CostManager × Except InterpreterError Unit :=
  if m.state.value < 0 then (m, .error .outOfPhlogistonsError)
  else
    let value := saturatingSub m.state.value amount.value
    let next : CostManager := { m with state := { m.state with value := value }, log := m.pushLog amount }
    if value < 0 then (next, .error .outOfPhlogistonsError) else (next, .ok ())

def CostManager.balance (m : CostManager) : Int := m.state.value.toInt

def i64Max : Int := Int64.maxValue.toInt

theorem toInt_neg_iff (a : Int64) : a < 0 ↔ a.toInt < 0 := by
  rw [Int64.lt_iff_toInt_lt]
  rfl

theorem balance_le_max (m : CostManager) : m.balance ≤ i64Max := Int64.toInt_le _

theorem toInt_saturatingSub {a b : Int64} (hNonneg : 0 ≤ a.toInt) :
    (saturatingSub a b).toInt = min i64Max (a.toInt - b.toInt) := by
  have hMin : Int64.minValue.toInt = -Int64.maxValue.toInt - 1 := by decide
  have hb := Int64.toInt_le b
  have hLow : Int64.minValue.toInt ≤ a.toInt - b.toInt := by omega
  by_cases hHigh : a.toInt - b.toInt ≤ Int64.maxValue.toInt
  · rw [i64Max, min_eq_right hHigh]
    exact Int64.toInt_ofIntClamp hLow hHigh
  · rw [i64Max, min_eq_left (not_le.mp hHigh).le, saturatingSub, Int64.ofIntClamp, dif_pos hLow,
      dif_neg hHigh]

theorem charge_of_negative {m : CostManager} (hNeg : m.balance < 0) (amount : Cost) :
    m.charge amount = (m, .error .outOfPhlogistonsError) := by
  rw [CostManager.charge, if_pos ((toInt_neg_iff _).mpr hNeg)]

theorem charge_cases {m : CostManager} (hNonneg : 0 ≤ m.balance) (amount : Cost) :
    (m.charge amount).1.balance = min i64Max (m.balance - amount.value.toInt) ∧
      ((m.charge amount).2 = .ok () ↔ amount.value.toInt ≤ m.balance) := by
  have hValue := toInt_saturatingSub (a := m.state.value) (b := amount.value) hNonneg
  have hMax : 0 ≤ i64Max := by decide
  have hNot : ¬ m.state.value < 0 := by
    rw [toInt_neg_iff]
    exact not_lt.mpr hNonneg
  rw [CostManager.charge, if_neg hNot]
  simp only [toInt_neg_iff, hValue]
  change _ ∧ (_ ↔ amount.value.toInt ≤ m.state.value.toInt)
  split
  · refine ⟨hValue, ?_⟩
    simp only [reduceCtorEq, false_iff]
    omega
  · refine ⟨hValue, ?_⟩
    simp only [true_iff]
    omega

end F1r3Node.Accounting
