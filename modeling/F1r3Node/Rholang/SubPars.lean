import F1r3Node.Lib.Splits
import F1r3Node.Rholang.Term
import Mathlib.Data.List.ProdSigma
import Mathlib.Algebra.Order.Group.Int

/-! # The ways to take a part out of a process

The parts are enumerated slot by slot, with bounds on what is taken and on what is left.
-/

namespace F1r3Node.Rholang

open F1r3Node.Lib

structure ParCount where
  sends : Nat
  receives : Nat
  news : Nat
  exprs : Nat
  matchProcs : Nat
  unforgeables : Nat
  bundles : Nat
  deriving DecidableEq

/-- `as isize` of a `usize`. -/
def asIsize (n : Nat) : Int := (n : Int).bmod (2 ^ 64)

/-- Subtraction on `isize`, which wraps. -/
def isizeSub (a b : Int) : Int := (a - b).bmod (2 ^ 64)

section

variable {A : Type}

def countedMaxSubsets (maxSize : Int) : List A → List (List A × List A × Int)
  | [] => [([], [], 0)]
  | head :: rem =>
    ([], head :: rem, 0) ::
      (countedMaxSubsets maxSize rem).flatMap fun (tail, complement, count) =>
        if count = maxSize then [(tail, head :: complement, count)]
        else if tail.isEmpty then [(head :: tail, complement, 1)]
        else [(head :: tail, head :: complement, count), (head :: tail, head :: complement, count + 1)]

def worker (maxSize : Int) (as : List A) (minSize : Int) : List (List A × List A × Int) :=
  if maxSize < 0 then []
  else if minSize > maxSize then []
  else if minSize ≤ 0 then
    if maxSize = 0 then [([], as, 0)] else countedMaxSubsets maxSize as
  else
    match as with
    | [] => []
    | head :: rem =>
      let decr := minSize - 1
      (worker maxSize rem decr).flatMap fun (tail, complement, count) =>
        if count = maxSize then [(tail, head :: complement, count)]
        else if count = decr then [(head :: tail, complement, minSize)]
        else [(head :: tail, head :: complement, count), (head :: tail, head :: complement, count + 1)]

def minMaxSubsets (as : List A) (minSize maxSize : Int) : List (List A × List A) :=
  (worker maxSize as minSize).map fun x => (x.1, x.2.1)

end

/-- The length of a slot with the bounds on its two parts. -/
structure SlotCount where
  len : Nat
  min : Nat
  max : Nat
  minPrune : Nat
  maxPrune : Nat

namespace SlotCount

def maxSize (c : SlotCount) : Int := Min.min (asIsize c.max) (isizeSub (asIsize c.len) (asIsize c.minPrune))

def minSize (c : SlotCount) : Int := Max.max (asIsize c.min) (isizeSub (asIsize c.len) (asIsize c.maxPrune))

end SlotCount

inductive Slot
  | sends | receives | news | exprs | matchProcs | unforgeables | bundles
  deriving DecidableEq

/-- Two parts for each slot, as the product of the slots gives them. -/
abbrev SlotParts :=
  (((((((List Send × List Send) × (List Receive × List Receive)) × (List New × List New)) × (List Expr × List Expr)) ×
    (List MatchProc × List MatchProc)) × (List GUnforgeable × List GUnforgeable)) × (List Bundle × List Bundle))

def assemble : SlotParts → Par × Par
  | ((((((sends, receives), news), exprs), matchProcs), unforgeables), bundles) =>
    (Term.ofSlots sends.1 receives.1 news.1 exprs.1 matchProcs.1 unforgeables.1 bundles.1,
      Term.ofSlots sends.2 receives.2 news.2 exprs.2 matchProcs.2 unforgeables.2 bundles.2)

section

variable (p : Par) (min max minPrune maxPrune : ParCount)

def slotCount : Slot → SlotCount
  | .sends => ⟨p.sends.length, min.sends, max.sends, minPrune.sends, maxPrune.sends⟩
  | .receives => ⟨p.receives.length, min.receives, max.receives, minPrune.receives, maxPrune.receives⟩
  | .news => ⟨p.news.length, min.news, max.news, minPrune.news, maxPrune.news⟩
  | .exprs => ⟨p.exprs.length, min.exprs, max.exprs, minPrune.exprs, maxPrune.exprs⟩
  | .matchProcs => ⟨p.matchProcs.length, min.matchProcs, max.matchProcs, minPrune.matchProcs, maxPrune.matchProcs⟩
  | .unforgeables =>
    ⟨p.unforgeables.length, min.unforgeables, max.unforgeables, minPrune.unforgeables, maxPrune.unforgeables⟩
  | .bundles => ⟨p.bundles.length, min.bundles, max.bundles, minPrune.bundles, maxPrune.bundles⟩

def slotSubsets {A : Type} (as : List A) (c : SlotCount) : List (List A × List A) :=
  minMaxSubsets as c.minSize c.maxSize

def subPars : List (Par × Par) :=
  let count := slotCount p min max minPrune maxPrune
  ((((((slotSubsets p.sends (count .sends)).product (slotSubsets p.receives (count .receives))).product
    (slotSubsets p.news (count .news))).product (slotSubsets p.exprs (count .exprs))).product
    (slotSubsets p.matchProcs (count .matchProcs))).product (slotSubsets p.unforgeables (count .unforgeables))).product
    (slotSubsets p.bundles (count .bundles))
  |>.map assemble

end

section

variable {A : Type}

theorem mem_countedMaxSubsets_nil (maxSize : Int) (as : List A) : ([], as, 0) ∈ countedMaxSubsets maxSize as := by
  cases as with
  | nil => exact List.mem_singleton.mpr rfl
  | cons head rem => exact List.mem_cons_self

variable {as sub rest : List A}

theorem mem_countedMaxSubsets_one {count : Int} :
    (sub, rest, count) ∈ countedMaxSubsets 1 as ↔ Split as sub rest ∧ sub.length ≤ 1 ∧ count = sub.length := by
  induction as generalizing sub rest count with
  | nil =>
    simp only [countedMaxSubsets, List.mem_singleton, Prod.mk.injEq]
    constructor
    · rintro ⟨rfl, rfl, rfl⟩
      exact ⟨.nil, by simp, rfl⟩
    · rintro ⟨⟨⟩, -, rfl⟩
      exact ⟨rfl, rfl, rfl⟩
  | cons head rem ih =>
    simp only [countedMaxSubsets, List.mem_cons, List.mem_flatMap, Prod.exists, Prod.mk.injEq]
    constructor
    · rintro (⟨rfl, rfl, rfl⟩ | ⟨tail, complement, n, hMem, hStep⟩)
      · exact ⟨split_nil_left.mpr rfl, by simp, rfl⟩
      · obtain ⟨hSplit, hLen, rfl⟩ := ih.mp hMem
        match tail, hLen with
        | [], _ =>
          obtain ⟨rfl, rfl, rfl⟩ : sub = [head] ∧ rest = complement ∧ count = 1 := by simpa using hStep
          exact ⟨.left head hSplit, by simp, by simp⟩
        | [a], _ =>
          obtain ⟨rfl, rfl, rfl⟩ : sub = [a] ∧ rest = head :: complement ∧ count = 1 := by simpa using hStep
          exact ⟨.right head hSplit, by simp, by simp⟩
    · rintro ⟨hSplit, hLen, rfl⟩
      obtain ⟨tail, rfl, hRem⟩ | ⟨tail, rfl, hRem⟩ := split_cons.mp hSplit
      · obtain rfl : tail = [] := by simpa using hLen
        obtain rfl := split_nil_left.mp hRem
        exact .inr ⟨[], rest, 0, mem_countedMaxSubsets_nil 1 rest, by simp⟩
      · match sub, hLen with
        | [], _ =>
          obtain rfl := split_nil_left.mp hRem
          exact .inl ⟨rfl, rfl, rfl⟩
        | [a], hLen => exact .inr ⟨[a], tail, 1, ih.mpr ⟨hRem, hLen, rfl⟩, by simp⟩

variable {maxSize minSize : Int}

theorem worker_of_nonpos (as : List A) (h : 0 < maxSize) (hMin : minSize ≤ 0) :
    worker maxSize as minSize = countedMaxSubsets maxSize as := by
  rw [worker.eq_def, if_neg (by omega), if_neg (by omega), if_pos hMin, if_neg (by omega)]

theorem worker_cons (head : A) (rem : List A) (h : minSize ≤ maxSize) (hMin : 0 < minSize) :
    worker maxSize (head :: rem) minSize =
      (worker maxSize rem (minSize - 1)).flatMap fun x =>
        if x.2.2 = maxSize then [(x.1, head :: x.2.1, x.2.2)]
        else if x.2.2 = minSize - 1 then [(head :: x.1, x.2.1, minSize)]
        else [(head :: x.1, head :: x.2.1, x.2.2), (head :: x.1, head :: x.2.1, x.2.2 + 1)] := by
  rw [worker, if_neg (by omega), if_neg (by omega), if_neg (by omega)]

theorem mem_worker_one {count : Int} :
    (sub, rest, count) ∈ worker 1 as 1 ↔ Split as sub rest ∧ sub.length = 1 ∧ count = 1 := by
  cases as with
  | nil =>
    constructor
    · intro h
      simp [worker] at h
    · rintro ⟨⟨⟩, hLen, -⟩
      cases hLen
  | cons head rem =>
    rw [worker_cons head rem le_rfl one_pos, worker_of_nonpos rem one_pos (by simp)]
    simp only [List.mem_flatMap, Prod.exists]
    constructor
    · rintro ⟨tail, complement, n, hMem, hStep⟩
      obtain ⟨hSplit, hLen, rfl⟩ := mem_countedMaxSubsets_one.mp hMem
      match tail, hLen with
      | [], _ =>
        obtain ⟨rfl, rfl, rfl⟩ : sub = [head] ∧ rest = complement ∧ count = 1 := by simpa using hStep
        exact ⟨.left head hSplit, rfl, rfl⟩
      | [a], _ =>
        obtain ⟨rfl, rfl, rfl⟩ : sub = [a] ∧ rest = head :: complement ∧ count = 1 := by simpa using hStep
        exact ⟨.right head hSplit, rfl, rfl⟩
    · rintro ⟨hSplit, hLen, rfl⟩
      obtain ⟨tail, rfl, hRem⟩ | ⟨tail, rfl, hRem⟩ := split_cons.mp hSplit
      · obtain rfl : tail = [] := by simpa using hLen
        obtain rfl := split_nil_left.mp hRem
        exact ⟨[], rest, 0, mem_countedMaxSubsets_nil 1 rest, by simp⟩
      · exact ⟨sub, tail, 1, mem_countedMaxSubsets_one.mpr ⟨hRem, hLen.le, by simp [hLen]⟩, by simp⟩

theorem worker_nil (h : minSize ≤ maxSize) (hMax : 0 ≤ maxSize) :
    worker maxSize ([] : List A) minSize = if minSize ≤ 0 then [([], [], 0)] else [] := by
  rw [worker.eq_def, if_neg (by omega), if_neg (by omega)]
  simp [countedMaxSubsets]

theorem worker_of_length_le (as : List A) (h : minSize ≤ maxSize) (hLen : as.length ≤ minSize) :
    worker maxSize as minSize = if as.length = minSize then [(as, [], minSize)] else [] := by
  induction as generalizing minSize with
  | nil =>
    simp only [List.length_nil] at hLen ⊢
    rw [worker_nil h (by omega)]
    by_cases hMin : minSize ≤ 0
    · obtain rfl : minSize = 0 := by omega
      simp
    · rw [if_neg hMin, if_neg (by omega)]
  | cons head rem ih =>
    simp only [List.length_cons] at hLen ⊢
    rw [worker_cons head rem h (by omega), ih (by omega) (by omega)]
    by_cases hRem : (rem.length : Int) = minSize - 1
    · rw [if_pos hRem, if_pos (by omega)]
      have hCount : minSize - 1 ≠ maxSize := by omega
      simp [hCount]
    · rw [if_neg hRem, if_neg (by omega)]
      rfl

theorem mem_countedMaxSubsets_singleton (hMax : 0 < maxSize) (b : A) (rest : List A) :
    ([b], rest, 1) ∈ countedMaxSubsets maxSize (b :: rest) := by
  apply List.mem_cons_of_mem
  apply List.mem_flatMap.mpr
  exact ⟨_, mem_countedMaxSubsets_nil maxSize rest, by simp [hMax.ne]⟩

theorem mem_countedMaxSubsets_overlap (hMax : 2 ≤ maxSize) (a b : A) (rest : List A) :
    ([a, b], a :: rest, 1) ∈ countedMaxSubsets maxSize (a :: b :: rest) := by
  apply List.mem_cons_of_mem
  apply List.mem_flatMap.mpr
  refine ⟨_, mem_countedMaxSubsets_singleton (by omega) b rest, ?_⟩
  have hCount : (1 : Int) ≠ maxSize := by omega
  simp [hCount]

theorem exists_overlap (as : List A) (h : minSize ≤ maxSize) (hMax : 2 ≤ maxSize)
    (hMin : minSize < as.length) (hLen : 2 ≤ as.length) :
    ∃ x ∈ worker maxSize as minSize, as.length < x.1.length + x.2.1.length := by
  induction as generalizing minSize with
  | nil => cases hLen
  | cons head rem ih =>
    obtain ⟨b, rest, rfl⟩ : ∃ b rest, rem = b :: rest := by
      apply List.exists_cons_of_length_pos
      simp only [List.length_cons] at hLen
      omega
    simp only [List.length_cons] at hMin ih ⊢
    obtain hNonpos | hPos := le_or_gt minSize 0
    · rw [worker_of_nonpos _ (by omega) hNonpos]
      exact ⟨_, mem_countedMaxSubsets_overlap hMax head b rest, by simp; omega⟩
    · rw [worker_cons head _ h hPos]
      simp only [List.mem_flatMap]
      obtain rfl | hMore : minSize = 1 ∨ 2 ≤ minSize := by omega
      · refine ⟨([head, b], head :: rest, 1), ⟨([b], rest, 1), ?_, ?_⟩, by simp; omega⟩
        · rw [worker_of_nonpos _ (by omega) (by simp)]
          exact mem_countedMaxSubsets_singleton (by omega) b rest
        · have hCount : (1 : Int) ≠ maxSize := by omega
          simp [hCount]
      · have hShorter : minSize - 1 ≤ maxSize := by omega
        obtain ⟨⟨tail, complement, count⟩, hx, hOverlap⟩ := ih hShorter (by omega) (by omega)
        dsimp only at hOverlap
        by_cases hFull : count = maxSize
        · exact ⟨_, ⟨_, hx, by rw [if_pos hFull]; exact List.mem_singleton.mpr rfl⟩, by simp; omega⟩
        · by_cases hDecr : count = minSize - 1
          · exact ⟨_, ⟨_, hx, by rw [if_neg hFull, if_pos hDecr]; exact List.mem_singleton.mpr rfl⟩, by simp; omega⟩
          · exact ⟨_, ⟨_, hx, by rw [if_neg hFull, if_neg hDecr]; exact List.mem_cons_self⟩, by simp; omega⟩

def Plain (len : Nat) (minSize maxSize : Int) : Prop :=
  maxSize < minSize ∨ maxSize ≤ 1 ∨ (len : Int) ≤ minSize ∨ len ≤ 1

theorem mem_minMaxSubsets :
    (sub, rest) ∈ minMaxSubsets as minSize maxSize ↔ ∃ count, (sub, rest, count) ∈ worker maxSize as minSize := by
  simp [minMaxSubsets]

theorem mem_minMaxSubsets_zero (h : minSize ≤ 0) :
    (sub, rest) ∈ minMaxSubsets as minSize 0 ↔ Split as sub rest ∧ sub.length = 0 := by
  have hWorker : worker 0 as minSize = [([], as, 0)] := by
    rw [worker.eq_def, if_neg (by omega), if_neg (by omega), if_pos h, if_pos rfl]
  simp only [mem_minMaxSubsets, hWorker, List.mem_singleton, Prod.mk.injEq, exists_and_left, exists_eq, and_true,
    List.length_eq_zero_iff]
  constructor
  · rintro ⟨rfl, rfl⟩
    exact ⟨split_nil_left.mpr rfl, rfl⟩
  · rintro ⟨hSplit, rfl⟩
    exact ⟨rfl, split_nil_left.mp hSplit⟩

theorem mem_minMaxSubsets_one (h : minSize ≤ 1) :
    (sub, rest) ∈ minMaxSubsets as minSize 1 ↔ Split as sub rest ∧ minSize ≤ sub.length ∧ sub.length ≤ 1 := by
  rw [mem_minMaxSubsets]
  obtain hMin | rfl : minSize ≤ 0 ∨ minSize = 1 := by omega
  · simp only [worker_of_nonpos as one_pos hMin, mem_countedMaxSubsets_one, exists_and_left, exists_eq, and_true]
    have hLe : minSize ≤ sub.length := by omega
    simp [hLe]
  · simp only [mem_worker_one, exists_and_left, exists_eq, and_true]
    have hSize : sub.length = 1 ↔ (1 : Int) ≤ sub.length ∧ sub.length ≤ 1 := by omega
    rw [hSize]

theorem mem_minMaxSubsets_all (h : minSize ≤ maxSize)
    (hLen : as.length ≤ minSize) :
    (sub, rest) ∈ minMaxSubsets as minSize maxSize ↔ Split as sub rest ∧ minSize ≤ sub.length := by
  rw [mem_minMaxSubsets, worker_of_length_le as h hLen]
  constructor
  · rintro ⟨count, hMem⟩
    split_ifs at hMem with hEq
    · obtain ⟨rfl, rfl, -⟩ : sub = as ∧ rest = [] ∧ count = minSize := by simpa using hMem
      exact ⟨split_nil_right.mpr rfl, hEq.ge⟩
    · cases hMem
  · rintro ⟨hSplit, hMin⟩
    have hSize := hSplit.length_add
    obtain rfl : rest = [] := List.length_eq_zero_iff.mp (by omega)
    obtain rfl := split_nil_right.mp hSplit
    exact ⟨minSize, by rw [if_pos (by omega)]; exact List.mem_singleton.mpr rfl⟩

theorem mem_minMaxSubsets_short (hMin : minSize ≤ 0)
    (hMax : 2 ≤ maxSize) (hLen : as.length ≤ 1) :
    (sub, rest) ∈ minMaxSubsets as minSize maxSize ↔ Split as sub rest := by
  rw [mem_minMaxSubsets, worker_of_nonpos as (by omega) hMin]
  match as, hLen with
  | [], _ =>
    constructor
    · rintro ⟨count, hMem⟩
      obtain ⟨rfl, rfl, -⟩ : sub = [] ∧ rest = [] ∧ count = 0 := by simpa [countedMaxSubsets] using hMem
      exact .nil
    · rintro ⟨⟩
      exact ⟨0, mem_countedMaxSubsets_nil maxSize []⟩
  | [a], _ =>
    have hCount : (0 : Int) ≠ maxSize := by omega
    simp only [countedMaxSubsets, List.flatMap_cons, List.flatMap_nil, hCount, if_false, List.isEmpty_nil, if_true,
      List.append_nil, List.mem_cons, Prod.mk.injEq, List.not_mem_nil, or_false]
    constructor
    · rintro ⟨count, ⟨rfl, rfl, -⟩ | ⟨rfl, rfl, -⟩⟩
      · exact split_nil_left.mpr rfl
      · exact split_nil_right.mpr rfl
    · intro hSplit
      obtain ⟨tail, rfl, ⟨⟩⟩ | ⟨tail, rfl, ⟨⟩⟩ := split_cons.mp hSplit
      · exact ⟨1, .inr ⟨rfl, rfl, rfl⟩⟩
      · exact ⟨0, .inl ⟨rfl, rfl, rfl⟩⟩

theorem mem_minMaxSubsets_of_plain (h : Plain as.length minSize maxSize)
    :
    (sub, rest) ∈ minMaxSubsets as minSize maxSize ↔
      Split as sub rest ∧ minSize ≤ sub.length ∧ (sub.length : Int) ≤ maxSize := by
  by_cases hNone : maxSize < minSize ∨ maxSize < 0
  · have hEmpty : worker maxSize as minSize = [] := by
      rw [worker.eq_def]
      split_ifs <;> first | rfl | omega
    simp only [mem_minMaxSubsets, hEmpty, List.not_mem_nil, exists_false, false_iff]
    omega
  · obtain ⟨hLe, hNonneg⟩ : minSize ≤ maxSize ∧ 0 ≤ maxSize := by omega
    obtain rfl | rfl | hMax : maxSize = 0 ∨ maxSize = 1 ∨ 2 ≤ maxSize := by omega
    · rw [mem_minMaxSubsets_zero hLe]
      exact and_congr_right fun _ => by omega
    · rw [mem_minMaxSubsets_one hLe]
      exact and_congr_right fun _ => by omega
    · obtain hAll | hMin := le_or_gt (as.length : Int) minSize
      · rw [mem_minMaxSubsets_all hLe hAll]
        exact and_congr_right fun hSplit => by have := hSplit.length_add; omega
      · have hShort : as.length ≤ 1 := by
          obtain h | h | h | h := h <;> omega
        rw [mem_minMaxSubsets_short (by omega) hMax hShort]
        exact (and_iff_left_of_imp fun hSplit => by have := hSplit.length_add; omega).symm

theorem plain_of_forall_split
    (h : ∀ x ∈ minMaxSubsets as minSize maxSize, Split as x.1 x.2) : Plain as.length minSize maxSize := by
  by_contra hNot
  obtain ⟨hLe, hMax, hMin, hLen⟩ : minSize ≤ maxSize ∧ 2 ≤ maxSize ∧ minSize < as.length ∧ 2 ≤ as.length := by
    simp only [Plain] at hNot
    omega
  obtain ⟨x, hx, hOverlap⟩ := exists_overlap as hLe hMax hMin hLen
  have hSplit := h (x.1, x.2.1) (mem_minMaxSubsets.mpr ⟨x.2.2, hx⟩)
  exact hOverlap.ne hSplit.length_add.symm

end

end F1r3Node.Rholang
