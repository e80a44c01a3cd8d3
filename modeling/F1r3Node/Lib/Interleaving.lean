import Mathlib.Algebra.Order.BigOperators.Group.List
import Mathlib.Algebra.Order.Ring.Int

/-! # Families of branches that draw on one shared resource

What must be available before a demand `a` so that `x` is available after it is `before a x`; `worst` and `least` are
what the least and the most favourable interleaving need.
-/

namespace F1r3Node.Lib.Interleaving

section

variable {α : Type*}

def total (weight : List α → Int) (family : List (List α)) : Int := (family.map weight).sum

variable {i : Nat}

theorem total_set (weight : List α → Int) {family : List (List α)} {old : List α}
    (new : List α) (hOld : family[i]? = some old) :
    total weight (family.set i new) = total weight family - weight old + weight new := by
  obtain ⟨hi, hGet⟩ := List.getElem?_eq_some_iff.mp hOld
  have hi' : i < (family.map weight).length := by simpa using hi
  rw [total, List.map_set, List.sum_set', dif_pos hi', List.getElem_map, hGet, total]
  omega

def Done (family : List (List α)) : Prop := ∀ branch ∈ family, branch = []

def remaining (family : List (List α)) : Nat := (family.map List.length).sum

theorem remaining_set {family : List (List α)} {old : List α} (new : List α) (hOld : family[i]? = some old) :
    (remaining (family.set i new) : Int) = remaining family - old.length + new.length := by
  have h := total_set (fun l : List α => (l.length : Int)) new hOld
  have hCast : ∀ f : List (List α), total (fun l : List α => (l.length : Int)) f = remaining f := by
    intro f
    simp only [total, remaining]
    induction f with
    | nil => rfl
    | cons branch f ih => simp [ih]
  rwa [hCast, hCast] at h

theorem done_or_move (family : List (List α)) :
    Done family ∨ ∃ (i : Nat) (a : α) (rest : List α), family[i]? = some (a :: rest) := by
  by_cases h : Done family
  · exact .inl h
  · obtain ⟨branch, hMem, hNe⟩ : ∃ branch ∈ family, branch ≠ [] := by
      simpa [Done] using h
    obtain ⟨i, hi⟩ := List.mem_iff_getElem?.mp hMem
    obtain ⟨a, rest, rfl⟩ := List.exists_cons_of_ne_nil hNe
    exact .inr ⟨i, a, rest, hi⟩

theorem Done.no_move {family : List (List α)} (h : Done family) {a : α} {rest : List α}
    (hMove : family[i]? = some (a :: rest)) : False := by
  cases h _ (List.mem_of_getElem? hMove)

theorem Done.total_eq_zero {family : List (List α)} (h : Done family) (weight : List α → Int)
    (hNil : weight [] = 0) : total weight family = 0 := by
  apply List.sum_eq_zero
  intro x hx
  obtain ⟨branch, hMem, rfl⟩ := List.mem_map.mp hx
  rw [h branch hMem, hNil]

theorem remaining_move {family : List (List α)} {n : Nat} {a : α} {rest : List α}
    (hn : remaining family = n + 1) (hMove : family[i]? = some (a :: rest)) :
    remaining (family.set i rest) = n := by
  have h := remaining_set rest hMove
  rw [List.length_cons] at h
  omega

theorem not_done_of_remaining {family : List (List α)} {n : Nat} (hn : remaining family = n + 1) :
    ¬ Done family := by
  intro hDone
  have hZero : remaining family = 0 := by
    apply List.sum_eq_zero
    intro x hx
    obtain ⟨branch, hMem, rfl⟩ := List.mem_map.mp hx
    rw [hDone branch hMem, List.length_nil]
  omega

theorem done_of_remaining_eq_zero {family : List (List α)} (hn : remaining family = 0) :
    Done family := by
  intro branch hMem
  have h := List.sum_eq_zero_iff_forall_eq_nat.mp hn _ (List.mem_map.mpr ⟨branch, hMem, rfl⟩)
  exact List.eq_nil_of_length_eq_zero h

def moves (family : List (List α)) : List (α × List (List α)) :=
  (List.range family.length).filterMap fun i =>
    match family[i]? with
    | some (a :: rest) => some (a, family.set i rest)
    | _ => none

theorem mem_moves_iff (family next : List (List α)) (a : α) :
    (a, next) ∈ moves family ↔
      ∃ (i : Nat) (rest : List α), family[i]? = some (a :: rest) ∧ next = family.set i rest := by
  simp only [moves, List.mem_filterMap, List.mem_range]
  constructor
  · rintro ⟨i, _, hi⟩
    split at hi
    · rename_i b rest hGet
      cases hi
      exact ⟨i, rest, hGet, rfl⟩
    · cases hi
  · rintro ⟨i, rest, hGet, rfl⟩
    refine ⟨i, (List.getElem?_eq_some_iff.mp hGet).1, ?_⟩
    rw [hGet]

theorem moves_eq_nil_iff (family : List (List α)) : moves family = [] ↔ Done family := by
  constructor
  · intro h
    rcases done_or_move family with hDone | ⟨i, a, rest, hMove⟩
    · exact hDone
    · have hMem := (mem_moves_iff family _ a).mpr ⟨i, rest, hMove, rfl⟩
      rw [h] at hMem
      cases hMem
  · intro h
    apply List.eq_nil_iff_forall_not_mem.mpr
    rintro ⟨a, next⟩ hMem
    obtain ⟨i, rest, hMove, _⟩ := (mem_moves_iff family next a).mp hMem
    exact h.no_move hMove

structure Picks (pick : List Int → Option Int) : Prop where
  isSome : ∀ l, l ≠ [] → (pick l).isSome
  mem : ∀ l x, pick l = some x → x ∈ l

theorem Picks.exists {pick : List Int → Option Int} (h : Picks pick) {l : List Int} (hNe : l ≠ []) :
    ∃ x ∈ l, pick l = some x := by
  obtain ⟨x, hx⟩ := Option.isSome_iff_exists.mp (h.isSome l hNe)
  exact ⟨x, h.mem l x hx, hx⟩

theorem picks_max : Picks List.max? := ⟨fun _ => List.isSome_max?_of_ne_nil, fun _ _ => List.max?_mem⟩

theorem picks_min : Picks List.min? := ⟨fun _ => List.isSome_min?_of_ne_nil, fun _ _ => List.min?_mem⟩

/-- What the extremal interleaving of at most `n` further moves needs. -/
def extremal (pick : List Int → Option Int) (before : α → Int → Int) :
    Nat → List (List α) → Int
  | 0, _ => 0
  | n + 1, family =>
    (pick ((moves family).map fun m => before m.1 (extremal pick before n m.2))).getD 0

def worst (before : α → Int → Int) : Nat → List (List α) → Int := extremal List.max? before

def least (before : α → Int → Int) : Nat → List (List α) → Int := extremal List.min? before

section

variable (pick : List Int → Option Int) (before : α → Int → Int)

theorem exists_move_extremal (hPick : Picks pick) (n : Nat) {family : List (List α)}
    (hNot : ¬ Done family) :
    ∃ (i : Nat) (a : α) (rest : List α), family[i]? = some (a :: rest) ∧
      extremal pick before (n + 1) family =
        before a (extremal pick before n (family.set i rest)) := by
  have hMoves : moves family ≠ [] := fun h => hNot ((moves_eq_nil_iff family).mp h)
  obtain ⟨x, hMem, hx⟩ := hPick.exists
    (l := (moves family).map fun m => before m.1 (extremal pick before n m.2)) (by simpa using hMoves)
  obtain ⟨⟨a, next⟩, hMove, rfl⟩ := List.mem_map.mp hMem
  obtain ⟨i, rest, hGet, rfl⟩ := (mem_moves_iff family next a).mp hMove
  refine ⟨i, a, rest, hGet, ?_⟩
  rw [extremal, hx]
  rfl

variable {family : List (List α)}

theorem exists_move_worst (n : Nat) (hNot : ¬ Done family) :
    ∃ (i : Nat) (a : α) (rest : List α), family[i]? = some (a :: rest) ∧
      worst before (n + 1) family = before a (worst before n (family.set i rest)) :=
  exists_move_extremal _ _ picks_max n hNot

theorem exists_move_least (n : Nat) (hNot : ¬ Done family) :
    ∃ (i : Nat) (a : α) (rest : List α), family[i]? = some (a :: rest) ∧
      least before (n + 1) family = before a (least before n (family.set i rest)) :=
  exists_move_extremal _ _ picks_min n hNot

variable {i : Nat} {a : α} {rest : List α}

theorem mem_needs (f : List (List α) → Int) (hMove : family[i]? = some (a :: rest)) :
    before a (f (family.set i rest)) ∈ (moves family).map fun m => before m.1 (f m.2) :=
  List.mem_map.mpr ⟨(a, family.set i rest), (mem_moves_iff family _ a).mpr ⟨i, rest, hMove, rfl⟩, rfl⟩

theorem le_worst (n : Nat) (hMove : family[i]? = some (a :: rest)) :
    before a (worst before n (family.set i rest)) ≤ worst before (n + 1) family := by
  have hMem := mem_needs before (worst before n) hMove
  obtain ⟨x, hx⟩ := Option.isSome_iff_exists.mp (List.isSome_max?_of_mem hMem)
  have hWorst : worst before (n + 1) family = x := by
    rw [worst, extremal, ← worst, hx]
    rfl
  rw [hWorst]
  exact (List.max?_eq_some_iff.mp hx).2 _ hMem

theorem least_le (n : Nat) (hMove : family[i]? = some (a :: rest)) :
    least before (n + 1) family ≤ before a (least before n (family.set i rest)) := by
  have hMem := mem_needs before (least before n) hMove
  obtain ⟨x, hx⟩ := Option.isSome_iff_exists.mp (List.isSome_min?_of_mem hMem)
  have hLeast : least before (n + 1) family = x := by
    rw [least, extremal, ← least, hx]
    rfl
  rw [hLeast]
  exact (List.min?_eq_some_iff.mp hx).2 _ hMem

theorem extremal_nonneg {before : α → Int → Int} (hPick : Picks pick) (hBefore : ∀ a x, 0 ≤ before a x)
    (n : Nat) (family : List (List α)) : 0 ≤ extremal pick before n family := by
  cases n with
  | zero => exact le_rfl
  | succ n =>
    rw [extremal]
    cases hx : pick ((moves family).map fun m => before m.1 (extremal pick before n m.2)) with
    | none => exact le_rfl
    | some x =>
      obtain ⟨m, _, rfl⟩ := List.mem_map.mp (hPick.mem _ x hx)
      exact hBefore _ _

theorem worst_nonneg {before : α → Int → Int} (hBefore : ∀ a x, 0 ≤ before a x) (n : Nat)
    (family : List (List α)) : 0 ≤ worst before n family :=
  extremal_nonneg _ picks_max hBefore n family

theorem least_nonneg {before : α → Int → Int} (hBefore : ∀ a x, 0 ≤ before a x) (n : Nat)
    (family : List (List α)) : 0 ≤ least before n family :=
  extremal_nonneg _ picks_min hBefore n family

end

section

variable (w : α → Int)

end

end

end F1r3Node.Lib.Interleaving
