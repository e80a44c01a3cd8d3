import Mathlib.Data.List.Basic
import Mathlib.Order.WellFounded

/-! # Dominators and cuts

A node dominates another one if it is on every path from there, and a list of nodes cuts a node off if every path from
there meets the list.
-/

namespace F1r3Node.Lib

section

variable {α : Type} {below : α → α → Prop}

/-- The paths down from a node, to a node with nothing below it. -/
inductive Descent (below : α → α → Prop) : α → List α → Prop
  | stop {a : α} (h : ∀ b, ¬ below a b) : Descent below a [a]
  | down {a b : α} {path : List α} (h : below a b) (rest : Descent below b path) : Descent below a (a :: path)

variable {a : α} {path : List α}

theorem Descent.mem (h : Descent below a path) : a ∈ path := by
  cases h with
  | stop => exact List.mem_cons_self
  | down => exact List.mem_cons_self

theorem Descent.exists_below {c : α} (h : Descent below a path) (hc : c ∈ path)
    (hBelow : ∃ b, below c b) : ∃ b ∈ path, below c b := by
  induction h with
  | @stop a hStop =>
    obtain rfl := List.mem_singleton.mp hc
    obtain ⟨b, hb⟩ := hBelow
    exact absurd hb (hStop b)
  | @down a b path hDown hRest ih =>
    rcases List.mem_cons.mp hc with rfl | hc
    · exact ⟨b, List.mem_cons_of_mem _ hRest.mem, hDown⟩
    · obtain ⟨d, hd, hcd⟩ := ih hc
      exact ⟨d, List.mem_cons_of_mem _ hd, hcd⟩

variable (below) in
def Dominates (d a : α) : Prop := ∀ path, Descent below a path → d ∈ path

variable {d : α}

theorem Dominates.exists_below (h : Dominates below d a) (hne : d ≠ a) : ∃ b, below a b := by
  by_contra hNone
  rw [not_exists] at hNone
  exact hne (List.mem_singleton.mp (h [a] (.stop hNone)))

theorem Dominates.of_below {b : α} (h : Dominates below d a) (hne : d ≠ a) (hb : below a b) :
    Dominates below d b := by
  intro path hPath
  exact (List.mem_cons.mp (h (a :: path) (.down hb hPath))).resolve_left hne

variable (below) in
def Cuts (nodes : List α) (a : α) : Prop := ∀ path, Descent below a path → ∃ b ∈ nodes, b ∈ path

theorem Cuts.of_mem {nodes : List α} (h : a ∈ nodes) : Cuts below nodes a :=
  fun _ hPath => ⟨a, h, hPath.mem⟩

theorem Cuts.expand {head : α} {tail next : List α} (h : Cuts below (head :: tail) a)
    (hSome : ∃ b, below head b) (hHead : ∀ b, below head b → b ∈ next) (hTail : ∀ b ∈ tail, b ∈ next) :
    Cuts below next a := by
  intro path hPath
  obtain ⟨b, hb, hMem⟩ := h path hPath
  rcases List.mem_cons.mp hb with rfl | hb
  · obtain ⟨b', hMem', hBelow⟩ := hPath.exists_below hMem hSome
    exact ⟨b', hHead b' hBelow, hMem'⟩
  · exact ⟨b, hTail b hb, hMem⟩

theorem dominates_of_cuts (h : Cuts below [d] a) : Dominates below d a := by
  intro path hPath
  obtain ⟨b, hb, hMem⟩ := h path hPath
  rwa [List.mem_singleton.mp hb] at hMem

variable {rank : α → Int} (hRank : ∀ a b, below a b → rank b < rank a)

include hRank

theorem Descent.rank_lt {b : α} (h : Descent below a path) (hb : b ∈ path) (hne : b ≠ a) :
    rank b < rank a := by
  induction h with
  | stop => exact absurd (List.mem_singleton.mp hb) hne
  | @down a c path hDown hRest ih =>
    have hc := hRank a c hDown
    have hb := (List.mem_cons.mp hb).resolve_left hne
    by_cases hSame : b = c
    · rwa [hSame]
    · exact (ih hb hSame).trans hc

theorem exists_descent (hNonneg : ∀ a b, below a b → 0 ≤ rank b) (a : α) : ∃ path, Descent below a path := by
  by_cases hSome : ∃ b, below a b
  · obtain ⟨b, hb⟩ := hSome
    have hLower := hRank a b hb
    have hBound := hNonneg a b hb
    obtain ⟨path, hPath⟩ := exists_descent hNonneg b
    exact ⟨a :: path, .down hb hPath⟩
  · exact ⟨[a], .stop (not_exists.mp hSome)⟩
termination_by (rank a).toNat
decreasing_by omega

theorem Dominates.rank_lt (hNonneg : ∀ a b, below a b → 0 ≤ rank b) (h : Dominates below d a)
    (hne : d ≠ a) : rank d < rank a := by
  obtain ⟨path, hPath⟩ := exists_descent hRank hNonneg a
  exact hPath.rank_lt hRank (h path hPath) hne

end

end F1r3Node.Lib
