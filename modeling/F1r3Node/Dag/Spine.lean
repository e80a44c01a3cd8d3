import F1r3Node.Dag.Estimator
import F1r3Node.Lib.Counting

/-! # The chain of main parents

Following main parents from a block gives one chain, on which block numbers fall. Two blocks on the chain of a
third are therefore on each other's chains.
-/

namespace F1r3Node.Dag

open Shared Lib

namespace KeyValueDagRepresentation

variable (dag : KeyValueDagRepresentation)

def FullyHeld : Prop :=
  ∀ hash metadata, dag.lookup hash = some metadata → ∀ parent ∈ metadata.parents, ∃ m, dag.lookup parent = some m

/-- The block `ancestor` is on the main-parent spine of `descendant`. -/
def OnSpine (ancestor descendant : Bytes) : Prop :=
  Relation.ReflTransGen (fun x y => dag.mainParent x = some y) descendant ancestor

def countBelow (height : Int) : Nat := dag.records.countP (·.blockNumber < height)

def countAbove (height : Int) : Nat := dag.records.countP (height < ·.blockNumber)

variable {dag}

theorem countBelow_le (height : Int) : dag.countBelow height ≤ dag.records.length := List.countP_le_length

theorem countAbove_le (height : Int) : dag.countAbove height ≤ dag.records.length := List.countP_le_length

variable {hash : Bytes} {m : BlockMetadata}

theorem mem_records_of_lookup (h : dag.lookup hash = some m) : m ∈ dag.records := by
  rw [mem_records, blockHash_of_lookup h]
  exact h

theorem countBelow_lt (h : dag.lookup hash = some m) {height : Int}
    (hLt : m.blockNumber < height) : dag.countBelow m.blockNumber < dag.countBelow height := by
  refine countP_lt_countP (fun a _ ha => ?_) (mem_records_of_lookup h) (decide_eq_true hLt)
    (decide_eq_false (Int.lt_irrefl _))
  rw [decide_eq_true_iff] at ha ⊢
  omega

theorem countAbove_lt (h : dag.lookup hash = some m) {height : Int}
    (hLt : height < m.blockNumber) : dag.countAbove m.blockNumber < dag.countAbove height := by
  refine countP_lt_countP (fun a _ ha => ?_) (mem_records_of_lookup h) (decide_eq_true hLt)
    (decide_eq_false (Int.lt_irrefl _))
  rw [decide_eq_true_iff] at ha ⊢
  omega

variable {parent : Bytes}

theorem mainParent_eq_some :
    dag.mainParent hash = some parent ↔ ∃ m, dag.lookup hash = some m ∧ m.parents.head? = some parent := by
  rw [mainParent, Option.bind_eq_some_iff]

theorem fullyHeld_iff : dag.FullyHeld ↔ ∀ m ∈ dag.records, ∀ parent ∈ m.parents,
    parent ∈ dag.records.map (·.blockHash) := by
  constructor
  · intro h m hm parent hParent
    obtain ⟨p, hp⟩ := h m.blockHash m (mem_records.mp hm) parent hParent
    exact List.mem_map.mpr ⟨p, mem_records_of_lookup hp, blockHash_of_lookup hp⟩
  · intro h hash m hm parent hParent
    obtain ⟨p, hp, rfl⟩ := List.mem_map.mp (h m (mem_records_of_lookup hm) parent hParent)
    exact ⟨p, mem_records.mp hp⟩

theorem FullyHeld.mainParent (hHeld : dag.FullyHeld)
    (h : dag.lookup hash = some m) (hParent : m.parents.head? = some parent) :
    ∃ p, dag.lookup parent = some p ∧ p.blockNumber < m.blockNumber := by
  have hMem := List.mem_of_head? hParent
  obtain ⟨p, hp⟩ := hHeld hash m h parent hMem
  exact ⟨p, hp, dag.parents_lower hash m h parent hMem p hp⟩

theorem blockNumber_lt_of_mainParent {p : BlockMetadata} (h : dag.lookup hash = some m)
    (hp : dag.lookup parent = some p) (hParent : dag.mainParent hash = some parent) : p.blockNumber < m.blockNumber := by
  obtain ⟨m', hm', hHead⟩ := mainParent_eq_some.mp hParent
  obtain rfl := Option.some.inj (h.symm.trans hm')
  exact dag.parents_lower hash m h parent (List.mem_of_head? hHead) p hp

namespace OnSpine

theorem refl (hash : Bytes) : dag.OnSpine hash hash := Relation.ReflTransGen.refl

variable {a b c : Bytes}

theorem trans (hab : dag.OnSpine a b) (hbc : dag.OnSpine b c) : dag.OnSpine a c :=
  Relation.ReflTransGen.trans hbc hab

theorem total (ha : dag.OnSpine a c) (hb : dag.OnSpine b c) : dag.OnSpine a b ∨ dag.OnSpine b a := by
  have hUnique : Relator.RightUnique fun x y => dag.mainParent x = some y := fun x y z hy hz =>
    Option.some.inj (hy.symm.trans hz)
  exact (Relation.ReflTransGen.total_of_right_unique hUnique ha hb).symm

theorem blockNumber_lt (h : dag.OnSpine a b) (hNe : a ≠ b) {ma mb : BlockMetadata}
    (ha : dag.lookup a = some ma) (hb : dag.lookup b = some mb) : ma.blockNumber < mb.blockNumber := by
  induction h using Relation.ReflTransGen.head_induction_on generalizing mb with
  | refl => exact absurd rfl hNe
  | @head x y hStep hRest ih =>
    obtain ⟨m, hm, hHead⟩ := mainParent_eq_some.mp hStep
    obtain rfl := Option.some.inj (hm.symm.trans hb)
    rcases eq_or_ne a y with rfl | hNe'
    · exact blockNumber_lt_of_mainParent hb ha hStep
    · obtain hEq | ⟨z, hyz, -⟩ := Relation.ReflTransGen.cases_head hRest
      · exact absurd hEq.symm hNe'
      · obtain ⟨my, hmy, -⟩ := mainParent_eq_some.mp hyz
        exact (ih hNe' hmy).trans (blockNumber_lt_of_mainParent hb hmy hStep)

theorem blockNumber_le (h : dag.OnSpine a b) {ma mb : BlockMetadata} (ha : dag.lookup a = some ma)
    (hb : dag.lookup b = some mb) : ma.blockNumber ≤ mb.blockNumber := by
  rcases eq_or_ne a b with rfl | hNe
  · rw [Option.some.inj (ha.symm.trans hb)]
  · exact (h.blockNumber_lt hNe ha hb).le

theorem exists_child (h : dag.OnSpine a b) (hNe : a ≠ b) :
    ∃ child, dag.mainParent child = some a ∧ dag.OnSpine child b := by
  obtain hEq | ⟨child, hRest, hStep⟩ := Relation.ReflTransGen.cases_tail h
  · exact absurd hEq hNe
  · exact ⟨child, hStep, hRest⟩

theorem child_unique {parent : Bytes} (ha : dag.mainParent a = some parent) (hb : dag.mainParent b = some parent)
    (hac : dag.OnSpine a c) (hbc : dag.OnSpine b c) {m : BlockMetadata} (hParent : dag.lookup parent = some m) :
    a = b := by
  have hAsym : ∀ {a b : Bytes}, dag.mainParent a = some parent → dag.mainParent b = some parent → dag.OnSpine a b →
      a = b := by
    intro a b ha hb hab
    obtain hEq | ⟨p, hStep, hRest⟩ := Relation.ReflTransGen.cases_head hab
    · exact hEq.symm
    · obtain rfl := Option.some.inj (hStep.symm.trans hb)
      obtain ⟨ma, hma, -⟩ := mainParent_eq_some.mp ha
      have hLt := blockNumber_lt_of_mainParent hma hParent ha
      have hRest : dag.OnSpine a p := hRest
      have hLe := hRest.blockNumber_le hma hParent
      omega
  rcases hac.total hbc with h | h
  · exact hAsym ha hb h
  · exact (hAsym hb ha h).symm

end OnSpine

theorem mem_children {child : Bytes} :
    child ∈ dag.children hash ↔ ∃ m, dag.lookup child = some m ∧ hash ∈ m.parents := by
  rw [children, List.mem_map]
  constructor
  · rintro ⟨m, hMem, rfl⟩
    obtain ⟨hRecord, hParent⟩ := List.mem_filter.mp hMem
    exact ⟨m, mem_records.mp hRecord, of_decide_eq_true hParent⟩
  · rintro ⟨m, hLookup, hParent⟩
    exact ⟨m, List.mem_filter.mpr ⟨mem_records_of_lookup hLookup, decide_eq_true hParent⟩,
      blockHash_of_lookup hLookup⟩

theorem mem_children_of_mainParent {child : Bytes} (h : dag.mainParent child = some hash) :
    child ∈ dag.children hash := by
  obtain ⟨m, hLookup, hHead⟩ := mainParent_eq_some.mp h
  exact mem_children.mpr ⟨m, hLookup, List.mem_of_head? hHead⟩

end KeyValueDagRepresentation

end F1r3Node.Dag
