import Mathlib.Logic.Relation

/-! # Lineages in a forest

Every node has at most one parent. What two lineages have in common is the lineage of one node, their meet, and two
walks that always take the parent of the higher node come to it.
-/

namespace F1r3Node.Lib

variable {N : Type*} (parent : N → Option N)

/-- The node `a` is `n`, its parent, the parent of that, and so on. -/
def Lineage (a n : N) : Prop := Relation.ReflTransGen (fun x y => parent x = some y) n a

structure IsMeet (m a b : N) : Prop where
  left : Lineage parent m a
  right : Lineage parent m b
  lowest : ∀ c, Lineage parent c a → Lineage parent c b → Lineage parent c m

def Connected (a b : N) : Prop := ∃ c, Lineage parent c a ∧ Lineage parent c b

variable {parent} {a b c m p : N}

namespace Lineage

theorem refl (a : N) : Lineage parent a a := Relation.ReflTransGen.refl

theorem trans (hab : Lineage parent a b) (hbc : Lineage parent b c) : Lineage parent a c :=
  Relation.ReflTransGen.trans hbc hab

theorem of_parent (h : parent a = some p) : Lineage parent p a := Relation.ReflTransGen.single h

theorem total (hac : Lineage parent a c) (hbc : Lineage parent b c) : Lineage parent a b ∨ Lineage parent b a := by
  have hUnique : Relator.RightUnique fun x y => parent x = some y := fun x y z hy hz =>
    Option.some.inj (hy.symm.trans hz)
  exact (Relation.ReflTransGen.total_of_right_unique hUnique hac hbc).symm

end Lineage

theorem lineage_iff_of_parent (h : parent b = some p) : Lineage parent a b ↔ a = b ∨ Lineage parent a p := by
  rw [Lineage, Relation.ReflTransGen.cases_head_iff]
  constructor
  · rintro (hEq | ⟨q, hq, hRest⟩)
    · exact .inl hEq.symm
    · obtain rfl := Option.some.inj (h.symm.trans hq)
      exact .inr hRest
  · rintro (rfl | hRest)
    · exact .inl rfl
    · exact .inr ⟨p, h, hRest⟩

theorem lineage_iff_of_root (h : parent b = none) : Lineage parent a b ↔ a = b := by
  rw [Lineage, Relation.ReflTransGen.cases_head_iff]
  constructor
  · rintro (hEq | ⟨q, hq, -⟩)
    · exact hEq.symm
    · rw [h] at hq
      cases hq
  · rintro rfl
    exact .inl rfl

theorem IsMeet.self (a : N) : IsMeet parent a a a := ⟨.refl a, .refl a, fun _ hc _ => hc⟩

theorem IsMeet.symm (h : IsMeet parent m a b) : IsMeet parent m b a :=
  ⟨h.right, h.left, fun c hb ha => h.lowest c ha hb⟩

theorem IsMeet.of_parent (h : IsMeet parent m p b) (hParent : parent a = some p) (hNot : ¬ Lineage parent a b) :
    IsMeet parent m a b where
  left := h.left.trans (.of_parent hParent)
  right := h.right
  lowest c ha hb := by
    rcases (lineage_iff_of_parent hParent).mp ha with rfl | hp
    · exact absurd hb hNot
    · exact h.lowest c hp hb

theorem IsMeet.connected (h : IsMeet parent m a b) : Connected parent a b := ⟨m, h.left, h.right⟩

namespace Connected

theorem symm (h : Connected parent a b) : Connected parent b a := by
  obtain ⟨c, ha, hb⟩ := h
  exact ⟨c, hb, ha⟩

theorem parent_left (h : Connected parent a b) (hParent : parent a = some p) (hNot : ¬ Lineage parent a b) :
    Connected parent p b := by
  obtain ⟨c, ha, hb⟩ := h
  rcases (lineage_iff_of_parent hParent).mp ha with rfl | hp
  · exact absurd hb hNot
  · exact ⟨c, hp, hb⟩

theorem trans (hab : Connected parent a b) (hbc : Connected parent b c) : Connected parent a c := by
  obtain ⟨x, hxa, hxb⟩ := hab
  obtain ⟨y, hyb, hyc⟩ := hbc
  rcases hxb.total hyb with hxy | hyx
  · exact ⟨x, hxa, hxy.trans hyc⟩
  · exact ⟨y, hyx.trans hxa, hyc⟩

end Connected

theorem not_connected_of_root (hRoot : parent a = none) (hNot : ¬ Lineage parent a b) : ¬ Connected parent a b := by
  rintro ⟨c, ha, hb⟩
  obtain rfl := (lineage_iff_of_root hRoot).mp ha
  exact hNot hb

section Height

variable {height : N → Int} (hLower : ∀ x y, parent x = some y → height y < height x)

include hLower

theorem Lineage.eq_or_height_lt (h : Lineage parent a b) : a = b ∨ height a < height b := by
  induction h with
  | refl => exact .inl rfl
  | @tail x y _ hStep ih =>
    have hLt := hLower x y hStep
    rcases ih with rfl | hLt'
    · exact .inr hLt
    · exact .inr (by omega)

theorem not_lineage_of_height_le (hNe : a ≠ b) (hLe : height b ≤ height a) : ¬ Lineage parent a b := by
  intro h
  rcases h.eq_or_height_lt hLower with hEq | hLt
  · exact hNe hEq
  · omega

end Height

end F1r3Node.Lib
