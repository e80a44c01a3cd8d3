import Mathlib.Data.List.Forall2

/-! # Lists related element by element -/

namespace F1r3Node.Lib

variable {α β : Type} {R : α → β → Prop} {as : List α} {bs : List β}

theorem exists_left_of_forall₂ (hRel : List.Forall₂ R as bs) {b : β} (hMem : b ∈ bs) : ∃ a ∈ as, R a b := by
  induction hRel with
  | nil => cases hMem
  | cons hHead _ ih =>
    rcases List.mem_cons.mp hMem with rfl | hMem
    · exact ⟨_, List.mem_cons_self, hHead⟩
    · obtain ⟨a, ha, hRel⟩ := ih hMem
      exact ⟨a, List.mem_cons_of_mem _ ha, hRel⟩

theorem exists_right_of_forall₂ (hRel : List.Forall₂ R as bs) {a : α} (hMem : a ∈ as) : ∃ b ∈ bs, R a b :=
  exists_left_of_forall₂ hRel.flip hMem

theorem forall₂_imp_of_mem_left {S : α → β → Prop} (hRel : List.Forall₂ R as bs)
    (hStep : ∀ a ∈ as, ∀ b, R a b → S a b) : List.Forall₂ S as bs := by
  induction hRel with
  | nil => exact .nil
  | cons hHead _ ih =>
    obtain ⟨hFirst, hRest⟩ := List.forall_mem_cons.mp hStep
    exact .cons (hFirst _ hHead) (ih hRest)

theorem pairwise_of_forall₂ {S : α → α → Prop} {T : β → β → Prop}
    (hStep : ∀ {a a' b b'}, S a a' → R a b → R a' b' → T b b')
    (hRel : List.Forall₂ R as bs) (hPairwise : as.Pairwise S) : bs.Pairwise T := by
  induction hRel with
  | nil => exact .nil
  | @cons a b as bs hHead hTail ih =>
    obtain ⟨hFirst, hRest⟩ := List.pairwise_cons.mp hPairwise
    refine List.pairwise_cons.mpr ⟨fun b' hMem => ?_, ih hRest⟩
    obtain ⟨a', ha', hRel'⟩ := exists_left_of_forall₂ hTail hMem
    exact hStep (hFirst a' ha') hHead hRel'

theorem countP_le_of_forall₂ {p : α → Bool} {q : β → Bool}
    (hStep : ∀ {a b}, R a b → q b → p a) (hRel : List.Forall₂ R as bs) :
    bs.countP q ≤ as.countP p := by
  induction hRel with
  | nil => exact Nat.le_refl _
  | @cons a b as bs hHead _ ih =>
    rw [List.countP_cons, List.countP_cons]
    by_cases hq : q b
    · rw [if_pos hq, if_pos (hStep hHead hq)]
      omega
    · rw [if_neg hq]
      omega

theorem map_eq_of_forall₂ {γ : Type} {f : α → γ} {g : β → γ} (hRel : List.Forall₂ R as bs)
    (hStep : ∀ a ∈ as, ∀ b, R a b → f a = g b) : as.map f = bs.map g := by
  induction hRel with
  | nil => rfl
  | cons hHead _ ih =>
    rw [List.map_cons, List.map_cons, hStep _ List.mem_cons_self _ hHead,
      ih fun a ha => hStep a (List.mem_cons_of_mem _ ha)]

theorem exists_eq_map_of_forall {α β : Type*} {f : β → α} {P : β → Prop} {as : List α}
    (h : ∀ a ∈ as, ∃ b, P b ∧ a = f b) : ∃ bs : List β, as = bs.map f ∧ ∀ b ∈ bs, P b := by
  induction as with
  | nil => exact ⟨[], rfl, by simp⟩
  | cons a as ih =>
    obtain ⟨b, hb, rfl⟩ := h a List.mem_cons_self
    obtain ⟨bs, rfl, hbs⟩ := ih fun a' ha' => h a' (List.mem_cons_of_mem _ ha')
    exact ⟨b :: bs, rfl, List.forall_mem_cons.mpr ⟨hb, hbs⟩⟩

end F1r3Node.Lib
