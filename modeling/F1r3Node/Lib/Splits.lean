import Mathlib.Data.Set.Prod

/-! # Splitting a list in two

A split gives every entry of a list to one of two parts and keeps the order in both.
-/

namespace F1r3Node.Lib

section

variable {α : Type*}

inductive Split : List α → List α → List α → Prop
  | nil : Split [] [] []
  | left {as sub rest : List α} (a : α) : Split as sub rest → Split (a :: as) (a :: sub) rest
  | right {as sub rest : List α} (a : α) : Split as sub rest → Split (a :: as) sub (a :: rest)

variable {as sub rest : List α}

theorem Split.length_add (h : Split as sub rest) : sub.length + rest.length = as.length := by
  induction h with
  | nil => rfl
  | left a _ ih | right a _ ih =>
    simp only [List.length_cons]
    omega

theorem split_nil_left : Split as [] rest ↔ rest = as := by
  constructor
  · intro h
    generalize hSub : ([] : List α) = sub at h
    induction h with
    | nil => rfl
    | left a _ _ => cases hSub
    | right a _ ih => rw [ih hSub]
  · rintro rfl
    induction rest with
    | nil => exact .nil
    | cons a rest ih => exact .right a ih

theorem split_nil_right : Split as sub [] ↔ sub = as := by
  constructor
  · intro h
    generalize hRest : ([] : List α) = rest at h
    induction h with
    | nil => rfl
    | left a _ ih => rw [ih hRest]
    | right a _ _ => cases hRest
  · rintro rfl
    induction sub with
    | nil => exact .nil
    | cons a sub ih => exact .left a ih

theorem split_cons {a : α} :
    Split (a :: as) sub rest ↔
      (∃ tail, sub = a :: tail ∧ Split as tail rest) ∨ ∃ tail, rest = a :: tail ∧ Split as sub tail := by
  constructor
  · rintro (_ | ⟨_, h⟩ | ⟨_, h⟩)
    · exact .inl ⟨_, rfl, h⟩
    · exact .inr ⟨_, rfl, h⟩
  · rintro (⟨tail, rfl, h⟩ | ⟨tail, rfl, h⟩)
    · exact .left a h
    · exact .right a h

theorem exists_split (as : List α) {k : Nat} (h : k ≤ as.length) : ∃ sub rest, Split as sub rest ∧ sub.length = k := by
  induction as generalizing k with
  | nil => exact ⟨[], [], .nil, (Nat.le_zero.mp h).symm⟩
  | cons a as ih =>
    cases k with
    | zero => exact ⟨[], a :: as, split_nil_left.mpr rfl, rfl⟩
    | succ k =>
      obtain ⟨sub, rest, hSplit, rfl⟩ := ih (by simpa using h)
      exact ⟨a :: sub, rest, .left a hSplit, rfl⟩

end

/-- What decides whether two sets are equal, when both may also be empty for reasons of their own. -/
structure Agreement {α : Type*} (s s' : Set α) (same none none' : Prop) : Prop where
  eq_iff : s = s' ↔ same ∨ none ∧ none'
  empty_iff : s = ∅ ↔ none
  empty_iff' : s' = ∅ ↔ none'

theorem Agreement.prod {α β : Type*} {s s' : Set α} {t t' : Set β} {same none none' same₂ none₂ none₂' : Prop}
    (h : Agreement s s' same none none') (h₂ : Agreement t t' same₂ none₂ none₂') :
    Agreement (s ×ˢ t) (s' ×ˢ t') (same ∧ same₂) (none ∨ none₂) (none' ∨ none₂') := by
  refine ⟨?_, ?_, ?_⟩
  · rw [Set.prod_eq_prod_iff, h.eq_iff, h₂.eq_iff, h.empty_iff, h.empty_iff', h₂.empty_iff, h₂.empty_iff']
    constructor
    · rintro (⟨hFirst | ⟨hn, hn'⟩, hSecond | ⟨hm, hm'⟩⟩ | hNone)
      · exact .inl ⟨hFirst, hSecond⟩
      · exact .inr ⟨.inr hm, .inr hm'⟩
      · exact .inr ⟨.inl hn, .inl hn'⟩
      · exact .inr ⟨.inl hn, .inl hn'⟩
      · exact .inr hNone
    · rintro (⟨hFirst, hSecond⟩ | hNone)
      · exact .inl ⟨.inl hFirst, .inl hSecond⟩
      · exact .inr hNone
  · rw [Set.prod_eq_empty_iff, h.empty_iff, h₂.empty_iff]
  · rw [Set.prod_eq_empty_iff, h.empty_iff', h₂.empty_iff']

end F1r3Node.Lib
