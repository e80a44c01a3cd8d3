import F1r3Node.Rholang.SubPars

/-! # Which splits are enumerated

A slot with a choice of two or more components gets entries in which a component stands on both sides.
-/

namespace F1r3Node.Rholang

open F1r3Node.Lib

namespace SlotCount

def Taken (c : SlotCount) (k : Nat) : Prop := c.minSize ≤ k ∧ (k : Int) ≤ c.maxSize

def Meant (c : SlotCount) (k : Nat) : Prop :=
  c.min ≤ k ∧ k ≤ c.max ∧ c.minPrune + k ≤ c.len ∧ c.len ≤ c.maxPrune + k

/-- Signed arithmetic keeps the bounds, and the enumeration does not reach the branch that doubles. -/
structure Exact (c : SlotCount) : Prop where
  taken_iff : ∀ k ≤ c.len, c.Taken k ↔ c.Meant k
  plain : Plain c.len c.minSize c.maxSize

end SlotCount

section

variable {A : Type}

structure SlotSplit (as : List A) (c : SlotCount) (sub rest : List A) : Prop where
  split : Split as sub rest
  min_le : c.min ≤ sub.length
  le_max : sub.length ≤ c.max
  minPrune_le : c.minPrune ≤ rest.length
  le_maxPrune : rest.length ≤ c.maxPrune

theorem slotSplit_iff {as : List A} {c : SlotCount} (hLen : c.len = as.length) {sub rest : List A} :
    SlotSplit as c sub rest ↔ Split as sub rest ∧ c.Meant sub.length := by
  constructor
  · intro h
    have hSize := h.split.length_add
    have := h.minPrune_le
    have := h.le_maxPrune
    exact ⟨h.split, h.min_le, h.le_max, by omega, by omega⟩
  · rintro ⟨hSplit, hMin, hMax, hMinPrune, hMaxPrune⟩
    have hSize := hSplit.length_add
    exact ⟨hSplit, hMin, hMax, by omega, by omega⟩

section

variable (as : List A) (c : SlotCount) (hLen : c.len = as.length)

include as c hLen

theorem slot_eq_iff :
    {x | x ∈ slotSubsets as c} = {x | SlotSplit as c x.1 x.2} ↔ c.Exact := by
  constructor
  · intro h
    have hMem (x : List A × List A) : x ∈ slotSubsets as c ↔ SlotSplit as c x.1 x.2 := by
      exact Set.ext_iff.mp h x
    have hPlain : Plain as.length c.minSize c.maxSize :=
      plain_of_forall_split fun x hx => ((hMem x).mp hx).split
    refine ⟨fun k hk => ?_, hLen ▸ hPlain⟩
    obtain ⟨sub, rest, hSplit, rfl⟩ := exists_split as (hLen ▸ hk)
    have hIff := hMem (sub, rest)
    rw [slotSplit_iff hLen, slotSubsets, mem_minMaxSubsets_of_plain hPlain] at hIff
    simpa [hSplit, SlotCount.Taken] using hIff
  · intro h
    ext x
    rw [Set.mem_ofPred_eq, Set.mem_ofPred_eq, slotSplit_iff hLen, slotSubsets,
      mem_minMaxSubsets_of_plain (hLen ▸ h.plain)]
    exact and_congr_right fun hSplit => h.taken_iff _ (by have := hSplit.length_add; omega)

theorem slotSubsets_eq_empty_iff :
    {x | x ∈ slotSubsets as c} = ∅ ↔ ∀ k ≤ c.len, ¬ c.Taken k := by
  rw [Set.eq_empty_iff_forall_notMem]
  constructor
  · intro h k hk hTaken
    have hPlain : Plain as.length c.minSize c.maxSize := plain_of_forall_split fun x hx => (h x hx).elim
    obtain ⟨sub, rest, hSplit, rfl⟩ := exists_split as (hLen ▸ hk)
    exact h (sub, rest) ((mem_minMaxSubsets_of_plain hPlain).mpr ⟨hSplit, hTaken⟩)
  · intro h x hx
    by_cases hPlain : Plain as.length c.minSize c.maxSize
    · obtain ⟨hSplit, hTaken⟩ := (mem_minMaxSubsets_of_plain hPlain).mp hx
      exact h x.1.length (by have := hSplit.length_add; omega) hTaken
    · simp only [Plain] at hPlain
      exact h c.minSize.toNat (by omega) ⟨by omega, by omega⟩

theorem slotSplit_eq_empty_iff :
    {x : List A × List A | SlotSplit as c x.1 x.2} = ∅ ↔ ∀ k ≤ c.len, ¬ c.Meant k := by
  rw [Set.eq_empty_iff_forall_notMem]
  constructor
  · intro h k hk hMeant
    obtain ⟨sub, rest, hSplit, rfl⟩ := exists_split as (hLen ▸ hk)
    exact h (sub, rest) ((slotSplit_iff hLen).mpr ⟨hSplit, hMeant⟩)
  · intro h x hx
    obtain ⟨hSplit, hMeant⟩ := (slotSplit_iff hLen).mp hx
    exact h x.1.length (by have := hSplit.length_add; omega) hMeant

end

end

/-- An admissible split of a process. Both parts have components in the seven slots only. -/
structure ParSplit (p : Par) (count : Slot → SlotCount) (sub rest : Par) : Prop where
  sends : SlotSplit p.sends (count .sends) sub.sends rest.sends
  receives : SlotSplit p.receives (count .receives) sub.receives rest.receives
  news : SlotSplit p.news (count .news) sub.news rest.news
  exprs : SlotSplit p.exprs (count .exprs) sub.exprs rest.exprs
  matchProcs : SlotSplit p.matchProcs (count .matchProcs) sub.matchProcs rest.matchProcs
  unforgeables : SlotSplit p.unforgeables (count .unforgeables) sub.unforgeables rest.unforgeables
  bundles : SlotSplit p.bundles (count .bundles) sub.bundles rest.bundles
  sub_eq : sub.onlySlots = sub
  rest_eq : rest.onlySlots = rest

section

variable (p : Par) (min max minPrune maxPrune : ParCount)

def EnumeratesSplits : Prop :=
  ∀ sub rest, (sub, rest) ∈ subPars p min max minPrune maxPrune ↔
    ParSplit p (slotCount p min max minPrune maxPrune) sub rest

theorem assemble_injective : Function.Injective assemble := by
  rintro ⟨⟨⟨⟨⟨⟨s, r⟩, n⟩, e⟩, m⟩, u⟩, b⟩ ⟨⟨⟨⟨⟨⟨s', r'⟩, n'⟩, e'⟩, m'⟩, u'⟩, b'⟩ h
  simp only [assemble, Term.ofSlots, Prod.mk.injEq, Term.par.injEq, Term.ofList_injective.eq_iff, and_true] at h
  obtain ⟨⟨hs, hr, hn, he, hm, hu, hb⟩, hs', hr', hn', he', hm', hu', hb'⟩ := h
  simp only [Prod.ext_iff, hs, hr, hn, he, hm, hu, hb, hs', hr', hn', he', hm', hu', hb', and_self]

theorem slot_agreement {A : Type} (as : List A) (c : SlotCount) (hLen : c.len = as.length) :
    Agreement {x | x ∈ slotSubsets as c} {x | SlotSplit as c x.1 x.2} c.Exact (∀ k ≤ c.len, ¬ c.Taken k)
      (∀ k ≤ c.len, ¬ c.Meant k) where
  eq_iff := by
    rw [slot_eq_iff as c hLen]
    refine (or_iff_left_of_imp ?_).symm
    rintro ⟨hTaken, hMeant⟩
    rw [← slot_eq_iff as c hLen, (slotSubsets_eq_empty_iff as c hLen).mpr hTaken,
      (slotSplit_eq_empty_iff as c hLen).mpr hMeant]
  empty_iff := slotSubsets_eq_empty_iff as c hLen
  empty_iff' := slotSplit_eq_empty_iff as c hLen

def combined (chosen : {A : Type} → List A → SlotCount → Set (List A × List A)) (count : Slot → SlotCount) :
    Set SlotParts :=
  (((((chosen p.sends (count .sends) ×ˢ chosen p.receives (count .receives)) ×ˢ chosen p.news (count .news)) ×ˢ
    chosen p.exprs (count .exprs)) ×ˢ chosen p.matchProcs (count .matchProcs)) ×ˢ
    chosen p.unforgeables (count .unforgeables)) ×ˢ chosen p.bundles (count .bundles)

theorem mem_subPars_iff (x : Par × Par) :
    x ∈ subPars p min max minPrune maxPrune ↔
      x ∈ assemble '' combined p (fun as c => {y | y ∈ slotSubsets as c}) (slotCount p min max minPrune maxPrune) := by
  simp only [subPars, List.mem_map, Set.mem_image, combined]
  apply exists_congr
  rintro ⟨⟨⟨⟨⟨⟨s, r⟩, n⟩, e⟩, m⟩, u⟩, b⟩
  simp [and_assoc]

theorem parSplit_iff (count : Slot → SlotCount) (x : Par × Par) :
    ParSplit p count x.1 x.2 ↔ x ∈ assemble '' combined p (fun as c => {y | SlotSplit as c y.1 y.2}) count := by
  obtain ⟨sub, rest⟩ := x
  constructor
  · intro h
    refine ⟨((((((⟨sub.sends, rest.sends⟩, ⟨sub.receives, rest.receives⟩), ⟨sub.news, rest.news⟩),
      ⟨sub.exprs, rest.exprs⟩), ⟨sub.matchProcs, rest.matchProcs⟩), ⟨sub.unforgeables, rest.unforgeables⟩),
      ⟨sub.bundles, rest.bundles⟩), ?_, ?_⟩
    · exact ⟨⟨⟨⟨⟨⟨h.sends, h.receives⟩, h.news⟩, h.exprs⟩, h.matchProcs⟩, h.unforgeables⟩, h.bundles⟩
    · exact congrArg₂ Prod.mk h.sub_eq h.rest_eq
  · rintro ⟨⟨⟨⟨⟨⟨⟨s, r⟩, n⟩, e⟩, m⟩, u⟩, b⟩, ⟨⟨⟨⟨⟨⟨hs, hr⟩, hn⟩, he⟩, hm⟩, hu⟩, hb⟩, hEq⟩
    obtain ⟨rfl, rfl⟩ := Prod.mk.inj hEq
    exact ⟨by simpa, by simpa, by simpa, by simpa, by simpa, by simpa, by simpa, by simp [Term.onlySlots],
      by simp [Term.onlySlots]⟩

theorem forall_slot {P : Slot → Prop} :
    (∀ slot, P slot) ↔ (((((P .sends ∧ P .receives) ∧ P .news) ∧ P .exprs) ∧ P .matchProcs) ∧ P .unforgeables) ∧
      P .bundles := by
  constructor
  · intro h
    exact ⟨⟨⟨⟨⟨⟨h _, h _⟩, h _⟩, h _⟩, h _⟩, h _⟩, h _⟩
  · rintro ⟨⟨⟨⟨⟨⟨hs, hr⟩, hn⟩, he⟩, hm⟩, hu⟩, hb⟩ slot
    cases slot <;> assumption

theorem exists_slot {P : Slot → Prop} :
    (∃ slot, P slot) ↔ (((((P .sends ∨ P .receives) ∨ P .news) ∨ P .exprs) ∨ P .matchProcs) ∨ P .unforgeables) ∨
      P .bundles := by
  rw [← not_iff_not]
  push Not
  exact forall_slot

theorem enumeratesSplits_iff_combined_eq :
    EnumeratesSplits p min max minPrune maxPrune ↔
      combined p (fun as c => {y | y ∈ slotSubsets as c}) (slotCount p min max minPrune maxPrune) =
        combined p (fun as c => {y | SlotSplit as c y.1 y.2}) (slotCount p min max minPrune maxPrune) := by
  rw [← assemble_injective.image_injective.eq_iff, Set.ext_iff, Prod.forall]
  simp only [EnumeratesSplits, mem_subPars_iff, parSplit_iff _ _ (_, _)]

theorem combined_agreement {count : Slot → SlotCount} (h : count = slotCount p min max minPrune maxPrune) :
    Agreement (combined p (fun as c => {y | y ∈ slotSubsets as c}) count)
      (combined p (fun as c => {y | SlotSplit as c y.1 y.2}) count) (∀ slot, (count slot).Exact)
      (∃ slot, ∀ k ≤ (count slot).len, ¬ (count slot).Taken k)
      (∃ slot, ∀ k ≤ (count slot).len, ¬ (count slot).Meant k) := by
  rw [forall_slot, exists_slot, exists_slot]
  subst h
  exact ((((((slot_agreement p.sends _ rfl).prod (slot_agreement p.receives _ rfl)).prod
    (slot_agreement p.news _ rfl)).prod (slot_agreement p.exprs _ rfl)).prod (slot_agreement p.matchProcs _ rfl)).prod
    (slot_agreement p.unforgeables _ rfl)).prod (slot_agreement p.bundles _ rfl)

/-- A slot is enumerated as meant when at most one of its components can be taken or all of them have to be.
Other slots do no harm only where the whole enumeration is empty and nothing is meant. -/
theorem enumeratesSplits_iff :
    EnumeratesSplits p min max minPrune maxPrune ↔
      (∀ slot, (slotCount p min max minPrune maxPrune slot).Exact) ∨
        (∃ slot, ∀ k ≤ (slotCount p min max minPrune maxPrune slot).len,
          ¬ (slotCount p min max minPrune maxPrune slot).Taken k) ∧
        ∃ slot, ∀ k ≤ (slotCount p min max minPrune maxPrune slot).len,
          ¬ (slotCount p min max minPrune maxPrune slot).Meant k := by
  rw [enumeratesSplits_iff_combined_eq]
  exact (combined_agreement p min max minPrune maxPrune rfl).eq_iff

end

def noneOf : ParCount := ⟨0, 0, 0, 0, 0, 0, 0⟩

/-- Two numbers in parallel, any of which may be taken. -/
theorem not_enumeratesSplits_two_exprs :
    ¬ EnumeratesSplits (Term.ofSlots [] [] [] [.ground (.gInt 1), .ground (.gInt 2)] [] [] []) noneOf
      { noneOf with exprs := 2 } noneOf { noneOf with exprs := 2 } := by
  intro h
  have hMem := (h (Term.ofSlots [] [] [] [.ground (.gInt 1), .ground (.gInt 2)] [] [] [])
    (Term.ofSlots [] [] [] [.ground (.gInt 1)] [] [] [])).mp
    (List.mem_cons_of_mem _ (List.mem_cons_of_mem _ List.mem_cons_self))
  have hSize := hMem.exprs.split.length_add
  simp at hSize

end F1r3Node.Rholang
