import F1r3Node.Lib.KeyedFolds
import F1r3Node.Merging.MergedState

/-! # Diffs of one number channel

Their merge types have to agree, and a sum is checked against the bound after every step, so the exact total is known
but which orders reach it is not.
-/

namespace F1r3Node.Merging

open Shared Lib KeyedFolds

theorem eq_of_testBit_eq {a b : Int} (h : ∀ i, a.testBit i = b.testBit i) : a = b := by
  -- beyond its length a number has the bits of its sign
  have hSigns : ∀ m n : Nat, ∃ i, Int.testBit m i ≠ Int.testBit (Int.negSucc n) i := by
    intro m n
    refine ⟨m + n, ?_⟩
    have hm : m.testBit (m + n) = false := Nat.testBit_lt_two_pow (by
      calc m < 2 ^ m := Nat.lt_two_pow_self
        _ ≤ 2 ^ (m + n) := Nat.pow_le_pow_right (by omega) (by omega))
    have hn : n.testBit (m + n) = false := Nat.testBit_lt_two_pow (by
      calc n < 2 ^ n := Nat.lt_two_pow_self
        _ ≤ 2 ^ (m + n) := Nat.pow_le_pow_right (by omega) (by omega))
    simp [Int.testBit, hm, hn]
  cases a with
  | ofNat m =>
    cases b with
    | ofNat n => exact congrArg Int.ofNat (Nat.eq_of_testBit_eq h)
    | negSucc n =>
      obtain ⟨i, hi⟩ := hSigns m n
      exact absurd (h i) hi
  | negSucc m =>
    cases b with
    | ofNat n =>
      obtain ⟨i, hi⟩ := hSigns n m
      exact absurd (h i).symm hi
    | negSucc n => exact congrArg Int.negSucc (Nat.eq_of_testBit_eq fun i => Bool.not_inj (h i))

namespace MergeType

def fuse : MergeType → Int → Int → Int
  | .integerAdd, a, b => a + b
  | .bitmaskOr, a, b => a.lor b

instance (t : MergeType) : Std.Commutative t.fuse := ⟨by
  intro a b
  cases t with
  | integerAdd => exact Int.add_comm a b
  | bitmaskOr => exact eq_of_testBit_eq fun i => by rw [fuse, fuse, Int.testBit_lor, Int.testBit_lor, Bool.or_comm]⟩

instance (t : MergeType) : Std.Associative t.fuse := ⟨by
  intro a b c
  cases t with
  | integerAdd => exact Int.add_assoc a b c
  | bitmaskOr =>
    refine eq_of_testBit_eq fun i => ?_
    simp only [fuse, Int.testBit_lor, Bool.or_assoc]⟩

theorem fuse_zero (t : MergeType) (a : Int) : t.fuse a 0 = a := by
  cases t with
  | integerAdd => exact Int.add_zero a
  | bitmaskOr =>
    refine eq_of_testBit_eq fun i => ?_
    rw [fuse, Int.testBit_lor, show Int.testBit 0 i = false from Nat.zero_testBit i, Bool.or_false]

def total (t : MergeType) (diffs : List Int) : Int := diffs.foldr t.fuse 0

theorem total_integerAdd (diffs : List Int) : total .integerAdd diffs = diffs.sum := rfl

theorem total_singleton (t : MergeType) (a : Int) : t.total [a] = a := t.fuse_zero a

theorem total_perm (t : MergeType) {diffs diffs' : List Int} (h : diffs.Perm diffs') : t.total diffs = t.total diffs' :=
  h.foldr_op_eq

theorem total_append_singleton (t : MergeType) (diffs : List Int) (a : Int) :
    t.total (diffs ++ [a]) = t.fuse (t.total diffs) a := by
  have hComm : ∀ b, t.fuse a b = t.fuse b a := fun b => Std.Commutative.comm a b
  rw [t.total_perm (List.perm_append_singleton a diffs), ← hComm]
  rfl

end MergeType

def PrefixesFit (diffs : List Int) : Prop :=
  ∀ p, p <+: diffs → 2 ≤ p.length → p.sum.natAbs < 2 ^ integerAddBits

theorem combineMergeableValue_eq_some_iff {a b c : Int} {t : MergeType} :
    combineMergeableValue a b t = some c ↔ c = t.fuse a b ∧ (t = .integerAdd → c.natAbs < 2 ^ integerAddBits) := by
  cases t with
  | integerAdd =>
    rw [combineMergeableValue_integerAdd]
    simp only [MergeType.fuse, forall_const, eq_comm]
  | bitmaskOr => simp [combineMergeableValue, MergeType.fuse, eq_comm]

def combineAlike (existing incoming : Int × MergeType) : Option (Int × MergeType) :=
  if existing.2 ≠ incoming.2 then none
  else (combineMergeableValue existing.1 incoming.1 incoming.2).map fun combined => (combined, existing.2)

theorem combineAlike_eq_some_iff {existing incoming result : Int × MergeType} :
    combineAlike existing incoming = some result ↔
      (existing.2 = result.2 ∧ incoming.2 = result.2) ∧ result.1 = result.2.fuse existing.1 incoming.1 ∧
        (result.2 = .integerAdd → result.1.natAbs < 2 ^ integerAddBits) := by
  obtain ⟨a, t⟩ := existing
  obtain ⟨b, t'⟩ := incoming
  obtain ⟨c, t''⟩ := result
  rw [combineAlike]
  split_ifs with hType
  · refine ⟨fun h => (by cases h), ?_⟩
    rintro ⟨⟨rfl, rfl⟩, -⟩
    exact absurd rfl hType
  · simp only [not_not] at hType
    obtain rfl := hType
    rw [Option.map_eq_some_iff]
    simp only [combineMergeableValue_eq_some_iff, Prod.mk.injEq]
    constructor
    · rintro ⟨c', hc, rfl, rfl⟩
      exact ⟨⟨rfl, rfl⟩, hc⟩
    · rintro ⟨⟨rfl, -⟩, hc⟩
      exact ⟨c, hc, rfl, rfl⟩

/-- What the diffs of a channel are combined to, and what that takes. -/
structure Combines (values : List (Int × MergeType)) (result : Int × MergeType) : Prop where
  ne_nil : values ≠ []
  types : ∀ v ∈ values, v.2 = result.2
  total : result.1 = result.2.total (values.map Prod.fst)
  fits : result.2 = .integerAdd → PrefixesFit (values.map Prod.fst)

theorem prefixesFit_append_singleton {diffs : List Int} {a : Int} (hDiffs : diffs ≠ []) :
    PrefixesFit (diffs ++ [a]) ↔ PrefixesFit diffs ∧ (diffs.sum + a).natAbs < 2 ^ integerAddBits := by
  have hSum : (diffs ++ [a]).sum = diffs.sum + a := by simp
  constructor
  · intro h
    refine ⟨fun p hp => h p (hp.trans (List.prefix_append _ _)), ?_⟩
    have hLength : 2 ≤ (diffs ++ [a]).length := by
      rw [List.length_append, List.length_singleton]
      exact Nat.succ_le_succ (List.length_pos_iff.mpr hDiffs)
    rw [← hSum]
    exact h _ List.prefix_rfl hLength
  · rintro ⟨h, hLast⟩ p hp hLength
    obtain rfl | hp := List.prefix_concat_iff.mp hp
    · rwa [hSum]
    · exact h p hp hLength

theorem combines_singleton (v : Int × MergeType) (result : Int × MergeType) : Combines [v] result ↔ v = result := by
  constructor
  · intro h
    have hTotal : result.1 = v.1 := h.total.trans (result.2.total_singleton v.1)
    exact (Prod.ext hTotal (h.types v List.mem_cons_self).symm).symm
  · rintro rfl
    refine ⟨List.cons_ne_nil _ _, fun w hw => by rw [List.mem_singleton.mp hw], (v.2.total_singleton v.1).symm, ?_⟩
    intro _ p hp hLength
    have := hp.length_le
    rw [List.length_map, List.length_singleton] at this
    omega

theorem combines_append_singleton {values : List (Int × MergeType)} (hValues : values ≠ []) (v : Int × MergeType)
    (result : Int × MergeType) : Combines (values ++ [v]) result ↔
      ∃ existing, Combines values existing ∧ combineAlike existing v = some result := by
  have hDiffs : values.map Prod.fst ≠ [] := fun h => hValues (List.map_eq_nil_iff.mp h)
  simp only [combineAlike_eq_some_iff]
  constructor
  · rintro ⟨-, hTypes, hTotal, hFits⟩
    rw [List.map_append, List.map_singleton] at hTotal hFits
    rw [result.2.total_append_singleton] at hTotal
    refine ⟨(result.2.total (values.map Prod.fst), result.2), ⟨hValues, fun w hw =>
      hTypes w (List.mem_append_left _ hw), rfl, fun hAdd => ((prefixesFit_append_singleton hDiffs).mp (hFits hAdd)).1⟩,
      ⟨rfl, hTypes v (by simp)⟩, hTotal, fun hAdd => ?_⟩
    have hLast := ((prefixesFit_append_singleton hDiffs).mp (hFits hAdd)).2
    rw [hTotal, hAdd]
    exact hLast
  · rintro ⟨existing, hExisting, ⟨hOld, hNew⟩, hTotal, hBound⟩
    refine ⟨List.append_ne_nil_of_left_ne_nil hValues _, ?_, ?_, ?_⟩
    · intro w hw
      obtain hw | hw := List.mem_append.mp hw
      · exact (hExisting.types w hw).trans hOld
      · rw [List.mem_singleton.mp hw, hNew]
    · rw [List.map_append, List.map_singleton, result.2.total_append_singleton, hTotal, hExisting.total, hOld]
    · intro hAdd
      rw [List.map_append, List.map_singleton, prefixesFit_append_singleton hDiffs]
      refine ⟨hExisting.fits (hOld.trans hAdd), ?_⟩
      have hSum := hExisting.total
      rw [hOld, hAdd, MergeType.total_integerAdd] at hSum
      have hResult := hBound hAdd
      rw [hTotal, hAdd, hSum] at hResult
      exact hResult

theorem gather_combineAlike (values : List (Int × MergeType)) (result : Int × MergeType) :
    gather combineAlike values = some (some result) ↔ Combines values result := by
  induction values using List.reverseRecOn generalizing result with
  | nil => exact ⟨fun h => (by cases h), fun h => absurd rfl h.ne_nil⟩
  | append_singleton values v ih =>
    rw [gather_append_singleton]
    obtain rfl | hValues := eq_or_ne values []
    · rw [List.nil_append, combines_singleton]
      exact ⟨fun h => Option.some.inj (Option.some.inj h), fun h => h ▸ rfl⟩
    · rw [combines_append_singleton hValues, Option.bind_eq_some_iff]
      constructor
      · rintro ⟨none | existing, hGather, hNext⟩
        · exact absurd (gather_eq_some_none_iff.mp hGather) hValues
        · obtain ⟨result', hStep, hEq⟩ := Option.map_eq_some_iff.mp hNext
          obtain rfl := Option.some.inj hEq
          exact ⟨existing, (ih existing).mp hGather, hStep⟩
      · rintro ⟨existing, hExisting, hStep⟩
        exact ⟨some existing, (ih existing).mpr hExisting, by rw [gatherNext, hStep, Option.map_some]⟩

theorem Combines.eq_of_perm {values values' : List (Int × MergeType)} {result result' : Int × MergeType}
    (h : Combines values result) (h' : Combines values' result') (hPerm : values.Perm values') : result = result' := by
  obtain ⟨v, hv⟩ := List.exists_mem_of_ne_nil values h.ne_nil
  have hType : result.2 = result'.2 := (h.types v hv).symm.trans (h'.types v (hPerm.mem_iff.mp hv))
  refine Prod.ext ?_ hType
  rw [h.total, h'.total, hType]
  exact result'.2.total_perm (hPerm.map Prod.fst)

theorem eq_of_gather_perm {values values' : List (Int × MergeType)} (hPerm : values.Perm values')
    {r r' : Option (Int × MergeType)} (h : gather combineAlike values = some r)
    (h' : gather combineAlike values' = some r') : r = r' := by
  cases r with
  | none =>
    rw [gather_eq_some_none_iff] at h
    rw [h] at hPerm
    rw [hPerm.symm.eq_nil] at h'
    exact Option.some.inj h'
  | some result =>
    cases r' with
    | none =>
      rw [gather_eq_some_none_iff] at h'
      rw [h'] at hPerm
      rw [hPerm.eq_nil] at h
      exact (Option.some.inj h).symm
    | some result' =>
      rw [gather_combineAlike] at h h'
      rw [h.eq_of_perm h' hPerm]

theorem gather_ne_none_of_sublists {α : Type} {f : α → Option (Int × MergeType)} {items items' : List α}
    (hPerm : items.Perm items') (h : ∀ part : List α, part.Sublist items → gather combineAlike (part.filterMap f) ≠ none) :
    gather combineAlike (items'.filterMap f) ≠ none := by
  have hValues : (items.filterMap f).Perm (items'.filterMap f) := hPerm.filterMap f
  have hCombined : ∀ part : List α, part.Sublist items → part.filterMap f ≠ [] →
      ∃ result, Combines (part.filterMap f) result := by
    intro part hPart hSome
    obtain ⟨r, hr⟩ := Option.ne_none_iff_exists'.mp (h part hPart)
    cases r with
    | none => exact absurd (gather_eq_some_none_iff.mp hr) hSome
    | some result => exact ⟨result, (gather_combineAlike _ _).mp hr⟩
  obtain hNil | hSome := eq_or_ne (items'.filterMap f) []
  · rw [hNil]
    exact Option.some_ne_none none
  · obtain ⟨result, hAll⟩ := hCombined items (List.Sublist.refl items) fun hNil => hSome (hNil ▸ hValues).symm.eq_nil
    have hTypes : ∀ v ∈ items'.filterMap f, v.2 = result.2 := fun v hv => hAll.types v (hValues.mem_iff.mpr hv)
    rw [(gather_combineAlike _ result).mpr ⟨hSome, hTypes, ?_, ?_⟩]
    · exact Option.some_ne_none _
    · rw [hAll.total]
      exact result.2.total_perm (hValues.map Prod.fst)
    · -- the diffs up to some place are those of a selection
      intro hAdd p hp hLength
      obtain ⟨values, hValuesPrefix, rfl⟩ := List.prefix_map_iff.mp hp
      obtain ⟨first, hFirst, rfl⟩ := List.prefix_filterMap_iff.mp hValuesPrefix
      obtain ⟨part, hSame, hPart⟩ := (hFirst.sublist.subperm.trans hPerm.symm.subperm)
      have hPartValues : (part.filterMap f).Perm (first.filterMap f) := hSame.filterMap f
      rw [List.length_map] at hLength
      have hNe : part.filterMap f ≠ [] := fun hNil => by
        rw [hNil] at hPartValues
        rw [hPartValues.symm.eq_nil] at hLength
        cases hLength
      obtain ⟨result', hPartAll⟩ := hCombined part hPart hNe
      obtain ⟨v, hv⟩ := List.exists_mem_of_ne_nil _ hNe
      have hType : result'.2 = .integerAdd := by
        rw [← hPartAll.types v hv, hTypes v (hValuesPrefix.subset (hPartValues.mem_iff.mp hv)), hAdd]
      have hFits := hPartAll.fits hType _ List.prefix_rfl (by rw [List.length_map, hPartValues.length_eq]; exact hLength)
      rwa [(hPartValues.map Prod.fst).sum_eq] at hFits

section folds

variable {ε : Type} {mismatch : Bytes → MergeType → MergeType → ε} {overflow : Bytes → Int → Int → ε}

theorem toOption_foldNumberChannel (diffs : NumberChannelsDiff) (entry : Sigma fun _ : Bytes => Int × MergeType) :
    (foldNumberChannel mismatch overflow diffs entry).toOption = absorb combineAlike diffs entry := by
  unfold foldNumberChannel absorb combineAlike
  cases diffs.lookup entry.1 with
  | none => rfl
  | some existing =>
    dsimp only
    split_ifs
    · rfl
    · cases combineMergeableValue existing.1 entry.2.1 entry.2.2 with
      | none => rfl
      | some combined => rfl

theorem toOption_foldlM_foldNumberChannel (entries : List (Sigma fun _ : Bytes => Int × MergeType))
    (diffs : NumberChannelsDiff) : (entries.foldlM (foldNumberChannel mismatch overflow) diffs).toOption =
      entries.foldlM (absorb combineAlike) diffs := by
  induction entries generalizing diffs with
  | nil => rfl
  | cons entry entries ih =>
    rw [List.foldlM_cons, List.foldlM_cons, ← @toOption_foldNumberChannel ε mismatch overflow]
    cases foldNumberChannel mismatch overflow diffs entry with
    | error e => rfl
    | ok next => exact ih next

end folds

end F1r3Node.Merging
