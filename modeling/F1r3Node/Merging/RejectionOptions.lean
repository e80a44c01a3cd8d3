import F1r3Node.Lib.Rejections
import F1r3Node.Merging.IndexedMaps

/-! # Rejection options of a conflict map

For a symmetric irreflexive map the options are the rejections of the conflict graph.
-/

namespace F1r3Node.Merging

open Lib

variable {A : Type} [DecidableEq A]

structure RejectionOption (A : Type) where
  rejectedSoFar : Finset A
  remainingConflictsMap : RelationMap A

abbrev RejectionOptions (A : Type) := KeyedSet (@RejectionOption.rejectedSoFar A)

def remainingAfter (toReject : Finset A) (conflictsMap : RelationMap A) : RelationMap A :=
  conflictsMap.entries.foldl (fun remaining entry =>
    if entry.1 ∉ toReject ∧ entry.2 \ toReject ≠ ∅ then remaining.insert entry.1 (entry.2 \ toReject)
    else remaining) ∅

def gatherRejOptions (conflictsMap : RelationMap A) : RejectionOptions A :=
  .ofList _ (conflictsMap.entries.map fun entry => ⟨entry.2, remainingAfter entry.2 conflictsMap⟩)

/-- An option without conflicts is a result, any other one is continued. The check that a set is not
yet among the results is what inserting it does. -/
def continueOption (st : RejectionOptions A × Finset (Finset A)) (option : RejectionOption A) :
    RejectionOptions A × Finset (Finset A) :=
  if option.remainingConflictsMap.entries.isEmpty then (st.1, insert option.rejectedSoFar st.2)
  else
    (((gatherRejOptions option.remainingConflictsMap).items.map fun newOption =>
      { newOption with rejectedSoFar := newOption.rejectedSoFar ∪ option.rejectedSoFar }).foldl
        KeyedSet.insert st.1, st.2)

/-- The `while` loop; the first argument bounds the rounds. -/
def rejectionRounds : Nat → RejectionOptions A → Finset (Finset A) → Finset (Finset A)
  | 0, _, result => result
  | rounds + 1, current, result =>
    if current.isEmpty then result
    else
      let (next, result) := current.items.foldl continueOption (.empty _, result)
      rejectionRounds rounds next result

def conflictsOnlyMap (conflictMap : RelationMap A) : RelationMap A :=
  conflictMap.entries.foldl (fun only entry =>
    if entry.2 ≠ ∅ then only.insert entry.1 entry.2 else only) ∅

def computeRejectionOptions (conflictMap : RelationMap A) : Finset (Finset A) :=
  rejectionRounds (conflictMap.entries.length + 1)
    (KeyedSet.ofList _ [⟨∅, conflictsOnlyMap conflictMap⟩]) ∅

def RelationMap.neighbours (m : RelationMap A) (a : A) : Finset A := (m.lookup a).getD ∅

theorem RelationMap.mem_neighbours {m : RelationMap A} {a b : A} : b ∈ m.neighbours a ↔ m.Related a b := by
  unfold RelationMap.neighbours RelationMap.Related
  cases m.lookup a with
  | none => simp
  | some related => simp

theorem lookup_foldl_insert {l : List (Sigma fun _ : A => Finset A)} (hNodup : l.NodupKeys)
    (keep : A → Finset A → Prop) [∀ a c, Decidable (keep a c)] (value : Finset A → Finset A) (k : A)
    (m : RelationMap A) (hFresh : l.dlookup k ≠ none → m.lookup k = none) :
    (l.foldl (fun acc entry => if keep entry.1 entry.2 then acc.insert entry.1 (value entry.2) else acc) m).lookup k =
      ((l.dlookup k).bind fun c => if keep k c then some (value c) else none).or (m.lookup k) := by
  induction l generalizing m with
  | nil => rfl
  | cons entry l ih =>
    obtain ⟨a, c⟩ := entry
    obtain ⟨hNew, hRest⟩ := List.nodupKeys_cons.mp hNodup
    obtain rfl | hk := eq_or_ne k a
    · have hNone : l.dlookup k = none := List.dlookup_eq_none.mpr hNew
      rw [List.foldl_cons, ih hRest _ fun hSome => absurd hNone hSome, hNone, List.dlookup_cons_eq,
        hFresh (by rw [List.dlookup_cons_eq]; exact Option.some_ne_none c)]
      simp only [Option.bind_none, Option.none_or, Option.bind_some]
      split_ifs with hKeep
      · rw [AList.lookup_insert]
        rfl
      · exact hFresh (by rw [List.dlookup_cons_eq]; exact Option.some_ne_none c)
    · have hSame : (if keep a c then m.insert a (value c) else m).lookup k = m.lookup k := by
        split_ifs
        · exact AList.lookup_insert_ne hk
        · rfl
      rw [List.dlookup_cons_ne _ _ hk] at hFresh ⊢
      rw [List.foldl_cons, ih hRest _ (by rwa [hSame]), hSame]

variable {k : A} {c : Finset A}

theorem lookup_remainingAfter (toReject : Finset A) (m : RelationMap A) :
    (remainingAfter toReject m).lookup k = some c ↔
      k ∉ toReject ∧ ∃ c', m.lookup k = some c' ∧ c = c' \ toReject ∧ c ≠ ∅ := by
  rw [remainingAfter, lookup_foldl_insert m.nodupKeys (fun a c => a ∉ toReject ∧ c \ toReject ≠ ∅) (· \ toReject) k _
    fun _ => rfl]
  change ((m.lookup k).bind _).or none = some c ↔ _
  rw [Option.or_none, Option.bind_eq_some_iff]
  constructor
  · rintro ⟨c', hLookup, hSome⟩
    split_ifs at hSome with hKeep
    obtain rfl := Option.some.inj hSome
    exact ⟨hKeep.1, c', hLookup, rfl, hKeep.2⟩
  · rintro ⟨hOut, c', hLookup, rfl, hNe⟩
    exact ⟨c', hLookup, if_pos ⟨hOut, hNe⟩⟩

theorem lookup_conflictsOnlyMap (m : RelationMap A) :
    (conflictsOnlyMap m).lookup k = some c ↔ m.lookup k = some c ∧ c ≠ ∅ := by
  rw [conflictsOnlyMap, lookup_foldl_insert m.nodupKeys (fun _ c => c ≠ ∅) (fun c => c) k _ fun _ => rfl]
  change ((m.lookup k).bind _).or none = some c ↔ _
  rw [Option.or_none, Option.bind_eq_some_iff]
  constructor
  · rintro ⟨c', hLookup, hSome⟩
    split_ifs at hSome with hKeep
    obtain rfl := Option.some.inj hSome
    exact ⟨hLookup, hKeep⟩
  · rintro ⟨hLookup, hNe⟩
    exact ⟨c, hLookup, if_pos hNe⟩

def RejectionOption.Represents (option : RejectionOption A) (m : RelationMap A) : Prop :=
  ∀ k c, option.remainingConflictsMap.lookup k = some c ↔
    k ∉ option.rejectedSoFar ∧ c = m.neighbours k \ option.rejectedSoFar ∧ c ≠ ∅

variable {m : RelationMap A} {option : RejectionOption A}

theorem represents_start (m : RelationMap A) : RejectionOption.Represents ⟨∅, conflictsOnlyMap m⟩ m := by
  intro k c
  rw [lookup_conflictsOnlyMap, Finset.sdiff_empty]
  constructor
  · rintro ⟨hLookup, hNe⟩
    refine ⟨Finset.notMem_empty k, ?_, hNe⟩
    rw [RelationMap.neighbours, hLookup, Option.getD_some]
  · rintro ⟨-, rfl, hNe⟩
    refine ⟨?_, hNe⟩
    unfold RelationMap.neighbours at hNe ⊢
    cases hLookup : m.lookup k with
    | none =>
      rw [hLookup] at hNe
      exact absurd rfl hNe
    | some related => rfl

theorem RejectionOption.Represents.isEmpty_iff (h : option.Represents m) :
    option.remainingConflictsMap.entries.isEmpty = true ↔ Rejections.Settled m.neighbours option.rejectedSoFar := by
  rw [List.isEmpty_iff]
  constructor
  · intro hEmpty k hk
    rw [← Finset.sdiff_eq_empty_iff_subset]
    by_contra hNe
    have hMem := AList.mem_lookup_iff.mp ((h k _).mpr ⟨hk, rfl, hNe⟩)
    rw [hEmpty] at hMem
    cases hMem
  · intro hSettled
    refine List.eq_nil_iff_forall_not_mem.mpr fun ⟨k, c⟩ hMem => ?_
    obtain ⟨hk, rfl, hNe⟩ := (h k c).mp (AList.mem_lookup_iff.mpr hMem)
    exact hNe (Finset.sdiff_eq_empty_iff_subset.mpr (hSettled k hk))

def RejectionOption.keeping (option : RejectionOption A) (toReject : Finset A) : RejectionOption A :=
  ⟨toReject ∪ option.rejectedSoFar, remainingAfter toReject option.remainingConflictsMap⟩

theorem RejectionOption.Represents.keeping (h : option.Represents m) (toReject : Finset A) :
    (option.keeping toReject).Represents m := by
  intro k c
  simp only [RejectionOption.keeping, lookup_remainingAfter, Finset.mem_union, not_or]
  constructor
  · rintro ⟨hOut, c', hLookup, rfl, hNe⟩
    obtain ⟨hk, rfl, -⟩ := (h k c').mp hLookup
    refine ⟨⟨hOut, hk⟩, ?_, hNe⟩
    rw [sdiff_sdiff_left, Finset.sup_eq_union, Finset.union_comm]
  · rintro ⟨⟨hOut, hk⟩, rfl, hNe⟩
    have hEq : m.neighbours k \ (toReject ∪ option.rejectedSoFar) =
        (m.neighbours k \ option.rejectedSoFar) \ toReject := by
      rw [sdiff_sdiff_left, Finset.sup_eq_union, Finset.union_comm]
    refine ⟨hOut, _, (h k _).mpr ⟨hk, rfl, ?_⟩, hEq, hNe⟩
    rintro hEmpty
    rw [hEq, hEmpty, Finset.empty_sdiff] at hNe
    exact hNe rfl

theorem mem_gathered {newOption : RejectionOption A}
    (h : newOption ∈ (gatherRejOptions option.remainingConflictsMap).items) :
    ∃ k c, option.remainingConflictsMap.lookup k = some c ∧
      newOption = ⟨c, remainingAfter c option.remainingConflictsMap⟩ := by
  obtain hNone | hMem := KeyedSet.foldl_insert_subset h
  · cases hNone
  · obtain ⟨⟨k, c⟩, hEntry, rfl⟩ := List.mem_map.mp hMem
    exact ⟨k, c, AList.mem_lookup_iff.mpr hEntry, rfl⟩

theorem exists_gathered (h : option.remainingConflictsMap.lookup k = some c) :
    ∃ newOption ∈ (gatherRejOptions option.remainingConflictsMap).items, newOption.rejectedSoFar = c := by
  refine KeyedSet.mem_keys.mp (KeyedSet.mem_keys_foldl_insert.mpr (.inr ?_))
  rw [List.map_map]
  exact List.mem_map.mpr ⟨⟨k, c⟩, AList.mem_lookup_iff.mp h, rfl⟩

/-- What one round makes of the options and of the results. -/
structure RoundSpec (m : RelationMap A) (current : List (RejectionOption A))
    (before after : RejectionOptions A × Finset (Finset A)) : Prop where
  results : ∀ S, S ∈ after.2 ↔ S ∈ before.2 ∨
    ∃ option ∈ current, option.rejectedSoFar = S ∧ Rejections.Settled m.neighbours S
  represents : ∀ option ∈ after.1.items, option ∈ before.1.items ∨ option.Represents m
  rejected : ∀ S, S ∈ after.1.keys ↔ S ∈ before.1.keys ∨
    ∃ option ∈ current, Rejections.Step m.neighbours option.rejectedSoFar S

theorem continueOption_spec (h : option.Represents m) (before : RejectionOptions A × Finset (Finset A)) :
    RoundSpec m [option] before (continueOption before option) := by
  have hUnion : ∀ {k c}, option.remainingConflictsMap.lookup k = some c →
      c ∪ option.rejectedSoFar = option.rejectedSoFar ∪ m.neighbours k := by
    intro k c hLookup
    obtain ⟨-, rfl, -⟩ := (h k c).mp hLookup
    rw [Finset.sdiff_union_self_eq_union, Finset.union_comm]
  unfold continueOption
  split_ifs with hEmpty
  · have hSettled := h.isEmpty_iff.mp hEmpty
    constructor
    · intro S
      rw [Finset.mem_insert, or_comm]
      refine or_congr_right ⟨?_, ?_⟩
      · rintro rfl
        exact ⟨option, List.mem_singleton_self option, rfl, hSettled⟩
      · rintro ⟨option', hMem, rfl, -⟩
        rw [List.mem_singleton.mp hMem]
    · exact fun option' hMem => .inl hMem
    · intro S
      refine ⟨.inl, ?_⟩
      rintro (hMem | ⟨option', hMem, k, hk, hOpen, -⟩)
      · exact hMem
      · rw [List.mem_singleton.mp hMem] at hk hOpen
        exact absurd (hSettled k hk) hOpen
  · have hOpen : ¬ Rejections.Settled m.neighbours option.rejectedSoFar := fun hS => hEmpty (h.isEmpty_iff.mpr hS)
    constructor
    · intro S
      refine ⟨.inl, ?_⟩
      rintro (hMem | ⟨option', hMem, rfl, hSettled⟩)
      · exact hMem
      · rw [List.mem_singleton.mp hMem] at hSettled
        exact absurd hSettled hOpen
    · intro option' hMem
      refine (KeyedSet.foldl_insert_subset hMem).imp_right fun hNew => ?_
      obtain ⟨newOption, hGathered, rfl⟩ := List.mem_map.mp hNew
      obtain ⟨k, c, -, rfl⟩ := mem_gathered hGathered
      exact h.keeping c
    · intro S
      rw [KeyedSet.mem_keys_foldl_insert, List.map_map]
      refine or_congr_right ⟨?_, ?_⟩
      · intro hMem
        obtain ⟨newOption, hGathered, rfl⟩ := List.mem_map.mp hMem
        obtain ⟨k, c, hLookup, rfl⟩ := mem_gathered hGathered
        obtain ⟨hk, rfl, hNe⟩ := (h k c).mp hLookup
        refine ⟨option, List.mem_singleton_self option, k, hk, fun hSub => hNe ?_, hUnion hLookup⟩
        exact Finset.sdiff_eq_empty_iff_subset.mpr hSub
      · rintro ⟨option', hMem, k, hk, hNot, rfl⟩
        rw [List.mem_singleton.mp hMem] at hk hNot ⊢
        have hLookup := (h k (m.neighbours k \ option.rejectedSoFar)).mpr
          ⟨hk, rfl, fun hEmpty => hNot (Finset.sdiff_eq_empty_iff_subset.mp hEmpty)⟩
        obtain ⟨newOption, hGathered, hRejected⟩ := exists_gathered hLookup
        refine List.mem_map.mpr ⟨newOption, hGathered, ?_⟩
        rw [← hUnion hLookup, ← hRejected]
        rfl

theorem RoundSpec.trans {xs ys : List (RejectionOption A)} {a b c : RejectionOptions A × Finset (Finset A)}
    (hab : RoundSpec m xs a b) (hbc : RoundSpec m ys b c) : RoundSpec m (xs ++ ys) a c := by
  constructor
  · intro S
    rw [hbc.results, hab.results, or_assoc, ← exists_or]
    refine or_congr_right (exists_congr fun option => ?_)
    rw [List.mem_append, or_and_right]
  · intro option hMem
    obtain hMem | hRep := hbc.represents option hMem
    · exact hab.represents option hMem
    · exact .inr hRep
  · intro S
    rw [hbc.rejected, hab.rejected, or_assoc, ← exists_or]
    refine or_congr_right (exists_congr fun option => ?_)
    rw [List.mem_append, or_and_right]

theorem foldl_continueOption_spec {current : List (RejectionOption A)} (h : ∀ option ∈ current, option.Represents m)
    (before : RejectionOptions A × Finset (Finset A)) :
    RoundSpec m current before (current.foldl continueOption before) := by
  induction current generalizing before with
  | nil => exact ⟨fun S => by simp, fun option hMem => .inl hMem, fun S => by simp⟩
  | cons option current ih =>
    obtain ⟨hOption, hRest⟩ := List.forall_mem_cons.mp h
    exact (continueOption_spec hOption before).trans (ih hRest _)

def RelationMap.unsettled (m : RelationMap A) (S : Finset A) : Finset A :=
  Rejections.unsettled m.neighbours m.keys.toFinset S

theorem mem_keys_of_neighbours (h : m.neighbours k ≠ ∅) : k ∈ m.keys.toFinset := by
  rw [List.mem_toFinset]
  by_contra hNot
  rw [RelationMap.neighbours, AList.lookup_eq_none.mpr hNot] at h
  exact h rfl

theorem mem_unsettled {S : Finset A} (hk : k ∉ S) (hOpen : ¬ m.neighbours k ⊆ S) : k ∈ m.unsettled S := by
  refine Finset.mem_filter.mpr ⟨mem_keys_of_neighbours fun hEmpty => hOpen ?_, hk, hOpen⟩
  rw [hEmpty]
  exact Finset.empty_subset S

/-- The body of the `while` loop. -/
def rejectionRound (st : RejectionOptions A × Finset (Finset A)) : RejectionOptions A × Finset (Finset A) :=
  st.1.items.foldl continueOption (.empty _, st.2)

section round

variable {st : RejectionOptions A × Finset (Finset A)} (h : ∀ option ∈ st.1.items, option.Represents m)

include h

theorem rejectionRound_represents : ∀ option ∈ (rejectionRound st).1.items, option.Represents m := by
  intro option hMem
  exact ((foldl_continueOption_spec h (.empty _, st.2)).represents option hMem).resolve_left List.not_mem_nil

theorem mem_keys_rejectionRound (T : Finset A) :
    T ∈ (rejectionRound st).1.keys ↔ ∃ T' ∈ st.1.keys, Rejections.Step m.neighbours T' T := by
  rw [rejectionRound, (foldl_continueOption_spec h (.empty _, st.2)).rejected]
  refine (or_iff_right List.not_mem_nil).trans ⟨?_, ?_⟩
  · rintro ⟨option, hMem, hStep⟩
    exact ⟨_, KeyedSet.mem_keys.mpr ⟨option, hMem, rfl⟩, hStep⟩
  · rintro ⟨T', hMem, hStep⟩
    obtain ⟨option, hOption, rfl⟩ := KeyedSet.mem_keys.mp hMem
    exact ⟨option, hOption, hStep⟩

theorem card_unsettled_rejectionRound {rounds : Nat}
    (hRounds : ∀ S ∈ st.1.keys, (m.unsettled S).card < rounds + 1) :
    ∀ S ∈ (rejectionRound st).1.keys, (m.unsettled S).card < rounds := by
  intro T hT
  obtain ⟨T', hT', k, hk, hOpen, rfl⟩ := (mem_keys_rejectionRound h T).mp hT
  have hFewer := Rejections.card_unsettled_lt m.keys.toFinset (mem_unsettled hk hOpen)
  have := hRounds T' hT'
  unfold RelationMap.unsettled at this ⊢
  omega

end round

theorem isEmpty_iterate_rejectionRound {rounds : Nat} {st : RejectionOptions A × Finset (Finset A)}
    (h : ∀ option ∈ st.1.items, option.Represents m)
    (hRounds : ∀ S ∈ st.1.keys, (m.unsettled S).card < rounds) :
    (rejectionRound^[rounds] st).1.isEmpty = true := by
  induction rounds generalizing st with
  | zero =>
    by_contra hSome
    obtain ⟨T, hT⟩ := KeyedSet.isEmpty_eq_false_iff.mp (Bool.eq_false_iff.mpr hSome)
    exact absurd (hRounds T hT) (Nat.not_lt_zero _)
  | succ rounds ih =>
    rw [Function.iterate_succ_apply]
    exact ih (rejectionRound_represents h) (card_unsettled_rejectionRound h hRounds)

theorem rejectionRounds_eq_iterate (rounds : Nat) (current : RejectionOptions A) (result : Finset (Finset A)) :
    rejectionRounds rounds current result = (rejectionRound^[rounds] (current, result)).2 := by
  induction rounds generalizing current result with
  | zero => rfl
  | succ rounds ih =>
    rw [rejectionRounds, Function.iterate_succ_apply]
    split_ifs with hEmpty
    · -- a round without options changes nothing
      have hNil : current.items = [] := List.isEmpty_iff.mp hEmpty
      have hFixed : Function.IsFixedPt rejectionRound ((.empty _, result) : RejectionOptions A × Finset (Finset A)) :=
        rfl
      have hRound : rejectionRound (current, result) = (.empty _, result) := by
        rw [rejectionRound, hNil]
        rfl
      rw [hRound, hFixed.iterate]
    · exact ih _ _

theorem rejectionRounds_spec {rounds : Nat} {current : RejectionOptions A} {result : Finset (Finset A)}
    (h : ∀ option ∈ current.items, option.Represents m)
    (hRounds : ∀ S ∈ current.keys, (m.unsettled S).card < rounds) (S : Finset A) :
    S ∈ rejectionRounds rounds current result ↔ S ∈ result ∨
      ∃ T ∈ current.keys, Relation.ReflTransGen (Rejections.Step m.neighbours) T S ∧
        Rejections.Settled m.neighbours S := by
  rw [rejectionRounds_eq_iterate]
  induction rounds generalizing current result with
  | zero =>
    refine ⟨.inl, ?_⟩
    rintro (hMem | ⟨T, hT, -⟩)
    · exact hMem
    · exact absurd (hRounds T hT) (Nat.not_lt_zero _)
  | succ rounds ih =>
    rw [Function.iterate_succ_apply]
    have hNext := @ih (rejectionRound (current, result)).1 (rejectionRound (current, result)).2
      (rejectionRound_represents h) (card_unsettled_rejectionRound h hRounds)
    rw [Prod.mk.eta] at hNext
    rw [hNext, rejectionRound, (foldl_continueOption_spec h (.empty _, result)).results, or_assoc]
    refine or_congr_right ⟨?_, ?_⟩
    · rintro (⟨option, hMem, rfl, hSettled⟩ | ⟨T, hT, hReach, hSettled⟩)
      · exact ⟨_, KeyedSet.mem_keys.mpr ⟨option, hMem, rfl⟩, .refl, hSettled⟩
      · obtain ⟨T', hT', hStep⟩ := (mem_keys_rejectionRound h T).mp hT
        exact ⟨T', hT', .head hStep hReach, hSettled⟩
    · rintro ⟨T, hT, hReach, hSettled⟩
      obtain rfl | ⟨T', hStep, hRest⟩ := hReach.cases_head
      · obtain ⟨option, hOption, rfl⟩ := KeyedSet.mem_keys.mp hT
        exact .inl ⟨option, hOption, rfl, hSettled⟩
      · exact .inr ⟨T', (mem_keys_rejectionRound h T').mpr ⟨T, hT, hStep⟩, hRest, hSettled⟩

def rejectionStart (m : RelationMap A) : RejectionOptions A × Finset (Finset A) :=
  (KeyedSet.ofList _ [⟨∅, conflictsOnlyMap m⟩], ∅)

theorem rejectionStart_represents (m : RelationMap A) :
    ∀ option ∈ (rejectionStart m).1.items, option.Represents m := by
  intro option hMem
  obtain hNone | hMem := KeyedSet.foldl_insert_subset hMem
  · cases hNone
  · rw [List.mem_singleton.mp hMem]
    exact represents_start m

theorem card_unsettled_le (m : RelationMap A) (T : Finset A) : (m.unsettled T).card < m.entries.length + 1 := by
  have hCard := (Finset.card_filter_le m.keys.toFinset fun k =>
    k ∉ T ∧ ¬ m.neighbours k ⊆ T).trans (List.toFinset_card_le _)
  rw [AList.keys, List.keys, List.length_map] at hCard
  exact Nat.lt_succ_of_le hCard

theorem computeRejectionOptions_terminates (m : RelationMap A) :
    ∃ rounds, (rejectionRound^[rounds] (rejectionStart m)).1.isEmpty = true ∧
      (rejectionRound^[rounds] (rejectionStart m)).2 = computeRejectionOptions m := by
  refine ⟨m.entries.length + 1, ?_, ?_⟩
  · exact isEmpty_iterate_rejectionRound (rejectionStart_represents m) fun T _ => card_unsettled_le m T
  · exact (rejectionRounds_eq_iterate _ _ _).symm

theorem mem_computeRejectionOptions (hSymm : ∀ a b, m.Related a b → m.Related b a)
    (hIrrefl : ∀ a, ¬ m.Related a a) (S : Finset A) :
    S ∈ computeRejectionOptions m ↔ Rejections.IsRejection m.neighbours S := by
  have hKeys : ∀ T, T ∈ (rejectionStart m).1.keys ↔ T = ∅ := by
    intro T
    rw [rejectionStart, KeyedSet.ofList, KeyedSet.mem_keys_foldl_insert]
    refine (or_iff_right List.not_mem_nil).trans ?_
    rw [List.map_singleton, List.mem_singleton]
  have hLoop := @rejectionRounds_spec A _ m _ _ ∅ (rejectionStart_represents m) (fun T _ => card_unsettled_le m T) S
  change S ∈ computeRejectionOptions m ↔ _ at hLoop
  rw [hLoop, ← Rejections.reach_settled_iff (fun a b hab => RelationMap.mem_neighbours.mpr
      (hSymm _ _ (RelationMap.mem_neighbours.mp hab))) (fun a ha => hIrrefl a (RelationMap.mem_neighbours.mp ha))
      m.keys.toFinset fun k hk => mem_keys_of_neighbours hk]
  refine (or_iff_right (Finset.notMem_empty S)).trans ⟨?_, ?_⟩
  · rintro ⟨T, hT, hReach⟩
    rwa [(hKeys T).mp hT] at hReach
  · intro hReach
    exact ⟨∅, (hKeys ∅).mpr rfl, hReach⟩

def RelationMap.conflictGraph (m : RelationMap A) : SimpleGraph A := .fromRel m.Related

theorem adj_conflictGraph (hSymm : ∀ a b, m.Related a b → m.Related b a) (hIrrefl : ∀ a, ¬ m.Related a a)
    (a b : A) : m.conflictGraph.Adj a b ↔ b ∈ m.neighbours a := by
  rw [RelationMap.conflictGraph, SimpleGraph.fromRel_adj, RelationMap.mem_neighbours]
  constructor
  · rintro ⟨-, hab | hba⟩
    · exact hab
    · exact hSymm b a hba
  · intro hab
    refine ⟨?_, .inl hab⟩
    rintro rfl
    exact hIrrefl a hab

/-- The search ends with the complements of the maximal independent sets. -/
theorem computeRejectionOptions_eq_complements (hSymm : ∀ a b, m.Related a b → m.Related b a)
    (hIrrefl : ∀ a, ¬ m.Related a a) :
    (∃ rounds, (rejectionRound^[rounds] (rejectionStart m)).1.isEmpty = true ∧
      (rejectionRound^[rounds] (rejectionStart m)).2 = computeRejectionOptions m) ∧
    ∀ S, S ∈ computeRejectionOptions m ↔
      ∃ I, Maximal m.conflictGraph.IsIndepSet I ∧ (S : Set A) = {a | ∃ b, m.conflictGraph.Adj a b} \ I := by
  refine ⟨computeRejectionOptions_terminates m, fun S => ?_⟩
  rw [mem_computeRejectionOptions hSymm hIrrefl]
  exact Rejections.isRejection_iff_maximal_isIndepSet (adj_conflictGraph hSymm hIrrefl)

def pathMap : RelationMap (Fin 3) := (((∅ : RelationMap (Fin 3)).insert 0 {1}).insert 1 {0, 2}).insert 2 {1}

/-- Either the middle branch is rejected or the other two are. -/
theorem computeRejectionOptions_eq_complements_pathMap :
    computeRejectionOptions pathMap = {{1}, {0, 2}} ∧ ∀ S, S ∈ computeRejectionOptions pathMap ↔
      ∃ I, Maximal pathMap.conflictGraph.IsIndepSet I ∧
        (S : Set (Fin 3)) = {a | ∃ b, pathMap.conflictGraph.Adj a b} \ I := by
  refine ⟨by decide, (computeRejectionOptions_eq_complements ?_ ?_).2⟩
  · have hSymm : ∀ a b, b ∈ pathMap.neighbours a → a ∈ pathMap.neighbours b := by decide
    exact fun a b hab => RelationMap.mem_neighbours.mp (hSymm a b (RelationMap.mem_neighbours.mpr hab))
  · have hIrrefl : ∀ a, a ∉ pathMap.neighbours a := by decide
    exact fun a haa => hIrrefl a (RelationMap.mem_neighbours.mpr haa)

end F1r3Node.Merging
