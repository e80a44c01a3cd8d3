import F1r3Node.Merging.ResolveConflicts

/-! # Sets of related items

Items that a relation connects, directly or through others, form one set. For a relation that holds
in both directions the sets are its classes.
-/

namespace F1r3Node.Merging

section gather

variable {A : Type} [DecidableEq A] (relationMap : RelationMap A)

def allRelated : Finset A := relationMap.entries.foldr (fun entry related => entry.2 ∪ related) ∅

def newlyRelated (toAdd next : Finset A) : Finset A := (toAdd.biUnion relationMap.neighbours).filter (· ∉ next)

variable {relationMap} in
theorem neighbours_subset_allRelated (a : A) : relationMap.neighbours a ⊆ allRelated relationMap := by
  have hEntry : ∀ {entries : List (Sigma fun _ : A => Finset A)} {entry : Sigma fun _ : A => Finset A},
      entry ∈ entries → entry.2 ⊆ entries.foldr (fun entry related => entry.2 ∪ related) ∅ := by
    intro entries entry hMem
    induction entries with
    | nil => cases hMem
    | cons head entries ih =>
      obtain rfl | hMem := List.mem_cons.mp hMem
      · exact Finset.subset_union_left
      · exact (ih hMem).trans Finset.subset_union_right
  intro b hb
  obtain ⟨related, hLookup, hIn⟩ := RelationMap.mem_neighbours.mp hb
  exact hEntry (AList.mem_lookup_iff.mp hLookup) hIn

def addRelations (toAdd acc : Finset A) : Finset A :=
  if toAdd ⊆ acc then acc
  else
    let next := acc ∪ toAdd
    let n := newlyRelated relationMap toAdd next
    if n = ∅ then next else addRelations n next
termination_by ((allRelated relationMap ∪ toAdd) \ acc).card
decreasing_by
  rename_i hNew _
  obtain ⟨a, ha, hOut⟩ := Finset.not_subset.mp hNew
  refine Finset.card_lt_card (Finset.ssubset_iff_of_subset ?_ |>.mpr ⟨a, ?_, ?_⟩)
  · intro b hb
    obtain ⟨hb, hNot⟩ := Finset.mem_sdiff.mp hb
    refine Finset.mem_sdiff.mpr ⟨Finset.mem_union_left _ ?_, fun h => hNot (Finset.mem_union_left _ h)⟩
    obtain hb | hb := Finset.mem_union.mp hb
    · exact hb
    · obtain ⟨v, -, hv⟩ := Finset.mem_biUnion.mp (Finset.mem_filter.mp hb).1
      exact neighbours_subset_allRelated v hv
  · exact Finset.mem_sdiff.mpr ⟨Finset.mem_union_right _ ha, hOut⟩
  · exact fun h => (Finset.mem_sdiff.mp h).2 (Finset.mem_union_right _ ha)

def gatherKey (st : Finset A × Finset (Finset A)) (k : A) : Finset A × Finset (Finset A) :=
  if k ∈ st.1 then st
  else
    let component := addRelations relationMap (relationMap.neighbours k) {k}
    (st.1 ∪ component, insert component st.2)

def gatherRelatedSets : Finset (Finset A) := (relationMap.keys.foldl (gatherKey relationMap) (∅, ∅)).2

variable {relationMap}

theorem mem_addRelations {toAdd acc : Finset A} (hClosed : ∀ a ∈ acc, relationMap.neighbours a ⊆ acc ∪ toAdd) (b : A) :
    b ∈ addRelations relationMap toAdd acc ↔
      ∃ a ∈ acc ∪ toAdd, Relation.ReflTransGen relationMap.Related a b := by
  have hReach : ∀ {s : Finset A}, (∀ a ∈ s, relationMap.neighbours a ⊆ s) →
      (b ∈ s ↔ ∃ a ∈ s, Relation.ReflTransGen relationMap.Related a b) := by
    intro s hs
    constructor
    · exact fun hb => ⟨b, hb, .refl⟩
    · rintro ⟨a, ha, hab⟩
      induction hab with
      | refl => exact ha
      | tail _ hStep ih => exact hs _ ih (RelationMap.mem_neighbours.mpr hStep)
  induction toAdd, acc using addRelations.induct relationMap with
  | case1 toAdd acc hSub =>
    rw [addRelations, if_pos hSub, Finset.union_eq_left.mpr hSub]
    rw [Finset.union_eq_left.mpr hSub] at hClosed
    exact hReach hClosed
  | case2 toAdd acc hSub next n hNone =>
    rw [addRelations, if_neg hSub]
    dsimp only
    rw [if_pos hNone]
    refine hReach fun a ha c hc => ?_
    by_contra hOut
    obtain ha | ha := Finset.mem_union.mp ha
    · exact hOut (hClosed a ha hc)
    · have hNew : c ∈ n := Finset.mem_filter.mpr ⟨Finset.mem_biUnion.mpr ⟨a, ha, hc⟩, hOut⟩
      rw [hNone] at hNew
      exact Finset.notMem_empty c hNew
  | case3 toAdd acc hSub next n hSome ih =>
    rw [addRelations, if_neg hSub]
    dsimp only
    rw [if_neg hSome]
    have hNext : ∀ a ∈ next, relationMap.neighbours a ⊆ next ∪ n := by
      intro a ha c hc
      by_cases hIn : c ∈ next
      · exact Finset.mem_union_left _ hIn
      · refine Finset.mem_union_right _ (Finset.mem_filter.mpr ⟨?_, hIn⟩)
        obtain ha | ha := Finset.mem_union.mp ha
        · exact absurd (hClosed a ha hc) hIn
        · exact Finset.mem_biUnion.mpr ⟨a, ha, hc⟩
    refine (ih hNext).trans ⟨?_, ?_⟩
    · rintro ⟨a, ha, hab⟩
      obtain ha | ha := Finset.mem_union.mp ha
      · exact ⟨a, ha, hab⟩
      · obtain ⟨v, hv, hva⟩ := Finset.mem_biUnion.mp (Finset.mem_filter.mp ha).1
        exact ⟨v, Finset.mem_union_right _ hv, .head (RelationMap.mem_neighbours.mp hva) hab⟩
    · rintro ⟨a, ha, hab⟩
      exact ⟨a, Finset.mem_union_left _ ha, hab⟩

theorem mem_component {k b : A} :
    b ∈ addRelations relationMap (relationMap.neighbours k) {k} ↔ Relation.ReflTransGen relationMap.Related k b := by
  rw [mem_addRelations fun a ha => by rw [Finset.mem_singleton.mp ha]; exact Finset.subset_union_right]
  constructor
  · rintro ⟨a, ha, hab⟩
    obtain ha | ha := Finset.mem_union.mp ha
    · rwa [Finset.mem_singleton.mp ha] at hab
    · exact .head (RelationMap.mem_neighbours.mp ha) hab
  · exact fun h => ⟨k, Finset.mem_union_left _ (Finset.mem_singleton_self k), h⟩

variable (relationMap) in
/-- The sets found for some keys are their classes, and every key is in one. -/
structure GatheredFrom (keys : List A) (st : Finset A × Finset (Finset A)) : Prop where
  class_of : ∀ s ∈ st.2, ∃ k ∈ keys, ∀ b, b ∈ s ↔ Relation.ReflTransGen relationMap.Related k b
  covered : ∀ b, b ∈ st.1 ↔ ∃ s ∈ st.2, b ∈ s
  keys_mem : ∀ k ∈ keys, k ∈ st.1

theorem gatheredFrom_foldl (keys : List A) :
    GatheredFrom relationMap keys (keys.foldl (gatherKey relationMap) (∅, ∅)) := by
  induction keys using List.reverseRecOn with
  | nil => constructor <;> simp
  | append_singleton keys k ih =>
    rw [List.foldl_append, List.foldl_cons, List.foldl_nil, gatherKey]
    split_ifs with hIn
    · refine ⟨fun s hs => ?_, ih.covered, fun k' hk' => ?_⟩
      · obtain ⟨k', hk', hClass⟩ := ih.class_of s hs
        exact ⟨k', List.mem_append_left _ hk', hClass⟩
      · obtain hk' | hk' := List.mem_append.mp hk'
        · exact ih.keys_mem k' hk'
        · rwa [List.mem_singleton.mp hk']
    · refine ⟨fun s hs => ?_, fun b => ?_, fun k' hk' => ?_⟩
      · obtain rfl | hs := Finset.mem_insert.mp hs
        · exact ⟨k, List.mem_append_right _ List.mem_cons_self, fun b => mem_component⟩
        · obtain ⟨k', hk', hClass⟩ := ih.class_of s hs
          exact ⟨k', List.mem_append_left _ hk', hClass⟩
      · simp only [Finset.mem_union, ih.covered, Finset.mem_insert, exists_eq_or_imp]
        exact or_comm
      · obtain hk' | hk' := List.mem_append.mp hk'
        · exact Finset.mem_union_left _ (ih.keys_mem k' hk')
        · rw [List.mem_singleton.mp hk']
          exact Finset.mem_union_right _ (mem_component.mpr .refl)

theorem reflTransGen_symm (hSymm : ∀ a b, relationMap.Related a b → relationMap.Related b a) {a b : A}
    (h : Relation.ReflTransGen relationMap.Related a b) : Relation.ReflTransGen relationMap.Related b a := by
  induction h with
  | refl => exact .refl
  | tail _ hStep ih => exact .head (hSymm _ _ hStep) ih

theorem gatherRelatedSets_disjoint (hSymm : ∀ a b, relationMap.Related a b → relationMap.Related b a)
    {s t : Finset A} (hs : s ∈ gatherRelatedSets relationMap) (ht : t ∈ gatherRelatedSets relationMap) {b : A}
    (hbs : b ∈ s) (hbt : b ∈ t) : s = t := by
  obtain ⟨k, -, hClass⟩ := (gatheredFrom_foldl relationMap.keys).class_of s hs
  obtain ⟨k', -, hClass'⟩ := (gatheredFrom_foldl relationMap.keys).class_of t ht
  have hkk' := ((hClass b).mp hbs).trans (reflTransGen_symm hSymm ((hClass' b).mp hbt))
  ext c
  rw [hClass, hClass']
  exact ⟨fun hc => (reflTransGen_symm hSymm hkk').trans hc, fun hc => hkk'.trans hc⟩

theorem exists_gatherRelatedSets_iff (hDomain : ∀ a b, relationMap.Related a b → b ∈ relationMap) {b : A} :
    (∃ s ∈ gatherRelatedSets relationMap, b ∈ s) ↔ b ∈ relationMap := by
  have hGathered := @gatheredFrom_foldl A _ relationMap relationMap.keys
  constructor
  · rintro ⟨s, hs, hb⟩
    obtain ⟨k, hk, hClass⟩ := hGathered.class_of s hs
    obtain rfl | ⟨c, -, hcb⟩ := Relation.ReflTransGen.cases_tail ((hClass b).mp hb)
    · exact AList.mem_keys.mpr hk
    · exact hDomain c b hcb
  · exact fun hb => (hGathered.covered b).mp (hGathered.keys_mem b (AList.mem_keys.mp hb))

theorem gatherRelatedSets_of_unrelated (h : ∀ a b, ¬ relationMap.Related a b) :
    gatherRelatedSets relationMap = relationMap.keys.toFinset.image fun k => {k} := by
  have hGathered := @gatheredFrom_foldl A _ relationMap relationMap.keys
  have hClass : ∀ s ∈ gatherRelatedSets relationMap, ∃ k ∈ relationMap.keys, s = {k} := by
    intro s hs
    obtain ⟨k, hk, hMem⟩ := hGathered.class_of s hs
    refine ⟨k, hk, ?_⟩
    ext b
    rw [hMem, Finset.mem_singleton]
    constructor
    · intro hReach
      obtain rfl | ⟨c, -, hcb⟩ := Relation.ReflTransGen.cases_tail hReach
      · rfl
      · exact absurd hcb (h c b)
    · rintro rfl
      exact .refl
  ext s
  rw [Finset.mem_image]
  constructor
  · intro hs
    obtain ⟨k, hk, rfl⟩ := hClass s hs
    exact ⟨k, List.mem_toFinset.mpr hk, rfl⟩
  · rintro ⟨k, hk, rfl⟩
    obtain ⟨s, hs, hks⟩ := (hGathered.covered k).mp (hGathered.keys_mem k (List.mem_toFinset.mp hk))
    obtain ⟨k', -, rfl⟩ := hClass s hs
    rwa [Finset.mem_singleton.mp hks]

theorem ne_empty_of_mem_gatherRelatedSets {s : Finset A} (hs : s ∈ gatherRelatedSets relationMap) : s ≠ ∅ := by
  obtain ⟨k, -, hClass⟩ := (gatheredFrom_foldl relationMap.keys).class_of s hs
  exact Finset.ne_empty_of_mem ((hClass k).mpr .refl)

variable (relationMap) in
def IsComponent (s : Finset A) : Prop := ∃ k ∈ relationMap, ∀ b, b ∈ s ↔ Relation.EqvGen relationMap.Related k b

theorem mem_gatherRelatedSets_iff (hSymm : ∀ a b, relationMap.Related a b → relationMap.Related b a) {s : Finset A} :
    s ∈ gatherRelatedSets relationMap ↔ IsComponent relationMap s := by
  have hGathered := @gatheredFrom_foldl A _ relationMap relationMap.keys
  have : Std.Symm relationMap.Related := ⟨hSymm⟩
  rw [IsComponent, Relation.EqvGen.eqvGen_eq_reflTransGen]
  constructor
  · intro hs
    obtain ⟨k, hk, hClass⟩ := hGathered.class_of s hs
    exact ⟨k, AList.mem_keys.mpr hk, hClass⟩
  · rintro ⟨k, hk, hClass⟩
    -- the set that holds `k` is the class of another key that `k` is connected to
    obtain ⟨t, ht, hkt⟩ := (hGathered.covered k).mp (hGathered.keys_mem k (AList.mem_keys.mp hk))
    obtain ⟨k', -, hClass'⟩ := hGathered.class_of t ht
    have hk'k := (hClass' k).mp hkt
    obtain rfl : s = t := by
      ext b
      rw [hClass, hClass']
      exact ⟨fun hb => hk'k.trans hb, fun hb => (reflTransGen_symm hSymm hk'k).trans hb⟩
    exact ht

theorem gatherRelatedSets_components (hSymm : ∀ a b, relationMap.Related a b → relationMap.Related b a) :
    (∀ s, s ∈ gatherRelatedSets relationMap ↔ IsComponent relationMap s) ∧
    (∀ k ∈ relationMap, ∃! s, s ∈ gatherRelatedSets relationMap ∧ k ∈ s) ∧
    (∀ s ∈ gatherRelatedSets relationMap, s ≠ ∅ ∧ ∀ b ∈ s, b ∈ relationMap) ∧
    ∀ relationMap' : RelationMap A, relationMap'.entries.Perm relationMap.entries →
      gatherRelatedSets relationMap' = gatherRelatedSets relationMap := by
  have hDomain : ∀ a b, relationMap.Related a b → b ∈ relationMap := by
    intro a b h
    obtain ⟨related, hLookup, -⟩ := hSymm a b h
    exact AList.lookup_isSome.mp (Option.isSome_of_eq_some hLookup)
  refine ⟨fun s => mem_gatherRelatedSets_iff hSymm, fun k hk => ?_, fun s hs => ⟨ne_empty_of_mem_gatherRelatedSets hs, ?_⟩,
    fun relationMap' hPerm => ?_⟩
  · obtain ⟨s, hs, hks⟩ := (exists_gatherRelatedSets_iff hDomain).mpr hk
    exact ⟨s, ⟨hs, hks⟩, fun t ht => gatherRelatedSets_disjoint hSymm ht.1 hs ht.2 hks⟩
  · exact fun b hb => (exists_gatherRelatedSets_iff hDomain).mp ⟨s, hs, hb⟩
  · have hLookup : ∀ k, relationMap'.lookup k = relationMap.lookup k := fun k => AList.perm_lookup hPerm
    have hRelated : relationMap'.Related = relationMap.Related := by
      unfold RelationMap.Related
      simp only [hLookup]
    have hMem : ∀ k, k ∈ relationMap' ↔ k ∈ relationMap := fun k => AList.mem_of_perm hPerm
    ext s
    rw [mem_gatherRelatedSets_iff hSymm, mem_gatherRelatedSets_iff (by rwa [hRelated]), IsComponent, IsComponent, hRelated]
    simp only [hMem]

def pairAndSingle : RelationMap Nat := ⟨[⟨1, {2}⟩, ⟨2, {1}⟩, ⟨3, ∅⟩], by simp [List.NodupKeys, List.keys]⟩

theorem pairAndSingle_components :
    ∃! s, s ∈ gatherRelatedSets pairAndSingle ∧ 2 ∈ s := by
  refine (gatherRelatedSets_components ?_).2.1 2 (by decide)
  rintro a b ⟨related, hLookup, hb⟩
  have ha : a ∈ pairAndSingle := AList.lookup_isSome.mp (Option.isSome_of_eq_some hLookup)
  obtain rfl | rfl | rfl : a = 1 ∨ a = 2 ∨ a = 3 := by simpa [pairAndSingle, AList.mem_keys, AList.keys, List.keys] using ha
  · obtain rfl : ({2} : Finset Nat) = related := Option.some.inj hLookup
    obtain rfl := Finset.mem_singleton.mp hb
    exact ⟨{1}, by decide, by decide⟩
  · obtain rfl : ({1} : Finset Nat) = related := Option.some.inj hLookup
    obtain rfl := Finset.mem_singleton.mp hb
    exact ⟨{2}, by decide, by decide⟩
  · obtain rfl : (∅ : Finset Nat) = related := Option.some.inj hLookup
    cases hb

end gather

end F1r3Node.Merging
