import F1r3Node.Lib.Netting
import F1r3Node.Merging.StateChange

/-! # What the guard against order dependence guarantees

Where the guard finds no offender, a datum of a channel is only added, or only removed, or added by one survivor and
removed by one.
-/

namespace F1r3Node.Merging

open Shared Lib Netting

namespace ChannelChange

variable {A : Type} [DecidableEq A] (d : A)

def tally (c : ChannelChange A) : Nat × Nat := (c.added.count d, c.removed.count d)

variable {c : ChannelChange A}

theorem tally_fst_pos : 0 < (c.tally d).1 ↔ d ∈ c.added := List.count_pos_iff

theorem tally_snd_pos : 0 < (c.tally d).2 ↔ d ∈ c.removed := List.count_pos_iff

theorem count_vecDiff (items toRemove : List A) : (vecDiff items toRemove).count d = items.count d - toRemove.count d := by
  rw [vecDiff, ← List.diff_eq_foldl, List.count_diff]

theorem count_vecUnion (left right : List A) : (vecUnion left right).count d = max (left.count d) (right.count d) := by
  rw [vecUnion, List.count_append, count_vecDiff]
  omega

theorem count_cancelCommon (added removed : List A) :
    (cancelCommon added removed).1.count d = added.count d - removed.count d ∧
      (cancelCommon added removed).2.count d = removed.count d - added.count d := by
  induction added generalizing removed with
  | nil => simp [cancelCommon]
  | cons a added ih =>
    rw [cancelCommon]
    split_ifs with hMem
    · obtain ⟨hAdded, hRemoved⟩ := ih (removed.erase a)
      rw [hAdded, hRemoved, List.count_cons, List.count_erase]
      have hPos : 0 < removed.count a := List.count_pos_iff.mpr hMem
      obtain rfl | hNe := eq_or_ne a d
      · simp only [beq_self_eq_true, if_true]
        omega
      · simp only [beq_iff_eq, hNe, if_false]
        omega
    · obtain ⟨hAdded, hRemoved⟩ := ih removed
      dsimp only
      rw [hRemoved, List.count_cons, List.count_cons, hAdded]
      obtain rfl | hNe := eq_or_ne a d
      · have hZero : removed.count a = 0 := List.count_eq_zero.mpr hMem
        simp only [beq_self_eq_true, if_true]
        omega
      · simp only [beq_iff_eq, hNe, if_false]
        omega

theorem tally_combine (c c' : ChannelChange A) : (c.combine c').tally d = net (c.tally d) (c'.tally d) := by
  obtain ⟨hAdded, hRemoved⟩ := count_cancelCommon d (vecUnion c.added c'.added) (vecUnion c.removed c'.removed)
  rw [count_vecUnion, count_vecUnion] at hAdded hRemoved
  exact Prod.ext hAdded hRemoved

theorem tally_foldl_combine (cs : List (ChannelChange A)) (c : ChannelChange A) :
    (cs.foldl combine c).tally d = (cs.map (tally d)).foldl net (c.tally d) := by
  induction cs generalizing c with
  | nil => rfl
  | cons c' cs ih => rw [List.foldl_cons, ih, tally_combine, List.map_cons, List.foldl_cons]

def Netted (c : ChannelChange A) : Prop := ∀ d ∈ c.added, d ∉ c.removed

theorem Netted.tally (h : c.Netted) : (c.tally d).1 = 0 ∨ (c.tally d).2 = 0 := by
  obtain hZero | hPos := Nat.eq_zero_or_pos (c.added.count d)
  · exact .inl hZero
  · exact .inr (List.count_eq_zero.mpr (h d (List.count_pos_iff.mp hPos)))

def Same (c c' : ChannelChange A) : Prop := c.added.Perm c'.added ∧ c.removed.Perm c'.removed

theorem same_iff_tally {c' : ChannelChange A} : c.Same c' ↔ ∀ d, c.tally d = c'.tally d := by
  simp only [Same, List.perm_iff_count, tally, Prod.mk.injEq, forall_and]

end ChannelChange

section fold

def foldChanges : List (ChannelChange Bytes) → Option (ChannelChange Bytes)
  | [] => none
  | c :: cs => some (cs.foldl ChannelChange.combine c)

def joinChange : Option (ChannelChange Bytes) → Option (ChannelChange Bytes) → Option (ChannelChange Bytes)
  | some c, some c' => some (c.combine c')
  | some c, none => some c
  | none, c => c

theorem foldChanges_append_singleton (cs : List (ChannelChange Bytes)) (c : ChannelChange Bytes) :
    foldChanges (cs ++ [c]) = joinChange (foldChanges cs) (some c) := by
  cases cs with
  | nil => rfl
  | cons c' cs =>
    change some ((cs ++ [c]).foldl _ c') = some _
    rw [List.foldl_append]
    rfl

theorem lookup_foldl_combineChange {entries : List (Sigma fun _ : Bytes => ChannelChange Bytes)}
    (hNodup : entries.NodupKeys) (changes : AList fun _ : Bytes => ChannelChange Bytes) (k : Bytes) :
    (entries.foldl StateChange.combineChange changes).lookup k = joinChange (changes.lookup k) (entries.dlookup k) := by
  induction entries generalizing changes with
  | nil => cases h : changes.lookup k <;> exact h
  | cons entry entries ih =>
    obtain ⟨hFresh, hRest⟩ := List.nodupKeys_cons.mp hNodup
    rw [List.foldl_cons, ih hRest]
    obtain rfl | hNe := eq_or_ne k entry.1
    · rw [List.dlookup_cons_eq, List.dlookup_eq_none.mpr hFresh, StateChange.combineChange]
      cases hLookup : changes.lookup entry.1 with
      | none =>
        dsimp only
        rw [AList.lookup_insert]
        rfl
      | some c =>
        dsimp only
        rw [AList.lookup_insert]
        rfl
    · rw [List.dlookup_cons_ne _ _ hNe, StateChange.combineChange]
      cases hLookup : changes.lookup entry.1 with
      | none =>
        dsimp only
        rw [AList.lookup_insert_ne hNe]
      | some c =>
        dsimp only
        rw [AList.lookup_insert_ne hNe]

variable {S : Type}

/-- The changes of a channel, with their sources. -/
def touching (k : Bytes) (survivors : List (S × StateChange)) : List (S × ChannelChange Bytes) :=
  survivors.filterMap fun survivor => (survivor.2.datumsChanges.lookup k).map (survivor.1, ·)

theorem lookup_combineAll (survivors : List (S × StateChange)) (k : Bytes) :
    (combineAll survivors).datumsChanges.lookup k = foldChanges ((touching k survivors).map Prod.snd) := by
  induction survivors using List.reverseRecOn with
  | nil => rfl
  | append_singleton survivors survivor ih =>
    have hStep : combineAll (survivors ++ [survivor]) = (combineAll survivors).combine survivor.2 := by
      rw [combineAll, List.foldl_append]
      rfl
    rw [hStep, StateChange.combine]
    dsimp only
    rw [lookup_foldl_combineChange survivor.2.datumsChanges.nodupKeys, ih]
    rw [touching, touching, List.filterMap_append, List.map_append]
    change joinChange _ (survivor.2.datumsChanges.lookup k) = _
    cases hLookup : survivor.2.datumsChanges.lookup k with
    | none =>
      rw [List.filterMap_cons_none (by rw [hLookup]; rfl), List.filterMap_nil, List.map_nil, List.append_nil]
      generalize foldChanges _ = c
      cases c <;> rfl
    | some c =>
      rw [List.filterMap_cons_some (by rw [hLookup]; rfl), List.filterMap_nil]
      exact (foldChanges_append_singleton _ c).symm

end fold

section guard

open OrderDependenceGuard

variable {S : Type} [DecidableEq S]

def observed (side : Contributions S) (k d : Bytes) : Option (Contributors S) :=
  (side.lookup k).bind fun perChannel => perChannel.lookup d

/-- One more survivor of a source. -/
def bump (source : S) (c : Option (Contributors S)) : Contributors S :=
  ⟨(c.getD ⟨0, ∅⟩).survivors + 1, insert source (c.getD ⟨0, ∅⟩).sources⟩

theorem lookup_foldl_addContributor (source : S) {datums : List Bytes} (hNodup : datums.Nodup)
    (perChannel : AList fun _ : Bytes => Contributors S) (d : Bytes) :
    (datums.foldl (addContributor source) perChannel).lookup d =
      if d ∈ datums then some (bump source (perChannel.lookup d)) else perChannel.lookup d := by
  induction datums generalizing perChannel with
  | nil => rfl
  | cons datum datums ih =>
    obtain ⟨hFresh, hRest⟩ := List.nodup_cons.mp hNodup
    rw [List.foldl_cons, ih hRest, addContributor]
    obtain rfl | hNe := eq_or_ne d datum
    · rw [if_neg hFresh, if_pos List.mem_cons_self, AList.lookup_insert]
      rfl
    · rw [AList.lookup_insert_ne hNe]
      simp only [List.mem_cons, hNe, false_or]

theorem observed_observeSide (source : S) (side : Contributions S) (channel : Bytes) (datums : List Bytes)
    (k d : Bytes) : observed (observeSide source side channel datums) k d =
      if k = channel ∧ d ∈ datums then some (bump source (observed side k d)) else observed side k d := by
  rw [observed, observeSide]
  obtain rfl | hNe := eq_or_ne k channel
  · have hLookup : ((side.lookup k).getD ∅).lookup d = observed side k d := by
      rw [observed]
      cases side.lookup k <;> rfl
    rw [AList.lookup_insert, Option.bind_some, lookup_foldl_addContributor source (List.nodup_dedup datums), hLookup]
    simp only [List.mem_dedup, true_and]
  · rw [AList.lookup_insert_ne hNe, if_neg fun h => hNe h.1]
    rfl

def observeEntries (pick : ChannelChange Bytes → List Bytes) (side : Contributions S) (survivor : S × StateChange) :
    Contributions S :=
  survivor.2.datumsChanges.entries.foldl (fun side entry => observeSide survivor.1 side entry.1 (pick entry.2)) side

variable (pick : ChannelChange Bytes → List Bytes)

theorem observed_observeEntries (side : Contributions S) (survivor : S × StateChange) (k d : Bytes) :
    observed (observeEntries pick side survivor) k d =
      if ∃ c, survivor.2.datumsChanges.lookup k = some c ∧ d ∈ pick c then some (bump survivor.1 (observed side k d))
      else observed side k d := by
  have hEntries : ∀ {entries : List (Sigma fun _ : Bytes => ChannelChange Bytes)}, entries.NodupKeys →
      ∀ side : Contributions S, observed (entries.foldl (fun side entry =>
        observeSide survivor.1 side entry.1 (pick entry.2)) side) k d =
      if ∃ c, entries.dlookup k = some c ∧ d ∈ pick c then some (bump survivor.1 (observed side k d))
      else observed side k d := by
    intro entries hNodup side
    induction entries generalizing side with
    | nil => simp
    | cons entry entries ih =>
      obtain ⟨hFresh, hRest⟩ := List.nodupKeys_cons.mp hNodup
      rw [List.foldl_cons, ih hRest, observed_observeSide]
      obtain rfl | hNe := eq_or_ne k entry.1
      · rw [List.dlookup_cons_eq, List.dlookup_eq_none.mpr hFresh]
        simp
      · have hOther : ¬ (k = entry.1 ∧ d ∈ pick entry.2) := fun h => hNe h.1
        rw [List.dlookup_cons_ne _ _ hNe, if_neg hOther]
  exact hEntries survivor.2.datumsChanges.nodupKeys side

def contributing (k d : Bytes) (survivors : List (S × StateChange)) : List (S × ChannelChange Bytes) :=
  (touching k survivors).filter fun change => d ∈ pick change.2

theorem observed_foldl_observeEntries (survivors : List (S × StateChange)) (k d : Bytes) :
    observed (survivors.foldl (observeEntries pick) ∅) k d =
      if contributing pick k d survivors = [] then none
      else some ⟨(contributing pick k d survivors).length,
        ((contributing pick k d survivors).map Prod.fst).toFinset⟩ := by
  induction survivors using List.reverseRecOn with
  | nil => rfl
  | append_singleton survivors survivor ih =>
    have hTouching : contributing pick k d (survivors ++ [survivor]) = contributing pick k d survivors ++
        contributing pick k d [survivor] := by
      rw [contributing, touching, List.filterMap_append, List.filter_append]
      rfl
    rw [List.foldl_append, List.foldl_cons, List.foldl_nil, observed_observeEntries, ih, hTouching]
    by_cases hContributes : ∃ c, survivor.2.datumsChanges.lookup k = some c ∧ d ∈ pick c
    · obtain ⟨c, hLookup, hd⟩ := hContributes
      have hOne : contributing pick k d [survivor] = [(survivor.1, c)] := by
        simp [contributing, touching, hLookup, hd]
      rw [if_pos ⟨c, hLookup, hd⟩, hOne, if_neg (List.append_ne_nil_of_right_ne_nil _ (List.cons_ne_nil _ _))]
      split_ifs with hNil
      · rw [hNil]
        rfl
      · have hSources : (contributing pick k d survivors ++ [(survivor.1, c)]).map Prod.fst =
            (contributing pick k d survivors).map Prod.fst ++ [survivor.1] := List.map_append
        rw [bump, Option.getD_some, hSources, List.toFinset_append, Finset.union_comm, List.length_append]
        rfl
    · have hNone : contributing pick k d [survivor] = [] := by
        refine List.filter_eq_nil_iff.mpr fun change hChange hd => hContributes ⟨change.2, ?_, by simpa using hd⟩
        simp only [touching, List.filterMap_cons, List.filterMap_nil] at hChange
        cases hLookup : survivor.2.datumsChanges.lookup k with
        | none => simp [hLookup] at hChange
        | some c => simp_all
      rw [if_neg hContributes, hNone, List.append_nil]

theorem observeAll_eq (survivors : List (S × StateChange)) :
    observeAll survivors = ⟨survivors.foldl (observeEntries ChannelChange.added) ∅,
      survivors.foldl (observeEntries ChannelChange.removed) ∅⟩ := by
  have hObserve : ∀ (order : OrderDependenceGuard S) (survivor : S × StateChange),
      order.observe survivor.1 survivor.2 = ⟨observeEntries ChannelChange.added order.added survivor,
        observeEntries ChannelChange.removed order.removed survivor⟩ := by
    intro order survivor
    rw [observe, observeEntries, observeEntries]
    induction survivor.2.datumsChanges.entries generalizing order with
    | nil => rfl
    | cons entry entries ih => exact ih (observeChange survivor.1 order entry)
  have hFold : ∀ order : OrderDependenceGuard S,
      survivors.foldl (fun order survivor => order.observe survivor.1 survivor.2) order =
        ⟨survivors.foldl (observeEntries ChannelChange.added) order.added,
          survivors.foldl (observeEntries ChannelChange.removed) order.removed⟩ := by
    induction survivors with
    | nil => exact fun order => rfl
    | cons survivor survivors ih =>
      intro order
      rw [List.foldl_cons, ih, hObserve]
      rfl
  exact hFold .default

omit [DecidableEq S] in
theorem not_offends_of_firstOffender {order : OrderDependenceGuard S} {mergeableKeys : Finset Bytes}
    (h : order.firstOffender mergeableKeys = none) {k : Bytes} (hk : k ∉ mergeableKeys) {d : Bytes}
    {a r : Contributors S} (hAdded : observed order.added k d = some a) (hRemoved : observed order.removed k d = some r) :
    a.survivors ≤ 1 ∧ r.survivors ≤ 1 := by
  have hSides := List.map_eq_nil_iff.mp (List.min?_eq_none_iff.mp h)
  have hClean : ∀ side ∈ order.added.entries.map (fun entry => (entry.1, entry.2, order.removed)) ++
      order.removed.entries.map (fun entry => (entry.1, entry.2, order.added)),
      side.1 ∉ mergeableKeys → offends side.1 side.2.1 side.2.2 = false := by
    intro side hSide hKey
    have hNot := List.filter_eq_nil_iff.mp hSides side hSide
    simpa [hKey] using hNot
  have hFew : ∀ {side opposite : Contributions S} {c c' : Contributors S}, observed side k d = some c →
      observed opposite k d = some c' →
      (∀ perChannel, side.lookup k = some perChannel → offends k perChannel opposite = false) → c.survivors ≤ 1 := by
    intro side opposite c c' hc hc' hNot
    obtain ⟨perChannel, hPer, hLookup⟩ := Option.bind_eq_some_iff.mp hc
    obtain ⟨other, hOther, hIn⟩ := Option.bind_eq_some_iff.mp hc'
    have hEntry := List.any_eq_false.mp (hNot perChannel hPer) ⟨d, c⟩ (AList.mem_lookup_iff.mp hLookup)
    have hMem : d ∈ other := AList.lookup_isSome.mp (by rw [hIn]; rfl)
    rw [hOther] at hEntry
    simp only [Option.any_some, hMem, decide_true, Bool.and_true, Bool.or_eq_true, decide_eq_true_eq, not_or] at hEntry
    omega
  constructor
  · refine hFew hAdded hRemoved fun perChannel hPer => hClean (k, perChannel, order.removed) ?_ hk
    exact List.mem_append_left _ (List.mem_map.mpr ⟨⟨k, perChannel⟩, AList.mem_lookup_iff.mp hPer, rfl⟩)
  · refine hFew hRemoved hAdded fun perChannel hPer => hClean (k, perChannel, order.added) ?_ hk
    exact List.mem_append_right _ (List.mem_map.mpr ⟨⟨k, perChannel⟩, AList.mem_lookup_iff.mp hPer, rfl⟩)

theorem quiet_of_firstOffender {survivors : List (S × StateChange)} {mergeableKeys : Finset Bytes}
    (h : (observeAll survivors).firstOffender mergeableKeys = none) {k : Bytes} (hk : k ∉ mergeableKeys) (d : Bytes) :
    Quiet ((touching k survivors).map fun change => change.2.tally d) := by
  rw [observeAll_eq] at h
  have hObserved := fun pick => observed_foldl_observeEntries pick survivors k d
  have hEmpty : ∀ pick, contributing pick k d survivors = [] → ∀ change ∈ touching k survivors,
      d ∉ pick change.2 := by
    intro pick hNil change hChange
    simpa using List.filter_eq_nil_iff.mp hNil change hChange
  by_cases hAdded : contributing ChannelChange.added k d survivors = []
  · refine .inr (.inl fun x hx => ?_)
    obtain ⟨change, hChange, rfl⟩ := List.mem_map.mp hx
    exact Nat.eq_zero_of_not_pos fun h => hEmpty _ hAdded change hChange ((ChannelChange.tally_fst_pos d).mp h)
  by_cases hRemoved : contributing ChannelChange.removed k d survivors = []
  · refine .inl fun x hx => ?_
    obtain ⟨change, hChange, rfl⟩ := List.mem_map.mp hx
    exact Nat.eq_zero_of_not_pos fun h => hEmpty _ hRemoved change hChange ((ChannelChange.tally_snd_pos d).mp h)
  · have hA := hObserved ChannelChange.added
    have hR := hObserved ChannelChange.removed
    rw [if_neg hAdded] at hA
    rw [if_neg hRemoved] at hR
    obtain ⟨hFewA, hFewR⟩ := not_offends_of_firstOffender h hk hA hR
    refine .inr (.inr ⟨?_, ?_⟩)
    · rw [List.countP_map, List.countP_eq_length_filter]
      refine le_of_eq_of_le (congrArg List.length (List.filter_congr fun change _ => ?_)) hFewA
      exact decide_eq_decide.mpr (ChannelChange.tally_fst_pos d)
    · rw [List.countP_map, List.countP_eq_length_filter]
      refine le_of_eq_of_le (congrArg List.length (List.filter_congr fun change _ => ?_)) hFewR
      exact decide_eq_decide.mpr (ChannelChange.tally_snd_pos d)

end guard

section independence

def SameChange : Option (ChannelChange Bytes) → Option (ChannelChange Bytes) → Prop
  | some c, some c' => c.Same c'
  | none, none => True
  | _, _ => False

instance (c c' : ChannelChange Bytes) : Decidable (c.Same c') := inferInstanceAs (Decidable (_ ∧ _))

instance : DecidableRel SameChange := fun c c' =>
  match c, c' with
  | some _, some _ => inferInstanceAs (Decidable (ChannelChange.Same _ _))
  | none, none => inferInstanceAs (Decidable True)
  | some _, none => inferInstanceAs (Decidable False)
  | none, some _ => inferInstanceAs (Decidable False)

theorem sameChange_foldChanges {cs cs' : List (ChannelChange Bytes)}
    (hQuiet : ∀ d, Quiet (cs.map (ChannelChange.tally d))) (hQuiet' : ∀ d, Quiet (cs'.map (ChannelChange.tally d)))
    (hNetted : ∀ c ∈ cs, c.Netted) (hNetted' : ∀ c ∈ cs', c.Netted) (hSame : ∀ c ∈ cs, ∃ c' ∈ cs', c'.Same c)
    (hSame' : ∀ c' ∈ cs', ∃ c ∈ cs, c.Same c') : SameChange (foldChanges cs) (foldChanges cs') := by
  cases cs with
  | nil =>
    cases cs' with
    | nil => trivial
    | cons c' cs' =>
      obtain ⟨c, hc, -⟩ := hSame' c' List.mem_cons_self
      cases hc
  | cons c cs =>
    cases cs' with
    | nil =>
      obtain ⟨c', hc', -⟩ := hSame c List.mem_cons_self
      cases hc'
    | cons c' cs' =>
      refine ChannelChange.same_iff_tally.mpr fun d => ?_
      have hMost : ∀ f : Nat × Nat → Nat, most f ((c :: cs).map (ChannelChange.tally d)) =
          most f ((c' :: cs').map (ChannelChange.tally d)) := by
        refine fun f => most_eq_of_same (fun x hx => ?_) fun x hx => ?_
        · obtain ⟨a, ha, rfl⟩ := List.mem_map.mp hx
          obtain ⟨b, hb, hba⟩ := hSame a ha
          exact ⟨_, List.mem_map_of_mem hb, congrArg f (ChannelChange.same_iff_tally.mp hba d)⟩
        · obtain ⟨a, ha, rfl⟩ := List.mem_map.mp hx
          obtain ⟨b, hb, hba⟩ := hSame' a ha
          exact ⟨_, List.mem_map_of_mem hb, congrArg f (ChannelChange.same_iff_tally.mp hba d)⟩
      simp only [List.map_cons] at hQuiet hQuiet' hMost
      rw [ChannelChange.tally_foldl_combine, ChannelChange.tally_foldl_combine,
        foldl_net (hQuiet d) ((hNetted c List.mem_cons_self).tally d),
        foldl_net (hQuiet' d) ((hNetted' c' List.mem_cons_self).tally d), hMost, hMost]

variable {S : Type}

/-- Changes of one source to one channel are the same. -/
def SourcesAgree (survivors : List (S × StateChange)) : Prop :=
  ∀ k, ∀ change ∈ touching k survivors, ∀ other ∈ touching k survivors, change.1 = other.1 → change.2.Same other.2

def ChangesNetted (survivors : List (S × StateChange)) : Prop := ∀ k, ∀ change ∈ touching k survivors, change.2.Netted

structure OneCopyAt (k : Bytes) (copies survivors : List (S × StateChange)) : Prop where
  nodup : ((touching k copies).map Prod.fst).Nodup
  subset : touching k copies ⊆ touching k survivors
  covers : ∀ change ∈ touching k survivors, change.1 ∈ (touching k copies).map Prod.fst

/-- On the channels that the guard looks at, the survivors may be folded in any order, or one for
each source. -/
theorem combineAll_order_free [DecidableEq S] (survivors : List (S × StateChange)) (mergeableKeys : Finset Bytes)
    (hSources : SourcesAgree survivors) (hNetted : ChangesNetted survivors)
    (hGuard : (observeAll survivors).firstOffender mergeableKeys = none) (k : Bytes) (hk : k ∉ mergeableKeys) :
    (∀ reordered : List (S × StateChange), reordered.Perm survivors →
      SameChange ((combineAll reordered).datumsChanges.lookup k) ((combineAll survivors).datumsChanges.lookup k)) ∧
    ∀ copies, OneCopyAt k copies survivors →
      SameChange ((combineAll copies).datumsChanges.lookup k) ((combineAll survivors).datumsChanges.lookup k) := by
  have hQuiet := quiet_of_firstOffender hGuard hk
  have hMap : ∀ (changes : List (S × ChannelChange Bytes)) (d : Bytes), (changes.map Prod.snd).map (ChannelChange.tally d) =
      changes.map fun change => change.2.tally d := fun changes d => List.map_map
  have hFold : ∀ {changes : List (S × ChannelChange Bytes)},
      (∀ d, Quiet (changes.map fun change => change.2.tally d)) → changes ⊆ touching k survivors →
      (∀ change ∈ touching k survivors, ∃ other ∈ changes, other.2.Same change.2) →
      SameChange (foldChanges (changes.map Prod.snd)) (foldChanges ((touching k survivors).map Prod.snd)) := by
    intro changes hChanges hSubset hCovers
    refine sameChange_foldChanges (fun d => hMap _ d ▸ hChanges d) (fun d => hMap _ d ▸ hQuiet d) ?_ ?_ ?_ ?_
    · rintro c hc
      obtain ⟨change, hChange, rfl⟩ := List.mem_map.mp hc
      exact hNetted k change (hSubset hChange)
    · rintro c hc
      obtain ⟨change, hChange, rfl⟩ := List.mem_map.mp hc
      exact hNetted k change hChange
    · rintro c hc
      obtain ⟨change, hChange, rfl⟩ := List.mem_map.mp hc
      exact ⟨_, List.mem_map_of_mem (hSubset hChange), .refl _, .refl _⟩
    · rintro c hc
      obtain ⟨change, hChange, rfl⟩ := List.mem_map.mp hc
      obtain ⟨other, hOther, hSame⟩ := hCovers change hChange
      exact ⟨_, List.mem_map_of_mem hOther, hSame⟩
  constructor
  · intro reordered hPerm
    have hTouching : (touching k reordered).Perm (touching k survivors) := hPerm.filterMap _
    rw [lookup_combineAll, lookup_combineAll]
    refine hFold (fun d => (hQuiet d).perm (hTouching.map _)) hTouching.subset fun change hChange => ?_
    exact ⟨change, hTouching.mem_iff.mpr hChange, .refl _, .refl _⟩
  · intro copies hCopies
    rw [lookup_combineAll, lookup_combineAll]
    refine hFold (fun d => ?_) hCopies.subset fun change hChange => ?_
    · obtain ⟨changes, hPerm, hSub⟩ := hCopies.nodup.of_map.subperm hCopies.subset
      exact ((hQuiet d).sublist (hSub.map _)).perm (hPerm.symm.map _)
    · obtain ⟨other, hOther, hSource⟩ := List.mem_map.mp (hCopies.covers change hChange)
      exact ⟨other, hOther, hSources k other (hCopies.subset hOther) change hChange hSource⟩

instance (c : ChannelChange Bytes) : Decidable c.Netted := inferInstanceAs (Decidable (∀ d ∈ c.added, d ∉ c.removed))

def onChannel (channel : Bytes) (changes : List (S × ChannelChange Bytes)) : List (S × StateChange) :=
  changes.map fun change => (change.1, ⟨AList.singleton channel change.2, ∅, ∅⟩)

theorem touching_onChannel (channel : Bytes) (changes : List (S × ChannelChange Bytes)) (k : Bytes) :
    touching k (onChannel channel changes) = if k = channel then changes else [] := by
  rw [touching, onChannel, List.filterMap_map]
  have hLookup : ∀ c : ChannelChange Bytes, (AList.singleton channel c : AList fun _ : Bytes => _).lookup k =
      if channel = k then some c else none := by
    intro c
    split_ifs with hEq
    · subst hEq
      exact List.dlookup_cons_eq _ _ _
    · exact List.dlookup_cons_ne _ _ fun h => hEq h.symm
  simp only [Function.comp_def, hLookup]
  obtain rfl | hNe := eq_or_ne k channel
  · simp only [if_true, Option.map_some]
    exact List.filterMap_some
  · simp only [if_neg hNe, if_neg hNe.symm, Option.map_none]
    exact List.filterMap_eq_nil_iff.mpr fun _ _ => rfl

variable {changes : List (S × ChannelChange Bytes)}

theorem sourcesAgree_onChannel {channel : Bytes}
    (h : ∀ change ∈ changes, ∀ other ∈ changes, change.1 = other.1 → change.2.Same other.2) :
    SourcesAgree (onChannel channel changes) := by
  intro k
  rw [touching_onChannel]
  split_ifs
  · exact h
  · exact fun change hChange => absurd hChange List.not_mem_nil

theorem changesNetted_onChannel {channel : Bytes}
    (h : ∀ change ∈ changes, change.2.Netted) : ChangesNetted (onChannel channel changes) := by
  intro k
  rw [touching_onChannel]
  split_ifs
  · exact h
  · exact fun change hChange => absurd hChange List.not_mem_nil

/-- Two siblings of one source and a removal by another source. -/
theorem combineAll_order_free_siblings :
    let survivors := onChannel [7] [(1, ⟨[[5]], [[4]]⟩), (1, ⟨[[5]], [[4]]⟩), (2, ⟨[], [[6]]⟩)]
    (∀ reordered : List (Nat × StateChange), reordered.Perm survivors →
      SameChange ((combineAll reordered).datumsChanges.lookup [7]) ((combineAll survivors).datumsChanges.lookup [7])) ∧
    ∀ copies, OneCopyAt [7] copies survivors →
      SameChange ((combineAll copies).datumsChanges.lookup [7]) ((combineAll survivors).datumsChanges.lookup [7]) :=
  combineAll_order_free _ ∅ (sourcesAgree_onChannel (by decide)) (changesNetted_onChannel (by decide)) (by decide) [7]
    (by decide)

/-- On a number channel, which the guard passes over, two additions and a removal of one datum give
different changes in different orders. -/
theorem combineAll_number_channel_order :
    let added : ChannelChange Bytes := ⟨[[5]], []⟩
    let removed : ChannelChange Bytes := ⟨[], [[5]]⟩
    let survivors := onChannel [7] [(1, added), (2, added), (3, removed)]
    let reordered := onChannel [7] [(1, added), (3, removed), (2, added)]
    SourcesAgree survivors ∧ ChangesNetted survivors ∧ (observeAll survivors).firstOffender {[7]} = none ∧
      reordered.Perm survivors ∧
      ¬ SameChange ((combineAll reordered).datumsChanges.lookup [7])
        ((combineAll survivors).datumsChanges.lookup [7]) := by
  refine ⟨sourcesAgree_onChannel (by decide), changesNetted_onChannel (by decide), by decide, ?_, by decide⟩
  exact (List.Perm.cons _ (List.Perm.swap _ _ _)).map _

end independence

end F1r3Node.Merging
