import F1r3Node.Finality.FloorOfBlock

/-! # The block that fork choice scores from

The floors of the latest messages are compared by height, and the first of the highest ones is taken.
-/

namespace F1r3Node.Finality

open Shared Dag CliqueOracle

def raise (highest : Option Floor) (floor : Floor) : Option Floor :=
  if highest.all (·.blockNumber < floor.blockNumber) then some floor else highest

section model

variable (dag : KeyValueDagRepresentation) (blockStore : KeyValueBlockStore) (ftt : FtThreshold)

/-- A latest message whose floor does not derive abstains; what its call has cached by then is not kept here. -/
def highestFloor (fuel : Nat) : FloorCaches → Option Floor → List Bytes → Option Floor
  | _, highest, [] => highest
  | caches, highest, hash :: rest =>
    match floorOfBlock dag blockStore ftt fuel caches hash with
    | .ok (floor, caches') => highestFloor fuel caches' (raise highest floor) rest
    | .error _ => highestFloor fuel caches highest rest

def floorAbove (approved : BlockMetadata) : Option Floor → Except CasperError BlockMetadata
  | some floor =>
    if approved.blockNumber < floor.blockNumber then (dag.lookupUnsafe floor.hash).mapError .ofKvStoreError
    else .ok approved
  | none => .ok approved

def forkChoiceFloor (fuel : Nat) (caches : FloorCaches) (approved : BlockMetadata) (latestMessages : List Bytes) :
    Except CasperError BlockMetadata :=
  if ftt.num ≤ 0 then .ok approved
  else floorAbove dag approved (highestFloor dag blockStore ftt fuel caches none latestMessages)

def Chooses (caches : FloorCaches) (approved : BlockMetadata) (latestMessages : List Bytes)
    (result : Except CasperError BlockMetadata) : Prop :=
  ∃ bound, ∀ fuel, bound ≤ fuel → forkChoiceFloor dag blockStore ftt fuel caches approved latestMessages = result

def OrderFree (caches : FloorCaches) (approved : BlockMetadata) (latestMessages : List Bytes) : Prop :=
  ∃ result, ∀ messages, messages.Perm latestMessages → Chooses dag blockStore ftt caches approved messages result

/-- Latest messages whose floors are the highest, above the approved block, have the same floor. -/
def OneHighestFloor (approved : BlockMetadata) (latestMessages : List Bytes) : Prop :=
  ∀ a ∈ latestMessages, ∀ b ∈ latestMessages, ∀ f g, FloorOf dag blockStore ftt a f → FloorOf dag blockStore ftt b g →
    (∀ c ∈ latestMessages, ∀ h, FloorOf dag blockStore ftt c h → h.blockNumber ≤ f.blockNumber) →
    g.blockNumber = f.blockNumber → approved.blockNumber < f.blockNumber → g.hash = f.hash

open Classical in
noncomputable def floorAt (hash : Bytes) : Option Floor :=
  if h : ∃ f, FloorOf dag blockStore ftt hash f then some h.choose else none

end model

theorem foldl_raise_of_le {floors : List Floor} {f : Floor} (h : ∀ g ∈ floors, g.blockNumber ≤ f.blockNumber) :
    floors.foldl raise (some f) = some f := by
  induction floors with
  | nil => rfl
  | cons g floors ih =>
    obtain ⟨hHead, hTail⟩ := List.forall_mem_cons.mp h
    have hKept : raise (some f) g = some f := if_neg (by simpa using hHead)
    rw [List.foldl_cons, hKept]
    exact ih hTail

theorem exists_foldl_raise (floors : List Floor) (h : Floor) :
    ∃ f, floors.foldl raise (some h) = some f ∧ (f = h ∨ f ∈ floors) ∧ h.blockNumber ≤ f.blockNumber ∧
      ∀ g ∈ floors, g.blockNumber ≤ f.blockNumber := by
  induction floors generalizing h with
  | nil => exact ⟨h, rfl, .inl rfl, le_rfl, by simp⟩
  | cons g floors ih =>
    simp only [List.foldl_cons, raise, Option.all_some, decide_eq_true_eq]
    split
    · obtain ⟨f, hFold, hMem, hStart, hAll⟩ := ih g
      refine ⟨f, hFold, .inr (List.mem_cons.mpr hMem), by omega, List.forall_mem_cons.mpr ⟨hStart, hAll⟩⟩
    · obtain ⟨f, hFold, hMem, hStart, hAll⟩ := ih h
      refine ⟨f, hFold, hMem.imp_right (List.mem_cons_of_mem g), hStart, List.forall_mem_cons.mpr ⟨by omega, hAll⟩⟩

theorem foldl_raise_none (floors : List Floor) : floors = [] ∨
    ∃ f ∈ floors, floors.foldl raise none = some f ∧ ∀ g ∈ floors, g.blockNumber ≤ f.blockNumber := by
  cases floors with
  | nil => exact .inl rfl
  | cons g floors =>
    obtain ⟨f, hFold, hMem, hStart, hAll⟩ := exists_foldl_raise floors g
    exact .inr ⟨f, List.mem_cons.mpr hMem, hFold, List.forall_mem_cons.mpr ⟨hStart, hAll⟩⟩

section

variable {dag : KeyValueDagRepresentation} {blockStore : KeyValueBlockStore} {ftt : FtThreshold} {caches : FloorCaches}
  {approved : BlockMetadata} {latestMessages messages : List Bytes} {hash : Bytes} {f : Floor}

theorem floorAt_eq_some : floorAt dag blockStore ftt hash = some f ↔ FloorOf dag blockStore ftt hash f := by
  rw [floorAt]
  constructor
  · intro h
    split at h
    · next hSome => exact Option.some.inj h ▸ hSome.choose_spec
    · cases h
  · intro hFloor
    have hSome : ∃ f, FloorOf dag blockStore ftt hash f := ⟨f, hFloor⟩
    rw [dif_pos hSome, hSome.choose_spec.unique hFloor]

theorem mem_filterMap_floorAt :
    f ∈ messages.filterMap (floorAt dag blockStore ftt) ↔ ∃ hash ∈ messages, FloorOf dag blockStore ftt hash f := by
  simp only [List.mem_filterMap, floorAt_eq_some]

theorem floorOfBlock_eventually (hDag : Complete dag) (hValid : caches.Valid dag blockStore ftt)
    (hFloor : FloorOf dag blockStore ftt hash f) : ∃ turns caches', caches'.Valid dag blockStore ftt ∧
      ∀ fuel, turns ≤ fuel → floorOfBlock dag blockStore ftt fuel caches hash = .ok (f, caches') := by
  obtain ⟨turns, caches', h⟩ := hFloor.resolves hDag caches hValid
  refine ⟨turns, caches', h.valid, fun fuel hFuel => ?_⟩
  have hLoop := h.loop (fuel - turns) []
  rw [Nat.sub_add_cancel hFuel, List.append_nil, floorLoop] at hLoop
  rw [floorOfBlock, hLoop]
  change (cachedFloor dag caches' hash >>= _) = _
  rw [h.valid.cachedFloor_eq hDag hFloor (h.cached hash List.mem_cons_self)]
  rfl

theorem highestFloor_eventually (hDag : Complete dag) (hValid : caches.Valid dag blockStore ftt) (messages : List Bytes)
    (highest : Option Floor) : ∃ bound, ∀ fuel, bound ≤ fuel → highestFloor dag blockStore ftt fuel caches highest messages =
      (messages.filterMap (floorAt dag blockStore ftt)).foldl raise highest := by
  induction messages generalizing caches highest with
  | nil => exact ⟨0, fun _ _ => rfl⟩
  | cons hash messages ih =>
    cases hFloor : floorAt dag blockStore ftt hash with
    | none =>
      obtain ⟨bound, hRest⟩ := ih hValid highest
      refine ⟨bound, fun fuel hFuel => ?_⟩
      rw [List.filterMap_cons_none hFloor, ← hRest fuel hFuel, highestFloor]
      split
      · next floor caches' hOk =>
        have hSome := floorAt_eq_some.mpr ((derives_iff hDag hValid).mp ⟨fuel, caches', hOk⟩)
        rw [hFloor] at hSome
        cases hSome
      · rfl
    | some floor =>
      obtain ⟨turns, caches', hValid', hOk⟩ := floorOfBlock_eventually hDag hValid (floorAt_eq_some.mp hFloor)
      obtain ⟨bound, hRest⟩ := ih hValid' (raise highest floor)
      refine ⟨turns + bound, fun fuel hFuel => ?_⟩
      rw [List.filterMap_cons_some hFloor, highestFloor, hOk fuel (by omega)]
      exact hRest fuel (by omega)

theorem chooses_iff (hDag : Complete dag) (hFtt : 0 < ftt.num) (hValid : caches.Valid dag blockStore ftt)
    {result : Except CasperError BlockMetadata} : Chooses dag blockStore ftt caches approved messages result ↔
      floorAbove dag approved ((messages.filterMap (floorAt dag blockStore ftt)).foldl raise none) = result := by
  obtain ⟨bound, hLoop⟩ := highestFloor_eventually hDag hValid messages none
  have hEnd : ∀ fuel, bound ≤ fuel → forkChoiceFloor dag blockStore ftt fuel caches approved messages =
      floorAbove dag approved ((messages.filterMap (floorAt dag blockStore ftt)).foldl raise none) := by
    intro fuel hFuel
    rw [forkChoiceFloor, if_neg (by omega), hLoop fuel hFuel]
  constructor
  · rintro ⟨bound', hResult⟩
    rw [← hEnd (bound + bound') (by omega), hResult _ (by omega)]
  · rintro rfl
    exact ⟨bound, hEnd⟩

theorem floorAbove_of_mem {a : Bytes} (hDag : Complete dag) (ha : a ∈ latestMessages)
    (hFloor : FloorOf dag blockStore ftt a f) (hAbove : approved.blockNumber < f.blockNumber)
    (hMax : ∀ c ∈ latestMessages, ∀ h, FloorOf dag blockStore ftt c h → h.blockNumber ≤ f.blockNumber) :
    ∃ (messages : List Bytes) (m : BlockMetadata), messages.Perm latestMessages ∧ m.blockHash = f.hash ∧
      floorAbove dag approved ((messages.filterMap (floorAt dag blockStore ftt)).foldl raise none) = .ok m := by
  obtain ⟨m, hm, -⟩ := hFloor.held hDag
  refine ⟨a :: latestMessages.erase a, m, (List.perm_cons_erase ha).symm, dag.hash_eq f.hash m hm, ?_⟩
  rw [List.filterMap_cons_some (floorAt_eq_some.mpr hFloor), List.foldl_cons, raise, if_pos (by rfl), foldl_raise_of_le]
  · rw [floorAbove, if_pos hAbove, KeyValueDagRepresentation.lookupUnsafe, hm]
    rfl
  · intro g hg
    obtain ⟨c, hc, hFloorC⟩ := mem_filterMap_floorAt.mp hg
    exact hMax c (List.mem_of_mem_erase hc) g hFloorC

theorem orderFree_iff (hDag : Complete dag) (hFtt : 0 < ftt.num) (hValid : caches.Valid dag blockStore ftt) :
    OrderFree dag blockStore ftt caches approved latestMessages ↔ OneHighestFloor dag blockStore ftt approved latestMessages := by
  simp only [OrderFree, chooses_iff hDag hFtt hValid]
  constructor
  · rintro ⟨result, hResult⟩ a ha b hb f g hf hg hMax hSame hAbove
    obtain ⟨messages, m, hPerm, hHash, hOk⟩ := floorAbove_of_mem hDag ha hf hAbove hMax
    obtain ⟨messages', m', hPerm', hHash', hOk'⟩ := floorAbove_of_mem hDag hb hg (hSame ▸ hAbove)
      (fun c hc h hh => hSame ▸ hMax c hc h hh)
    rw [hResult messages hPerm] at hOk
    rw [hResult messages' hPerm', hOk] at hOk'
    rw [← hHash, ← hHash', Except.ok.inj hOk']
  · intro hOne
    refine ⟨floorAbove dag approved ((latestMessages.filterMap (floorAt dag blockStore ftt)).foldl raise none),
      fun messages hPerm => ?_⟩
    have hFloors := hPerm.filterMap (floorAt dag blockStore ftt)
    obtain hNil | ⟨f, hf, hFold, hMax⟩ := foldl_raise_none (latestMessages.filterMap (floorAt dag blockStore ftt))
    · rw [hNil] at hFloors ⊢
      rw [hFloors.eq_nil]
    obtain hNil | ⟨g, hg, hFold', hMax'⟩ := foldl_raise_none (messages.filterMap (floorAt dag blockStore ftt))
    · rw [hNil] at hFloors
      exact absurd (hFloors.mem_iff.mpr hf) List.not_mem_nil
    have hSame : g.blockNumber = f.blockNumber :=
      le_antisymm (hMax g (hFloors.mem_iff.mp hg)) (hMax' f (hFloors.mem_iff.mpr hf))
    obtain ⟨a, ha, hFloor⟩ := mem_filterMap_floorAt.mp hf
    obtain ⟨b, hb, hFloor'⟩ := mem_filterMap_floorAt.mp (hFloors.mem_iff.mp hg)
    rw [hFold, hFold', floorAbove, floorAbove, hSame]
    split
    · next hAbove =>
      rw [hOne a ha b hb f g hFloor hFloor' (fun c hc h hh => hMax h (mem_filterMap_floorAt.mpr ⟨c, hc, hh⟩)) hSame hAbove]
    · rfl

end

def cutApproved : BlockMetadata := cutBlock [0] [] [9] [] 0 []

end F1r3Node.Finality
