import F1r3Node.Slashing.EquivocationDetector

/-! # What the detector detects

The walk down the self-justifications ends at the oldest block of the equivocator above the base, and the memo answers
what the walk answers.
-/

namespace F1r3Node.Slashing

open Shared
open Casper (BlockMessage Justification Bond)
open Dag (KeyValueDagRepresentation KvStoreError BlockMetadata)

variable {D S : Type}

def LastEntry (justifications : List Justification) (entry : Justification) : Prop :=
  justifications.reverse.find? (·.validator = entry.validator) = some entry

theorem find_insertLatest (entry : Justification) (entries : List Justification) (v : Bytes) :
    (insertLatest entry entries).find? (·.validator = v) =
      if entry.validator = v then some entry else entries.find? (·.validator = v) := by
  induction entries with
  | nil =>
    rw [insertLatest, List.find?_cons]
    by_cases h : entry.validator = v
    · simp [h]
    · simp [h]
  | cons head entries ih =>
    rw [insertLatest]
    split
    · rw [List.find?_cons]
      by_cases h : entry.validator = v
      · simp [h]
      · simp [h]
    · next hNotLt =>
      split
      · next hGt =>
        rw [List.find?_cons, List.find?_cons, ih]
        by_cases h : head.validator = v
        · have hNe : entry.validator ≠ v := by
            intro hEq
            rw [hEq, h] at hGt
            exact List.lt_irrefl v hGt
          simp [h, hNe]
        · simp [h]
      · next hNotGt =>
        have hEq : entry.validator = head.validator := List.le_antisymm hNotGt hNotLt
        rw [List.find?_cons, List.find?_cons]
        by_cases h : entry.validator = v
        · simp [h]
        · have hHead : head.validator ≠ v := fun hv => h (hEq.trans hv)
          simp [h, hHead]

theorem find_toLatestMessageHashes (justifications : List Justification) (v : Bytes) :
    (toLatestMessageHashes justifications).find? (·.validator = v) =
      justifications.reverse.find? (·.validator = v) := by
  induction justifications using List.reverseRecOn with
  | nil => rfl
  | append_singleton justifications last ih =>
    rw [toLatestMessageHashes] at ih ⊢
    rw [List.foldl_append, List.foldl_cons, List.foldl_nil, find_insertLatest, ih, List.reverse_append,
      List.reverse_singleton, List.singleton_append, List.find?_cons]
    by_cases h : last.validator = v
    · simp [h]
    · simp [h]

variable {entry : Justification} {entries : List Justification}

theorem forall_mem_insertLatest {p : Justification → Prop}
    (hNew : p entry) (h : ∀ e ∈ entries, p e) : ∀ e ∈ insertLatest entry entries, p e := by
  induction entries with
  | nil => exact List.forall_mem_singleton.mpr hNew
  | cons head entries ih =>
    obtain ⟨hHead, hTail⟩ := List.forall_mem_cons.mp h
    rw [insertLatest]
    split
    · exact List.forall_mem_cons.mpr ⟨hNew, h⟩
    · split
      · exact List.forall_mem_cons.mpr ⟨hHead, ih hTail⟩
      · exact List.forall_mem_cons.mpr ⟨hNew, hTail⟩

theorem sorted_insertLatest
    (h : entries.Pairwise fun a b => a.validator < b.validator) :
    (insertLatest entry entries).Pairwise fun a b => a.validator < b.validator := by
  induction entries with
  | nil => exact List.pairwise_singleton _ _
  | cons head entries ih =>
    obtain ⟨hHead, hTail⟩ := List.pairwise_cons.mp h
    rw [insertLatest]
    split
    · next hLt =>
      refine List.pairwise_cons.mpr ⟨?_, h⟩
      exact List.forall_mem_cons.mpr ⟨hLt, fun e he => List.lt_trans hLt (hHead e he)⟩
    · next hNotLt =>
      split
      · next hGt => exact List.pairwise_cons.mpr ⟨forall_mem_insertLatest hGt hHead, ih hTail⟩
      · next hNotGt =>
        have hEq : entry.validator = head.validator := List.le_antisymm hNotGt hNotLt
        exact List.pairwise_cons.mpr ⟨fun e he => hEq ▸ hHead e he, hTail⟩

theorem sorted_toLatestMessageHashes (justifications : List Justification) :
    (toLatestMessageHashes justifications).Pairwise fun a b => a.validator < b.validator := by
  induction justifications using List.reverseRecOn with
  | nil => exact .nil
  | append_singleton justifications last ih =>
    rw [toLatestMessageHashes] at ih ⊢
    rw [List.foldl_append]
    exact sorted_insertLatest ih

theorem find_of_mem_sorted
    (h : entries.Pairwise fun a b => a.validator < b.validator) (hMem : entry ∈ entries) :
    entries.find? (·.validator = entry.validator) = some entry := by
  induction entries with
  | nil => cases hMem
  | cons head entries ih =>
    obtain ⟨hHead, hTail⟩ := List.pairwise_cons.mp h
    rw [List.find?_cons]
    obtain rfl | hMem := List.mem_cons.mp hMem
    · simp
    · have hNe : head.validator ≠ entry.validator := by
        intro hEq
        have hLt := hHead entry hMem
        rw [hEq] at hLt
        exact List.lt_irrefl _ hLt
      simp [hNe, ih hTail hMem]

theorem mem_toLatestMessageHashes {justifications : List Justification} :
    entry ∈ toLatestMessageHashes justifications ↔ LastEntry justifications entry := by
  rw [LastEntry, ← find_toLatestMessageHashes]
  exact ⟨find_of_mem_sorted (sorted_toLatestMessageHashes justifications), List.mem_of_find?_eq_some⟩

section branches

variable (dag : KeyValueDagRepresentation) (validator : Bytes) (base : Int)

def BranchStep (hash previous : Bytes) : Prop :=
  dag.SelfJustifies hash previous ∧
    ∃ m, dag.lookup previous = some m ∧ m.sender = validator ∧ base < m.sequenceNumber

def BranchRoot (hash root : Bytes) : Prop :=
  Relation.ReflTransGen (BranchStep dag validator base) hash root ∧ ∀ previous, ¬ BranchStep dag validator base root previous

/-- A block's sequence number is its self-justification's plus one; genesis has no self-justification. -/
def Sequenced (dag : KeyValueDagRepresentation) : Prop :=
  ∀ hash m previous m', dag.lookup hash = some m → dag.SelfJustifies hash previous → dag.lookup previous = some m' →
    m.sequenceNumber = m'.sequenceNumber + 1

/-- The self-justifications of the validator's blocks above the base are held, and sequence numbers follow each
other. -/
def ChainHeld : Prop :=
  ∀ hash m previous, dag.lookup hash = some m → m.sender = validator → base < m.sequenceNumber →
    dag.SelfJustifies hash previous → ∃ m', dag.lookup previous = some m' ∧ m.sequenceNumber = m'.sequenceNumber + 1

variable {dag validator base}

variable {hash : Bytes}

theorem BranchStep.unique {p p' : Bytes} (h : BranchStep dag validator base hash p)
    (h' : BranchStep dag validator base hash p') : p = p' :=
  Option.some.inj (Except.ok.inj (h.1.symm.trans h'.1))

theorem BranchRoot.unique {root root' : Bytes} (h : BranchRoot dag validator base hash root)
    (h' : BranchRoot dag validator base hash root') : root = root' := by
  have hUnique : Relator.RightUnique (BranchStep dag validator base) := fun _ _ _ => BranchStep.unique
  obtain hBelow | hBelow := Relation.ReflTransGen.total_of_right_unique hUnique h.1 h'.1
  · obtain hEq | ⟨p, hStep, -⟩ := Relation.ReflTransGen.cases_head hBelow
    · exact hEq
    · exact absurd hStep (h.2 p)
  · obtain hEq | ⟨p, hStep, -⟩ := Relation.ReflTransGen.cases_head hBelow
    · exact hEq.symm
    · exact absurd hStep (h'.2 p)

theorem BranchRoot.of_reaches {hash' root : Bytes} (h : BranchRoot dag validator base hash' root)
    (hReaches : Relation.ReflTransGen (BranchStep dag validator base) hash hash') :
    BranchRoot dag validator base hash root :=
  ⟨hReaches.trans h.1, h.2⟩

theorem canonicalLoop_spec (hChain : ChainHeld dag validator base) {fuel : Nat} {visited : Finset Bytes} {current : Bytes}
    {m : BlockMetadata} (hHeld : dag.lookup current = some m) (hSender : m.sender = validator)
    (hAbove : base < m.sequenceNumber)
    (hVisited : ∀ hash ∈ visited, ∃ m', dag.lookup hash = some m' ∧ m.sequenceNumber < m'.sequenceNumber)
    (hFuel : dag.records.length < fuel + visited.card) :
    ∃ root, canonicalLoop dag validator base fuel visited current = .ok root ∧ BranchRoot dag validator base current root := by
  induction fuel generalizing visited current m with
  | zero =>
    have hSub : visited ⊆ (dag.records.map (·.blockHash)).toFinset := by
      intro hash hMem
      obtain ⟨m', hLookup, -⟩ := hVisited hash hMem
      have hHash := KeyValueDagRepresentation.blockHash_of_lookup hLookup
      exact List.mem_toFinset.mpr (List.mem_map.mpr ⟨m', KeyValueDagRepresentation.mem_records.mpr (hHash ▸ hLookup), hHash⟩)
    have hCard := (Finset.card_le_card hSub).trans (List.toFinset_card_le _)
    rw [List.length_map] at hCard
    omega
  | succ fuel ih =>
    have hFresh : current ∉ visited := by
      intro hMem
      obtain ⟨m', hLookup, hLt⟩ := hVisited current hMem
      obtain rfl := Option.some.inj (hHeld.symm.trans hLookup)
      exact lt_irrefl _ hLt
    obtain ⟨previous, hPrevious⟩ : ∃ previous, dag.selfJustification current = .ok previous := by
      rw [KeyValueDagRepresentation.selfJustification, hHeld]
      exact ⟨_, rfl⟩
    rw [canonicalLoop, if_neg hFresh, hPrevious]
    cases previous with
    | none =>
      refine ⟨current, rfl, .refl, fun p hStep => ?_⟩
      cases hPrevious.symm.trans hStep.1
    | some parent =>
      obtain ⟨m', hParent, hSeq⟩ := hChain current m parent hHeld hSender hAbove hPrevious
      dsimp only
      rw [KeyValueDagRepresentation.lookupUnsafe_eq_ok.mpr hParent]
      dsimp only
      split
      · next hStays =>
        have hStep : BranchStep dag validator base current parent := ⟨hPrevious, m', hParent, hStays⟩
        have hVisited' : ∀ hash ∈ insert current visited,
            ∃ m'', dag.lookup hash = some m'' ∧ m'.sequenceNumber < m''.sequenceNumber := by
          intro hash hMem
          obtain rfl | hMem := Finset.mem_insert.mp hMem
          · exact ⟨m, hHeld, by omega⟩
          · obtain ⟨m'', hLookup, hLt⟩ := hVisited hash hMem
            exact ⟨m'', hLookup, by omega⟩
        obtain ⟨root, hLoop, hRoot⟩ := ih hParent hStays.1 hStays.2 hVisited' (by
          rw [Finset.card_insert_of_notMem hFresh]
          omega)
        exact ⟨root, hLoop, hRoot.of_reaches (.single hStep)⟩
      · next hLeaves =>
        refine ⟨current, rfl, .refl, fun p hStep => hLeaves ?_⟩
        obtain ⟨hSelf, m'', hLookup, hStays⟩ := hStep
        obtain rfl : parent = p := Option.some.inj (Except.ok.inj (hPrevious.symm.trans hSelf))
        obtain rfl := Option.some.inj (hParent.symm.trans hLookup)
        exact hStays

end branches

section pass

variable (dag : KeyValueDagRepresentation) (blockStore : Bytes → Option (BlockMessage D S)) (genesis : BlockMessage D S)
  (validator : Bytes) (base : Int)

def Above (block : BlockMessage D S) : Prop := block.sender = validator ∧ base < block.seqNum.toInt

/-- What a cited block shows of the validator: itself, or the validator's last entry among its justifications. -/
def Shows (cited : Bytes) (block : BlockMessage D S) : Prop :=
  ∃ justification, blockStore cited = some justification ∧ justification.blockHash ≠ genesis.blockHash ∧
    (justification.sender = validator ∧ block = justification ∨
      justification.sender ≠ validator ∧ ∃ entry, entry.validator = validator ∧
        LastEntry justification.justifications entry ∧ blockStore entry.latestBlockHash = some block)

/-- The stores hold the same blocks, under their own hashes. -/
structure StoresMatch : Prop where
  keyed : ∀ hash block, blockStore hash = some block → block.blockHash = hash
  record : ∀ hash block m, blockStore hash = some block → dag.lookup hash = some m →
    m.sender = block.sender ∧ m.sequenceNumber = block.seqNum.toInt
  stored : ∀ hash m, dag.lookup hash = some m → ∃ block, blockStore hash = some block

def ChildOf (block : BlockMessage D S) (child : Option Bytes) : Prop :=
  (Above validator base block → ∃ root, child = some root ∧ BranchRoot dag validator base block.blockHash root) ∧
    (¬ Above validator base block → child = none)

def CacheSound (cache : CanonicalChildCache) : Prop :=
  ∀ hash child, cache.lookup (hash, validator, base) = some child → ∀ block, blockStore hash = some block →
    ChildOf dag validator base block child

variable {dag blockStore genesis validator base}

variable {hash : Bytes}

theorem childOf_find (hStores : StoresMatch dag blockStore) (hChain : ChainHeld dag validator base)
    {block : BlockMessage D S} (hBlock : blockStore hash = some block)
    (hHeld : Above validator base block → ∃ m, dag.lookup hash = some m) :
    ∃ child, findCanonicalCreatorJustificationChildAboveSeq dag block validator base = .ok child ∧
      ChildOf dag validator base block child := by
  rw [findCanonicalCreatorJustificationChildAboveSeq]
  split
  · next hNot =>
    have hBelow : ¬ Above validator base block := by
      rintro ⟨hSender, hSeq⟩
      exact hNot.elim (fun hNe => hNe hSender) fun hLe => absurd hSeq (not_lt.mpr hLe)
    exact ⟨none, rfl, fun hAbove => absurd hAbove hBelow, fun _ => rfl⟩
  · next hBoth =>
    obtain ⟨hSender, hSeq⟩ := not_or.mp hBoth
    have hAbove : Above validator base block := ⟨not_not.mp hSender, not_le.mp hSeq⟩
    obtain ⟨m, hLookup⟩ := hHeld hAbove
    obtain ⟨hSenderEq, hSeqEq⟩ := hStores.record hash block m hBlock hLookup
    have hHash := hStores.keyed hash block hBlock
    obtain ⟨root, hLoop, hRoot⟩ : ∃ root,
        canonicalLoop dag validator base (dag.records.length + 1) ∅ block.blockHash = .ok root ∧
          BranchRoot dag validator base block.blockHash root :=
      canonicalLoop_spec hChain (hHash ▸ hLookup) (hSenderEq.trans hAbove.1) (hSeqEq ▸ hAbove.2)
        (fun h hMem => absurd hMem (Finset.notMem_empty h)) (Nat.lt_succ_self _)
    exact ⟨some root, by rw [hLoop]; rfl, fun _ => ⟨root, rfl, hRoot⟩, fun hNot => absurd hAbove hNot⟩

theorem childOf_canonicalChild (hStores : StoresMatch dag blockStore) (hChain : ChainHeld dag validator base)
    {block : BlockMessage D S} (hBlock : blockStore hash = some block)
    (hHeld : Above validator base block → ∃ m, dag.lookup hash = some m) {cache : CanonicalChildCache}
    (hCache : CacheSound dag blockStore validator base cache) :
    ∃ child cache', canonicalChild dag block validator base cache = .ok (child, cache') ∧
      ChildOf dag validator base block child ∧ CacheSound dag blockStore validator base cache' := by
  have hHash := hStores.keyed hash block hBlock
  rw [canonicalChild]
  cases hCached : cache.lookup (block.blockHash, validator, base) with
  | some cached => exact ⟨cached, cache, rfl, hCache _ cached hCached block (hHash ▸ hBlock), hCache⟩
  | none =>
    obtain ⟨child, hFind, hChild⟩ := childOf_find hStores hChain hBlock hHeld
    dsimp only
    rw [hFind]
    refine ⟨child, _, rfl, hChild, fun hash' child' hLookup block' hBlock' => ?_⟩
    by_cases hEq : hash' = block.blockHash
    · subst hEq
      rw [AList.lookup_insert] at hLookup
      obtain rfl := Option.some.inj hLookup
      obtain rfl : block = block' := Option.some.inj ((hHash ▸ hBlock).symm.trans hBlock')
      exact hChild
    · rw [AList.lookup_insert_ne fun hKey => hEq (Prod.mk.inj hKey).1] at hLookup
      exact hCache hash' child' hLookup block' hBlock'

def Detection.hashes (state : Detection D S) : List Bytes := state.children.map (·.blockHash)

theorem pushChild_spec (hStores : StoresMatch dag blockStore) {child : Option Bytes}
    (hStored : ∀ root, child = some root → ∃ m, dag.lookup root = some m) {children : List (BlockMessage D S)}
    (hNodup : (children.map (·.blockHash)).Nodup) :
    ((pushChild blockStore child children).map (·.blockHash)).Nodup ∧
      ∀ c, c ∈ (pushChild blockStore child children).map (·.blockHash) ↔
        c ∈ children.map (·.blockHash) ∨ child = some c := by
  cases child with
  | none => exact ⟨hNodup, fun c => by simp [pushChild]⟩
  | some root =>
    obtain ⟨m, hLookup⟩ := hStored root rfl
    obtain ⟨block, hBlock⟩ := hStores.stored root m hLookup
    have hHash := hStores.keyed root block hBlock
    rw [pushChild, Option.bind_some, hBlock]
    dsimp only
    split
    · next hAny =>
      have hMem : root ∈ children.map (·.blockHash) := by
        obtain ⟨old, hOld, hEq⟩ := List.any_eq_true.mp hAny
        exact List.mem_map.mpr ⟨old, hOld, (of_decide_eq_true hEq).trans hHash⟩
      refine ⟨hNodup, fun c => ⟨.inl, ?_⟩⟩
      rintro (h | h)
      · exact h
      · obtain rfl := Option.some.inj h
        exact hMem
    · next hNew =>
      have hNotMem : root ∉ children.map (·.blockHash) := by
        intro hMem
        obtain ⟨old, hOld, hEq⟩ := List.mem_map.mp hMem
        exact hNew (List.any_eq_true.mpr ⟨old, hOld, decide_eq_true (hEq.trans hHash.symm)⟩)
      rw [List.map_append, List.map_singleton, hHash]
      refine ⟨List.nodup_append.mpr ⟨hNodup, List.nodup_singleton root, ?_⟩, fun c => ?_⟩
      · rintro a ha b hb rfl
        exact hNotMem (List.mem_singleton.mp hb ▸ ha)
      · rw [List.mem_append, List.mem_singleton, Option.some.injEq, eq_comm (a := root)]

theorem BranchRoot.held {root : Bytes} {m : BlockMetadata} (h : BranchRoot dag validator base hash root)
    (hHeld : dag.lookup hash = some m) : ∃ m', dag.lookup root = some m' := by
  obtain rfl | ⟨p, -, -, m', hLookup, -⟩ := Relation.ReflTransGen.cases_tail h.1
  · exact ⟨m, hHeld⟩
  · exact ⟨m', hLookup⟩

variable {state : Detection D S}

theorem addEquivocationChild_spec (hStores : StoresMatch dag blockStore) (hChain : ChainHeld dag validator base)
    {block : BlockMessage D S} (hBlock : blockStore hash = some block)
    (hHeld : Above validator base block → ∃ m, dag.lookup hash = some m)
    (hCache : CacheSound dag blockStore validator base state.cache) (hNodup : state.hashes.Nodup) :
    ∃ state', addEquivocationChild dag blockStore block validator base state = .ok state' ∧
      CacheSound dag blockStore validator base state'.cache ∧ state'.hashes.Nodup ∧
      ∀ c, c ∈ state'.hashes ↔ c ∈ state.hashes ∨
        Above validator base block ∧ BranchRoot dag validator base block.blockHash c := by
  obtain ⟨child, cache, hChild, hOf, hSound⟩ := childOf_canonicalChild hStores hChain hBlock hHeld hCache
  have hStored : ∀ root, child = some root → ∃ m, dag.lookup root = some m := by
    intro root hRoot
    by_cases hAbove : Above validator base block
    · obtain ⟨root', hEq, hBranch⟩ := hOf.1 hAbove
      obtain rfl := Option.some.inj (hRoot.symm.trans hEq)
      obtain ⟨m, hLookup⟩ := hHeld hAbove
      exact hBranch.held ((hStores.keyed hash block hBlock).symm ▸ hLookup)
    · cases hRoot.symm.trans (hOf.2 hAbove)
  obtain ⟨hNodup', hMem⟩ := pushChild_spec hStores hStored hNodup
  rw [addEquivocationChild, hChild]
  refine ⟨_, rfl, hSound, hNodup', fun c => (hMem c).trans (or_congr_right ?_)⟩
  constructor
  · intro hEq
    by_cases hAbove : Above validator base block
    · obtain ⟨root, hRoot, hBranch⟩ := hOf.1 hAbove
      obtain rfl := Option.some.inj (hEq.symm.trans hRoot)
      exact ⟨hAbove, hBranch⟩
    · cases hEq.symm.trans (hOf.2 hAbove)
  · rintro ⟨hAbove, hBranch⟩
    obtain ⟨root, hRoot, hBranch'⟩ := hOf.1 hAbove
    rw [hRoot, hBranch.unique hBranch']

def ShowsRoot (dag : KeyValueDagRepresentation) (blockStore : Bytes → Option (BlockMessage D S)) (genesis : BlockMessage D S)
    (validator : Bytes) (base : Int) (cited root : Bytes) : Prop :=
  ∃ block, Shows blockStore genesis validator cited block ∧ Above validator base block ∧
    BranchRoot dag validator base block.blockHash root

theorem latestOf_eq_some {justification block : BlockMessage D S} :
    latestOf blockStore justification validator = some block ↔ ∃ entry, entry.validator = validator ∧
      LastEntry justification.justifications entry ∧ blockStore entry.latestBlockHash = some block := by
  rw [latestOf, find_toLatestMessageHashes, Option.bind_eq_some_iff]
  constructor
  · rintro ⟨entry, hFind, hBlock⟩
    have hValidator : entry.validator = validator := of_decide_eq_true (List.find?_some hFind :)
    exact ⟨entry, hValidator, by rw [LastEntry, hValidator]; exact hFind, hBlock⟩
  · rintro ⟨entry, rfl, hLast, hBlock⟩
    exact ⟨entry, hLast, hBlock⟩

theorem maybeAddEquivocationChild_spec (hStores : StoresMatch dag blockStore) (hChain : ChainHeld dag validator base)
    {cited : Bytes} {justification : BlockMessage D S} (hCited : blockStore cited = some justification)
    (hHeld : ∀ block, Shows blockStore genesis validator cited block → Above validator base block →
      ∃ m, dag.lookup block.blockHash = some m)
    (hCache : CacheSound dag blockStore validator base state.cache) (hNodup : state.hashes.Nodup) :
    ∃ state', maybeAddEquivocationChild dag blockStore justification validator base genesis state = .ok state' ∧
      CacheSound dag blockStore validator base state'.cache ∧ state'.hashes.Nodup ∧
      ∀ c, c ∈ state'.hashes ↔ c ∈ state.hashes ∨ ShowsRoot dag blockStore genesis validator base cited c := by
  -- what the block shows is read by one of the two branches, or nothing is
  have hShows : ∀ block, Shows blockStore genesis validator cited block ↔
      justification.blockHash ≠ genesis.blockHash ∧ (justification.sender = validator ∧ block = justification ∨
        justification.sender ≠ validator ∧ latestOf blockStore justification validator = some block) := by
    intro block
    rw [Shows, latestOf_eq_some]
    constructor
    · rintro ⟨justification', hEq, h⟩
      obtain rfl := Option.some.inj (hCited.symm.trans hEq)
      exact h
    · exact fun h => ⟨justification, hCited, h⟩
  have hSkip : (∀ c, ¬ ShowsRoot dag blockStore genesis validator base cited c) →
      ∃ state', (.ok state : Except KvStoreError (Detection D S)) = .ok state' ∧
        CacheSound dag blockStore validator base state'.cache ∧ state'.hashes.Nodup ∧
        ∀ c, c ∈ state'.hashes ↔ c ∈ state.hashes ∨ ShowsRoot dag blockStore genesis validator base cited c :=
    fun hNone => ⟨state, rfl, hCache, hNodup, fun c => (or_iff_left (hNone c)).symm⟩
  -- the one block shown, read and added
  have hAdd : ∀ hash block, blockStore hash = some block → (∀ block', Shows blockStore genesis validator cited block' ↔
      block' = block) →
      ∃ state', addEquivocationChild dag blockStore block validator base state = .ok state' ∧
        CacheSound dag blockStore validator base state'.cache ∧ state'.hashes.Nodup ∧
        ∀ c, c ∈ state'.hashes ↔ c ∈ state.hashes ∨ ShowsRoot dag blockStore genesis validator base cited c := by
    intro hash block hBlock hOnly
    have hHash := hStores.keyed hash block hBlock
    obtain ⟨state', hRun, hSound, hNodup', hMem⟩ := addEquivocationChild_spec hStores hChain hBlock
      (fun hAbove => hHash ▸ hHeld block ((hOnly block).mpr rfl) hAbove) hCache hNodup
    refine ⟨state', hRun, hSound, hNodup', fun c => (hMem c).trans (or_congr_right ?_)⟩
    constructor
    · exact fun h => ⟨block, (hOnly block).mpr rfl, h⟩
    · rintro ⟨block', hShow, h⟩
      obtain rfl := (hOnly block').mp hShow
      exact h
  rw [maybeAddEquivocationChild]
  split
  · next hGenesis => exact hSkip fun c ⟨block, hShow, _⟩ => ((hShows block).mp hShow).1 hGenesis
  · next hNotGenesis =>
    split
    · next hSender =>
      have hOnly : ∀ block, Shows blockStore genesis validator cited block ↔ block = justification := by
        intro block
        rw [hShows]
        simp [hNotGenesis, hSender]
      split
      · exact hAdd cited justification hCited hOnly
      · next hBelow =>
        refine hSkip fun c ⟨block, hShow, hAbove, _⟩ => hBelow ?_
        rw [← (hOnly block).mp hShow]
        exact hAbove.2
    · next hOther =>
      have hOnly : ∀ block, Shows blockStore genesis validator cited block ↔
          latestOf blockStore justification validator = some block := by
        intro block
        rw [hShows]
        simp [hNotGenesis, hOther]
      split
      · next hNone =>
        refine hSkip fun c ⟨block, hShow, _⟩ => ?_
        cases hNone.symm.trans ((hOnly block).mp hShow)
      · next latest hLatest =>
        have hOnly' : ∀ block, Shows blockStore genesis validator cited block ↔ block = latest := by
          intro block
          rw [hOnly, hLatest, Option.some.injEq, eq_comm]
        split
        · obtain ⟨entry, -, -, hStored⟩ := latestOf_eq_some.mp hLatest
          exact hAdd entry.latestBlockHash latest hStored hOnly'
        · next hBelow =>
          refine hSkip fun c ⟨block, hShow, hAbove, _⟩ => hBelow ?_
          rw [← (hOnly' block).mp hShow]
          exact hAbove.2

theorem one_lt_length_iff {hashes : List Bytes} (h : hashes.Nodup) :
    1 < hashes.length ↔ ∃ c ∈ hashes, ∃ c' ∈ hashes, c ≠ c' := by
  rw [← List.toFinset_card_of_nodup h, Finset.one_lt_card]
  simp only [List.mem_toFinset]

theorem detectLoop_spec {record : EquivocationRecord} (hStores : StoresMatch dag blockStore)
    (hChain : ChainHeld dag record.equivocator record.equivocationBaseBlockSeqNum.toInt)
    (hRecord : record.equivocationDetectedBlockHashes = ∅) {hashes : List Bytes}
    (hHeld : ∀ cited ∈ hashes, ∀ block, Shows blockStore genesis record.equivocator cited block →
      Above record.equivocator record.equivocationBaseBlockSeqNum.toInt block →
        ∃ m, dag.lookup block.blockHash = some m)
    (hCache : CacheSound dag blockStore record.equivocator record.equivocationBaseBlockSeqNum.toInt state.cache)
    (hNodup : state.hashes.Nodup) (hFew : ¬ 1 < state.hashes.length) :
    ∃ found cache, detectLoop dag blockStore record genesis hashes state = .ok (found, cache) ∧
      (found = true ↔ ∃ c c', c ≠ c' ∧ ∀ root, root = c ∨ root = c' → root ∈ state.hashes ∨
        ∃ cited ∈ hashes, ShowsRoot dag blockStore genesis record.equivocator
          record.equivocationBaseBlockSeqNum.toInt cited root) := by
  induction hashes generalizing state with
  | nil =>
    refine ⟨false, state.cache, rfl, iff_of_false Bool.false_ne_true ?_⟩
    rintro ⟨c, c', hNe, hRoots⟩
    refine hFew ((one_lt_length_iff hNodup).mpr ⟨c, ?_, c', ?_, hNe⟩)
    · exact (hRoots c (.inl rfl)).resolve_right (by rintro ⟨_, hMem, -⟩; cases hMem)
    · exact (hRoots c' (.inr rfl)).resolve_right (by rintro ⟨_, hMem, -⟩; cases hMem)
  | cons cited hashes ih =>
    obtain ⟨hHead, hTail⟩ := List.forall_mem_cons.mp hHeld
    have hUndetected : cited ∉ record.equivocationDetectedBlockHashes := hRecord ▸ Finset.notMem_empty cited
    rw [detectLoop, if_neg hUndetected]
    cases hCited : blockStore cited with
    | none =>
      obtain ⟨found, cache, hRun, hFound⟩ := ih hTail hCache hNodup hFew
      have hNothing : ∀ root, ¬ ShowsRoot dag blockStore genesis record.equivocator
          record.equivocationBaseBlockSeqNum.toInt cited root := by
        rintro root ⟨block, ⟨justification, hStored, -⟩, -⟩
        cases hCited.symm.trans hStored
      refine ⟨found, cache, hRun, hFound.trans ?_⟩
      simp only [List.mem_cons, exists_eq_or_imp, hNothing, false_or]
    | some justification =>
      obtain ⟨state', hAdd, hCache', hNodup', hMem⟩ :=
        maybeAddEquivocationChild_spec hStores hChain hCited hHead hCache hNodup
      dsimp only
      rw [hAdd]
      dsimp only
      -- the roots known after this justification
      have hRoots : ∀ root, (root ∈ state'.hashes ∨ ∃ cited ∈ hashes, ShowsRoot dag blockStore genesis
          record.equivocator record.equivocationBaseBlockSeqNum.toInt cited root) ↔
          (root ∈ state.hashes ∨ ∃ cited' ∈ cited :: hashes, ShowsRoot dag blockStore genesis record.equivocator
            record.equivocationBaseBlockSeqNum.toInt cited' root) := by
        intro root
        rw [hMem, or_assoc]
        simp only [List.mem_cons, exists_eq_or_imp]
      have hLength : state'.children.length = state'.hashes.length := (List.length_map _).symm
      simp only [← hRoots]
      split
      · next hTwo =>
        rw [hLength, one_lt_length_iff hNodup'] at hTwo
        obtain ⟨c, hc, c', hc', hNe⟩ := hTwo
        refine ⟨true, state'.cache, rfl, iff_of_true rfl ⟨c, c', hNe, ?_⟩⟩
        rintro root (rfl | rfl)
        · exact .inl hc
        · exact .inl hc'
      · next hOne => exact ih hTail hCache' hNodup' (hLength ▸ hOne)

end pass

section verdict

variable {dag : KeyValueDagRepresentation} {blockStore : Bytes → Option (BlockMessage D S)}
  {genesis block : BlockMessage D S} {record : EquivocationRecord}

/-- A block of the equivocator above the base that the justifications of the judged block lead to. -/
def Seen (blockStore : Bytes → Option (BlockMessage D S)) (genesis block : BlockMessage D S) (record : EquivocationRecord)
    (seen : BlockMessage D S) : Prop :=
  Above record.equivocator record.equivocationBaseBlockSeqNum.toInt seen ∧
    ∃ entry, LastEntry block.justifications entry ∧
      Shows blockStore genesis record.equivocator entry.latestBlockHash seen

/-- The relevant blocks are held: the blocks seen, and the self-justifications below them. -/
structure RelevantHeld (dag : KeyValueDagRepresentation) (blockStore : Bytes → Option (BlockMessage D S))
    (genesis block : BlockMessage D S) (record : EquivocationRecord) : Prop where
  stores : StoresMatch dag blockStore
  chain : ∀ hash m previous, dag.lookup hash = some m → m.sender = record.equivocator →
    record.equivocationBaseBlockSeqNum.toInt < m.sequenceNumber → dag.SelfJustifies hash previous →
      ∃ m', dag.lookup previous = some m'
  seen : ∀ seen, Seen blockStore genesis block record seen → ∃ m, dag.lookup seen.blockHash = some m

/-- Two blocks are seen whose oldest ancestors of the equivocator above the base are different. -/
def TwoBranches (dag : KeyValueDagRepresentation) (blockStore : Bytes → Option (BlockMessage D S))
    (genesis block : BlockMessage D S) (record : EquivocationRecord) : Prop :=
  ∃ x y, Seen blockStore genesis block record x ∧ Seen blockStore genesis block record y ∧
    ∃ rx ry, BranchRoot dag record.equivocator record.equivocationBaseBlockSeqNum.toInt x.blockHash rx ∧
      BranchRoot dag record.equivocator record.equivocationBaseBlockSeqNum.toInt y.blockHash ry ∧ rx ≠ ry

theorem RelevantHeld.chainHeld (hHeld : RelevantHeld dag blockStore genesis block record) (hSeq : Sequenced dag) :
    ChainHeld dag record.equivocator record.equivocationBaseBlockSeqNum.toInt := by
  intro hash m previous hLookup hSender hAbove hSelf
  obtain ⟨m', hPrevious⟩ := hHeld.chain hash m previous hLookup hSender hAbove hSelf
  exact ⟨m', hPrevious, hSeq hash m previous m' hLookup hSelf hPrevious⟩

theorem isEquivocationDetectable_spec (hSeq : Sequenced dag) (hHeld : RelevantHeld dag blockStore genesis block record)
    (hRecord : record.equivocationDetectedBlockHashes = ∅) :
    ∃ found cache, isEquivocationDetectable dag blockStore (toLatestMessageHashes block.justifications) record [] genesis
        ∅ = .ok (found, cache) ∧ (found = true ↔ TwoBranches dag blockStore genesis block record) := by
  have hCited : ∀ cited ∈ (toLatestMessageHashes block.justifications).map (·.latestBlockHash), ∀ seen,
      Shows blockStore genesis record.equivocator cited seen →
        Above record.equivocator record.equivocationBaseBlockSeqNum.toInt seen →
          ∃ m, dag.lookup seen.blockHash = some m := by
    intro cited hMem seen hShows hAbove
    obtain ⟨entry, hEntry, rfl⟩ := List.mem_map.mp hMem
    exact hHeld.seen seen ⟨hAbove, entry, mem_toLatestMessageHashes.mp hEntry, hShows⟩
  have hEmpty : CacheSound dag blockStore record.equivocator record.equivocationBaseBlockSeqNum.toInt
      (Detection.mk [] ∅ : Detection D S).cache := fun hash child hLookup => by cases hLookup
  obtain ⟨found, cache, hRun, hFound⟩ := detectLoop_spec hHeld.stores (hHeld.chainHeld hSeq) hRecord hCited hEmpty
    List.nodup_nil (Nat.not_lt_zero 1)
  refine ⟨found, cache, hRun, hFound.trans ?_⟩
  -- a root that is shown is the root of a block that is seen
  have hRoot : ∀ root, (∃ cited ∈ (toLatestMessageHashes block.justifications).map (·.latestBlockHash),
      ShowsRoot dag blockStore genesis record.equivocator record.equivocationBaseBlockSeqNum.toInt cited root) ↔
      ∃ seen, Seen blockStore genesis block record seen ∧
        BranchRoot dag record.equivocator record.equivocationBaseBlockSeqNum.toInt seen.blockHash root := by
    intro root
    constructor
    · rintro ⟨cited, hMem, seen, hShows, hAbove, hBranch⟩
      obtain ⟨entry, hEntry, rfl⟩ := List.mem_map.mp hMem
      exact ⟨seen, ⟨hAbove, entry, mem_toLatestMessageHashes.mp hEntry, hShows⟩, hBranch⟩
    · rintro ⟨seen, ⟨hAbove, entry, hEntry, hShows⟩, hBranch⟩
      exact ⟨_, List.mem_map.mpr ⟨entry, mem_toLatestMessageHashes.mpr hEntry, rfl⟩, seen, hShows, hAbove, hBranch⟩
  constructor
  · rintro ⟨c, c', hNe, hRoots⟩
    obtain ⟨x, hx, hRootX⟩ := (hRoot c).mp ((hRoots c (.inl rfl)).resolve_left List.not_mem_nil)
    obtain ⟨y, hy, hRootY⟩ := (hRoot c').mp ((hRoots c' (.inr rfl)).resolve_left List.not_mem_nil)
    exact ⟨x, y, hx, hy, c, c', hRootX, hRootY, hNe⟩
  · rintro ⟨x, y, hx, hy, c, c', hRootX, hRootY, hNe⟩
    refine ⟨c, c', hNe, ?_⟩
    rintro root (rfl | rfl)
    · exact .inr ((hRoot root).mpr ⟨x, hx, hRootX⟩)
    · exact .inr ((hRoot root).mpr ⟨y, hy, hRootY⟩)

def SelfAncestorAt (dag : KeyValueDagRepresentation) (hash : Bytes) (seqNum : Int) (ancestor : Bytes) : Prop :=
  Relation.ReflTransGen dag.SelfJustifies hash ancestor ∧
    ∃ m, dag.lookup ancestor = some m ∧ m.sequenceNumber = seqNum

/-- Each block of the validator above the base has a self-justification, to a block of its own or to one that is not
above the base, such as genesis. -/
def OwnChain (dag : KeyValueDagRepresentation) (validator : Bytes) (base : Int) : Prop :=
  ∀ hash m, dag.lookup hash = some m → m.sender = validator → base < m.sequenceNumber → ∃ previous m',
    dag.SelfJustifies hash previous ∧ dag.lookup previous = some m' ∧
      (m'.sender = validator ∨ m'.sequenceNumber ≤ base)

variable {validator : Bytes} {base : Int}

variable {hash : Bytes}

theorem above_of_branch {hash' : Bytes}
    (hBranch : Relation.ReflTransGen (BranchStep dag validator base) hash hash')
    (hHeld : ∃ m, dag.lookup hash = some m ∧ m.sender = validator ∧ base < m.sequenceNumber) :
    ∃ m, dag.lookup hash' = some m ∧ m.sender = validator ∧ base < m.sequenceNumber := by
  obtain rfl | ⟨p, -, -, hAbove⟩ := Relation.ReflTransGen.cases_tail hBranch
  · exact hHeld
  · exact hAbove

theorem BranchRoot.selfAncestorAt (hSeq : Sequenced dag) (hOwn : OwnChain dag validator base) {root : Bytes}
    (hRoot : BranchRoot dag validator base hash root)
    (hHeld : ∃ m, dag.lookup hash = some m ∧ m.sender = validator ∧ base < m.sequenceNumber) :
    SelfAncestorAt dag hash (base + 1) root := by
  obtain ⟨m, hLookup, hSender, hAbove⟩ := above_of_branch hRoot.1 hHeld
  obtain ⟨previous, m', hSelf, hPrevious, hOr⟩ := hOwn root m hLookup hSender hAbove
  have hNumber := hSeq root m previous m' hLookup hSelf hPrevious
  have hBelow : m'.sequenceNumber ≤ base := by
    obtain hSender' | hBelow := hOr
    · exact not_lt.mp fun hAbove' => hRoot.2 previous ⟨hSelf, m', hPrevious, hSender', hAbove'⟩
    · exact hBelow
  have hSelfSteps : ∀ a b, BranchStep dag validator base a b → dag.SelfJustifies a b := fun _ _ hStep => hStep.1
  exact ⟨Relation.ReflTransGen.mono hSelfSteps _ _ hRoot.1, m, hLookup, by omega⟩

theorem seqNum_le_of_selfJustifies (hSeq : Sequenced dag) {ancestor : Bytes} {m m' : BlockMetadata}
    (h : Relation.ReflTransGen dag.SelfJustifies hash ancestor) (hLookup : dag.lookup hash = some m)
    (hAncestor : dag.lookup ancestor = some m') :
    m'.sequenceNumber ≤ m.sequenceNumber ∧ (m'.sequenceNumber = m.sequenceNumber → hash = ancestor) := by
  induction h using Relation.ReflTransGen.head_induction_on generalizing m with
  | refl =>
    obtain rfl := Option.some.inj (hLookup.symm.trans hAncestor)
    exact ⟨le_rfl, fun _ => rfl⟩
  | @head hash next hStep hRest ih =>
    have hNext : ∃ mn, dag.lookup next = some mn := by
      obtain rfl | ⟨next', hStep', -⟩ := Relation.ReflTransGen.cases_head hRest
      · exact ⟨m', hAncestor⟩
      · obtain ⟨mn, hmn, -⟩ := KeyValueDagRepresentation.mem_justifications_of_selfJustifies hStep'
        exact ⟨mn, hmn⟩
    obtain ⟨mn, hmn⟩ := hNext
    have hNumber := hSeq hash m next mn hLookup hStep hmn
    obtain ⟨hLe, -⟩ := ih hmn
    exact ⟨by omega, fun hEq => by omega⟩

theorem SelfAncestorAt.unique (hSeq : Sequenced dag) {a a' : Bytes} {seqNum : Int}
    (h : SelfAncestorAt dag hash seqNum a) (h' : SelfAncestorAt dag hash seqNum a') : a = a' := by
  obtain ⟨hChain, m, hLookup, hNumber⟩ := h
  obtain ⟨hChain', m', hLookup', hNumber'⟩ := h'
  have hUnique : Relator.RightUnique dag.SelfJustifies :=
    fun _ _ _ hp hp' => Option.some.inj (Except.ok.inj (Eq.trans (Eq.symm hp) hp'))
  obtain hBelow | hBelow := Relation.ReflTransGen.total_of_right_unique hUnique hChain hChain'
  · exact (seqNum_le_of_selfJustifies hSeq hBelow hLookup hLookup').2 (by omega)
  · exact ((seqNum_le_of_selfJustifies hSeq hBelow hLookup' hLookup).2 (by omega)).symm

/-- Two blocks are seen whose self-justification ancestors right above the base are different. -/
def TwoAncestors (dag : KeyValueDagRepresentation) (blockStore : Bytes → Option (BlockMessage D S))
    (genesis block : BlockMessage D S) (record : EquivocationRecord) : Prop :=
  ∃ x y, Seen blockStore genesis block record x ∧ Seen blockStore genesis block record y ∧
    ∃ ax ay, SelfAncestorAt dag x.blockHash (record.equivocationBaseBlockSeqNum.toInt + 1) ax ∧
      SelfAncestorAt dag y.blockHash (record.equivocationBaseBlockSeqNum.toInt + 1) ay ∧ ax ≠ ay

section

variable (hHeld : RelevantHeld dag blockStore genesis block record)

include hHeld

theorem RelevantHeld.above {seen : BlockMessage D S} (hSeen : Seen blockStore genesis block record seen) :
    ∃ m, dag.lookup seen.blockHash = some m ∧ m.sender = record.equivocator ∧
      record.equivocationBaseBlockSeqNum.toInt < m.sequenceNumber := by
  obtain ⟨m, hLookup⟩ := hHeld.seen seen hSeen
  obtain ⟨block', hStored⟩ := hHeld.stores.stored _ m hLookup
  obtain ⟨⟨hSender, hSeq⟩, entry, -, justification, hCited, -, hShown⟩ := hSeen
  have hBlock : blockStore seen.blockHash = some seen := by
    obtain ⟨-, rfl⟩ | ⟨-, entry', -, -, hStored'⟩ := hShown
    · exact (hHeld.stores.keyed _ seen hCited) ▸ hCited
    · exact (hHeld.stores.keyed _ seen hStored') ▸ hStored'
  obtain ⟨hSender', hSeq'⟩ := hHeld.stores.record _ seen m hBlock hLookup
  exact ⟨m, hLookup, hSender'.trans hSender, hSeq' ▸ hSeq⟩

theorem RelevantHeld.exists_root (hSeq : Sequenced dag)
    {seen : BlockMessage D S} (hSeen : Seen blockStore genesis block record seen) :
    ∃ root, BranchRoot dag record.equivocator record.equivocationBaseBlockSeqNum.toInt seen.blockHash root := by
  obtain ⟨m, hLookup, hSender, hAbove⟩ := hHeld.above hSeen
  obtain ⟨root, -, hRoot⟩ : ∃ root, canonicalLoop dag record.equivocator record.equivocationBaseBlockSeqNum.toInt
      (dag.records.length + 1) ∅ seen.blockHash = .ok root ∧ BranchRoot dag _ _ seen.blockHash root :=
    canonicalLoop_spec (hHeld.chainHeld hSeq) hLookup hSender hAbove
      (fun h hMem => absurd hMem (Finset.notMem_empty h)) (Nat.lt_succ_self _)
  exact ⟨root, hRoot⟩

theorem twoBranches_iff_twoAncestors (hSeq : Sequenced dag)
    (hOwn : OwnChain dag record.equivocator record.equivocationBaseBlockSeqNum.toInt) :
    TwoBranches dag blockStore genesis block record ↔ TwoAncestors dag blockStore genesis block record := by
  constructor
  · rintro ⟨x, y, hx, hy, rx, ry, hRootX, hRootY, hNe⟩
    exact ⟨x, y, hx, hy, rx, ry, hRootX.selfAncestorAt hSeq hOwn (hHeld.above hx),
      hRootY.selfAncestorAt hSeq hOwn (hHeld.above hy), hNe⟩
  · rintro ⟨x, y, hx, hy, ax, ay, hAncestorX, hAncestorY, hNe⟩
    obtain ⟨rx, hRootX⟩ := hHeld.exists_root hSeq hx
    obtain ⟨ry, hRootY⟩ := hHeld.exists_root hSeq hy
    refine ⟨x, y, hx, hy, rx, ry, hRootX, hRootY, fun hEq => hNe ?_⟩
    rw [hAncestorX.unique hSeq (hRootX.selfAncestorAt hSeq hOwn (hHeld.above hx)), hEq,
      hAncestorY.unique hSeq (hRootY.selfAncestorAt hSeq hOwn (hHeld.above hy))]

end

def OwnStep (dag : KeyValueDagRepresentation) (validator : Bytes) (hash previous : Bytes) : Prop :=
  dag.SelfJustifies hash previous ∧ ∃ m, dag.lookup previous = some m ∧ m.sender = validator

theorem branch_of_ownSteps (hSeq : Sequenced dag) {hash' : Bytes}
    (h : Relation.ReflTransGen (OwnStep dag validator) hash hash') {m : BlockMetadata}
    (hHeld : dag.lookup hash' = some m) (hAbove : base < m.sequenceNumber) :
    Relation.ReflTransGen (BranchStep dag validator base) hash hash' := by
  induction h using Relation.ReflTransGen.head_induction_on with
  | refl => exact .refl
  | @head hash next hStep hRest ih =>
    obtain ⟨hSelf, mn, hNext, hSender⟩ := hStep
    have hSelfSteps : ∀ a b, OwnStep dag validator a b → dag.SelfJustifies a b := fun _ _ hStep => hStep.1
    have hDown := seqNum_le_of_selfJustifies hSeq (Relation.ReflTransGen.mono hSelfSteps _ _ hRest) hNext hHeld
    exact .head ⟨hSelf, mn, hNext, hSender, hAbove.trans_le hDown.1⟩ ih

theorem not_twoBranches_of_chain (hHeld : RelevantHeld dag blockStore genesis block record) (hSeq : Sequenced dag)
    (hSingle : ∀ x y, Seen blockStore genesis block record x → Seen blockStore genesis block record y →
      Relation.ReflTransGen (OwnStep dag record.equivocator) x.blockHash y.blockHash ∨
        Relation.ReflTransGen (OwnStep dag record.equivocator) y.blockHash x.blockHash) :
    ¬ TwoBranches dag blockStore genesis block record := by
  rintro ⟨x, y, hx, hy, rx, ry, hRootX, hRootY, hNe⟩
  obtain ⟨mx, hLookupX, -, hAboveX⟩ := hHeld.above hx
  obtain ⟨my, hLookupY, -, hAboveY⟩ := hHeld.above hy
  obtain hChain | hChain := hSingle x y hx hy
  · exact hNe (hRootX.unique (hRootY.of_reaches (branch_of_ownSteps hSeq hChain hLookupY hAboveY)))
  · exact hNe ((hRootX.of_reaches (branch_of_ownSteps hSeq hChain hLookupX hAboveX)).unique hRootY)

/-- Exact for the latest messages it reads: true just when two blocks of the equivocator above the base are seen whose
oldest own ancestors above the base differ, so never for a validator whose blocks form a single chain. -/
theorem neglectedEquivocation_exact (hSeq : Sequenced dag) (hHeld : RelevantHeld dag blockStore genesis block record)
    (hRecord : record.equivocationDetectedBlockHashes = ∅) {bond : Bond}
    (hBond : block.body.state.bonds.find? (·.validator = record.equivocator) = some bond) (hStake : 0 < bond.stake) :
    ∃ found cache,
      isEquivocationDetectable dag blockStore (toLatestMessageHashes block.justifications) record [] genesis ∅ =
        .ok (found, cache) ∧
      getEquivocationDiscoveryStatus dag blockStore record genesis ∅ (toLatestMessageHashes block.justifications)
        block.body.state.bonds = .ok (if found then .equivocationNeglected else .equivocationOblivious, cache) ∧
      (found = true ↔ TwoBranches dag blockStore genesis block record) ∧
      (OwnChain dag record.equivocator record.equivocationBaseBlockSeqNum.toInt →
        (found = true ↔ TwoAncestors dag blockStore genesis block record)) ∧
      ((∀ x y, Seen blockStore genesis block record x → Seen blockStore genesis block record y →
        Relation.ReflTransGen (OwnStep dag record.equivocator) x.blockHash y.blockHash ∨
          Relation.ReflTransGen (OwnStep dag record.equivocator) y.blockHash x.blockHash) → found = false) := by
  obtain ⟨found, cache, hRun, hFound⟩ := isEquivocationDetectable_spec hSeq hHeld hRecord
  refine ⟨found, cache, hRun, ?_, hFound, fun hOwn => hFound.trans (twoBranches_iff_twoAncestors hHeld hSeq hOwn),
    fun hSingle => ?_⟩
  · rw [getEquivocationDiscoveryStatus, hBond]
    dsimp only
    rw [getEquivocationDiscoveryStatusForBondedValidator, if_pos hStake, hRun]
    cases found with
    | false => rfl
    | true => rfl
  · exact Bool.eq_false_iff.mpr fun hTrue => not_twoBranches_of_chain hHeld hSeq hSingle (hFound.mp hTrue)

end verdict

def evidenceBlock (tag : UInt8) (parents : List Bytes) (sender : Bytes) (seq : Int32) (cited : List Justification)
    (bonds : List Bond) : BlockMessage Unit Unit where
  blockHash := List.replicate 32 tag
  header := ⟨parents, 0, 1, []⟩
  body :=
    { state := ⟨[], [], bonds, if parents = [] then 0 else 1⟩
      deploys := []
      rejectedDeploys := []
      systemDeploys := []
      extraBytes := []
      appliedFromScope := []
      mergeBase := [] }
  justifications := cited
  sender := sender
  seqNum := seq
  sig := []
  sigAlgorithm := ""
  shardId := ""
  extraBytes := []

def equivocatorV : Bytes := List.replicate 65 1
def witnessU : Bytes := List.replicate 65 2

def originBlock : BlockMessage Unit Unit := evidenceBlock 1 [] [] 0 [] []

def leftBlock : BlockMessage Unit Unit :=
  evidenceBlock 2 [originBlock.blockHash] equivocatorV 1 [⟨equivocatorV, originBlock.blockHash⟩] []
def rightBlock : BlockMessage Unit Unit :=
  evidenceBlock 3 [originBlock.blockHash] equivocatorV 1 [⟨equivocatorV, originBlock.blockHash⟩] []

def doublyCiting : BlockMessage Unit Unit :=
  evidenceBlock 4 [originBlock.blockHash] witnessU 1 [⟨witnessU, originBlock.blockHash⟩,
    ⟨equivocatorV, leftBlock.blockHash⟩, ⟨equivocatorV, rightBlock.blockHash⟩] []

def judgedBlock : BlockMessage Unit Unit :=
  evidenceBlock 5 [originBlock.blockHash] witnessU 2 [⟨witnessU, doublyCiting.blockHash⟩] [⟨equivocatorV, 10⟩]

def firstRecord : EquivocationRecord := ⟨equivocatorV, 0, ∅⟩

def evidenceBlocks : List (BlockMessage Unit Unit) := [originBlock, leftBlock, rightBlock, doublyCiting]

def evidenceStore (hash : Bytes) : Option (BlockMessage Unit Unit) := evidenceBlocks.find? (·.blockHash = hash)

def evidenceRecord (block : BlockMessage Unit Unit) : BlockMetadata where
  blockHash := block.blockHash
  parents := block.header.parentsHashList
  sender := block.sender
  justifications := block.justifications
  weightMap := .empty
  blockNumber := block.body.state.blockNumber.toInt
  sequenceNumber := block.seqNum.toInt
  invalid := false
  mergeBase := []

def evidenceDag : KeyValueDagRepresentation :=
  .ofRecords (evidenceBlocks.map evidenceRecord) (by decide) (by decide) (by decide)

variable {hash : Bytes}

theorem lookup_evidenceDag {m : BlockMetadata} (h : evidenceDag.lookup hash = some m) :
    ∃ block ∈ evidenceBlocks, block.blockHash = hash ∧ evidenceRecord block = m := by
  have hHash := KeyValueDagRepresentation.blockHash_of_lookup h
  have hMem := KeyValueDagRepresentation.mem_records.mpr (hHash ▸ h)
  rw [evidenceDag, KeyValueDagRepresentation.records_ofRecords] at hMem
  obtain ⟨block, hBlock, rfl⟩ := List.mem_map.mp hMem
  exact ⟨block, hBlock, hHash, rfl⟩

theorem evidenceStore_of_mem {block : BlockMessage Unit Unit} (h : block ∈ evidenceBlocks) :
    evidenceStore block.blockHash = some block := by
  simp only [evidenceBlocks, List.mem_cons, List.not_mem_nil, or_false] at h
  obtain rfl | rfl | rfl | rfl := h <;> rfl

theorem storesMatch_evidence : StoresMatch evidenceDag evidenceStore := by
  refine ⟨fun hash block hBlock => of_decide_eq_true (List.find?_some hBlock :), fun hash block m hBlock hLookup => ?_,
    fun hash m hLookup => ?_⟩
  · obtain ⟨block', hMem, rfl, rfl⟩ := lookup_evidenceDag hLookup
    obtain rfl := Option.some.inj ((evidenceStore_of_mem hMem).symm.trans hBlock)
    exact ⟨rfl, rfl⟩
  · obtain ⟨block, hMem, rfl, -⟩ := lookup_evidenceDag hLookup
    exact ⟨block, evidenceStore_of_mem hMem⟩

theorem selfJustifies_evidence {previous : Bytes} (h : evidenceDag.SelfJustifies hash previous) :
    previous = originBlock.blockHash ∧ ∃ m, evidenceDag.lookup hash = some m ∧ m.sequenceNumber = 1 := by
  obtain ⟨m, hLookup, -⟩ := KeyValueDagRepresentation.mem_justifications_of_selfJustifies h
  rw [KeyValueDagRepresentation.SelfJustifies, KeyValueDagRepresentation.selfJustification, hLookup] at h
  obtain ⟨block, hMem, -, rfl⟩ := lookup_evidenceDag hLookup
  simp only [evidenceBlocks, List.mem_cons, List.not_mem_nil, or_false] at hMem
  obtain rfl | rfl | rfl | rfl := hMem
  · cases h
  · exact ⟨(Option.some.inj (Except.ok.inj h)).symm, _, hLookup, rfl⟩
  · exact ⟨(Option.some.inj (Except.ok.inj h)).symm, _, hLookup, rfl⟩
  · exact ⟨(Option.some.inj (Except.ok.inj h)).symm, _, hLookup, rfl⟩

theorem sequenced_evidence : Sequenced evidenceDag := by
  intro hash m previous m' hLookup hSelf hPrevious
  obtain ⟨rfl, m₁, hLookup₁, hNumber⟩ := selfJustifies_evidence hSelf
  obtain rfl := Option.some.inj (hLookup.symm.trans hLookup₁)
  obtain rfl : evidenceRecord originBlock = m' := Option.some.inj (hPrevious.symm.trans rfl).symm
  rw [hNumber]
  rfl

theorem held_of_evidenceStore {block : BlockMessage Unit Unit} (h : evidenceStore hash = some block) :
    ∃ m, evidenceDag.lookup block.blockHash = some m := by
  have hMem := List.mem_of_find?_eq_some h
  simp only [evidenceBlocks, List.mem_cons, List.not_mem_nil, or_false] at hMem
  obtain rfl | rfl | rfl | rfl := hMem <;> exact ⟨_, rfl⟩

theorem relevantHeld_evidence : RelevantHeld evidenceDag evidenceStore originBlock judgedBlock firstRecord := by
  refine ⟨storesMatch_evidence, fun hash m previous _ _ _ hSelf => ?_, fun seen hSeen => ?_⟩
  · rw [(selfJustifies_evidence hSelf).1]
    exact ⟨evidenceRecord originBlock, rfl⟩
  · obtain ⟨-, entry, -, justification, hCited, -, ⟨-, rfl⟩ | ⟨-, entry', -, -, hStored⟩⟩ := hSeen
    · exact held_of_evidenceStore hCited
    · exact held_of_evidenceStore hStored

def Cited (blockStore : Bytes → Option (BlockMessage D S)) (block cited : BlockMessage D S) : Prop :=
  (∃ entry ∈ block.justifications, blockStore entry.latestBlockHash = some cited) ∨
    ∃ entry ∈ block.justifications, ∃ justification, blockStore entry.latestBlockHash = some justification ∧
      ∃ entry' ∈ justification.justifications, blockStore entry'.latestBlockHash = some cited

/-- The detector reads the last entry for the equivocator: both first blocks are cited, and only one is seen. -/
theorem doublyCiting_undetected :
    Sequenced evidenceDag ∧ RelevantHeld evidenceDag evidenceStore originBlock judgedBlock firstRecord ∧
      firstRecord.equivocationDetectedBlockHashes = ∅ ∧
      judgedBlock.body.state.bonds.find? (·.validator = firstRecord.equivocator) = some ⟨equivocatorV, 10⟩ ∧
      (∃ x y, (Above firstRecord.equivocator firstRecord.equivocationBaseBlockSeqNum.toInt x ∧
          Cited evidenceStore judgedBlock x) ∧
        (Above firstRecord.equivocator firstRecord.equivocationBaseBlockSeqNum.toInt y ∧
          Cited evidenceStore judgedBlock y) ∧
        ∃ ax ay, SelfAncestorAt evidenceDag x.blockHash (firstRecord.equivocationBaseBlockSeqNum.toInt + 1) ax ∧
          SelfAncestorAt evidenceDag y.blockHash (firstRecord.equivocationBaseBlockSeqNum.toInt + 1) ay ∧ ax ≠ ay) ∧
      ∃ cache, isEquivocationDetectable evidenceDag evidenceStore (toLatestMessageHashes judgedBlock.justifications)
        firstRecord [] originBlock ∅ = .ok (false, cache) := by
  refine ⟨sequenced_evidence, relevantHeld_evidence, rfl, by decide, ⟨leftBlock, rightBlock, ?_, ?_,
    leftBlock.blockHash, rightBlock.blockHash, ⟨.refl, _, rfl, rfl⟩, ⟨.refl, _, rfl, rfl⟩, by decide⟩, _, rfl⟩
  · exact ⟨⟨rfl, by decide⟩, .inr ⟨_, List.mem_singleton_self _, doublyCiting, rfl, ⟨equivocatorV, leftBlock.blockHash⟩,
      by decide, rfl⟩⟩
  · exact ⟨⟨rfl, by decide⟩, .inr ⟨_, List.mem_singleton_self _, doublyCiting, rfl, ⟨equivocatorV, rightBlock.blockHash⟩,
      by decide, rfl⟩⟩

theorem doublyCiting_exact :
    ∃ found cache, isEquivocationDetectable evidenceDag evidenceStore (toLatestMessageHashes judgedBlock.justifications)
        firstRecord [] originBlock ∅ = .ok (found, cache) ∧
      (found = true ↔ TwoBranches evidenceDag evidenceStore originBlock judgedBlock firstRecord) := by
  have hBond : judgedBlock.body.state.bonds.find? (·.validator = firstRecord.equivocator) = some ⟨equivocatorV, 10⟩ := by
    decide
  obtain ⟨found, cache, hRun, -, hFound, -⟩ :=
    neglectedEquivocation_exact sequenced_evidence relevantHeld_evidence rfl hBond (by decide)
  exact ⟨found, cache, hRun, hFound⟩

end F1r3Node.Slashing
