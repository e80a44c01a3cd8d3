import F1r3Node.Casper.BlockMessage
import Mathlib.Algebra.BigOperators.Group.List.Basic
import Mathlib.Data.List.AList

/-! # The area of pending blocks

Blocks that are not validated yet are held in three tiers, one per class, with a limit on their number, on their bytes
and on the blocks of one sender.
-/

namespace F1r3Node.DagStorage

open Shared
open Casper (BlockMessage)

structure PendingBlockLimits where
  maxBlocks : Nat
  maxBytes : Nat
  maxPerSender : Nat

inductive PendingInsert where
  | accepted
  | senderLimitReached
  | areaFull
  | tooLarge
  deriving DecidableEq

structure PendingOutcome where
  status : PendingInsert
  evicted : List Bytes

inductive PendingClass where
  | unsolicited
  | knownSender
  | solicited
  deriving DecidableEq

namespace PendingClass

def all : List PendingClass := [unsolicited, knownSender, solicited]

def index : PendingClass → Nat
  | unsolicited => 0
  | knownSender => 1
  | solicited => 2

end PendingClass

structure PendingEntry where
  encoded : Bytes
  sender : Bytes
  pendingClass : PendingClass
  seq : Nat

abbrev PendingEntry.size (entry : PendingEntry) : Nat := entry.encoded.length

/-- The guarded state. A tier is listed in the order of its sequence numbers. -/
structure PendingInner where
  limits : PendingBlockLimits
  entries : AList fun _ : Bytes => PendingEntry
  tiers : PendingClass → List (Nat × Bytes)
  tierBytes : PendingClass → Nat
  perSender : Bytes → Option Nat
  bytes : Nat
  nextSeq : Nat

namespace PendingInner

def new (limits : PendingBlockLimits) : PendingInner := ⟨limits, ∅, fun _ => [], fun _ => 0, fun _ => none, 0, 0⟩

def unlist (s : PendingInner) (tier : PendingClass) (seq size : Nat) : PendingInner :=
  { s with
    tiers := Function.update s.tiers tier ((s.tiers tier).filter (·.1 ≠ seq))
    tierBytes := Function.update s.tierBytes tier (s.tierBytes tier - size) }

def list (s : PendingInner) (tier : PendingClass) (seq : Nat) (hash : Bytes) (size : Nat) : PendingInner :=
  { s with
    tiers := Function.update s.tiers tier
      (((s.tiers tier).filter (·.1 ≠ seq)).orderedInsert (fun a b => a.1 ≤ b.1) (seq, hash))
    tierBytes := Function.update s.tierBytes tier (s.tierBytes tier + size) }

def oneLess (count : Nat) : Option Nat := if count - 1 = 0 then none else some (count - 1)

def remove (s : PendingInner) (hash : Bytes) : PendingInner :=
  match s.entries.lookup hash with
  | none => s
  | some entry =>
    let s := { s with entries := s.entries.erase hash }.unlist entry.pendingClass entry.seq entry.size
    { s with
      bytes := s.bytes - entry.size
      perSender := Function.update s.perSender entry.sender ((s.perSender entry.sender).bind oneLess) }

def oldest (s : PendingInner) (upTo : PendingClass) : Option Bytes :=
  (PendingClass.all.filter (·.index ≤ upTo.index)).findSome? fun tier => (s.tiers tier).head?.map Prod.snd

/-- `min_by_key` on the sequence numbers. -/
def lowest : List (Nat × Bytes) → Option (Nat × Bytes)
  | [] => none
  | slot :: rest => some (rest.foldl (fun best other => if other.1 < best.1 then other else best) slot)

def oldestUnsolicitedFrom (s : PendingInner) (sender : Bytes) : Option Bytes :=
  (lowest ([PendingClass.unsolicited, .knownSender].filterMap fun tier =>
    (s.tiers tier).find? fun slot => (s.entries.lookup slot.2).any (·.sender = sender))).map Prod.snd

def canFit (s : PendingInner) (bytes : Nat) (pendingClass : PendingClass) : Bool :=
  let kept := PendingClass.all.filter (pendingClass.index < ·.index)
  (kept.map fun tier => (s.tiers tier).length).sum < s.limits.maxBlocks ∧
    (kept.map s.tierBytes).sum + bytes ≤ s.limits.maxBytes

def promote (s : PendingInner) (hash : Bytes) (pendingClass : PendingClass) : PendingInner :=
  match s.entries.lookup hash with
  | none => s
  | some entry =>
    if pendingClass.index ≤ entry.pendingClass.index then s
    else
      ({ s with entries := s.entries.insert hash { entry with pendingClass } }.unlist entry.pendingClass entry.seq
        entry.size).list pendingClass entry.seq hash entry.size

/-- The loop of evictions, in at most so many rounds; the flag tells whether there is room afterwards. -/
def makeRoom (bytes : Nat) (pendingClass : PendingClass) :
    Nat → PendingInner → List Bytes → Option (PendingInner × List Bytes × Bool)
  | 0, _, _ => none
  | rounds + 1, s, evicted =>
    if s.limits.maxBlocks < s.entries.entries.length + 1 ∨ s.limits.maxBytes < s.bytes + bytes then
      match s.oldest pendingClass with
      | some victim => makeRoom bytes pendingClass rounds (s.remove victim) (evicted ++ [victim])
      | none => some (s, evicted, false)
    else some (s, evicted, true)

def admitted (s : PendingInner) (hash sender encoded : Bytes) (pendingClass : PendingClass) : PendingInner :=
  let s' := { s with
    perSender := Function.update s.perSender sender (some ((s.perSender sender).getD 0 + 1))
    bytes := s.bytes + encoded.length
    nextSeq := s.nextSeq + 1 }.list pendingClass s.nextSeq hash encoded.length
  { s' with entries := s.entries.insert hash ⟨encoded, sender, pendingClass, s.nextSeq⟩ }

/-- Outside: refused. Inside: the block that goes for the limit of the sender, if there is one. -/
def senderVictim (s : PendingInner) (sender : Bytes) (pendingClass : PendingClass) : Option (Option Bytes) :=
  if s.limits.maxPerSender ≤ (s.perSender sender).getD 0 then
    if pendingClass = .solicited then (s.oldestUnsolicitedFrom sender).map some else none
  else some none

variable {D S : Type} (encode : BlockMessage D S → Bytes)

def insertAs (s : PendingInner) (block : BlockMessage D S) (pendingClass : PendingClass) :
    Option (PendingInner × PendingOutcome) :=
  let encoded := encode block
  if block.blockHash ∈ s.entries then some (s.promote block.blockHash pendingClass, ⟨.accepted, []⟩)
  else if s.limits.maxBytes < encoded.length then some (s, ⟨.tooLarge, []⟩)
  else
    match s.senderVictim block.sender pendingClass with
    | none => some (s, ⟨.senderLimitReached, []⟩)
    | some victim =>
      if ¬ s.canFit encoded.length pendingClass then some (s, ⟨.areaFull, []⟩)
      else
        let (s, evicted) := match victim with
          | some victim => (s.remove victim, [victim])
          | none => (s, [])
        (makeRoom encoded.length pendingClass (s.entries.entries.length + 1) s evicted).map fun (s, evicted, room) =>
          if room then (s.admitted block.blockHash block.sender encoded pendingClass, ⟨.accepted, evicted⟩)
          else (s, ⟨.areaFull, evicted⟩)

end PendingInner

inductive PendingCall (D S : Type) where
  | insertAs (block : BlockMessage D S) (pendingClass : PendingClass)
  | remove (hash : Bytes)

def PendingInner.call {D S : Type} (encode : BlockMessage D S → Bytes) (s : PendingInner) :
    PendingCall D S → Option PendingInner
  | .insertAs block pendingClass => (s.insertAs encode block pendingClass).map Prod.fst
  | .remove hash => some (s.remove hash)

abbrev HeldBlock := Sigma fun _ : Bytes => PendingEntry

def ofSender (held : List HeldBlock) (sender : Bytes) : Nat := held.countP (·.2.sender = sender)

def inTier (held : List HeldBlock) (tier : PendingClass) : List HeldBlock := held.filter (·.2.pendingClass = tier)

namespace PendingInner

variable {s : PendingInner} {held held' : List HeldBlock} {hash : Bytes} {entry : PendingEntry}

/-- The tiers list the blocks of their class, each once, and count their bytes. -/
structure Listed (s : PendingInner) (held : List HeldBlock) : Prop where
  tiers : ∀ tier, (s.tiers tier).Perm ((inTier held tier).map fun block => (block.2.seq, block.1))
  tierBytes : ∀ tier, s.tierBytes tier = ((inTier held tier).map (·.2.size)).sum

structure Books (s : PendingInner) (held : List HeldBlock) : Prop extends Listed s held where
  perSender : ∀ sender, (s.perSender sender).getD 0 = ofSender held sender
  bytes : s.bytes = (held.map (·.2.size)).sum
  seqs : (held.map (·.2.seq)).Nodup
  fresh : ∀ block ∈ held, block.2.seq < s.nextSeq

def Counted (s : PendingInner) : Prop := s.Books s.entries.entries

structure Within (s : PendingInner) : Prop where
  blocks : s.entries.entries.length ≤ s.limits.maxBlocks
  bytes : s.bytes ≤ s.limits.maxBytes
  perSender : ∀ sender, ofSender s.entries.entries sender ≤ s.limits.maxPerSender

theorem ofSender_perm (h : held.Perm held') (sender : Bytes) : ofSender held sender = ofSender held' sender := h.countP_eq _

theorem ofSender_cons (block : HeldBlock) (held : List HeldBlock) (sender : Bytes) :
    ofSender (block :: held) sender = ofSender held sender + if block.2.sender = sender then 1 else 0 := by
  simp [ofSender, List.countP_cons]

theorem Books.perm (h : s.Books held) (hPerm : held.Perm held') : s.Books held' where
  tiers tier := (h.tiers tier).trans ((hPerm.filter _).map _)
  tierBytes tier := (h.tierBytes tier).trans (((hPerm.filter _).map _).sum_eq)
  perSender sender := (h.perSender sender).trans (ofSender_perm hPerm sender)
  bytes := h.bytes.trans (hPerm.map _).sum_eq
  seqs := (hPerm.map _).nodup_iff.mp h.seqs
  fresh block hBlock := h.fresh block (hPerm.mem_iff.mpr hBlock)

theorem seq_ne (tier : PendingClass) {seq : Nat} (hSeq : seq ∉ held.map (·.2.seq)) :
    ∀ slot ∈ (inTier held tier).map fun block => (block.2.seq, block.1), decide (slot.1 ≠ seq) = true := by
  intro slot hSlot
  obtain ⟨block, hBlock, rfl⟩ := List.mem_map.mp hSlot
  exact decide_eq_true fun hEq => hSeq (List.mem_map.mpr ⟨block, List.mem_of_mem_filter hBlock, hEq⟩)

theorem Listed.unlist (h : s.Listed (⟨hash, entry⟩ :: held)) (hSeq : entry.seq ∉ held.map (·.2.seq)) :
    (s.unlist entry.pendingClass entry.seq entry.size).Listed held := by
  have hTiers := h.tiers
  have hBytes := h.tierBytes
  constructor
  · intro tier
    rcases eq_or_ne tier entry.pendingClass with rfl | hNe
    · have hPerm := (hTiers entry.pendingClass).filter (·.1 ≠ entry.seq)
      have hKept := List.filter_eq_self.mpr (seq_ne entry.pendingClass hSeq)
      simp only [PendingInner.unlist, Function.update_self]
      rw [inTier, List.filter_cons_of_pos (by simp), List.map_cons, List.filter_cons_of_neg (by simp), ← inTier,
        hKept] at hPerm
      exact hPerm
    · simp only [PendingInner.unlist, Function.update_of_ne hNe]
      simpa [inTier, hNe.symm] using hTiers tier
  · intro tier
    rcases eq_or_ne tier entry.pendingClass with rfl | hNe
    · simp only [PendingInner.unlist, Function.update_self]
      rw [hBytes, inTier, List.filter_cons_of_pos (by simp), List.map_cons, List.sum_cons]
      exact Nat.add_sub_cancel_left ..
    · simp only [PendingInner.unlist, Function.update_of_ne hNe]
      simpa [inTier, hNe.symm] using hBytes tier

theorem Listed.list (h : s.Listed held) (hSeq : entry.seq ∉ held.map (·.2.seq)) :
    (s.list entry.pendingClass entry.seq hash entry.size).Listed (⟨hash, entry⟩ :: held) := by
  constructor
  · intro tier
    rcases eq_or_ne tier entry.pendingClass with rfl | hNe
    · have hKept := List.filter_eq_self.mpr fun slot hSlot =>
        seq_ne entry.pendingClass hSeq slot ((h.tiers _).mem_iff.mp hSlot)
      simp only [PendingInner.list, Function.update_self]
      rw [hKept, inTier, List.filter_cons_of_pos (by simp), List.map_cons]
      exact (List.perm_orderedInsert ..).trans ((h.tiers _).cons _)
    · simp only [PendingInner.list, Function.update_of_ne hNe]
      simpa [inTier, hNe.symm] using h.tiers tier
  · intro tier
    rcases eq_or_ne tier entry.pendingClass with rfl | hNe
    · simp only [PendingInner.list, Function.update_self]
      rw [h.tierBytes, inTier, inTier, List.filter_cons_of_pos (by simp), List.map_cons, List.sum_cons, Nat.add_comm]
    · simp only [PendingInner.list, Function.update_of_ne hNe]
      simpa [inTier, hNe.symm] using h.tierBytes tier

theorem perm_erase_of_lookup {entries : AList fun _ : Bytes => PendingEntry} (h : entries.lookup hash = some entry) :
    entries.entries.Perm (⟨hash, entry⟩ :: (entries.erase hash).entries) := by
  have hNot : hash ∉ entries.erase hash := by simp [AList.mem_erase]
  rw [← AList.entries_insert_of_notMem hNot]
  refine List.lookup_ext entries.nodupKeys (AList.nodupKeys _) fun other value => ?_
  change value ∈ entries.lookup other ↔ value ∈ ((entries.erase hash).insert hash entry).lookup other
  rcases eq_or_ne other hash with rfl | hNe
  · rw [AList.lookup_insert, h]
  · rw [AList.lookup_insert_ne hNe, AList.lookup_erase_ne hNe]

theorem not_mem_seqs (h : s.Books (⟨hash, entry⟩ :: held)) : entry.seq ∉ held.map (·.2.seq) :=
  (List.nodup_cons.mp h.seqs).1

theorem getD_oneLess (count : Option Nat) : (count.bind oneLess).getD 0 = count.getD 0 - 1 := by
  cases count with
  | none => rfl
  | some count =>
    simp only [Option.bind_some, oneLess, Option.getD_some]
    split
    · next hZero => exact hZero.symm
    · rfl

section remove

variable (hLookup : s.entries.lookup hash = some entry)

include hLookup

theorem entries_remove : (s.remove hash).entries = s.entries.erase hash := by
  rw [remove, hLookup]
  rfl

theorem perm_remove : s.entries.entries.Perm (⟨hash, entry⟩ :: (s.remove hash).entries.entries) := by
  rw [entries_remove hLookup]
  exact perm_erase_of_lookup hLookup

theorem limits_remove : (s.remove hash).limits = s.limits := by
  rw [remove, hLookup]
  rfl

theorem Counted.remove (h : s.Counted) : (s.remove hash).Counted := by
  have hBooks := h.perm (perm_remove hLookup)
  have hListed : (s.remove hash).Listed (s.remove hash).entries.entries := by
    have hOut := hBooks.toListed.unlist (not_mem_seqs hBooks)
    rw [PendingInner.remove, hLookup] at hOut ⊢
    exact ⟨hOut.tiers, hOut.tierBytes⟩
  refine ⟨hListed, fun sender => ?_, ?_, (List.nodup_cons.mp hBooks.seqs).2, fun block hBlock => ?_⟩
  · have hCount := hBooks.perSender sender
    have hSender : (s.remove hash).perSender =
        Function.update s.perSender entry.sender ((s.perSender entry.sender).bind oneLess) := by
      rw [PendingInner.remove, hLookup]
      rfl
    rw [hSender]
    rcases eq_or_ne sender entry.sender with rfl | hNe
    · rw [Function.update_self, getD_oneLess, hCount, ofSender_cons, if_pos rfl, Nat.add_sub_cancel]
    · rw [Function.update_of_ne hNe, hCount, ofSender_cons, if_neg hNe.symm, Nat.add_zero]
  · have hBytes : (s.remove hash).bytes = s.bytes - entry.size := by
      rw [PendingInner.remove, hLookup]
      rfl
    rw [hBytes, hBooks.bytes, List.map_cons, List.sum_cons, Nat.add_sub_cancel_left]
  · have hNext : (s.remove hash).nextSeq = s.nextSeq := by
      rw [PendingInner.remove, hLookup]
      rfl
    rw [hNext]
    exact hBooks.fresh block (List.mem_cons_of_mem _ hBlock)

theorem Within.remove (hCounted : s.Counted) (h : s.Within) : (s.remove hash).Within := by
  have hPerm := perm_remove hLookup
  have hAfter := (hCounted.remove hLookup).bytes
  have hBefore := hCounted.bytes
  have hBytes := h.bytes
  have hBlocks := h.blocks
  rw [(hPerm.map _).sum_eq, List.map_cons, List.sum_cons] at hBefore
  rw [hPerm.length_eq, List.length_cons] at hBlocks
  refine ⟨?_, ?_, fun sender => ?_⟩
  · rw [limits_remove hLookup]
    omega
  · rw [limits_remove hLookup]
    omega
  · rw [limits_remove hLookup]
    refine le_trans ?_ (h.perSender sender)
    rw [ofSender_perm hPerm, ofSender_cons]
    exact Nat.le_add_right _ _

theorem lookup_remove (other : Bytes) :
    (s.remove hash).entries.lookup other = if other = hash then none else s.entries.lookup other := by
  rw [entries_remove hLookup]
  split
  · next hEq => rw [hEq, AList.lookup_erase]
  · next hNe => exact AList.lookup_erase_ne hNe

theorem tiers_remove {tier : PendingClass} (hNe : tier ≠ entry.pendingClass) :
    (s.remove hash).tiers tier = s.tiers tier ∧ (s.remove hash).tierBytes tier = s.tierBytes tier := by
  rw [PendingInner.remove, hLookup]
  exact ⟨Function.update_of_ne hNe .., Function.update_of_ne hNe ..⟩

end remove

theorem Counted.promote (h : s.Counted) (hash : Bytes) (pendingClass : PendingClass) :
    (s.promote hash pendingClass).Counted ∧ (s.Within → (s.promote hash pendingClass).Within) ∧
      ∀ other, (s.promote hash pendingClass).entries.lookup other = none → s.entries.lookup other = none := by
  cases hLookup : s.entries.lookup hash with
  | none =>
    rw [PendingInner.promote, hLookup]
    exact ⟨h, id, fun _ => id⟩
  | some entry =>
    rw [PendingInner.promote, hLookup]
    dsimp only
    split
    · exact ⟨h, id, fun _ => id⟩
    · have hPerm := perm_erase_of_lookup hLookup
      have hBooks := h.perm hPerm
      have hSeq := not_mem_seqs hBooks
      have hEntries : (s.entries.insert hash { entry with pendingClass }).entries =
          ⟨hash, { entry with pendingClass }⟩ :: (s.entries.erase hash).entries := AList.entries_insert
      have hIn := @Listed.list _ _ hash { entry with pendingClass } (hBooks.toListed.unlist hSeq) hSeq
      refine ⟨?_, fun hWithin => ⟨?_, hWithin.bytes, fun sender => ?_⟩, fun other hNone => ?_⟩
      · change Books _ (s.entries.insert hash { entry with pendingClass }).entries
        rw [hEntries]
        refine ⟨⟨hIn.tiers, hIn.tierBytes⟩, fun sender => ?_, hBooks.bytes, hBooks.seqs, fun block hBlock => ?_⟩
        · exact (hBooks.perSender sender).trans (by rw [ofSender_cons, ofSender_cons])
        rcases List.mem_cons.mp hBlock with rfl | hBlock
        · exact hBooks.fresh ⟨hash, entry⟩ List.mem_cons_self
        · exact hBooks.fresh block (List.mem_cons_of_mem _ hBlock)
      · change (s.entries.insert hash { entry with pendingClass }).entries.length ≤ _
        rw [hEntries]
        exact hPerm.length_eq ▸ hWithin.blocks
      · change ofSender (s.entries.insert hash { entry with pendingClass }).entries sender ≤ _
        have hCount := hWithin.perSender sender
        rw [ofSender_perm hPerm, ofSender_cons] at hCount
        rw [hEntries, ofSender_cons]
        exact hCount
      · change (s.entries.insert hash { entry with pendingClass }).lookup other = none at hNone
        rcases eq_or_ne other hash with rfl | hNe
        · rw [AList.lookup_insert] at hNone
          cases hNone
        · rwa [AList.lookup_insert_ne hNe] at hNone

section admitted

variable {sender encoded : Bytes} {pendingClass : PendingClass} (hNew : hash ∉ s.entries)

include hNew

theorem entries_admitted : (s.admitted hash sender encoded pendingClass).entries.entries =
    ⟨hash, ⟨encoded, sender, pendingClass, s.nextSeq⟩⟩ :: s.entries.entries := AList.entries_insert_of_notMem hNew

theorem Counted.admitted (h : s.Counted) : (s.admitted hash sender encoded pendingClass).Counted := by
  have hSeq : s.nextSeq ∉ s.entries.entries.map (·.2.seq) := by
    intro hMem
    obtain ⟨block, hBlock, hEq⟩ := List.mem_map.mp hMem
    exact absurd (h.fresh block hBlock) (by omega)
  have hIn := @Listed.list _ _ hash ⟨encoded, sender, pendingClass, s.nextSeq⟩ h.toListed hSeq
  rw [Counted, entries_admitted hNew]
  refine ⟨⟨hIn.tiers, hIn.tierBytes⟩, fun other => ?_, ?_, List.nodup_cons.mpr ⟨hSeq, h.seqs⟩, fun block hBlock => ?_⟩
  · change (Function.update s.perSender sender (some ((s.perSender sender).getD 0 + 1)) other).getD 0 = _
    rcases eq_or_ne other sender with rfl | hNe
    · rw [Function.update_self, Option.getD_some, h.perSender, ofSender_cons, if_pos rfl]
    · rw [Function.update_of_ne hNe, h.perSender, ofSender_cons, if_neg hNe.symm, Nat.add_zero]
  · change s.bytes + encoded.length = _
    rw [h.bytes, List.map_cons, List.sum_cons, Nat.add_comm]
  · change block.2.seq < s.nextSeq + 1
    rcases List.mem_cons.mp hBlock with rfl | hBlock
    · exact Nat.lt_succ_self _
    · exact Nat.lt_succ_of_lt (h.fresh block hBlock)

theorem Within.admitted (h : s.Within) (hBlocks : s.entries.entries.length + 1 ≤ s.limits.maxBlocks)
    (hBytes : s.bytes + encoded.length ≤ s.limits.maxBytes)
    (hSender : ofSender s.entries.entries sender + 1 ≤ s.limits.maxPerSender) :
    (s.admitted hash sender encoded pendingClass).Within := by
  refine ⟨?_, hBytes, fun other => ?_⟩
  · rw [entries_admitted hNew]
    exact hBlocks
  · rw [entries_admitted hNew, ofSender_cons]
    split
    · next hEq => exact hEq ▸ hSender
    · exact h.perSender other

end admitted

/-- Blocks of the class and of lower ones are removed, one after the other. -/
inductive Evicts (pendingClass : PendingClass) : PendingInner → List Bytes → PendingInner → Prop
  | nil {s : PendingInner} : Evicts pendingClass s [] s
  | cons {s s' : PendingInner} {victim : Bytes} {entry : PendingEntry} {rest : List Bytes} :
      s.entries.lookup victim = some entry → entry.pendingClass.index ≤ pendingClass.index →
      Evicts pendingClass (s.remove victim) rest s' → Evicts pendingClass s (victim :: rest) s'

variable {s' : PendingInner} {pendingClass : PendingClass} {evicted : List Bytes} {bytes : Nat}

theorem canFit_remove {victim : Bytes} (hLookup : s.entries.lookup victim = some entry)
    (hClass : entry.pendingClass.index ≤ pendingClass.index) :
    (s.remove victim).canFit bytes pendingClass = s.canFit bytes pendingClass := by
  have hNe : ∀ tier ∈ PendingClass.all.filter (pendingClass.index < ·.index), tier ≠ entry.pendingClass := by
    rintro tier hTier rfl
    have hAbove := of_decide_eq_true (List.mem_filter.mp hTier).2
    omega
  rw [canFit, canFit, limits_remove hLookup, List.map_congr_left fun tier hTier =>
    congrArg List.length (tiers_remove hLookup (hNe tier hTier)).1, List.map_congr_left fun tier hTier =>
    (tiers_remove hLookup (hNe tier hTier)).2]

namespace Evicts

theorem kept (h : Evicts pendingClass s evicted s') (hCounted : s.Counted) (hWithin : s.Within) :
    s'.Counted ∧ s'.Within ∧ s'.limits = s.limits ∧
      ∀ sender, ofSender s'.entries.entries sender ≤ ofSender s.entries.entries sender := by
  induction h with
  | nil => exact ⟨hCounted, hWithin, rfl, fun _ => le_rfl⟩
  | cons hLookup _ _ ih =>
    obtain ⟨hCounted', hWithin', hLimits, hSenders⟩ := ih (hCounted.remove hLookup) (hWithin.remove hLookup hCounted)
    refine ⟨hCounted', hWithin', hLimits.trans (limits_remove hLookup), fun sender => (hSenders sender).trans ?_⟩
    rw [ofSender_perm (perm_remove hLookup), ofSender_cons]
    exact Nat.le_add_right _ _

theorem mono (h : Evicts pendingClass s evicted s') {other : Bytes} (hNone : s.entries.lookup other = none) :
    s'.entries.lookup other = none := by
  induction h with
  | nil => exact hNone
  | cons hLookup _ _ ih =>
    apply ih
    rw [lookup_remove hLookup]
    split
    · rfl
    · exact hNone

theorem evicted_iff (h : Evicts pendingClass s evicted s') :
    (∀ hash ∈ evicted, ∃ entry, s.entries.lookup hash = some entry ∧ entry.pendingClass.index ≤ pendingClass.index) ∧
      ∀ hash entry, s.entries.lookup hash = some entry → s'.entries.lookup hash = none → hash ∈ evicted := by
  induction h with
  | nil => exact ⟨fun _ hMem => absurd hMem List.not_mem_nil, fun _ _ hSome hNone => by simp [hSome] at hNone⟩
  | @cons s s' victim entry rest hLookup hClass _ ih =>
    obtain ⟨hThere, hGone⟩ := ih
    constructor
    · intro hash hMem
      rcases List.mem_cons.mp hMem with rfl | hRest
      · exact ⟨entry, hLookup, hClass⟩
      · obtain ⟨other, hOther, hLow⟩ := hThere hash hRest
        rw [lookup_remove hLookup] at hOther
        split at hOther
        · cases hOther
        · exact ⟨other, hOther, hLow⟩
    · intro hash other hSome hNone
      rcases eq_or_ne hash victim with rfl | hNe
      · exact List.mem_cons_self
      · refine List.mem_cons_of_mem _ (hGone hash other ?_ hNone)
        rw [lookup_remove hLookup, if_neg hNe]
        exact hSome

end Evicts

theorem Counted.exists_lookup (h : s.Counted) {tier : PendingClass} {slot : Nat × Bytes} (hSlot : slot ∈ s.tiers tier) :
    ∃ entry, s.entries.lookup slot.2 = some entry ∧ entry.pendingClass = tier := by
  obtain ⟨⟨hash, entry⟩, hBlock, rfl⟩ := List.mem_map.mp ((h.tiers tier).mem_iff.mp hSlot)
  obtain ⟨hMem, hTier⟩ := List.mem_filter.mp hBlock
  exact ⟨entry, AList.mem_lookup_iff.mpr hMem, of_decide_eq_true hTier⟩

theorem Counted.oldest (h : s.Counted) {victim : Bytes} (hOldest : s.oldest pendingClass = some victim) :
    ∃ entry, s.entries.lookup victim = some entry ∧ entry.pendingClass.index ≤ pendingClass.index := by
  obtain ⟨tier, hTier, hHead⟩ := List.exists_of_findSome?_eq_some hOldest
  obtain ⟨slot, hSlot, rfl⟩ := Option.map_eq_some_iff.mp hHead
  obtain ⟨entry, hLookup, rfl⟩ := h.exists_lookup (List.mem_of_head? hSlot)
  exact ⟨entry, hLookup, of_decide_eq_true (List.mem_filter.mp hTier).2⟩

theorem sum_by_tier (f : HeldBlock → Nat) (held : List HeldBlock) :
    (held.map f).sum = (PendingClass.all.map fun tier => ((inTier held tier).map f).sum).sum := by
  induction held with
  | nil => rfl
  | cons block held ih =>
    rw [List.map_cons, List.sum_cons, ih]
    cases hClass : block.2.pendingClass <;> simp [PendingClass.all, inTier, List.filter_cons, hClass] <;> omega

theorem Counted.kept (h : s.Counted) (hOldest : s.oldest pendingClass = none) (hFits : s.canFit bytes pendingClass = true) :
    s.entries.entries.length + 1 ≤ s.limits.maxBlocks ∧ s.bytes + bytes ≤ s.limits.maxBytes := by
  have hEmpty : ∀ tier ∈ PendingClass.all, ¬ pendingClass.index < tier.index → inTier s.entries.entries tier = [] := by
    intro tier hTier hLow
    have hNone := List.findSome?_eq_none_iff.mp hOldest tier (List.mem_filter.mpr ⟨hTier, decide_eq_true (by omega)⟩)
    have hNil := (h.tiers tier)
    rw [List.head?_eq_none_iff.mp (Option.map_eq_none_iff.mp hNone)] at hNil
    exact List.map_eq_nil_iff.mp hNil.nil_eq.symm
  have hSum : ∀ f : HeldBlock → Nat, (s.entries.entries.map f).sum =
      ((PendingClass.all.filter (pendingClass.index < ·.index)).map fun tier =>
        ((inTier s.entries.entries tier).map f).sum).sum := by
    intro f
    rw [sum_by_tier]
    have hUnsolicited := hEmpty .unsolicited (by decide)
    have hKnown := hEmpty .knownSender (by decide)
    have hSolicited := hEmpty .solicited (by decide)
    cases pendingClass <;> simp_all [PendingClass.all, PendingClass.index]
  have hOne : ∀ held : List HeldBlock, (held.map fun _ => 1).sum = held.length := by
    intro held
    induction held with
    | nil => rfl
    | cons block held ih => rw [List.map_cons, List.sum_cons, ih, List.length_cons, Nat.add_comm]
  have hBlocks := hSum fun _ => 1
  simp only [hOne] at hBlocks
  simp only [canFit, decide_eq_true_eq, (h.tiers _).length_eq, List.length_map, funext h.tierBytes] at hFits
  rw [h.bytes, hSum (·.2.size), hBlocks]
  exact hFits

theorem makeRoom_spec (hCounted : s.Counted) (hFits : s.canFit bytes pendingClass = true) {rounds : Nat}
    (hRounds : s.entries.entries.length < rounds) (before : List Bytes) :
    ∃ s' evicted, makeRoom bytes pendingClass rounds s before = some (s', before ++ evicted, true) ∧
      Evicts pendingClass s evicted s' ∧ s'.entries.entries.length + 1 ≤ s'.limits.maxBlocks ∧
      s'.bytes + bytes ≤ s'.limits.maxBytes := by
  induction rounds generalizing s before with
  | zero => omega
  | succ rounds ih =>
    rw [makeRoom]
    split
    · next hFull =>
      cases hOldest : s.oldest pendingClass with
      | none =>
        have hRoom := hCounted.kept hOldest hFits
        omega
      | some victim =>
        obtain ⟨entry, hLookup, hClass⟩ := hCounted.oldest hOldest
        have hLength := (perm_remove hLookup).length_eq
        rw [List.length_cons] at hLength
        obtain ⟨s', evicted, hRest, hEvicts, hRoom⟩ := ih (hCounted.remove hLookup)
          ((canFit_remove hLookup hClass).trans hFits) (by omega) (before ++ [victim])
        refine ⟨s', victim :: evicted, ?_, .cons hLookup hClass hEvicts, hRoom⟩
        simpa using hRest
    · exact ⟨s, [], by rw [List.append_nil], .nil, by omega, by omega⟩

theorem mem_of_lowest {slots : List (Nat × Bytes)} {slot : Nat × Bytes} (h : lowest slots = some slot) : slot ∈ slots := by
  cases slots with
  | nil => cases h
  | cons first rest =>
    obtain rfl := Option.some.inj h
    suffices hMem : ∀ best, rest.foldl (fun best other => if other.1 < best.1 then other else best) best ∈ best :: rest
      from hMem first
    intro best
    induction rest generalizing best with
    | nil => exact List.mem_cons_self
    | cons other rest ih =>
      rw [List.foldl_cons]
      split
      · exact List.mem_cons_of_mem _ (ih rfl other)
      · exact List.mem_cons.mpr ((List.mem_cons.mp (ih rfl best)).imp_right (List.mem_cons_of_mem _))

theorem Counted.senderVictim (h : s.Counted) {sender : Bytes} {victim : Option Bytes}
    (hVictim : s.senderVictim sender pendingClass = some victim) :
    (victim = none ∧ ofSender s.entries.entries sender + 1 ≤ s.limits.maxPerSender) ∨
      ∃ hash entry, victim = some hash ∧ s.entries.lookup hash = some entry ∧ entry.sender = sender ∧
        entry.pendingClass.index ≤ pendingClass.index := by
  rw [PendingInner.senderVictim, h.perSender] at hVictim
  split at hVictim
  · split at hVictim
    · next hSolicited =>
      subst hSolicited
      obtain ⟨hash, hOldest, rfl⟩ := Option.map_eq_some_iff.mp hVictim
      obtain ⟨slot, hLowest, rfl⟩ := Option.map_eq_some_iff.mp hOldest
      obtain ⟨tier, -, hFind⟩ := List.mem_filterMap.mp (mem_of_lowest hLowest)
      obtain ⟨entry, hLookup, -⟩ := h.exists_lookup (List.mem_of_find?_eq_some hFind)
      have hSender := List.find?_some hFind
      rw [hLookup, Option.any_some, decide_eq_true_eq] at hSender
      refine .inr ⟨slot.2, entry, rfl, hLookup, hSender, ?_⟩
      cases entry.pendingClass <;> decide
    · cases hVictim
  · next hRoom =>
    obtain rfl := Option.some.inj hVictim
    exact .inl ⟨rfl, by omega⟩

/-- What an insertion does to an area whose books are right. -/
structure Inserted (s s' : PendingInner) (pendingClass : PendingClass) (outcome : PendingOutcome) : Prop where
  counted : s'.Counted
  within : s'.Within
  limits : s'.limits = s.limits
  evicts : ∀ hash ∈ outcome.evicted,
    ∃ entry, s.entries.lookup hash = some entry ∧ entry.pendingClass.index ≤ pendingClass.index
  gone : ∀ hash entry, s.entries.lookup hash = some entry → s'.entries.lookup hash = none → hash ∈ outcome.evicted
  refused : outcome.status ≠ .accepted → outcome.evicted = [] ∧ s' = s

theorem Inserted.refuse (hCounted : s.Counted) (hWithin : s.Within) (status : PendingInsert) :
    Inserted s s pendingClass ⟨status, []⟩ :=
  ⟨hCounted, hWithin, rfl, fun _ hMem => absurd hMem List.not_mem_nil, fun _ _ hSome hNone => by simp [hSome] at hNone,
    fun _ => ⟨rfl, rfl⟩⟩

theorem Inserted.of_evicts {hash sender encoded : Bytes} (hEvicts : Evicts pendingClass s evicted s') (hCounted : s.Counted)
    (hWithin : s.Within) (hNew : hash ∉ s.entries) (hBlocks : s'.entries.entries.length + 1 ≤ s'.limits.maxBlocks)
    (hBytes : s'.bytes + encoded.length ≤ s'.limits.maxBytes)
    (hSender : ofSender s'.entries.entries sender + 1 ≤ s'.limits.maxPerSender) :
    Inserted s (s'.admitted hash sender encoded pendingClass) pendingClass ⟨.accepted, evicted⟩ := by
  obtain ⟨hCounted', hWithin', hLimits, -⟩ := hEvicts.kept hCounted hWithin
  obtain ⟨hThere, hGone⟩ := hEvicts.evicted_iff
  have hNew' : hash ∉ s'.entries := AList.lookup_eq_none.mp (hEvicts.mono (AList.lookup_eq_none.mpr hNew))
  refine ⟨hCounted'.admitted hNew', hWithin'.admitted hNew' hBlocks hBytes hSender, hLimits, hThere, ?_,
    fun hRefused => absurd rfl hRefused⟩
  intro other entry hSome hNone
  refine hGone other entry hSome ?_
  change (s'.entries.insert hash _).lookup other = none at hNone
  rcases eq_or_ne other hash with rfl | hNe
  · rw [AList.lookup_insert] at hNone
    cases hNone
  · rwa [AList.lookup_insert_ne hNe] at hNone

section insert

variable {D S : Type} (encode : BlockMessage D S → Bytes)

theorem insertAs_spec (hCounted : s.Counted) (hWithin : s.Within) (block : BlockMessage D S) (pendingClass : PendingClass) :
    ∃ s' outcome, s.insertAs encode block pendingClass = some (s', outcome) ∧ Inserted s s' pendingClass outcome := by
  rw [insertAs]
  dsimp only
  split
  · obtain ⟨hPromoted, hKept, hSame⟩ := hCounted.promote block.blockHash pendingClass
    refine ⟨_, _, rfl, hPromoted, hKept hWithin, ?_, fun _ hMem => absurd hMem List.not_mem_nil, ?_,
      fun hRefused => absurd rfl hRefused⟩
    · rw [PendingInner.promote]
      split
      · rfl
      · split <;> rfl
    · intro hash entry hSome hNone
      rw [hSame hash hNone] at hSome
      cases hSome
  next hNew =>
  split
  · exact ⟨_, _, rfl, .refuse hCounted hWithin _⟩
  split
  · exact ⟨_, _, rfl, .refuse hCounted hWithin _⟩
  next victim hVictim =>
  split
  · exact ⟨_, _, rfl, .refuse hCounted hWithin _⟩
  next hFits =>
  rw [Classical.not_not] at hFits
  rcases hCounted.senderVictim hVictim with ⟨rfl, hRoom⟩ | ⟨hash, entry, rfl, hLookup, hSender, hClass⟩
  · obtain ⟨s', evicted, hRun, hEvicts, hBlocks, hBytes⟩ := makeRoom_spec hCounted hFits (Nat.lt_succ_self _) []
    obtain ⟨-, -, hLimits, hSenders⟩ := hEvicts.kept hCounted hWithin
    have hCount := hSenders block.sender
    refine ⟨_, _, by rw [hRun]; rfl, .of_evicts hEvicts hCounted hWithin hNew hBlocks hBytes ?_⟩
    rw [hLimits]
    omega
  · obtain ⟨s', evicted, hRun, hEvicts, hBlocks, hBytes⟩ := makeRoom_spec (hCounted.remove hLookup)
      ((canFit_remove hLookup hClass).trans hFits) (Nat.lt_succ_self _) [hash]
    obtain ⟨-, -, hLimits, hSenders⟩ := hEvicts.kept (hCounted.remove hLookup) (hWithin.remove hLookup hCounted)
    have hCount := hSenders block.sender
    have hBefore := hWithin.perSender block.sender
    rw [ofSender_perm (perm_remove hLookup), ofSender_cons, if_pos hSender] at hBefore
    refine ⟨_, _, by rw [hRun]; rfl, .of_evicts (.cons hLookup hClass hEvicts) hCounted hWithin hNew hBlocks hBytes ?_⟩
    rw [hLimits, limits_remove hLookup]
    omega

theorem call_spec (hCounted : s.Counted) (hWithin : s.Within) (call : PendingCall D S) :
    ∃ s', s.call encode call = some s' ∧ s'.Counted ∧ s'.Within ∧ s'.limits = s.limits := by
  cases call with
  | insertAs block pendingClass =>
    obtain ⟨s', outcome, hInsert, hSpec⟩ := insertAs_spec encode hCounted hWithin block pendingClass
    refine ⟨s', ?_, hSpec.counted, hSpec.within, hSpec.limits⟩
    rw [PendingInner.call, hInsert]
    rfl
  | remove hash =>
    refine ⟨s.remove hash, rfl, ?_⟩
    cases hLookup : s.entries.lookup hash with
    | none =>
      rw [PendingInner.remove, hLookup]
      exact ⟨hCounted, hWithin, rfl⟩
    | some entry => exact ⟨hCounted.remove hLookup, hWithin.remove hLookup hCounted, limits_remove hLookup⟩

/-- Every sequence of calls keeps the limits and the books; an insertion evicts only blocks of its class and of lower
ones, and nothing when it is refused. -/
theorem pendingBlocks_discipline (limits : PendingBlockLimits) (calls : List (PendingCall D S)) :
    ∃ s, calls.foldlM (call encode) (new limits) = some s ∧ s.limits = limits ∧ s.Within ∧ s.Counted ∧
      ∀ block pendingClass, ∃ s' outcome, s.insertAs encode block pendingClass = some (s', outcome) ∧
        Inserted s s' pendingClass outcome := by
  suffices hRun : ∀ s : PendingInner, s.Counted → s.Within → ∃ s', calls.foldlM (call encode) s = some s' ∧
      s'.limits = s.limits ∧ s'.Within ∧ s'.Counted by
    have hCounted : (new limits).Counted :=
      ⟨⟨fun _ => .nil, fun _ => rfl⟩, fun _ => rfl, rfl, List.nodup_nil, fun _ hMem => absurd hMem List.not_mem_nil⟩
    obtain ⟨s, hCalls, hLimits, hWithin, hCounted⟩ := hRun (new limits) hCounted
      ⟨Nat.zero_le _, Nat.zero_le _, fun _ => Nat.zero_le _⟩
    exact ⟨s, hCalls, hLimits, hWithin, hCounted, insertAs_spec encode hCounted hWithin⟩
  intro s hCounted hWithin
  induction calls generalizing s with
  | nil => exact ⟨s, rfl, rfl, hWithin, hCounted⟩
  | cons next calls ih =>
    obtain ⟨s₁, hCall, hCounted₁, hWithin₁, hLimits₁⟩ := call_spec encode hCounted hWithin next
    obtain ⟨s', hCalls, hLimits, hSpec⟩ := ih s₁ hCounted₁ hWithin₁
    refine ⟨s', ?_, hLimits.trans hLimits₁, hSpec⟩
    rw [List.foldlM_cons, hCall]
    exact hCalls

end insert

end PendingInner

end F1r3Node.DagStorage
