import F1r3Node.Shared.Bytes

/-! # The routing table of peer discovery

A bucket holds the peers whose keys share a number of leading bits with the local key. An update of a full bucket gives
up the lock while it pings an old peer.
-/

namespace F1r3Node.Discovery

open Shared

structure PeerNode (E : Type) where
  key : Bytes
  endpoint : E
  deriving DecidableEq

structure PeerTableEntry (E : Type) where
  entry : PeerNode E
  pinging : Bool
  key : Bytes
  deriving DecidableEq

variable {E : Type}

def PeerTableEntry.new (entry : PeerNode E) : PeerTableEntry E := ⟨entry, false, entry.key⟩

structure PeerTable (E : Type) where
  localKey : Bytes
  k : Nat
  table : Nat → List (PeerTableEntry E)

def dlut : List Nat :=
  [0, 7, 6, 6] ++ List.replicate 4 5 ++ List.replicate 8 4 ++ List.replicate 16 3 ++ List.replicate 32 2 ++
    List.replicate 64 1 ++ List.replicate 128 0

def distanceFrom : Nat → Bytes → Bytes → Nat
  | idx, a :: as, b :: bs =>
    if a ^^^ b ≠ 0 then 8 * idx + dlut.getD (a ^^^ b).toNat 0 else distanceFrom (idx + 1) as bs
  | idx, _, _ => 8 * idx

namespace PeerTable

variable (t : PeerTable E)

def width : Nat := t.localKey.length

def distance (a b : Bytes) : Option Nat :=
  if a.length ≠ t.width ∨ b.length ≠ t.width then none else some (distanceFrom 0 a b)

/-- The buckets are read until `k` peers are found. -/
def gather (k : Nat) (entries : List (PeerNode E)) : List (List (PeerNode E)) → List (PeerNode E)
  | [] => entries
  | bucket :: buckets => if k ≤ entries.length then entries else gather k (entries ++ bucket) buckets

def peersOf (i : Nat) : List (PeerNode E) := (t.table i).map (·.entry)

def lookup (key : Bytes) : List (PeerNode E) :=
  match t.distance t.localKey key with
  | none => []
  | some index =>
    let entries := gather t.k [] ((List.range' index (8 * t.width - index)).map fun i =>
      (t.peersOf i).filter (·.key ≠ key))
    -- the buckets before the index are not searched for the key itself
    let entries := gather t.k entries ((List.range index).reverse.map t.peersOf)
    (entries.insertionSort fun a b => (t.distance key b.key).getD 0 ≤ (t.distance key a.key).getD 0).take t.k

end PeerTable

def bits (key : Bytes) : List Bool := key.flatMap fun b => (List.range 8).map fun i => b.toNat.testBit (7 - i)

def commonPrefix : List Bool → List Bool → Nat
  | a :: as, b :: bs => if a = b then commonPrefix as bs + 1 else 0
  | _, _ => 0

theorem commonPrefix_of_lt {l a b : List Bool} (h : commonPrefix l a < commonPrefix l b) :
    commonPrefix a b = commonPrefix l a := by
  fun_induction commonPrefix l a generalizing b with
  | case1 l x as ih =>
    match b with
    | [] => simp [commonPrefix] at h
    | y :: b =>
      by_cases hxy : x = y
      · simp only [commonPrefix, if_pos hxy, Nat.add_lt_add_iff_right] at h ⊢
        rw [ih h]
      · simp [commonPrefix, hxy] at h
  | case2 x l y as hNe =>
    match b with
    | [] => rfl
    | z :: b =>
      by_cases hxz : x = z
      · rw [commonPrefix, if_neg (hxz ▸ Ne.symm hNe)]
      · simp [commonPrefix, hxz] at h
  | case3 l a hNone =>
    match l, a with
    | [], _ => simp [commonPrefix] at h
    | _ :: _, [] => rfl
    | x :: l, y :: a => exact absurd rfl (hNone x l y a rfl)

theorem commonPrefix_comm (a b : List Bool) : commonPrefix a b = commonPrefix b a := by
  fun_induction commonPrefix a b with
  | case1 as x bs ih => rw [ih, commonPrefix, if_pos rfl]
  | case2 x as y bs hNe => rw [commonPrefix, if_neg (Ne.symm hNe)]
  | case3 a b hNone =>
    match a, b with
    | [], [] => rfl
    | [], _ :: _ => rfl
    | _ :: _, [] => rfl
    | x :: a, y :: b => exact absurd rfl (hNone x a y b rfl)

theorem commonPrefix_le (a b : List Bool) : commonPrefix a b ≤ a.length := by
  fun_induction commonPrefix a b with
  | case1 as x bs ih => exact Nat.succ_le_succ ih
  | case2 => exact Nat.zero_le _
  | case3 => exact Nat.zero_le _

theorem lt_commonPrefix {l a b : List Bool} (hEq : commonPrefix l a = commonPrefix l b)
    (ha : commonPrefix l a < a.length) (hb : commonPrefix l b < b.length) (hl : commonPrefix l a < l.length) :
    commonPrefix l a < commonPrefix a b := by
  fun_induction commonPrefix l a generalizing b with
  | case1 l x as ih =>
    match b with
    | [] => simp at hb
    | y :: b =>
      by_cases hxy : x = y
      · simp only [commonPrefix, if_pos hxy, List.length_cons, Nat.add_lt_add_iff_right, Nat.add_right_cancel_iff]
          at hEq ha hb hl ⊢
        exact ih hEq ha hb hl
      · simp [commonPrefix, hxy] at hEq
  | case2 x l y as hNe =>
    match b with
    | [] => simp at hb
    | z :: b =>
      by_cases hxz : x = z
      · simp [commonPrefix, hxz] at hEq
      · have hyz : y = z := by cases x <;> cases y <;> cases z <;> simp_all
        rw [commonPrefix, if_pos hyz]
        exact Nat.succ_pos _
  | case3 l a hNone =>
    match l, a with
    | [], _ => simp at hl
    | _ :: _, [] => simp at ha
    | x :: l, y :: a => exact absurd rfl (hNone x l y a rfl)

theorem commonPrefix_append_self (l a b : List Bool) : commonPrefix (l ++ a) (l ++ b) = l.length + commonPrefix a b := by
  induction l with
  | nil => simp
  | cons x l ih => simp only [List.cons_append, commonPrefix, if_pos, ih, List.length_cons]; omega

theorem commonPrefix_map_append {f g : Nat → Bool} {l : List Nat} (a b : List Bool) (h : ∃ i ∈ l, f i ≠ g i) :
    commonPrefix (l.map f ++ a) (l.map g ++ b) = l.findIdx fun i => f i ^^ g i := by
  induction l with
  | nil => simp at h
  | cons i l ih =>
    rw [List.map_cons, List.map_cons, List.cons_append, List.cons_append, commonPrefix, List.findIdx_cons]
    by_cases hi : f i = g i
    · have hRest : ∃ i ∈ l, f i ≠ g i := by
        obtain ⟨j, hj, hNe⟩ := h
        rcases List.mem_cons.mp hj with rfl | hj
        · exact absurd hi hNe
        · exact ⟨j, hj, hNe⟩
      simp [hi, ih hRest]
    · rw [if_neg hi, Bool.xor_iff_ne.mpr hi, cond_true]

theorem dlut_eq_leading : ∀ n < 256, n ≠ 0 → (List.range 8).findIdx (fun i => n.testBit (7 - i)) = dlut.getD n 0 ∧
    ∃ i ∈ List.range 8, n.testBit (7 - i) = true := by
  decide +kernel

theorem distanceFrom_eq {a b : Bytes} (h : a.length = b.length) (idx : Nat) :
    distanceFrom idx a b = 8 * idx + commonPrefix (bits a) (bits b) := by
  induction a generalizing b idx with
  | nil => rw [List.length_eq_zero_iff.mp h.symm]; rfl
  | cons x a ih =>
    match b with
    | y :: b =>
      have hBits : ∀ i, (x.toNat.testBit (7 - i) ^^ y.toNat.testBit (7 - i)) = (x ^^^ y).toNat.testBit (7 - i) := by
        intro i
        rw [UInt8.toNat_xor, Nat.testBit_xor]
      simp only [distanceFrom, bits, List.flatMap_cons]
      split_ifs with hXor
      · have hNonzero : (x ^^^ y).toNat ≠ 0 := fun hZero => hXor (UInt8.toNat_inj.mp hZero)
        obtain ⟨hLeading, i, hi, hBit⟩ := dlut_eq_leading _ (x ^^^ y).toNat_lt hNonzero
        rw [commonPrefix_map_append _ _ ⟨i, hi, by rw [← hBits] at hBit; simpa using hBit⟩]
        simp only [hBits, hLeading]
      · obtain rfl : x = y := UInt8.xor_eq_zero_iff.mp (not_not.mp hXor)
        rw [commonPrefix_append_self, ih (Nat.succ.inj h)]
        simp only [List.length_map, List.length_range, bits]
        omega

namespace PeerTable

variable (t : PeerTable E)

def closeness (key : Bytes) (p : PeerNode E) : Nat := commonPrefix (bits key) (bits p.key)

def known : List (PeerNode E) := (List.range (8 * t.width)).flatMap t.peersOf

def Placed : Prop := ∀ i < 8 * t.width, ∀ p ∈ t.peersOf i, t.distance t.localKey p.key = some i

variable {t}

theorem distance_eq_some {a b : Bytes} {i : Nat} :
    t.distance a b = some i ↔ a.length = t.width ∧ b.length = t.width ∧ commonPrefix (bits a) (bits b) = i := by
  rw [distance]
  split_ifs with h
  · simp only [false_iff]
    rintro ⟨ha, hb, -⟩
    exact h.elim (fun hNe => hNe ha) fun hNe => hNe hb
  · obtain ⟨ha, hb⟩ := not_or.mp h
    rw [not_not] at ha hb
    rw [distanceFrom_eq (ha.trans hb.symm), Option.some.injEq]
    simp [ha, hb]

theorem gather_eq (k : Nat) (entries : List (PeerNode E)) (groups : List (List (PeerNode E))) :
    ∃ read rest, groups = read ++ rest ∧ gather k entries groups = entries ++ read.flatten ∧
      (rest = [] ∨ k ≤ (entries ++ read.flatten).length) := by
  induction groups generalizing entries with
  | nil => exact ⟨[], [], rfl, by simp [gather], .inl rfl⟩
  | cons bucket groups ih =>
    rw [gather]
    split_ifs with hEnough
    · exact ⟨[], bucket :: groups, rfl, by simp, .inr (by simpa using hEnough)⟩
    · obtain ⟨read, rest, rfl, hGather, hRest⟩ := ih (entries ++ bucket)
      exact ⟨bucket :: read, rest, rfl, by simpa using hGather, by simpa using hRest⟩

theorem gather_append (k : Nat) (entries : List (PeerNode E)) (groups groups' : List (List (PeerNode E))) :
    gather k (gather k entries groups) groups' = gather k entries (groups ++ groups') := by
  induction groups generalizing entries with
  | nil => rfl
  | cons bucket groups ih =>
    rw [List.cons_append, gather, gather]
    split_ifs with hEnough
    · cases groups' with
      | nil => rfl
      | cons _ _ => rw [gather, if_pos hEnough]
    · exact ih _

theorem length_bits (key : Bytes) : (bits key).length = 8 * key.length := by
  simp [bits, Nat.mul_comm]

def scan (index size : Nat) : List Nat := List.range' index (size - index) ++ (List.range index).reverse

theorem perm_scan {index size : Nat} (h : index ≤ size) : (scan index size).Perm (List.range size) := by
  have hRange : List.range size = List.range index ++ List.range' index (size - index) := by
    have hSplit := @List.range'_append_1 0 index (size - index)
    rw [Nat.zero_add, Nat.add_sub_cancel' h] at hSplit
    rw [List.range_eq_range', List.range_eq_range', hSplit]
  rw [hRange, scan]
  exact List.perm_append_comm.trans ((List.reverse_perm _).append_right _)

theorem pairwise_scan (index size : Nat) : (scan index size).Pairwise fun i j => j ≠ index ∧ min j index ≤ min i index := by
  refine List.pairwise_append.mpr ⟨?_, ?_, ?_⟩
  · refine (List.pairwise_lt_range' 1).imp_of_mem fun hi _ hij => ?_
    have := (List.mem_range'_1.mp hi).1
    omega
  · refine List.pairwise_reverse.mpr (List.pairwise_lt_range.imp_of_mem fun _ hj hij => ?_)
    have := List.mem_range.mp hj
    omega
  · intro i hi j hj
    have := (List.mem_range'_1.mp hi).1
    have := List.mem_range.mp (List.mem_reverse.mp hj)
    omega

section

variable (hPlaced : t.Placed) {key : Bytes} {index : Nat} (hIndex : t.distance t.localKey key = some index) {i : Nat}
  (hi : i < 8 * t.width) {p : PeerNode E} (hp : p ∈ t.peersOf i)

include hPlaced hIndex hi hp

theorem closeness_of_ne (hNe : i ≠ index) : closeness key p = min i index := by
  obtain ⟨-, -, hPeer⟩ := distance_eq_some.mp (hPlaced i hi p hp)
  obtain ⟨-, -, hKey⟩ := distance_eq_some.mp hIndex
  rcases Nat.lt_or_gt_of_ne hNe with hLt | hGt
  · rw [closeness, commonPrefix_comm, commonPrefix_of_lt (by rw [hPeer, hKey]; exact hLt), hPeer]
    omega
  · rw [closeness, commonPrefix_of_lt (by rw [hPeer, hKey]; exact hGt), hKey]
    omega

theorem le_closeness : min i index ≤ closeness key p := by
  by_cases hNe : i = index
  · obtain ⟨hLocal, hWidth, hPeer⟩ := distance_eq_some.mp (hPlaced i hi p hp)
    obtain ⟨-, hKeyWidth, hKey⟩ := distance_eq_some.mp hIndex
    have hLonger := lt_commonPrefix (hKey.trans (hNe.symm.trans hPeer.symm)) (by rw [length_bits]; omega)
      (by rw [length_bits]; omega) (by rw [length_bits]; omega)
    rw [closeness]
    omega
  · exact (closeness_of_ne hPlaced hIndex hi hp hNe).ge

theorem key_ne (hNe : i ≠ index) : p.key ≠ key := by
  rintro rfl
  exact hNe (Option.some.inj ((hPlaced i hi p hp).symm.trans hIndex))

end

variable (t) in
def groups (key : Bytes) (index : Nat) : List (List (PeerNode E)) :=
  (scan index (8 * t.width)).map fun i => (t.peersOf i).filter (·.key ≠ key)

variable (t) in
def isCloser (key : Bytes) (a b : PeerNode E) : Prop := (t.distance key b.key).getD 0 ≤ (t.distance key a.key).getD 0

instance (key : Bytes) : DecidableRel (t.isCloser key) := fun _ _ => inferInstanceAs (Decidable (_ ≤ _))

instance (key : Bytes) : Std.Total (t.isCloser key) := ⟨fun _ _ => Nat.le_total _ _⟩

instance (key : Bytes) : IsTrans (PeerNode E) (t.isCloser key) := ⟨fun _ _ _ hab hbc => Nat.le_trans hbc hab⟩

theorem index_le {key : Bytes} {index : Nat} (hIndex : t.distance t.localKey key = some index) : index ≤ 8 * t.width := by
  obtain ⟨hLocal, -, rfl⟩ := distance_eq_some.mp hIndex
  rw [← hLocal, ← length_bits]
  exact commonPrefix_le _ _

theorem lookup_eq (hPlaced : t.Placed) {key : Bytes} {index : Nat} (hIndex : t.distance t.localKey key = some index) :
    t.lookup key = ((gather t.k [] (t.groups key index)).insertionSort (t.isCloser key)).take t.k := by
  have hDown : (List.range index).reverse.map t.peersOf =
      (List.range index).reverse.map fun i => (t.peersOf i).filter (·.key ≠ key) := by
    refine List.map_congr_left fun i hi => (List.filter_eq_self.mpr fun p hp => ?_).symm
    have hLt := List.mem_range.mp (List.mem_reverse.mp hi)
    exact decide_eq_true (key_ne hPlaced hIndex (hLt.trans_le (index_le hIndex)) hp hLt.ne)
  simp only [lookup, hIndex]
  rw [hDown, gather_append, ← List.map_append]
  rfl

theorem flatten_groups_perm {key : Bytes} {index : Nat} (hIndex : t.distance t.localKey key = some index) :
    (t.groups key index).flatten.Perm (t.known.filter (·.key ≠ key)) := by
  rw [groups, ← List.flatMap_def, known, List.filter_flatMap]
  exact (perm_scan (index_le hIndex)).flatMap_right _

theorem groups_descend (hPlaced : t.Placed) {key : Bytes} {index : Nat} (hIndex : t.distance t.localKey key = some index) :
    (t.groups key index).Pairwise fun g g' => ∀ p ∈ g, ∀ q ∈ g', closeness key q ≤ closeness key p := by
  have hBound : ∀ {i}, i ∈ scan index (8 * t.width) → i < 8 * t.width := fun hi =>
    List.mem_range.mp ((perm_scan (index_le hIndex)).subset hi)
  refine List.pairwise_map.mpr ((pairwise_scan index (8 * t.width)).imp_of_mem fun hi hj hij p hp q hq => ?_)
  rw [closeness_of_ne hPlaced hIndex (hBound hj) (List.mem_of_mem_filter hq) hij.1]
  exact hij.2.trans (le_closeness hPlaced hIndex (hBound hi) (List.mem_of_mem_filter hp))

theorem isCloser_iff (hPlaced : t.Placed) {key : Bytes} (hWidth : key.length = t.width) {a b : PeerNode E}
    (ha : a ∈ t.known) (hb : b ∈ t.known) : t.isCloser key a b ↔ closeness key b ≤ closeness key a := by
  have hDistance : ∀ {p}, p ∈ t.known → t.distance key p.key = some (closeness key p) := by
    intro p hp
    obtain ⟨i, hi, hp⟩ := List.mem_flatMap.mp hp
    obtain ⟨-, hPeer, -⟩ := distance_eq_some.mp (hPlaced i (List.mem_range.mp hi) p hp)
    exact distance_eq_some.mpr ⟨hWidth, hPeer, rfl⟩
  rw [isCloser, hDistance ha, hDistance hb]
  rfl

/-- A lookup finds the closest peers. -/
theorem lookup_closest (hPlaced : t.Placed) (hDistinct : (t.known.map (·.key)).Nodup) {key : Bytes}
    (hWidth : key.length = t.width) :
    (t.lookup key).length = min t.k (t.known.filter (·.key ≠ key)).length ∧
    ((t.lookup key).map (·.key)).Nodup ∧
    (∀ p ∈ t.lookup key, p ∈ t.known ∧ p.key ≠ key) ∧
    (t.lookup key).Pairwise (fun p q => closeness key q ≤ closeness key p) ∧
    ∀ p ∈ t.known, p.key ≠ key → p ∉ t.lookup key → ∀ q ∈ t.lookup key, closeness key p ≤ closeness key q := by
  obtain ⟨index, hIndex⟩ : ∃ index, t.distance t.localKey key = some index :=
    ⟨_, distance_eq_some.mpr ⟨rfl, hWidth, rfl⟩⟩
  obtain ⟨read, rest, hGroups, hGather, hEnough⟩ := gather_eq t.k [] (t.groups key index)
  have hPerm := flatten_groups_perm hIndex
  rw [hGroups, List.flatten_append] at hPerm
  have hCross := (List.pairwise_append.mp (hGroups ▸ groups_descend hPlaced hIndex)).2.2
  rw [List.nil_append] at hGather hEnough
  rw [lookup_eq hPlaced hIndex, hGather]
  have hSort := List.perm_insertionSort (t.isCloser key) read.flatten
  have hOther : ∀ p ∈ read.flatten, p ∈ t.known ∧ p.key ≠ key := by
    intro p hp
    simpa using List.mem_filter.mp (hPerm.subset (List.mem_append_left _ hp))
  have hSorted : (read.flatten.insertionSort (t.isCloser key)).Pairwise fun p q => closeness key q ≤ closeness key p := by
    refine (List.pairwise_insertionSort (t.isCloser key) read.flatten).imp_of_mem fun hp hq hpq => ?_
    exact (isCloser_iff hPlaced hWidth (hOther _ (hSort.subset hp)).1 (hOther _ (hSort.subset hq)).1).mp hpq
  have hTaken := List.take_sublist t.k (read.flatten.insertionSort (t.isCloser key))
  refine ⟨?_, ?_, fun p hp => hOther p (hSort.subset (hTaken.subset hp)), hSorted.sublist hTaken, ?_⟩
  · rw [List.length_take, hSort.length_eq, ← hPerm.length_eq, List.length_append]
    rcases hEnough with rfl | hEnough
    · rfl
    · omega
  · have hRead : (read.flatten.map (·.key)).Nodup := by
      refine List.Nodup.sublist ?_ ((hPerm.map (·.key)).nodup_iff.mpr (hDistinct.sublist (List.filter_sublist.map _)))
      rw [List.map_append]
      exact List.sublist_append_left _ _
    exact ((hSort.map (·.key)).nodup_iff.mpr hRead).sublist (hTaken.map _)
  · intro p hp hKey hOut q hq
    have hIn := hPerm.symm.subset (List.mem_filter.mpr ⟨hp, decide_eq_true hKey⟩)
    rcases List.mem_append.mp hIn with hRead | hRest
    · -- read but cut off by the limit
      have hSplit := hSorted
      rw [← List.take_append_drop t.k (read.flatten.insertionSort (t.isCloser key))] at hSplit
      have hMem := hSort.symm.subset hRead
      rw [← List.take_append_drop t.k (read.flatten.insertionSort (t.isCloser key))] at hMem
      exact (List.pairwise_append.mp hSplit).2.2 q hq p ((List.mem_append.mp hMem).resolve_left hOut)
    · obtain ⟨g, hg, hpg⟩ := List.mem_flatten.mp hRest
      obtain ⟨g', hg', hqg⟩ := List.mem_flatten.mp (hSort.subset (hTaken.subset hq))
      exact hCross g' hg' g hg q hqg p hpg

def pairTable : PeerTable Unit where
  localKey := [0]
  k := 1
  table i := if i = 0 then [.new ⟨[128], ()⟩] else if i = 7 then [.new ⟨[1], ()⟩] else []

theorem lookup_closest_pairTable : pairTable.lookup [129] = [⟨[128], ()⟩] ∧
    ∀ p ∈ pairTable.known, p.key ≠ [129] → p ∉ pairTable.lookup [129] → ∀ q ∈ pairTable.lookup [129],
      closeness [129] p ≤ closeness [129] q := by
  have hPlaced : pairTable.Placed := by
    unfold Placed
    decide
  exact ⟨by decide, (lookup_closest hPlaced (by decide) (rfl : ([129] : Bytes).length = 1)).2.2.2.2⟩

end PeerTable

section

variable (k : Nat) (peer : PeerNode E)

def pickOldPeer : List (PeerTableEntry E) → List (PeerTableEntry E) × Option (PeerTableEntry E)
  | [] => ([], none)
  | e :: entries =>
    if e.pinging then (e :: (pickOldPeer entries).1, (pickOldPeer entries).2)
    else ({ e with pinging := true } :: entries, some { e with pinging := true })

def removeKey (key : Bytes) (entries : List (PeerTableEntry E)) : List (PeerTableEntry E) := entries.eraseP (·.key = key)

def addUpdateOrPickOldPeer (entries : List (PeerTableEntry E)) : List (PeerTableEntry E) × Option (PeerTableEntry E) :=
  if peer.key ∈ entries.map (·.key) then (removeKey peer.key entries ++ [.new peer], none)
  else if entries.length < k then (entries ++ [.new peer], none)
  else pickOldPeer entries

/-- What `ping_and_update` does once the ping has come back. -/
def updatePinged (oldEntry : PeerTableEntry E) (pingSuccessful : Bool) (entries : List (PeerTableEntry E)) :
    List (PeerTableEntry E) :=
  removeKey oldEntry.key entries ++ [if pingSuccessful then { oldEntry with pinging := false } else .new peer]

end

namespace PeerTable

variable (t : PeerTable E)

def bucketOf (key : Bytes) : Option Nat := (t.distance t.localKey key).filter (· < 8 * t.width)

def setBucket (i : Nat) (entries : List (PeerTableEntry E)) : PeerTable E :=
  { t with table := Function.update t.table i entries }

structure GoodBucket (i : Nat) (keys : List Bytes) : Prop where
  length_le : keys.length ≤ t.k
  nodup : keys.Nodup
  placed : ∀ key ∈ keys, t.bucketOf key = some i

def GoodBuckets : Prop := ∀ i, t.GoodBucket i ((t.table i).map (·.key))

end PeerTable

/-- A call of `update_last_seen` that waits for its ping. -/
structure PingCall (E : Type) where
  index : Nat
  newPeer : PeerNode E
  oldEntry : PeerTableEntry E

structure Routing (E : Type) extends PeerTable E where
  pings : List (PingCall E)

inductive RoutingStep (E : Type) where
  | updateLastSeen (peer : PeerNode E)
  | pingReturns (call : Nat) (pingSuccessful : Bool)
  | remove (key : Bytes)

namespace Routing

def new (localKey : Bytes) (k : Nat) : Routing E := ⟨⟨localKey, k, fun _ => []⟩, []⟩

variable (s : Routing E)

def step : RoutingStep E → Routing E
  | .updateLastSeen peer =>
    match s.bucketOf peer.key with
    | none => s
    | some i =>
      let picked := addUpdateOrPickOldPeer s.k peer (s.table i)
      ⟨s.setBucket i picked.1, s.pings ++ (picked.2.map fun oldEntry => ⟨i, peer, oldEntry⟩).toList⟩
  | .pingReturns call pingSuccessful =>
    match s.pings[call]? with
    | none => s
    | some ⟨i, newPeer, oldEntry⟩ =>
      ⟨s.setBucket i (updatePinged newPeer oldEntry pingSuccessful (s.table i)), s.pings.eraseIdx call⟩
  | .remove key =>
    match s.bucketOf key with
    | none => s
    | some i => { s with toPeerTable := s.setBucket i (removeKey key (s.table i)) }

def run (steps : List (RoutingStep E)) : Routing E := steps.foldl step s

/-- When a ping comes back, the old peer is still there or there is room, and the peer that is to take its place has not
come in on another call. -/
def Unchanged : RoutingStep E → Prop
  | .pingReturns call pingSuccessful => ∀ i newPeer oldEntry, s.pings[call]? = some ⟨i, newPeer, oldEntry⟩ →
    (oldEntry.key ∈ (s.table i).map (·.key) ∨ (s.table i).length < s.k) ∧
      (pingSuccessful = false → newPeer.key ∉ (s.table i).map (·.key))
  | _ => True

def UnchangedRun : Routing E → List (RoutingStep E) → Prop
  | _, [] => True
  | s, step :: steps => s.Unchanged step ∧ UnchangedRun (s.step step) steps

end Routing

theorem keys_removeKey (key : Bytes) (entries : List (PeerTableEntry E)) :
    (removeKey key entries).map (·.key) = (entries.map (·.key)).erase key := by
  rw [removeKey, List.erase_eq_eraseP, List.eraseP_map]
  congr 2
  funext e
  exact (Bool.beq_comm.trans (beq_eq_decide _ _)).symm

theorem keys_pickOldPeer (entries : List (PeerTableEntry E)) :
    (pickOldPeer entries).1.map (·.key) = entries.map (·.key) := by
  fun_induction pickOldPeer entries with
  | case1 => rfl
  | case2 e entries h ih => rw [List.map_cons, ih, List.map_cons]
  | case3 e entries h => rfl

theorem key_mem_of_pickOldPeer {entries : List (PeerTableEntry E)} {old : PeerTableEntry E}
    (h : (pickOldPeer entries).2 = some old) : old.key ∈ entries.map (·.key) := by
  fun_induction pickOldPeer entries with
  | case1 => cases h
  | case2 e entries hPinging ih => exact List.mem_cons_of_mem _ (ih h)
  | case3 e entries hPinging => obtain rfl := Option.some.inj h; exact List.mem_cons_self

namespace PeerTable

variable {t : PeerTable E}

variable {keys : List Bytes}

theorem GoodBucket.erase {i : Nat} (h : t.GoodBucket i keys) (key : Bytes) :
    t.GoodBucket i (keys.erase key) where
  length_le := List.erase_sublist.length_le.trans h.length_le
  nodup := h.nodup.sublist List.erase_sublist
  placed other hMem := h.placed other (List.mem_of_mem_erase hMem)

theorem GoodBucket.push {i : Nat} (h : t.GoodBucket i keys) {key : Bytes} (hNew : key ∉ keys)
    (hRoom : keys.length < t.k) (hPlaced : t.bucketOf key = some i) : t.GoodBucket i (keys ++ [key]) where
  length_le := by
    rw [List.length_append]
    exact hRoom
  nodup := List.nodup_append.mpr ⟨h.nodup, List.nodup_singleton key, fun a ha b hb => by
    rw [List.mem_singleton.mp hb]
    exact fun hSame => hNew (hSame ▸ ha)⟩
  placed other hMem := by
    rcases List.mem_append.mp hMem with hMem | hMem
    · exact h.placed other hMem
    · rwa [List.mem_singleton.mp hMem]

theorem GoodBucket.replace {i : Nat} (h : t.GoodBucket i keys) {old key : Bytes}
    (hRoom : old ∈ keys ∨ keys.length < t.k) (hNew : key = old ∨ key ∉ keys) (hPlaced : t.bucketOf key = some i) :
    t.GoodBucket i (keys.erase old ++ [key]) := by
  refine (h.erase old).push ?_ ?_ hPlaced
  · rcases hNew with rfl | hNew
    · exact h.nodup.not_mem_erase
    · exact fun hMem => hNew (List.mem_of_mem_erase hMem)
  · have hLength := h.length_le
    rcases hRoom with hMem | hRoom
    · have hPos := List.length_pos_of_mem hMem
      rw [List.length_erase_of_mem hMem]
      omega
    · exact List.erase_sublist.length_le.trans_lt hRoom

theorem GoodBuckets.setBucket (h : t.GoodBuckets) {i : Nat} {entries : List (PeerTableEntry E)}
    (hEntries : t.GoodBucket i (entries.map (·.key))) : (t.setBucket i entries).GoodBuckets := by
  intro j
  have hSame : t.GoodBucket j ((Function.update t.table i entries j).map (·.key)) := by
    rcases eq_or_ne j i with rfl | hNe
    · rwa [Function.update_self]
    · rw [Function.update_of_ne hNe]
      exact h j
  exact ⟨hSame.length_le, hSame.nodup, hSame.placed⟩

theorem good_addUpdateOrPickOldPeer (h : t.GoodBuckets) {peer : PeerNode E} {i : Nat}
    (hBucket : t.bucketOf peer.key = some i) :
    t.GoodBucket i ((addUpdateOrPickOldPeer t.k peer (t.table i)).1.map (·.key)) ∧
      ∀ old, (addUpdateOrPickOldPeer t.k peer (t.table i)).2 = some old → old.key ∈ (t.table i).map (·.key) := by
  rw [addUpdateOrPickOldPeer]
  split_ifs with hThere hRoom
  · rw [List.map_append, keys_removeKey]
    exact ⟨(h i).replace (.inl hThere) (.inl rfl) hBucket, fun _ hOld => by cases hOld⟩
  · rw [List.map_append]
    exact ⟨(h i).push hThere (by rwa [List.length_map]) hBucket, fun _ hOld => by cases hOld⟩
  · rw [keys_pickOldPeer]
    exact ⟨h i, fun _ hOld => key_mem_of_pickOldPeer hOld⟩

end PeerTable

namespace Routing

variable {s : Routing E}

/-- The buckets are good, and a call in flight is about the bucket of both of its peers. -/
structure Inv (s : Routing E) : Prop where
  buckets : s.GoodBuckets
  pings : ∀ call ∈ s.pings, s.bucketOf call.newPeer.key = some call.index ∧
    s.bucketOf call.oldEntry.key = some call.index

theorem Inv.step (h : s.Inv) {step : RoutingStep E} (hUnchanged : s.Unchanged step) : (s.step step).Inv := by
  cases step with
  | updateLastSeen peer =>
    simp only [Routing.step]
    cases hBucket : s.bucketOf peer.key with
    | none => exact h
    | some i =>
      obtain ⟨hGood, hOld⟩ := PeerTable.good_addUpdateOrPickOldPeer h.buckets hBucket
      refine ⟨PeerTable.GoodBuckets.setBucket h.buckets hGood, fun call hCall => ?_⟩
      rcases List.mem_append.mp hCall with hCall | hCall
      · exact h.pings call hCall
      · obtain ⟨old, hSome, rfl⟩ := Option.map_eq_some_iff.mp (Option.mem_toList.mp hCall)
        exact ⟨hBucket, (h.buckets i).placed _ (hOld old hSome)⟩
  | pingReturns call pingSuccessful =>
    simp only [Routing.step]
    cases hCall : s.pings[call]? with
    | none => exact h
    | some ping =>
      obtain ⟨i, newPeer, oldEntry⟩ := ping
      obtain ⟨hRoom, hNew⟩ := hUnchanged i newPeer oldEntry hCall
      obtain ⟨hNewBucket, hOldBucket⟩ := h.pings _ (List.mem_of_getElem? hCall)
      refine ⟨PeerTable.GoodBuckets.setBucket h.buckets ?_, fun call hCall => h.pings call (List.mem_of_mem_eraseIdx hCall)⟩
      rw [updatePinged, List.map_append, keys_removeKey]
      rw [← List.length_map] at hRoom
      cases pingSuccessful with
      | true => exact (h.buckets i).replace hRoom (.inl rfl) hOldBucket
      | false => exact (h.buckets i).replace hRoom (.inr (hNew rfl)) hNewBucket
  | remove key =>
    simp only [Routing.step]
    cases s.bucketOf key with
    | none => exact h
    | some i =>
      refine ⟨PeerTable.GoodBuckets.setBucket h.buckets ?_, h.pings⟩
      rw [keys_removeKey]
      exact (h.buckets i).erase key

theorem Inv.run (h : s.Inv) {steps : List (RoutingStep E)} (hRun : UnchangedRun s steps) : (s.run steps).Inv := by
  induction steps generalizing s with
  | nil => exact h
  | cons step steps ih => exact ih (h.step hRun.1) hRun.2

/-- No bucket is overfull, holds a key twice or holds a stray one, as long as no call relies on what has changed. -/
theorem goodBuckets_run (localKey : Bytes) (k : Nat) {steps : List (RoutingStep E)}
    (hRun : UnchangedRun (new localKey k) steps) : ((new localKey k).run steps).GoodBuckets := by
  have hNew : (new localKey k : Routing E).Inv :=
    ⟨fun _ => ⟨Nat.zero_le _, List.nodup_nil, fun _ hMem => absurd hMem List.not_mem_nil⟩,
      fun _ hCall => absurd hCall List.not_mem_nil⟩
  exact (hNew.run hRun).buckets

def waiting : List (RoutingStep Unit) := [.updateLastSeen ⟨[128], ()⟩, .updateLastSeen ⟨[129], ()⟩]

theorem goodBuckets_waiting : ((new [0] 1).run (waiting ++ [.pingReturns 0 false])).GoodBuckets := by
  refine goodBuckets_run [0] 1 ⟨trivial, trivial, fun i newPeer oldEntry hCall => ?_, trivial⟩
  cases hCall
  exact ⟨by decide, by decide⟩

/-- A third peer comes in after the first one was removed. -/
theorem not_goodBuckets_overtaken : ¬ ((new [0] 1).run
    (waiting ++ [.remove [128], .updateLastSeen ⟨[130], ()⟩, .pingReturns 0 false])).GoodBuckets := by
  intro h
  exact absurd (h 0).length_le (by decide)

end Routing

end F1r3Node.Discovery
