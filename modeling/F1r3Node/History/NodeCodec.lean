import F1r3Node.History.RadixNode
import Mathlib.Data.List.TakeDrop

/-! # The node codec at the level of offsets

`encode` and `try_decode` work on positions kept by hand. An index out of range is a panic, so each access is checked
and its failure is an outcome of its own.
-/

namespace F1r3Node.History.Codec

open Shared

inductive Panic where
  | assertion (message : String)
  | indexOutOfBounds (index length : Nat)
  -- not of the source: the bound on the rounds of the decoder's loop is used up
  | outOfRounds
  deriving DecidableEq

def readAt (bv : Bytes) (pos : Nat) : Except Panic UInt8 :=
  match bv[pos]? with
  | some b => .ok b
  | none => .error (.indexOutOfBounds pos bv.length)

def writeAt (arr : Bytes) (pos : Nat) (b : UInt8) : Except Panic Bytes :=
  if pos < arr.length then .ok (arr.set pos b) else .error (.indexOutOfBounds pos arr.length)

def headSize : Nat := 2

/-- One step of the size computation: the assertions on an item and the bytes it takes. -/
def addSize (size : Nat) : Item → Except Panic Nat
  | .emptyItem => .ok size
  | .leaf pre value =>
    if 127 < pre.length then
      .error (.assertion "Error during serialization: size of prefix more than 127.")
    else if value.length ≠ defSize then
      .error (.assertion "Error during serialization: size of leafValue not equal 32.")
    else .ok (size + headSize + pre.length + defSize)
  | .nodePtr pre ptr =>
    if 127 < pre.length then
      .error (.assertion "Error during serialization: size of prefix more than 127.")
    else if ptr.length ≠ defSize then
      .error (.assertion "Error during serialization: size of ptrPrefix not equal 32.")
    else .ok (size + headSize + pre.length + defSize)

def calcSize (node : Node) : Except Panic Nat :=
  allBytes.foldlM (fun size i => addSize size (node i)) 0

/-- `for i in 0..count { arr[start + i] = source[i]; }` -/
def copyBytes (source : Bytes) (count start : Nat) (arr : Bytes) : Except Panic Bytes :=
  (List.range count).foldlM (fun arr i => do writeAt arr (start + i) (← readAt source i)) arr

/-- What both kinds of item write: the head, the prefix and 32 bytes; with the next position. -/
def putFields (idxItem pos0 : Nat) (secondByte : UInt8) (pre payload arr : Bytes) :
    Except Panic (Nat × Bytes) := do
  let arr ← writeAt arr pos0 (UInt8.ofNat idxItem)
  let posSecondByte := pos0 + 1
  let arr ← writeAt arr posSecondByte secondByte
  let posPrefixStart := posSecondByte + 1
  let arr ← copyBytes pre pre.length posPrefixStart arr
  let posValueStart := posPrefixStart + pre.length
  let arr ← copyBytes payload defSize posValueStart arr
  return (posValueStart + defSize, arr)

def putItem (idxItem pos0 : Nat) (arr : Bytes) : Item → Except Panic (Nat × Bytes)
  | .emptyItem => .ok (pos0, arr)
  | .leaf pre value => putFields idxItem pos0 (encodeLeafSecondByte pre.length) pre value arr
  | .nodePtr pre ptr => putFields idxItem pos0 (encodeNodePtrSecondByte pre.length) pre ptr arr

/-- The recursion ends at the computed size, or panics at the index after the last item. -/
def putItemIntoArray (node : Node) (calcSize idxItem pos0 : Nat) (arr : Bytes) : Except Panic Bytes :=
  if pos0 = calcSize then .ok arr
  else if idxItem < 256 then do
    let (pos, arr) ← putItem idxItem pos0 arr (node (UInt8.ofNat idxItem))
    putItemIntoArray node calcSize (idxItem + 1) pos arr
  else .error (.indexOutOfBounds idxItem 256)
  termination_by 256 - idxItem

def encode (node : Node) : Except Panic Bytes := do
  let size ← calcSize node
  putItemIntoArray node size 0 0 (List.replicate size 0)

/-- `bv.get(start..stop)` -/
def slice (bv : Bytes) (start stop : Nat) : Option Bytes :=
  if start ≤ stop ∧ stop ≤ bv.length then some ((bv.drop start).take (stop - start)) else none

/-- One item of the decoder: its index, the item and the next position, or the error returned. -/
def decodeItem (bv : Bytes) (pos0 : Nat) (node : Node) :
    Except Panic (Except RadixTreeError (UInt8 × Item × Nat)) := do
  let maxSize := bv.length
  let idxItem ← readAt bv pos0
  if node idxItem ≠ .emptyItem then return .error (malformed maxSize "wrong index of item")
  let pos1 := pos0 + 1
  match bv[pos1]? with
  | none => return .error (malformed maxSize "truncated item header")
  | some secondByte =>
    let prefixSize := (secondByte &&& 0x7F).toNat
    let posPrefixStart := pos1 + 1
    let posValOrPtrStart := posPrefixStart + prefixSize
    match slice bv posPrefixStart posValOrPtrStart with
    | none => return .error (malformed maxSize "truncated item prefix")
    | some pre =>
      match slice bv posValOrPtrStart (posValOrPtrStart + defSize) with
      | none => return .error (malformed maxSize "truncated item value")
      | some valOrPtr =>
        let item := if isLeaf secondByte then .leaf pre valOrPtr else .nodePtr pre valOrPtr
        return .ok (idxItem, item, posValOrPtrStart + defSize)

/-- The loop of `try_decode`: every round moves on, so `bv.length` rounds are enough. -/
def decodeFrom (bv : Bytes) : Nat → Nat → Node → Except Panic (Except RadixTreeError Node)
  | 0, pos0, node => if pos0 < bv.length then .error .outOfRounds else .ok (.ok node)
  | fuel + 1, pos0, node =>
    if pos0 < bv.length then
      match decodeItem bv pos0 node with
      | .error panic => .error panic
      | .ok (.error e) => .ok (.error e)
      | .ok (.ok (idxItem, item, pos)) => decodeFrom bv fuel pos (Function.update node idxItem item)
    else .ok (.ok node)

def tryDecode (bv : Bytes) : Except Panic (Except RadixTreeError Node) :=
  decodeFrom bv bv.length 0 emptyNode

variable {bv : Bytes}

theorem readAt_of_lt {pos : Nat} (h : pos < bv.length) : readAt bv pos = .ok bv[pos] := by
  rw [readAt, List.getElem?_eq_getElem h]

variable {start : Nat}

theorem slice_eq_none {count : Nat} (h : bv.length < start + count) :
    slice bv start (start + count) = none := by
  rw [slice, if_neg (by omega)]

theorem slice_eq_some {count : Nat} (h : start + count ≤ bv.length) :
    slice bv start (start + count) = some ((bv.drop start).take count) := by
  rw [slice, if_pos (by omega), Nat.add_sub_cancel_left]

/-- What `decode_item` and one round of the list decoder have in common: the item read at a
position, with the bytes left after it. -/
def itemOf (maxSize : Nat) (node : Node) : Bytes → Except RadixTreeError (UInt8 × Item × Nat)
  | [] => .error (malformed maxSize "truncated item header")
  | [idxItem] =>
    if node idxItem ≠ .emptyItem then .error (malformed maxSize "wrong index of item")
    else .error (malformed maxSize "truncated item header")
  | idxItem :: secondByte :: rest =>
    let prefixSize := (secondByte &&& 0x7F).toNat
    if node idxItem ≠ .emptyItem then .error (malformed maxSize "wrong index of item")
    else if rest.length < prefixSize then .error (malformed maxSize "truncated item prefix")
    else if rest.length < prefixSize + defSize then .error (malformed maxSize "truncated item value")
    else
      let pre := rest.take prefixSize
      let valOrPtr := (rest.drop prefixSize).take defSize
      .ok (idxItem, if isLeaf secondByte then .leaf pre valOrPtr else .nodePtr pre valOrPtr,
        prefixSize + defSize + 2)

variable {bytes : Bytes}

theorem decodeItems_eq_itemOf (maxSize fuel : Nat) (node : Node) (h : bytes ≠ []) :
    decodeItems maxSize (fuel + 1) bytes node =
      match itemOf maxSize node bytes with
      | .error e => .error e
      | .ok (idxItem, item, size) =>
        decodeItems maxSize fuel (bytes.drop size) (Function.update node idxItem item) := by
  match bytes, h with
  | [idxItem], _ =>
    by_cases hFree : node idxItem = .emptyItem
    · simp [decodeItems, itemOf, hFree]
    · simp [decodeItems, itemOf, hFree]
  | idxItem :: secondByte :: rest, _ =>
    simp only [decodeItems, itemOf]
    split
    · rfl
    · split
      · rfl
      · split
        · rfl
        · rfl

variable {pos0 : Nat}

theorem decodeItem_eq_itemOf (hPos : pos0 < bv.length) (node : Node) :
    decodeItem bv pos0 node = .ok ((itemOf bv.length node (bv.drop pos0)).map
      fun (idxItem, item, size) => (idxItem, item, pos0 + size)) := by
  rw [List.drop_eq_getElem_cons hPos, decodeItem, readAt_of_lt hPos]
  simp only [bind, Except.bind]
  by_cases hHead : pos0 + 1 < bv.length
  · rw [List.drop_eq_getElem_cons hHead, List.getElem?_eq_getElem hHead, itemOf, List.length_drop]
    dsimp only
    generalize (bv[pos0 + 1] &&& 0x7F).toNat = prefixSize
    by_cases hFree : node bv[pos0] = .emptyItem
    · simp only [hFree, ne_eq, not_true_eq_false, if_false]
      by_cases hPrefix : bv.length - (pos0 + 1 + 1) < prefixSize
      · rw [slice_eq_none (by omega), if_pos hPrefix]
        rfl
      · rw [slice_eq_some (by omega), if_neg hPrefix]
        by_cases hValue : bv.length - (pos0 + 1 + 1) < prefixSize + defSize
        · simp only [slice_eq_none (show bv.length < pos0 + 1 + 1 + prefixSize + defSize by omega), if_pos hValue]
          rfl
        · simp only [slice_eq_some (show pos0 + 1 + 1 + prefixSize + defSize ≤ bv.length by omega), if_neg hValue]
          rw [List.drop_drop]
          simp only [Except.map, pure, Except.pure]
          congr 4
          omega
    · simp only [hFree, ne_eq, not_false_eq_true, if_true]
      rfl
  · rw [List.getElem?_eq_none (by omega), List.drop_eq_nil_of_le (show bv.length ≤ pos0 + 1 by omega), itemOf]
    split
    · rfl
    · rfl

variable {node : Node} {i : UInt8} {item : Item}

theorem size_pos_of_itemOf {maxSize : Nat} {size : Nat}
    (h : itemOf maxSize node bytes = .ok (i, item, size)) : 0 < size := by
  match bytes with
  | [] => cases h
  | [_] =>
    simp only [itemOf] at h
    split at h <;> cases h
  | idxItem :: secondByte :: rest =>
    simp only [itemOf] at h
    split_ifs at h <;> cases h <;> omega

theorem decodeFrom_eq_decodeItems (bv : Bytes) (fuel pos0 : Nat) (node : Node) (hFuel : bv.length - pos0 ≤ fuel) :
    decodeFrom bv fuel pos0 node = .ok (decodeItems bv.length fuel (bv.drop pos0) node) := by
  induction fuel generalizing pos0 node with
  | zero =>
    rw [decodeFrom, if_neg (by omega), List.drop_eq_nil_of_le (by omega), decodeItems]
  | succ fuel ih =>
    rw [decodeFrom]
    split
    · next hPos =>
      have hNe : bv.drop pos0 ≠ [] := by
        rw [List.drop_eq_getElem_cons hPos]
        exact List.cons_ne_nil _ _
      rw [decodeItem_eq_itemOf hPos, decodeItems_eq_itemOf _ _ _ hNe]
      cases hItem : itemOf bv.length node (bv.drop pos0) with
      | error e => rfl
      | ok read =>
        obtain ⟨idxItem, item, size⟩ := read
        have hSize := size_pos_of_itemOf hItem
        simp only [Except.map]
        rw [ih (pos0 + size) _ (by omega), List.drop_drop]
    · next hPos => rw [List.drop_eq_nil_of_le (by omega), decodeItems]

theorem tryDecode_eq (bv : Bytes) : tryDecode bv = .ok (History.tryDecode bv) := by
  rw [tryDecode, decodeFrom_eq_decodeItems bv bv.length 0 emptyNode (by omega), List.drop_zero, History.tryDecode]

variable {done rest : Bytes}

theorem writeAt_append {b c : UInt8} {pos : Nat} (hPos : pos = done.length) :
    writeAt (done ++ c :: rest) pos b = .ok (done ++ b :: rest) := by
  subst hPos
  rw [writeAt, if_pos (by simp), List.set_append_right _ _ (le_refl _), Nat.sub_self, List.set_cons_zero]

variable {old : Bytes}

theorem copyBytes_append {source : Bytes} (hStart : start = done.length) (hOld : old.length = source.length) :
    copyBytes source source.length start (done ++ old ++ rest) = .ok (done ++ source ++ rest) := by
  -- the first `n` bytes are copied, the old ones still stand after them
  have hLoop : ∀ n ≤ source.length, (List.range n).foldlM
      (fun arr i => do writeAt arr (start + i) (← readAt source i)) (done ++ old ++ rest) =
        (.ok (done ++ source.take n ++ old.drop n ++ rest) : Except Panic Bytes) := by
    intro n
    induction n with
    | zero => intro _; simp [pure, Except.pure]
    | succ n ih =>
      intro hn
      rw [List.range_succ, List.foldlM_append, ih (by omega)]
      have hDrop : old.drop n = old[n] :: old.drop (n + 1) := List.drop_eq_getElem_cons (by omega)
      have hTake : source.take (n + 1) = source.take n ++ [source[n]] := (List.take_append_getElem (by omega)).symm
      have hRead : readAt source n = .ok source[n] := readAt_of_lt (by omega)
      have hLength : start + n = (done ++ source.take n).length := by
        rw [List.length_append, List.length_take, hStart]
        omega
      simp only [bind, Except.bind, List.foldlM_cons, List.foldlM_nil, hRead]
      rw [hDrop, List.append_assoc, List.cons_append, writeAt_append hLength, hTake]
      simp only [List.append_assoc, List.cons_append, List.nil_append, pure, Except.pure]
  have h := hLoop source.length le_rfl
  rwa [List.take_length, ← hOld, List.drop_length, List.append_nil, hOld] at h

theorem putFields_append {idxItem : Nat} {secondByte : UInt8} {pre payload : Bytes}
    (hPos : pos0 = done.length) (hPayload : payload.length = defSize)
    (hOld : old.length = headSize + pre.length + defSize) :
    putFields idxItem pos0 secondByte pre payload (done ++ old ++ rest) =
      .ok (pos0 + old.length, done ++ (UInt8.ofNat idxItem :: secondByte :: (pre ++ payload)) ++ rest) := by
  obtain ⟨oldHead, oldTail, rfl⟩ := List.exists_cons_of_length_pos (l := old) (by rw [hOld, headSize]; omega)
  obtain ⟨oldSecond, oldFields, rfl⟩ := List.exists_cons_of_length_pos (l := oldTail) (by
    rw [List.length_cons, headSize] at hOld
    omega)
  have hFields : oldFields.length = pre.length + defSize := by
    rw [List.length_cons, List.length_cons, headSize] at hOld
    omega
  obtain ⟨oldPre, oldPayload, rfl, hOldPre⟩ : ∃ a b : Bytes, oldFields = a ++ b ∧ a.length = pre.length :=
    ⟨_, _, (List.take_append_drop pre.length oldFields).symm, by rw [List.length_take]; omega⟩
  have hOldPayload : oldPayload.length = payload.length := by
    rw [List.length_append] at hFields
    omega
  have hHead : writeAt (done ++ (oldHead :: oldSecond :: (oldPre ++ oldPayload)) ++ rest) pos0 (UInt8.ofNat idxItem) =
      .ok (done ++ UInt8.ofNat idxItem :: (oldSecond :: (oldPre ++ oldPayload) ++ rest)) := by
    rw [List.append_assoc, List.cons_append, writeAt_append hPos]
  have hSecond := @writeAt_append (done ++ [UInt8.ofNat idxItem]) (oldPre ++ oldPayload ++ rest) secondByte oldSecond
    (pos0 + 1) (by simp [hPos])
  have hPre := @copyBytes_append (pos0 + 1 + 1) (done ++ [UInt8.ofNat idxItem, secondByte]) (oldPayload ++ rest) oldPre
    pre (by simp [hPos]) hOldPre
  have hValue := @copyBytes_append (pos0 + 1 + 1 + pre.length) (done ++ [UInt8.ofNat idxItem, secondByte] ++ pre) rest
    oldPayload payload (by simp [hPos]; omega) hOldPayload
  simp only [List.append_assoc, List.cons_append, List.nil_append, hPayload] at hHead hSecond hPre hValue
  simp only [putFields, bind, Except.bind, List.append_assoc, List.cons_append, hHead, hSecond, hPre, hValue,
    pure, Except.pure, List.length_cons, List.length_append, hOldPre, hOldPayload, hPayload]
  congr 2
  omega

theorem putItem_append (hItem : item.WellFormed) {i : Nat}
    (hPos : pos0 = done.length) (hOld : old.length = (item.bytes (UInt8.ofNat i)).length) :
    putItem i pos0 (done ++ old ++ rest) item =
      .ok (pos0 + old.length, done ++ item.bytes (UInt8.ofNat i) ++ rest) := by
  cases item with
  | emptyItem =>
    obtain rfl : old = [] := List.length_eq_zero_iff.mp hOld
    rfl
  | leaf pre value =>
    exact putFields_append hPos hItem.2 (by
      rw [hOld, Item.bytes, List.length_cons, List.length_cons, List.length_append, hItem.2, headSize, defSize]
      omega)
  | nodePtr pre ptr =>
    exact putFields_append hPos hItem.2 (by
      rw [hOld, Item.bytes, List.length_cons, List.length_cons, List.length_append, hItem.2, headSize, defSize]
      omega)

theorem addSize_of_wellFormed (hItem : item.WellFormed) (i : UInt8) (size : Nat) :
    addSize size item = .ok (size + (item.bytes i).length) := by
  cases item with
  | emptyItem => rfl
  | leaf pre payload | nodePtr pre payload =>
    obtain ⟨hPre, hSize⟩ := hItem
    rw [addSize, if_neg (by omega), if_neg (by rw [hSize, defSize]; decide), Item.bytes, List.length_cons,
      List.length_cons, List.length_append, hSize, headSize, defSize]
    congr 1
    omega

theorem calcSize_of_wellFormed (hNode : node.WellFormed) : calcSize node = .ok node.bytes.length := by
  have hFold : ∀ (l : List UInt8) (size : Nat), l.foldlM (fun size i => addSize size (node i)) size =
      (.ok (size + (l.flatMap fun i => (node i).bytes i).length) : Except Panic Nat) := by
    intro l
    induction l with
    | nil => intro size; rfl
    | cons i l ih =>
      intro size
      rw [List.foldlM_cons, addSize_of_wellFormed (hNode i) i]
      simp only [bind, Except.bind]
      rw [ih, List.flatMap_cons, List.length_append, Nat.add_assoc]
  rw [calcSize, hFold, Nat.zero_add, Node.bytes]

def bytesFrom (node : Node) (idxItem : Nat) : Bytes := (allBytes.drop idxItem).flatMap fun i => (node i).bytes i

theorem bytesFrom_eq_cons (node : Node) {i : Nat} (hi : i < 256) :
    bytesFrom node i = (node (UInt8.ofNat i)).bytes (UInt8.ofNat i) ++ bytesFrom node (i + 1) := by
  have hLength : i < allBytes.length := by
    rw [allBytes, List.length_map, List.length_finRange]
    exact hi
  have hGet : allBytes[i] = UInt8.ofNat i := by
    simp only [allBytes, List.getElem_map, List.getElem_finRange]
    apply UInt8.toNat_inj.mp
    simp [Nat.mod_eq_of_lt hi]
  rw [bytesFrom, List.drop_eq_getElem_cons hLength, List.flatMap_cons, hGet, bytesFrom]

theorem putItemIntoArray_append (hNode : node.WellFormed) (i : Nat) (hi : i ≤ 256)
    (hOld : old.length = (bytesFrom node i).length) :
    putItemIntoArray node (done.length + old.length) i done.length (done ++ old) = .ok (done ++ bytesFrom node i) := by
  induction hn : 256 - i generalizing i done old with
  | zero =>
    have hEnd : bytesFrom node i = [] := by
      rw [bytesFrom, List.drop_eq_nil_of_le, List.flatMap_nil]
      rw [allBytes, List.length_map, List.length_finRange]
      omega
    rw [hEnd, List.length_nil] at hOld
    rw [putItemIntoArray, if_pos (by omega), List.length_eq_zero_iff.mp hOld, hEnd]
  | succ n ih =>
    rw [bytesFrom_eq_cons node (by omega)] at hOld ⊢
    rw [putItemIntoArray]
    split
    · next hEnd =>
      have hNil : old.length = 0 := by omega
      rw [hNil] at hOld
      rw [List.length_eq_zero_iff.mp hNil, List.length_eq_zero_iff.mp hOld.symm]
    · next hEnd =>
      rw [List.length_append] at hOld
      obtain ⟨here, later, rfl, hHere⟩ : ∃ a b : Bytes, old = a ++ b ∧
          a.length = ((node (UInt8.ofNat i)).bytes (UInt8.ofNat i)).length :=
        ⟨_, _, (List.take_append_drop ((node (UInt8.ofNat i)).bytes (UInt8.ofNat i)).length old).symm, by
          rw [List.length_take]
          omega⟩
      rw [List.length_append] at hOld
      rw [if_pos (by omega), ← List.append_assoc, putItem_append (hNode _) rfl hHere]
      simp only [bind, Except.bind]
      have hDone : done.length + here.length = (done ++ (node (UInt8.ofNat i)).bytes (UInt8.ofNat i)).length := by
        rw [List.length_append, hHere]
      have h := @ih (done ++ (node (UInt8.ofNat i)).bytes (UInt8.ofNat i)) later (i + 1) (by omega)
        (by omega) (by omega)
      rw [List.length_append, ← Nat.add_assoc, hDone, h, List.append_assoc]

theorem encode_eq (hNode : node.WellFormed) : encode node = .ok node.bytes := by
  have hAll : bytesFrom node 0 = node.bytes := rfl
  have h := @putItemIntoArray_append node [] (List.replicate node.bytes.length 0) hNode 0 (by omega)
    (by rw [List.length_replicate, hAll])
  simp only [encode, calcSize_of_wellFormed hNode, bind, Except.bind]
  simpa [hAll] using h

def itemsBytes (items : List (UInt8 × Item)) : Bytes := items.flatMap fun p => p.2.bytes p.1

theorem itemsBytes_cons (i : UInt8) (item : Item) (items : List (UInt8 × Item)) :
    itemsBytes ((i, item) :: items) = item.bytes i ++ itemsBytes items := List.flatMap_cons

def place (node : Node) (items : List (UInt8 × Item)) : Node :=
  items.foldl (fun node p => Function.update node p.1 p.2) node

/-- Complete item encodings with pairwise distinct indices, none of them taken in `node`. -/
structure Fits (node : Node) (items : List (UInt8 × Item)) : Prop where
  complete : ∀ p ∈ items, p.2.WellFormed ∧ p.2 ≠ .emptyItem
  distinct : (items.map Prod.fst).Nodup
  free : ∀ p ∈ items, node p.1 = .emptyItem

theorem fits_cons {items : List (UInt8 × Item)} :
    Fits node ((i, item) :: items) ↔
      (item.WellFormed ∧ item ≠ .emptyItem) ∧ node i = .emptyItem ∧ Fits (Function.update node i item) items := by
  constructor
  · rintro ⟨hComplete, hDistinct, hFree⟩
    rw [List.map_cons, List.nodup_cons] at hDistinct
    refine ⟨hComplete _ List.mem_cons_self, hFree _ List.mem_cons_self,
      fun p hp => hComplete p (List.mem_cons_of_mem _ hp), hDistinct.2, fun p hp => ?_⟩
    have hNe : p.1 ≠ i := fun h => hDistinct.1 (List.mem_map.mpr ⟨p, hp, h⟩)
    rw [Function.update_of_ne hNe]
    exact hFree p (List.mem_cons_of_mem _ hp)
  · rintro ⟨hItem, hFree, hRest⟩
    have hNe : ∀ p ∈ items, p.1 ≠ i := by
      intro p hp h
      have hUpdated := hRest.free p hp
      rw [h, Function.update_self] at hUpdated
      exact hItem.2 hUpdated
    refine ⟨fun p hp => ?_, ?_, fun p hp => ?_⟩
    · rcases List.mem_cons.mp hp with rfl | hp
      · exact hItem
      · exact hRest.complete p hp
    · rw [List.map_cons, List.nodup_cons]
      refine ⟨fun h => ?_, hRest.distinct⟩
      obtain ⟨p, hp, hEq⟩ := List.mem_map.mp h
      exact hNe p hp hEq
    · rcases List.mem_cons.mp hp with rfl | hp
      · exact hFree
      · rw [← hRest.free p hp, Function.update_of_ne (hNe p hp)]

theorem second_byte_eq (b : UInt8) : b = if isLeaf b then encodeLeafSecondByte (b &&& 0x7F).toNat
    else encodeNodePtrSecondByte (b &&& 0x7F).toNat := by
  have hAll : ∀ i : Fin 256, UInt8.ofFin i = if isLeaf (UInt8.ofFin i) then
      encodeLeafSecondByte (UInt8.ofFin i &&& 0x7F).toNat
      else encodeNodePtrSecondByte (UInt8.ofFin i &&& 0x7F).toNat := by decide +kernel
  exact hAll b.toFin

theorem prefixSize_le (b : UInt8) : (b &&& 0x7F).toNat ≤ 127 := by
  rw [UInt8.toNat_and]
  exact Nat.and_le_right

theorem item_of_itemOf {maxSize : Nat} {size : Nat} (h : itemOf maxSize node bytes = .ok (i, item, size)) :
    node i = .emptyItem ∧ item.WellFormed ∧ item ≠ .emptyItem ∧ bytes = item.bytes i ++ bytes.drop size := by
  match bytes with
  | [] => cases h
  | [_] =>
    simp only [itemOf] at h
    split at h <;> cases h
  | idxItem :: secondByte :: rest =>
    have hByte := second_byte_eq secondByte
    have hSize := prefixSize_le secondByte
    simp only [itemOf] at h
    generalize (secondByte &&& 0x7F).toNat = prefixSize at *
    split at h
    · cases h
    · next hFree =>
      split at h
      · cases h
      · split at h
        · cases h
        · next hPrefix hValue =>
          cases h
          have hTake : (rest.take prefixSize).length = prefixSize := by
            rw [List.length_take]
            omega
          have hPayload : ((rest.drop prefixSize).take defSize).length = 32 := by
            rw [List.length_take, List.length_drop]
            simp only [defSize] at *
            omega
          have hRest : rest = rest.take prefixSize ++ (rest.drop prefixSize).take defSize ++
              rest.drop (prefixSize + defSize) := by
            rw [List.append_assoc, ← List.drop_drop, List.take_append_drop, List.take_append_drop]
          have hDrop : (i :: secondByte :: rest).drop (prefixSize + defSize + 2) = rest.drop (prefixSize + defSize) := rfl
          refine ⟨not_not.mp hFree, ?_, ?_, ?_⟩
          · split
            · exact ⟨by omega, hPayload⟩
            · exact ⟨by omega, hPayload⟩
          · split <;> exact Item.noConfusion
          · rw [hDrop]
            by_cases hLeaf : isLeaf secondByte = true
            · rw [if_pos hLeaf] at hByte ⊢
              rw [Item.bytes, hTake, ← hByte, List.cons_append, List.cons_append, ← hRest]
            · rw [if_neg hLeaf] at hByte ⊢
              rw [Item.bytes, hTake, ← hByte, List.cons_append, List.cons_append, ← hRest]

theorem item_bytes_ne_nil (h : item ≠ .emptyItem) (i : UInt8) : item.bytes i ≠ [] := by
  cases item with
  | emptyItem => exact absurd rfl h
  | leaf | nodePtr => exact List.cons_ne_nil _ _

theorem decodeItems_eq_ok_iff (maxSize fuel : Nat) (bytes : Bytes) (node result : Node) (hFuel : bytes.length ≤ fuel) :
    decodeItems maxSize fuel bytes node = .ok result ↔
      ∃ items, Fits node items ∧ bytes = itemsBytes items ∧ result = place node items := by
  constructor
  · intro h
    induction fuel generalizing bytes node with
    | zero =>
      obtain rfl : bytes = [] := List.length_eq_zero_iff.mp (by omega)
      cases h
      exact ⟨[], ⟨by simp, by simp, by simp⟩, rfl, rfl⟩
    | succ fuel ih =>
      by_cases hNil : bytes = []
      · subst hNil
        cases h
        exact ⟨[], ⟨by simp, by simp, by simp⟩, rfl, rfl⟩
      · rw [decodeItems_eq_itemOf _ _ _ hNil] at h
        cases hItem : itemOf maxSize node bytes with
        | error e =>
          rw [hItem] at h
          cases h
        | ok read =>
          obtain ⟨i, item, size⟩ := read
          rw [hItem] at h
          have hPos := size_pos_of_itemOf hItem
          obtain ⟨hFree, hFormed, hNe, hBytes⟩ := item_of_itemOf hItem
          have hLength : 0 < bytes.length := List.length_pos_of_ne_nil hNil
          obtain ⟨items, hFits, hRest, hResult⟩ := ih (bytes.drop size) _ (by rw [List.length_drop]; omega) h
          refine ⟨(i, item) :: items, fits_cons.mpr ⟨⟨hFormed, hNe⟩, hFree, hFits⟩, ?_, hResult⟩
          rw [hBytes, hRest, itemsBytes_cons]
  · rintro ⟨items, hFits, rfl, rfl⟩
    induction items generalizing fuel node with
    | nil => cases fuel <;> rfl
    | cons p items ih =>
      obtain ⟨i, item⟩ := p
      obtain ⟨⟨hFormed, hNe⟩, hFree, hRest⟩ := fits_cons.mp hFits
      have hPos := List.length_pos_of_ne_nil (item_bytes_ne_nil hNe i)
      rw [itemsBytes_cons] at hFuel ⊢
      rw [List.length_append] at hFuel
      obtain ⟨fuel, rfl⟩ : ∃ f, fuel = f + 1 := ⟨fuel - 1, by omega⟩
      rw [decodeItems_item maxSize fuel hFormed hNe i _ hFree]
      exact ih fuel _ hRest (by omega)

/-- What the encoder writes is read back, and the decoder returns on every byte string: a node for complete items with
distinct indices, an error for everything else. -/
theorem codec_roundTrip_and_acceptance :
    (∀ node : Node, node.WellFormed → ∃ bv, encode node = .ok bv ∧ tryDecode bv = .ok (.ok node)) ∧
    ∀ bv : Bytes, ∃ result, tryDecode bv = .ok result ∧ ∀ node : Node,
      result = .ok node ↔ ∃ items, Fits emptyNode items ∧ bv = itemsBytes items ∧ node = place emptyNode items := by
  refine ⟨fun node hNode => ⟨node.bytes, encode_eq hNode, ?_⟩, fun bv => ⟨_, tryDecode_eq bv, fun node => ?_⟩⟩
  · rw [tryDecode_eq, tryDecode_bytes hNode]
  · exact decodeItems_eq_ok_iff bv.length bv.length bv emptyNode node le_rfl

def sampleNode : Node := fun i =>
  if i = 1 then .leaf [0xAA, 0xBB] (List.replicate 32 7)
  else if i = 255 then .nodePtr [] (List.replicate 32 9)
  else .emptyItem

theorem codec_roundTrip_sampleNode : ∃ bv, encode sampleNode = .ok bv ∧ tryDecode bv = .ok (.ok sampleNode) := by
  apply codec_roundTrip_and_acceptance.1
  intro i
  simp only [sampleNode]
  split
  · exact ⟨by decide, by decide⟩
  · split
    · exact ⟨by decide, by decide⟩
    · trivial

end F1r3Node.History.Codec
