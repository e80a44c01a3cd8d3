import F1r3Node.Shared.Bytes
import Mathlib.Data.List.FinRange

/-! # Nodes of the radix tree and their binary form

An item that is not empty is encoded as its index, a byte that tells a leaf from a pointer and holds the length of the
prefix, the prefix and 32 bytes of value or pointer.
-/

namespace F1r3Node.History

open Shared

inductive Item where
  | emptyItem
  | leaf (pre value : Bytes)
  | nodePtr (pre ptr : Bytes)
  deriving DecidableEq

def allBytes : List UInt8 := (List.finRange 256).map UInt8.ofFin

theorem mem_allBytes (b : UInt8) : b ∈ allBytes :=
  List.mem_map.mpr ⟨b.toFin, List.mem_finRange _, rfl⟩

theorem nodup_allBytes : allBytes.Nodup := by
  apply (List.nodup_finRange 256).map
  intro i j h
  simpa using congrArg UInt8.toFin h

abbrev Node := UInt8 → Item

instance : DecidableEq Node := fun x y =>
  @decidable_of_iff _ (∀ i ∈ allBytes, x i = y i)
    ⟨fun h => funext fun i => h i (mem_allBytes i), fun h i _ => congrFun h i⟩ (List.decidableBAll _ _)

def emptyNode : Node := fun _ => .emptyItem

inductive RadixTreeError where
  | prefixError (message : String)
  | collisionError (count : Nat) (first : Bytes)
  | serializationError (size : Nat) (reason : String)
  deriving DecidableEq

/-- What stops an operation: an error it returns, or a failed assertion with the key it
reports. -/
inductive Fault where
  | radixTree (error : RadixTreeError)
  | actionError (message : String)
  | assertion (message : String) (key : Bytes)
  deriving DecidableEq

def defSize : Nat := 32

/-- The assertions of `encode` on one item. -/
def Item.checkSize : Item → Except Fault Unit
  | .emptyItem => .ok ()
  | .leaf pre value =>
    if 127 < pre.length then
      .error (.assertion "Error during serialization: size of prefix more than 127." [])
    else if value.length ≠ defSize then
      .error (.assertion "Error during serialization: size of leafValue not equal 32." [])
    else .ok ()
  | .nodePtr pre ptr =>
    if 127 < pre.length then
      .error (.assertion "Error during serialization: size of prefix more than 127." [])
    else if ptr.length ≠ defSize then
      .error (.assertion "Error during serialization: size of ptrPrefix not equal 32." [])
    else .ok ()

def encodeLeafSecondByte (prefixSize : Nat) : UInt8 := UInt8.ofNat prefixSize &&& 0x7F

def encodeNodePtrSecondByte (prefixSize : Nat) : UInt8 := 0x80 ||| (UInt8.ofNat prefixSize &&& 0x7F)

/-- The bytes `put_item_into_array` writes for one item. -/
def Item.bytes (idxItem : UInt8) : Item → Bytes
  | .emptyItem => []
  | .leaf pre value => idxItem :: encodeLeafSecondByte pre.length :: (pre ++ value)
  | .nodePtr pre ptr => idxItem :: encodeNodePtrSecondByte pre.length :: (pre ++ ptr)

def Node.bytes (node : Node) : Bytes := allBytes.flatMap fun i => (node i).bytes i

def encode (node : Node) : Except Fault Bytes := do
  for i in allBytes do (node i).checkSize
  return node.bytes

def malformed (maxSize : Nat) (reason : String) : RadixTreeError := .serializationError maxSize reason

def isLeaf (secondByte : UInt8) : Bool := secondByte &&& 0x80 == 0

/-- The loop of `try_decode` over what is left of `maxSize` bytes. -/
def decodeItems (maxSize : Nat) : Nat → Bytes → Node → Except RadixTreeError Node
  | _, [], node => .ok node
  | 0, _ :: _, _ => .error (malformed maxSize "truncated item header")
  | fuel + 1, idxItem :: rest, node =>
    if node idxItem ≠ .emptyItem then .error (malformed maxSize "wrong index of item")
    else match rest with
      | [] => .error (malformed maxSize "truncated item header")
      | secondByte :: rest =>
        let prefixSize := (secondByte &&& 0x7F).toNat
        if rest.length < prefixSize then .error (malformed maxSize "truncated item prefix")
        else if rest.length < prefixSize + defSize then .error (malformed maxSize "truncated item value")
        else
          let pre := rest.take prefixSize
          let valOrPtr := (rest.drop prefixSize).take defSize
          let item := if isLeaf secondByte then .leaf pre valOrPtr else .nodePtr pre valOrPtr
          decodeItems maxSize fuel (rest.drop (prefixSize + defSize)) (Function.update node idxItem item)

def tryDecode (bv : Bytes) : Except RadixTreeError Node :=
  decodeItems bv.length bv.length bv emptyNode

/-- `common_prefix`: the common part and the two rests. -/
def commonPrefix : Bytes → Bytes → Bytes × Bytes × Bytes
  | l :: ls, r :: rs =>
    if l = r then
      let (common, lRest, rRest) := commonPrefix ls rs
      (l :: common, lRest, rRest)
    else ([], l :: ls, r :: rs)
  | ls, rs => ([], ls, rs)

/-- The sizes `encode` asserts. -/
def Item.WellFormed : Item → Prop
  | .emptyItem => True
  | .leaf pre value => pre.length ≤ 127 ∧ value.length = 32
  | .nodePtr pre ptr => pre.length ≤ 127 ∧ ptr.length = 32

def Node.WellFormed (node : Node) : Prop := ∀ i, (node i).WellFormed

theorem Item.checkSize_of_wellFormed {item : Item} (h : item.WellFormed) : item.checkSize = .ok () := by
  cases item with
  | emptyItem => rfl
  | leaf pre value | nodePtr pre ptr =>
    obtain ⟨hPre, hSize⟩ := h
    simp [Item.checkSize, defSize, hSize, not_lt.mpr hPre]

variable {node : Node}

theorem encode_of_wellFormed (h : node.WellFormed) : encode node = .ok node.bytes := by
  have hAll : ∀ l : List UInt8,
      (forIn l PUnit.unit fun i _ => do (node i).checkSize; pure (ForInStep.yield PUnit.unit) :
        Except Fault PUnit) = .ok PUnit.unit := by
    intro l
    induction l with
    | nil => rfl
    | cons i l ih =>
      rw [List.forIn_cons, Item.checkSize_of_wellFormed (h i)]
      exact ih
  unfold encode
  simp only [hAll]
  rfl

theorem leaf_second_byte {n : Nat} (hn : n ≤ 127) :
    (encodeLeafSecondByte n &&& 0x7F).toNat = n ∧ isLeaf (encodeLeafSecondByte n) = true := by
  have hAll : ∀ n : Fin 128, (encodeLeafSecondByte n &&& 0x7F).toNat = n ∧
      isLeaf (encodeLeafSecondByte n) = true := by decide
  exact hAll ⟨n, by omega⟩

theorem nodePtr_second_byte {n : Nat} (hn : n ≤ 127) :
    (encodeNodePtrSecondByte n &&& 0x7F).toNat = n ∧ isLeaf (encodeNodePtrSecondByte n) = false := by
  have hAll : ∀ n : Fin 128, (encodeNodePtrSecondByte n &&& 0x7F).toNat = n ∧
      isLeaf (encodeNodePtrSecondByte n) = false := by decide
  exact hAll ⟨n, by omega⟩

theorem decodeItems_cons (maxSize fuel : Nat) (i secondByte : UInt8) {pre payload : Bytes} (rest : Bytes)
    (hFree : node i = .emptyItem) (hPre : (secondByte &&& 0x7F).toNat = pre.length) (hPayload : payload.length = 32) :
    decodeItems maxSize (fuel + 1) (i :: secondByte :: (pre ++ payload) ++ rest) node =
      decodeItems maxSize fuel rest (Function.update node i
        (if isLeaf secondByte then .leaf pre payload else .nodePtr pre payload)) := by
  have hTake : (pre ++ payload ++ rest).take pre.length = pre := by simp
  have hValue : ((pre ++ payload ++ rest).drop pre.length).take 32 = payload := by
    rw [List.append_assoc, List.drop_left, List.take_left' hPayload]
  have hDrop : (pre ++ payload ++ rest).drop (pre.length + 32) = rest :=
    List.drop_left' (by rw [List.length_append, hPayload])
  have hLength : (pre ++ payload ++ rest).length = pre.length + 32 + rest.length := by
    rw [List.length_append, List.length_append, hPayload]
  rw [List.cons_append, List.cons_append, decodeItems, if_neg (not_not.mpr hFree)]
  simp only [hPre, defSize, hTake, hValue, hDrop]
  rw [if_neg (by omega), if_neg (by omega)]

theorem decodeItems_item (maxSize fuel : Nat) {item : Item} (hItem : item.WellFormed)
    (hNe : item ≠ .emptyItem) (i : UInt8) (rest : Bytes) (hFree : node i = .emptyItem) :
    decodeItems maxSize (fuel + 1) (item.bytes i ++ rest) node =
      decodeItems maxSize fuel rest (Function.update node i item) := by
  cases item with
  | emptyItem => exact absurd rfl hNe
  | leaf pre value =>
    obtain ⟨hLength, hLeaf⟩ := leaf_second_byte hItem.1
    rw [Item.bytes, decodeItems_cons maxSize fuel i _ rest hFree hLength hItem.2, if_pos hLeaf]
  | nodePtr pre ptr =>
    obtain ⟨hLength, hLeaf⟩ := nodePtr_second_byte hItem.1
    rw [Item.bytes, decodeItems_cons maxSize fuel i _ rest hFree hLength hItem.2, if_neg (by simp [hLeaf])]

def Node.overlay (node : Node) (l : List UInt8) (base : Node) : Node :=
  fun i => if i ∈ l then node i else base i

theorem Node.overlay_cons (node base : Node) {i : UInt8} {l : List UInt8} (hi : i ∉ l) :
    node.overlay l (Function.update base i (node i)) = node.overlay (i :: l) base := by
  funext j
  by_cases hj : j = i
  · subst hj
    simp [Node.overlay, hi]
  · simp [Node.overlay, hj]

theorem Node.overlay_empty (node base : Node) {i : UInt8} {l : List UInt8}
    (hNode : node i = .emptyItem) (hBase : base i = .emptyItem) :
    node.overlay l base = node.overlay (i :: l) base := by
  funext j
  by_cases hj : j = i
  · subst hj
    simp [Node.overlay, hNode, hBase]
  · simp [Node.overlay, hj]

theorem decodeItems_flatMap (maxSize : Nat) (hNode : node.WellFormed) (l : List UInt8)
    (hNodup : l.Nodup) (fuel : Nat) (hFuel : (l.flatMap fun i => (node i).bytes i).length ≤ fuel)
    (base : Node) (hBase : ∀ i ∈ l, base i = .emptyItem) :
    decodeItems maxSize fuel (l.flatMap fun i => (node i).bytes i) base = .ok (node.overlay l base) := by
  induction l generalizing fuel base with
  | nil =>
    have hOverlay : node.overlay [] base = base := by
      funext j
      simp [Node.overlay]
    rw [hOverlay, List.flatMap_nil]
    cases fuel <;> rfl
  | cons i l ih =>
    obtain ⟨hi, hNodup⟩ := List.nodup_cons.mp hNodup
    have hFree := hBase i List.mem_cons_self
    have hRest : ∀ j ∈ l, base j = .emptyItem := fun j hj => hBase j (List.mem_cons_of_mem _ hj)
    rw [List.flatMap_cons] at hFuel ⊢
    by_cases hEmpty : node i = .emptyItem
    · rw [hEmpty, Item.bytes, List.nil_append] at hFuel ⊢
      rw [ih hNodup fuel hFuel base hRest, Node.overlay_empty node base hEmpty hFree]
    · have hPos : 0 < ((node i).bytes i).length := by
        cases hItem : node i with
        | emptyItem => exact absurd hItem hEmpty
        | leaf | nodePtr => simp [Item.bytes]
      rw [List.length_append] at hFuel
      obtain ⟨fuel, rfl⟩ : ∃ f, fuel = f + 1 := ⟨fuel - 1, by omega⟩
      rw [decodeItems_item maxSize fuel (hNode i) hEmpty i _ hFree, ih hNodup fuel (by omega),
        Node.overlay_cons node base hi]
      intro j hj
      have hNe : j ≠ i := fun h => hi (h ▸ hj)
      rw [Function.update_of_ne hNe]
      exact hRest j hj

theorem tryDecode_bytes (hNode : node.WellFormed) : tryDecode node.bytes = .ok node := by
  have h := decodeItems_flatMap node.bytes.length hNode allBytes nodup_allBytes _ le_rfl emptyNode
    fun _ _ => rfl
  have hOverlay : node.overlay allBytes emptyNode = node := by
    funext i
    simp [Node.overlay, mem_allBytes]
  rwa [hOverlay] at h

end F1r3Node.History
