import Mathlib.Algebra.Ring.Int.Parity
import Mathlib.Data.List.Sort
import Mathlib.Logic.Encodable.Basic

/-! # Byte strings, little-endian words and the digest parameter

Blake2b-256 is a parameter. The results that need it injective name the finite set of inputs on which it has to be free
of collisions.
-/

namespace F1r3Node.Shared

abbrev Bytes := List UInt8

instance instLawfulBEqList {α : Type*} [DecidableEq α] : LawfulBEq (List α) := inferInstance

instance instEncodableUInt8 : Encodable UInt8 := Encodable.ofLeftInverse UInt8.toNat UInt8.ofNat fun _ => UInt8.ofNat_toNat

/-- The digest function with the only shape fact the code asserts about it. -/
structure Blake2b256 where
  hash : Bytes → Bytes
  length_hash : ∀ b, (hash b).length = 32

/-- `to_le_bytes` of a word of `n` bytes; a negative value wraps to its two's complement. -/
def toLeBytes (n : Nat) (value : Int) : Bytes :=
  (List.range n).map fun i => UInt8.ofNat ((value % 2 ^ (8 * n)).toNat / 2 ^ (8 * i))

@[simp] theorem length_toLeBytes (n : Nat) (value : Int) : (toLeBytes n value).length = n := by
  simp [toLeBytes]

/-- `sort_by` on a byte-string key: the stable sort by the lexicographic order. -/
def sortByKey {α : Type*} (key : α → Bytes) (items : List α) : List α :=
  items.insertionSort fun a b => key a ≤ key b

theorem perm_sortByKey {α : Type*} (key : α → Bytes) (items : List α) :
    (sortByKey key items).Perm items :=
  List.perm_insertionSort _ _

/-- `as_bytes` of a string. -/
def asBytes (s : String) : Bytes := s.toUTF8.data.toList

/-- A digest that pads or cuts its input to 32 bytes, used where a closed example needs one. -/
def paddingDigest : Blake2b256 where
  hash b := (b ++ List.replicate 32 0).take 32
  length_hash b := by simp

end F1r3Node.Shared
