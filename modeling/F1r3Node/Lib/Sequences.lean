import Mathlib.Data.UInt
import Mathlib.Tactic.Ring

/-! # Sequences of symbols

Little-endian numbers, runs of at most a given length, partial maps, writes into a buffer, and paths
that part.
-/

namespace F1r3Node.Lib

def littleEndian : Nat → Nat → List UInt8
  | 0, _ => []
  | width + 1, n => UInt8.ofNat n :: littleEndian width (n / 256)

def ofLittleEndian : List UInt8 → Nat
  | [] => 0
  | b :: bytes => b.toNat + 256 * ofLittleEndian bytes

@[simp]
theorem length_littleEndian (width n : Nat) : (littleEndian width n).length = width := by
  induction width generalizing n with
  | zero => rfl
  | succ width ih => rw [littleEndian, List.length_cons, ih]

variable {n : Nat}

theorem ofLittleEndian_littleEndian {width : Nat} (h : n < 256 ^ width) :
    ofLittleEndian (littleEndian width n) = n := by
  induction width generalizing n with
  | zero =>
    rw [pow_zero] at h
    rw [littleEndian, ofLittleEndian]
    omega
  | succ width ih =>
    have hRest : n / 256 < 256 ^ width := by
      rw [pow_succ] at h
      exact Nat.div_lt_of_lt_mul (by omega)
    have hByte : (UInt8.ofNat n).toNat = n % 256 := UInt8.toNat_ofNat'
    rw [littleEndian, ofLittleEndian, ih hRest, hByte]
    exact Nat.mod_add_div n 256

theorem littleEndian_zero (width : Nat) : littleEndian width 0 = List.replicate width 0 := by
  induction width with
  | zero => rfl
  | succ width ih =>
    rw [littleEndian, Nat.zero_div, ih, List.replicate_succ]
    rfl

variable {α : Type}

/-- The rest of a chunk that has room for some more, and the chunks of length `size + 1` after it. -/
def chunksFrom (size : Nat) : Nat → List α → List α × List (List α)
  | _, [] => ([], [])
  | 0, a :: l => ([], (a :: (chunksFrom size size l).1) :: (chunksFrom size size l).2)
  | room + 1, a :: l => (a :: (chunksFrom size room l).1, (chunksFrom size room l).2)

/-- The list in chunks of length `size + 1`, the last of which may be shorter. -/
def chunks (size : Nat) (l : List α) : List (List α) := (chunksFrom size 0 l).2

theorem flatten_chunksFrom (size room : Nat) (l : List α) :
    (chunksFrom size room l).1 ++ (chunksFrom size room l).2.flatten = l := by
  induction l generalizing room with
  | nil => rw [chunksFrom]; rfl
  | cons a l ih =>
    cases room with
    | zero => simpa only [chunksFrom, List.flatten_cons, List.nil_append, List.cons_append] using congrArg _ (ih size)
    | succ room => simpa only [chunksFrom, List.cons_append] using congrArg _ (ih room)

theorem flatten_chunks (size : Nat) (l : List α) : (chunks size l).flatten = l := by
  have hAll := flatten_chunksFrom size 0 l
  cases l with
  | nil => rfl
  | cons a l => exact hAll

theorem length_chunksFrom (size room : Nat) (l : List α) :
    (chunksFrom size room l).2.length = (l.length - room + size) / (size + 1) := by
  induction l generalizing room with
  | nil =>
    rw [chunksFrom, List.length_nil, List.length_nil, Nat.zero_sub, Nat.zero_add, Nat.div_eq_of_lt (by omega)]
  | cons a l ih =>
    cases room with
    | zero =>
      rw [chunksFrom, List.length_cons, List.length_cons, ih size, Nat.sub_zero,
        show l.length + 1 + size = l.length + (size + 1) by omega, Nat.add_div_right _ (Nat.succ_pos _)]
      congr 1
      rcases le_or_gt size l.length with h | h
      · rw [Nat.sub_add_cancel h]
      · rw [Nat.div_eq_of_lt (by omega), Nat.div_eq_of_lt (by omega)]
    | succ room =>
      rw [chunksFrom, ih room, List.length_cons, Nat.add_sub_add_right]

theorem length_chunks (size : Nat) (l : List α) : (chunks size l).length = (l.length + size) / (size + 1) := by
  rw [chunks, length_chunksFrom, Nat.sub_zero]

theorem of_mem_chunksFrom (size room : Nat) (l : List α) :
    (chunksFrom size room l).1.length ≤ room ∧
      ∀ chunk ∈ (chunksFrom size room l).2, chunk ≠ [] ∧ chunk.length ≤ size + 1 := by
  induction l generalizing room with
  | nil =>
    rw [chunksFrom]
    exact ⟨Nat.zero_le _, fun chunk h => absurd h List.not_mem_nil⟩
  | cons a l ih =>
    cases room with
    | zero =>
      obtain ⟨hHead, hRest⟩ := ih size
      refine ⟨Nat.le_refl 0, fun chunk h => ?_⟩
      rcases List.mem_cons.mp h with rfl | h
      · exact ⟨List.cons_ne_nil _ _, Nat.succ_le_succ hHead⟩
      · exact hRest chunk h
    | succ room =>
      obtain ⟨hHead, hRest⟩ := ih room
      exact ⟨Nat.succ_le_succ hHead, hRest⟩

variable {l : List α}

theorem of_mem_chunks {size : Nat} {chunk : List α} (h : chunk ∈ chunks size l) :
    chunk ≠ [] ∧ chunk.length ≤ size + 1 :=
  (of_mem_chunksFrom size 0 l).2 chunk h

theorem chunksFrom_fst (size room : Nat) (l : List α) : (chunksFrom size room l).1 = l.take room := by
  induction l generalizing room with
  | nil => rw [chunksFrom, List.take_nil]
  | cons a l ih =>
    cases room with
    | zero => rw [chunksFrom, List.take_zero]
    | succ room => rw [chunksFrom, List.take_succ_cons, ih room]

theorem chunksFrom_snd (size room : Nat) (l : List α) : (chunksFrom size room l).2 = chunks size (l.drop room) := by
  induction l generalizing room with
  | nil =>
    rw [chunksFrom, List.drop_nil]
    rfl
  | cons a l ih =>
    cases room with
    | zero => rw [List.drop_zero, chunks]
    | succ room => rw [chunksFrom, List.drop_succ_cons, ih room]

theorem chunks_of_ne_nil (size : Nat) (hne : l ≠ []) :
    chunks size l = l.take (size + 1) :: chunks size (l.drop (size + 1)) := by
  obtain ⟨a, l, rfl⟩ := List.exists_cons_of_ne_nil hne
  change (a :: (chunksFrom size size l).1) :: (chunksFrom size size l).2 = _
  rw [chunksFrom_fst, chunksFrom_snd, List.take_succ_cons, List.drop_succ_cons]

theorem chunks_eq_append (size : Nat) (l : List α) : ∃ (whole : List (List α)) (last : List α),
    (∀ chunk ∈ whole, chunk.length = size + 1) ∧ whole.length = l.length / (size + 1) ∧
      last.length = l.length % (size + 1) ∧ chunks size l = whole ++ if last = [] then [] else [last] := by
  rcases Nat.lt_or_ge l.length (size + 1) with hShort | hLong
  · refine ⟨[], l, fun chunk h => absurd h List.not_mem_nil, ?_, (Nat.mod_eq_of_lt hShort).symm, ?_⟩
    · rw [Nat.div_eq_of_lt hShort, List.length_nil]
    split
    · next hNil => rw [hNil]; rfl
    · next hne =>
      rw [chunks_of_ne_nil size hne, List.take_of_length_le hShort.le, List.drop_of_length_le hShort.le]
      rfl
  · obtain ⟨whole, last, hWhole, hCount, hLast, hChunks⟩ := chunks_eq_append size (l.drop (size + 1))
    rw [List.length_drop] at hCount hLast
    refine ⟨l.take (size + 1) :: whole, last, ?_, ?_, ?_, ?_⟩
    · intro chunk hChunk
      rcases List.mem_cons.mp hChunk with rfl | hChunk
      · rw [List.length_take, min_eq_left hLong]
      · exact hWhole chunk hChunk
    · rw [List.length_cons, hCount, Nat.div_eq_sub_div (Nat.succ_pos size) hLong]
    · rw [hLast, Nat.mod_eq_sub_mod hLong]
    · have hne : l ≠ [] := List.length_pos_iff.mp (by omega)
      rw [chunks_of_ne_nil size hne, hChunks, List.cons_append]
termination_by l.length
decreasing_by
  rw [List.length_drop]
  omega

theorem exists_perm_map_eq {γ : Type} {f : α → γ} {images : List γ} (h : (l.map f).Perm images) :
    ∃ l', l.Perm l' ∧ l'.map f = images := by
  generalize hImages : l.map f = start at h
  induction h generalizing l with
  | nil => exact ⟨l, .refl l, hImages⟩
  | cons a _ ih =>
    obtain ⟨b, l, rfl, rfl, hRest⟩ := List.map_eq_cons_iff.mp hImages
    obtain ⟨l', hPerm, rfl⟩ := ih hRest
    exact ⟨b :: l', hPerm.cons b, rfl⟩
  | swap a b rest =>
    obtain ⟨d, l, rfl, rfl, hRest⟩ := List.map_eq_cons_iff.mp hImages
    obtain ⟨e, l, rfl, rfl, rfl⟩ := List.map_eq_cons_iff.mp hRest
    exact ⟨e :: d :: l, .swap e d l, rfl⟩
  | trans _ _ ih ih' =>
    obtain ⟨l₁, hPerm, hFirst⟩ := ih hImages
    obtain ⟨l₂, hPerm', hSecond⟩ := ih' hFirst
    exact ⟨l₂, hPerm.trans hPerm', hSecond⟩

theorem mapM_eq_some_iff {γ : Type} {f : α → Option γ} {images : List γ} :
    l.mapM f = some images ↔ List.Forall₂ (fun a b => f a = some b) l images := by
  induction l generalizing images with
  | nil => rw [List.mapM_nil, Option.pure_def, Option.some_inj, List.forall₂_nil_left_iff, eq_comm]
  | cons a l ih =>
    rw [List.mapM_cons, List.forall₂_cons_left_iff]
    constructor
    · intro h
      obtain ⟨b, hb, hRest⟩ := Option.bind_eq_some_iff.mp h
      obtain ⟨rest, hImages, hRest⟩ := Option.bind_eq_some_iff.mp hRest
      exact ⟨b, rest, hb, ih.mp hImages, (Option.some.inj hRest).symm⟩
    · rintro ⟨b, rest, hb, hRest, rfl⟩
      rw [hb, ih.mpr hRest]
      rfl

def writeAt (offset : Nat) (symbols buffer : List α) : List α :=
  buffer.take offset ++ symbols ++ buffer.drop (offset + symbols.length)

theorem take_writeAt_zero (symbols buffer : List α) : (writeAt 0 symbols buffer).take symbols.length = symbols := by
  rw [writeAt, List.take_zero, List.nil_append, List.take_left]

variable {offset : Nat} {buffer : List α}

theorem take_writeAt (symbols : List α) (hOffset : n ≤ offset)
    (hBuffer : n ≤ buffer.length) : (writeAt offset symbols buffer).take n = buffer.take n := by
  have hLength : n ≤ (buffer.take offset).length := by
    rw [List.length_take]
    exact le_min hOffset hBuffer
  rw [writeAt, List.append_assoc, List.take_append_of_le_length hLength, List.take_take, min_eq_left hOffset]

theorem le_length_of_take_eq {l' : List α} (h : l.take n = l'.take n) (hLength : n ≤ l'.length) :
    n ≤ l.length := by
  have hLengths := congrArg List.length h
  rw [List.length_take, List.length_take, min_eq_left hLength] at hLengths
  omega

@[simp]
theorem writeAt_nil (offset : Nat) (buffer : List α) : writeAt offset [] buffer = buffer := by
  rw [writeAt, List.append_nil, List.length_nil, Nat.add_zero, List.take_append_drop]

theorem writeAt_append (first second : List α) (h : offset ≤ buffer.length) :
    writeAt (offset + first.length) second (writeAt offset first buffer) = writeAt offset (first ++ second) buffer := by
  have hTake : (buffer.take offset ++ first).length = offset + first.length := by
    rw [List.length_append, List.length_take, min_eq_left h]
  have hDrop : (writeAt offset first buffer).drop (offset + first.length + second.length) =
      buffer.drop (offset + (first ++ second).length) := by
    rw [writeAt, ← hTake, ← List.drop_drop, List.drop_left, List.drop_drop, hTake, List.length_append, Nat.add_assoc]
  rw [writeAt, hDrop]
  conv_lhs => rw [writeAt, ← hTake, List.take_left]
  simp only [writeAt, List.append_assoc]

theorem length_writeAt {symbols : List α} (h : offset + symbols.length ≤ buffer.length) :
    (writeAt offset symbols buffer).length = buffer.length := by
  rw [writeAt, List.length_append, List.length_append, List.length_take, List.length_drop]
  omega

def Parted (a b : List α) : Prop := ¬ a <+: b ∧ ¬ b <+: a

theorem Parted.symm {a b : List α} (h : Parted a b) : Parted b a := ⟨h.2, h.1⟩

theorem Parted.append_right {a b : List α} (h : Parted a b) (s : List α) : Parted a (b ++ s) := by
  refine ⟨fun hPrefix => ?_, fun hPrefix => h.2 ((List.prefix_append b s).trans hPrefix)⟩
  rcases List.prefix_or_prefix_of_prefix hPrefix (List.prefix_append b s) with hLeft | hRight
  · exact h.1 hLeft
  · exact h.2 hRight

theorem parted_append {s t : List α} (p : List α) (hLength : s.length = t.length) (hne : s ≠ t) :
    Parted (p ++ s) (p ++ t) := by
  refine ⟨fun h => hne ?_, fun h => hne ?_⟩
  · exact ((List.prefix_append_right_inj p).mp h).eq_of_length hLength
  · exact (((List.prefix_append_right_inj p).mp h).eq_of_length hLength.symm).symm

end F1r3Node.Lib
