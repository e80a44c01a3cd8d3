import F1r3Node.Crypto.StoredRandom
import F1r3Node.Merging.MergedState

/-! # The generator of a merged number channel

Bytes that are no datum, and a merge of fewer than two generators, are panics: they give `none`.
-/

namespace F1r3Node.Merging

open Crypto Shared Space

section

variable (decodeDatum : Bytes → Option (Datum ListParWithRandom))

def decodeRnd (parWithRndEncoded : Bytes) : Option StoredRandom :=
  (decodeDatum parWithRndEncoded).map fun datum => .fromBytes datum.a.randomState

/-- The generator of a single added datum, or the merge of the different ones by ascending bytes. -/
def newRnd (added : List Bytes) : Option StoredRandom :=
  if added.toFinset.card = 1 then added.head?.bind (decodeRnd decodeDatum)
  else do
    let rnds ← added.mapM (decodeRnd decodeDatum)
    StoredRandom.merge (sortByKey StoredRandom.toBytes rnds.dedup)

/-- `calculate_number_channel_merge` with its panics. -/
def mergeNumberChannel (codec : DatumCodec) (base : BaseHistory HotStoreBinaryAction) (channel : Bytes) (diff : Int)
    (mergeType : MergeType) (changes : ChannelChange Bytes) : Option (Except MergeFailure HotStoreBinaryAction) :=
  match convertToReadNumber base.getData channel with
  | .error error => some (.error (.history error))
  | .ok initNum =>
    match applyMergeableValue (initNum.getD 0) diff mergeType with
    | none => some (.error (.numberChannelRejected channel (initNum.getD 0) diff mergeType))
    | some newVal => do
      let rnd ← newRnd decodeDatum changes.added
      return (ofHistory (createDatumEncoded codec channel newVal mergeType rnd.toBytes)).map fun datumEncoded =>
        .insertProduce channel [datumEncoded]

variable {decodeDatum}

theorem isSome_decodeRnd {bytes : Bytes} : (decodeRnd decodeDatum bytes).isSome ↔ (decodeDatum bytes).isSome := by
  rw [decodeRnd, Option.isSome_map]

theorem isSome_merge_stored {children : List StoredRandom} :
    (StoredRandom.merge children).isSome ↔ 2 ≤ children.length ∧ ∀ g ∈ children, g.digest.HasRoom := by
  rw [StoredRandom.merge, Option.isSome_map, isSome_merge, List.length_map, List.forall_mem_map]
  rfl

variable (decodeDatum) in
def GivesGenerator (added : List Bytes) : Prop :=
  if added.toFinset.card = 1 then ∀ bytes ∈ added, (decodeDatum bytes).isSome
  else ∃ rnds, added.mapM (decodeRnd decodeDatum) = some rnds ∧ 2 ≤ rnds.toFinset.card ∧
    ∀ g ∈ rnds, g.digest.HasRoom

theorem isSome_newRnd {added : List Bytes} : (newRnd decodeDatum added).isSome ↔ GivesGenerator decodeDatum added := by
  rw [newRnd, GivesGenerator]
  split
  · next hOne =>
    obtain ⟨bytes, hBytes⟩ := Finset.card_eq_one.mp hOne
    have hAll : ∀ b ∈ added, b = bytes := by
      intro b hb
      exact Finset.mem_singleton.mp (hBytes ▸ List.mem_toFinset.mpr hb)
    have hMem : bytes ∈ added := List.mem_toFinset.mp (hBytes ▸ Finset.mem_singleton_self bytes)
    obtain ⟨first, rest, rfl⟩ := List.exists_cons_of_ne_nil (List.ne_nil_of_mem hMem)
    obtain rfl := hAll first List.mem_cons_self
    rw [List.head?_cons, Option.bind_some, isSome_decodeRnd]
    refine ⟨fun h b hb => ?_, fun h => h first List.mem_cons_self⟩
    rw [hAll b hb]
    exact h
  · cases added.mapM (decodeRnd decodeDatum) with
    | none =>
      refine iff_of_false Bool.false_ne_true ?_
      rintro ⟨rnds, hNone, -⟩
      cases hNone
    | some rnds =>
      have hPerm := perm_sortByKey StoredRandom.toBytes rnds.dedup
      change (StoredRandom.merge (sortByKey StoredRandom.toBytes rnds.dedup)).isSome ↔ _
      rw [isSome_merge_stored, hPerm.length_eq, ← List.card_toFinset]
      have hRoom : (∀ g ∈ sortByKey StoredRandom.toBytes rnds.dedup, g.digest.HasRoom) ↔
          ∀ g ∈ rnds, g.digest.HasRoom :=
        forall_congr' fun g => by rw [hPerm.mem_iff, List.mem_dedup]
      rw [hRoom]
      constructor
      · intro h
        exact ⟨rnds, rfl, h⟩
      · rintro ⟨rnds', hSame, h⟩
        obtain rfl := Option.some.inj hSame
        exact h

/-- The merge of a number channel returns exactly if the base is not read as a number, or the value is rejected, or
the added data give a generator: a single one that decodes, or several that decode to two generators at least, none of
them at the end of its counter. -/
theorem isSome_mergeNumberChannel (decodeDatum : Bytes → Option (Datum ListParWithRandom)) (codec : DatumCodec)
    (base : BaseHistory HotStoreBinaryAction) (channel : Bytes) (diff : Int) (mergeType : MergeType)
    (changes : ChannelChange Bytes) :
    (mergeNumberChannel decodeDatum codec base channel diff mergeType changes).isSome ↔
      (∃ error, convertToReadNumber base.getData channel = .error error) ∨
      (∃ initNum, convertToReadNumber base.getData channel = .ok initNum ∧
        applyMergeableValue (initNum.getD 0) diff mergeType = none) ∨
      GivesGenerator decodeDatum changes.added := by
  rw [← isSome_newRnd, mergeNumberChannel]
  cases convertToReadNumber base.getData channel with
  | error error => exact iff_of_true rfl (.inl ⟨error, rfl⟩)
  | ok initNum =>
    dsimp only
    cases hApply : applyMergeableValue (initNum.getD 0) diff mergeType with
    | none => exact iff_of_true rfl (.inr (.inl ⟨initNum, rfl, hApply⟩))
    | some newVal =>
      cases newRnd decodeDatum changes.added with
      | none =>
        refine iff_of_false Bool.false_ne_true ?_
        rintro (⟨error, hError⟩ | ⟨initNum', hOk, hNone⟩ | hSome)
        · cases hError
        · cases hOk
          rw [hApply] at hNone
          cases hNone
        · cases hSome
      | some rnd => exact iff_of_true rfl (.inr (.inr rfl))

end

def unwrittenBase : BaseHistory HotStoreBinaryAction where
  getData _ := .ok []
  getDataProjBinary _ := .ok []
  getContinuationsProjBinary _ := .ok []
  getJoinsProjBinary _ := .ok []
  applyTrieActions _ := .ok []

/-- A number channel that loses a datum and gets no new one: no generators are merged. -/
theorem not_isSome_mergeNumberChannel : ¬ ∃ (decodeDatum : Bytes → Option (Datum ListParWithRandom))
    (codec : DatumCodec), ∀ (base : BaseHistory HotStoreBinaryAction) (channel : Bytes) (diff : Int)
      (mergeType : MergeType) (changes : ChannelChange Bytes),
      (mergeNumberChannel decodeDatum codec base channel diff mergeType changes).isSome := by
  rintro ⟨decodeDatum, codec, hClaim⟩
  have hNone : mergeNumberChannel decodeDatum codec unwrittenBase [] 0 .integerAdd ⟨[], [[1]]⟩ = none := rfl
  have hSome := hClaim unwrittenBase [] 0 .integerAdd ⟨[], [[1]]⟩
  rw [hNone] at hSome
  cases hSome

end F1r3Node.Merging
