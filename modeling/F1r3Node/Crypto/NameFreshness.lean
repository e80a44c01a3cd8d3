import F1r3Node.Crypto.GeneratorSteps

/-!
# Fresh names

Generators are drawn from, split and merged, each used up by a split or a merge. The names that are
drawn are pairwise distinct when each split packs its indices in one way.
-/

namespace F1r3Node.Crypto

open Lib Shared

/-- An index of `split_byte` or of `split_short`. -/
inductive SplitIndex where
  | byte (index : UInt8)
  | short (index : Int16)

namespace SplitIndex

def value : SplitIndex → Int
  | byte index => index.toNat
  | short index => index.toInt

def isShort : SplitIndex → Bool
  | byte _ => false
  | short _ => true

def packed : SplitIndex → Bytes
  | byte index => [index]
  | short index => [index.toUInt16.toUInt8, (index.toUInt16 >>> 8).toUInt8]

end SplitIndex

def DistinctIndices (indices : List SplitIndex) : Prop := indices.Pairwise fun i j => i.value ≠ j.value

def OneEncoding (indices : List SplitIndex) : Prop := ∀ i ∈ indices, ∀ j ∈ indices, i.isShort = j.isShort

section

variable {β : Type} (c : Compression β)

def Blake2b512Random.split (g : Blake2b512Random β) : SplitIndex → Option (Blake2b512Random β)
  | .byte index => g.splitByte c index
  | .short index => g.splitShort c index

/-- The generators that are not used up, and the names drawn so far. -/
structure Pool (β : Type) where
  live : List (Blake2b512Random β)
  names : List (List β)

/-- A draw, a split by allowed indices or a merge of live generators. -/
inductive Use (allowed : List SplitIndex → Prop) : Pool β → Pool β → Prop
  | draw {live rest : List (Blake2b512Random β)} {names : List (List β)} {g g' : Blake2b512Random β} {name : List β}
      (hLive : live.Perm (g :: rest)) (hNext : g.next c = some (name, g')) :
      Use allowed ⟨live, names⟩ ⟨g' :: rest, name :: names⟩
  | split {live rest children : List (Blake2b512Random β)} {names : List (List β)} {g : Blake2b512Random β}
      {indices : List SplitIndex} (hLive : live.Perm (g :: rest)) (hAllowed : allowed indices)
      (hSplit : List.Forall₂ (fun index child => g.split c index = some child) indices children) :
      Use allowed ⟨live, names⟩ ⟨children ++ rest, names⟩
  | merge {live rest children : List (Blake2b512Random β)} {names : List (List β)} {merged : Blake2b512Random β}
      (hLive : live.Perm (children ++ rest)) (hMerge : Blake2b512Random.merge c children = some merged) :
      Use allowed ⟨live, names⟩ ⟨merged :: rest, names⟩

/-- A name with the position it was drawn at and the half of the output it is. -/
structure Emission (β : Type) where
  position : Position β
  which : Bool
  name : List β

def Rooted (initLength : Nat) (consumed : List (Position β)) (a : Place β) : Prop :=
  a.fanout = 0 ∧ a.origin.length = initLength ∨
  a.fanout ≠ 0 ∧ a.origin.length = (a.fanout.toNat + 3) / 4 ∧
    ∃ x ∈ consumed, ∃ first, a.origin.getLast? = some first ∧ Yields c false x false (first.take 32)

def Pending (emitted : List (Emission β)) (g : Blake2b512Random β) (p : Position β) : Prop :=
  ∃ e : Position β, e.place = p.place ∧ Behind e p ∧ Yields c true e true (half true g.hashArray) ∧
    ∀ e' ∈ emitted, SameAddress c e'.position e → e'.which = false

/-- What holds of the live generators with their positions, the names and the positions that were used up. -/
structure Traced (initLength : Nat) (live : List (Blake2b512Random β × Position β)) (emitted : List (Emission β))
    (consumed : List (Position β)) : Prop where
  standing : ∀ l ∈ live, At c l.1 l.2
  pending : ∀ l ∈ live, l.1.position = 0 ∨ Pending c emitted l.1 l.2
  apart : live.Pairwise fun l l' => Apart l.2.place l'.2.place
  ahead : ∀ e ∈ emitted, ∀ l ∈ live, Apart e.position.place l.2.place ∨ Behind e.position l.2
  used : ∀ x ∈ consumed, ∀ l ∈ live, Apart x.place l.2.place
  rootedLive : ∀ l ∈ live, Rooted c initLength consumed l.2.place
  rootedEmitted : ∀ e ∈ emitted, Rooted c initLength consumed e.position.place
  rootedConsumed : ∀ x ∈ consumed, Rooted c initLength consumed x.place
  yields : ∀ e ∈ emitted, Yields c true e.position e.which e.name
  distinct : emitted.Pairwise fun e e' => SameAddress c e.position e'.position → e.which ≠ e'.which

variable {c} {initLength : Nat} {consumed : List (Position β)} {emitted : List (Emission β)}
  {live rest : List (Blake2b512Random β × Position β)}

variable {consumed' : List (Position β)}

theorem Rooted.length_eq {a b : Place β} (ha : Rooted c initLength consumed a)
    (hb : Rooted c initLength consumed' b) (h : a.fanout = b.fanout) : a.origin.length = b.origin.length := by
  rcases ha with ⟨hZero, hLength⟩ | ⟨hPos, hLength, -⟩
  · rcases hb with ⟨-, hLength'⟩ | ⟨hPos', -⟩
    · rw [hLength, hLength']
    · exact absurd (h.symm.trans hZero) hPos'
  · rcases hb with ⟨hZero', -⟩ | ⟨-, hLength', -⟩
    · exact absurd (h.trans hZero') hPos
    · rw [hLength, hLength', h]

theorem Rooted.mono {a : Place β} (h : Rooted c initLength consumed a)
    (hSub : ∀ x ∈ consumed, x ∈ consumed') : Rooted c initLength consumed' a := by
  rcases h with h | ⟨hPos, hLength, x, hx, first, hFirst⟩
  · exact .inl h
  · exact .inr ⟨hPos, hLength, x, hSub x hx, first, hFirst⟩

theorem not_sameAddress {p q : Position β} (hp : Rooted c initLength consumed p.place)
    (hq : Rooted c initLength consumed' q.place) (h : Apart p.place q.place ∨ Behind p q) :
    ¬ SameAddress c p q := by
  intro hSame
  have hOrigin : p.origin.length = q.origin.length := hp.length_eq hq hSame.fanout
  exact h.elim (hSame.not_apart hOrigin) (hSame.not_behind hOrigin)

theorem eq_of_bytes_eq {v w : UInt16} (hLow : v.toUInt8 = w.toUInt8) (hHigh : (v >>> 8).toUInt8 = (w >>> 8).toUInt8) :
    v = w := by
  have hShift : ∀ w : UInt16, (w >>> 8).toUInt8.toNat = w.toNat / 256 % 256 := by
    intro w
    simp [Nat.shiftRight_eq_div_pow]
  have hHigh := congrArg UInt8.toNat hHigh
  rw [hShift, hShift] at hHigh
  have hLow := congrArg UInt8.toNat hLow
  rw [UInt16.toNat_toUInt8, UInt16.toNat_toUInt8] at hLow
  have hBound := v.toNat_lt
  have hBound' := w.toNat_lt
  rw [← UInt16.toNat_inj]
  omega

theorem packed_ne {i j : SplitIndex} (hValue : i.value ≠ j.value) (hShort : i.isShort = j.isShort) :
    i.packed.length = j.packed.length ∧ i.packed ≠ j.packed := by
  cases i with
  | byte i =>
    cases j with
    | byte j =>
      refine ⟨rfl, fun hPacked => hValue ?_⟩
      rw [(List.cons.inj hPacked).1]
    | short j => cases hShort
  | short i =>
    cases j with
    | byte j => cases hShort
    | short j =>
      refine ⟨rfl, fun hPacked => hValue ?_⟩
      obtain ⟨hLow, hHigh⟩ := List.cons.inj hPacked
      have hWords : i.toUInt16 = j.toUInt16 := eq_of_bytes_eq hLow (List.cons.inj hHigh).1
      have hSame : i = j := congrArg UInt16.toInt16 hWords
      rw [hSame]

theorem packed_apart {indices : List SplitIndex} (hDistinct : DistinctIndices indices)
    (hEncoding : OneEncoding indices) :
    indices.Pairwise fun i j => i.packed.length = j.packed.length ∧ i.packed ≠ j.packed :=
  List.Pairwise.imp_of_mem (fun hi hj hValue => packed_ne hValue (hEncoding _ hi _ hj)) hDistinct

theorem At.split {g g' : Blake2b512Random β} {p : Position β} (h : At c g p) {index : SplitIndex}
    (hSplit : g.split c index = some g') :
    g'.position = 0 ∧ ∃ q, At c g' q ∧ Extends p q ∧ q.bytes = p.bytes ++ index.packed := by
  cases index with
  | byte index => exact h.splitByte hSplit
  | short index => exact h.splitShort hSplit

theorem At.splitAll {g : Blake2b512Random β} {p : Position β} (h : At c g p) {indices : List SplitIndex}
    {children : List (Blake2b512Random β)}
    (hPacked : indices.Pairwise fun i j => i.packed.length = j.packed.length ∧ i.packed ≠ j.packed)
    (hSplit : List.Forall₂ (fun index child => g.split c index = some child) indices children) :
    ∃ split : List (Blake2b512Random β × Position β), split.map Prod.fst = children ∧
      (∀ l ∈ split, At c l.1 l.2 ∧ l.1.position = 0 ∧ Extends p l.2 ∧
        ∃ i ∈ indices, l.2.bytes = p.bytes ++ i.packed) ∧
      split.Pairwise fun l l' => Apart l.2.place l'.2.place := by
  induction hSplit with
  | nil => exact ⟨[], rfl, fun l hl => absurd hl List.not_mem_nil, .nil⟩
  | @cons index child indices children hChild _ ih =>
    obtain ⟨hFirst, hRest⟩ := List.pairwise_cons.mp hPacked
    obtain ⟨hPosition, q, hAt, hExtends, hBytes⟩ := h.split hChild
    obtain ⟨split, hChildren, hSpec, hApart⟩ := ih hRest
    refine ⟨(child, q) :: split, by rw [List.map_cons, hChildren], ?_, List.pairwise_cons.mpr ⟨?_, hApart⟩⟩
    · refine List.forall_mem_cons.mpr ⟨⟨hAt, hPosition, hExtends, index, List.mem_cons_self, hBytes⟩, fun l hl => ?_⟩
      obtain ⟨hAtL, hZero, hExtendsL, i, hi, hBytesL⟩ := hSpec l hl
      exact ⟨hAtL, hZero, hExtendsL, i, List.mem_cons_of_mem _ hi, hBytesL⟩
    · intro l hl
      obtain ⟨-, -, -, i, hi, hBytesL⟩ := hSpec l hl
      refine .inr ?_
      change Parted q.bytes l.2.bytes
      rw [hBytes, hBytesL]
      exact parted_append p.bytes (hFirst i hi).1 (hFirst i hi).2

namespace Traced

theorem perm {live' : List (Blake2b512Random β × Position β)} (h : Traced c initLength live emitted consumed)
    (hPerm : live.Perm live') : Traced c initLength live' emitted consumed where
  standing := fun l hl => h.standing l (hPerm.mem_iff.mpr hl)
  pending := fun l hl => h.pending l (hPerm.mem_iff.mpr hl)
  apart := h.apart.perm hPerm fun hApart => hApart.symm
  ahead := fun e he l hl => h.ahead e he l (hPerm.mem_iff.mpr hl)
  used := fun x hx l hl => h.used x hx l (hPerm.mem_iff.mpr hl)
  rootedLive := fun l hl => h.rootedLive l (hPerm.mem_iff.mpr hl)
  rootedEmitted := h.rootedEmitted
  rootedConsumed := h.rootedConsumed
  yields := h.yields
  distinct := h.distinct

theorem nodup_names (hc : c.HalvesInjective) (h : Traced c initLength live emitted consumed) :
    (emitted.map Emission.name).Nodup := by
  refine List.pairwise_map.mpr (h.distinct.imp_of_mem fun he he' hDistinct hName => ?_)
  have hYields := h.yields _ he
  rw [hName] at hYields
  obtain ⟨hSame, hWhich⟩ := yields_injective hc hYields (h.yields _ he')
  exact hDistinct hSame hWhich

variable {g g' : Blake2b512Random β} {p : Position β}

variable {children : List (Blake2b512Random β × Position β)}

theorem replace (h : Traced c initLength ((g, p) :: rest) emitted consumed)
    (hAt : ∀ l ∈ children, At c l.1 l.2)
    (hPending : ∀ l ∈ children, l.1.position = 0 ∨ Pending c emitted l.1 l.2)
    (hExtends : ∀ l ∈ children, Extends p l.2)
    (hApart : children.Pairwise fun l l' => Apart l.2.place l'.2.place) :
    Traced c initLength (children ++ rest) emitted consumed := by
  obtain ⟨hHead, hRest⟩ := List.pairwise_cons.mp h.apart
  have hSelf : (g, p) ∈ (g, p) :: rest := List.mem_cons_self
  have hOther : ∀ l ∈ rest, l ∈ (g, p) :: rest := fun l hl => List.mem_cons_of_mem _ hl
  refine ⟨?_, ?_, ?_, ?_, ?_, ?_, h.rootedEmitted, h.rootedConsumed, h.yields, h.distinct⟩
  · exact List.forall_mem_append.mpr ⟨hAt, fun l hl => h.standing l (hOther l hl)⟩
  · exact List.forall_mem_append.mpr ⟨hPending, fun l hl => h.pending l (hOther l hl)⟩
  · refine List.pairwise_append.mpr ⟨hApart, hRest, fun l hl l' hl' => ?_⟩
    exact ((hHead l' hl').symm.extend (hExtends l hl)).symm
  · intro e he
    refine List.forall_mem_append.mpr ⟨fun l hl => ?_, fun l hl => h.ahead e he l (hOther l hl)⟩
    exact (h.ahead e he _ hSelf).imp (·.extend (hExtends l hl)) (·.extend (hExtends l hl))
  · intro x hx
    refine List.forall_mem_append.mpr ⟨fun l hl => ?_, fun l hl => h.used x hx l (hOther l hl)⟩
    exact (h.used x hx _ hSelf).extend (hExtends l hl)
  · refine List.forall_mem_append.mpr ⟨fun l hl => ?_, fun l hl => h.rootedLive l (hOther l hl)⟩
    have hRooted := h.rootedLive _ hSelf
    simp only [Rooted, Position.place] at hRooted ⊢
    rw [(hExtends l hl).fanout, (hExtends l hl).origin]
    exact hRooted

theorem emit (h : Traced c initLength live emitted consumed) {e : Emission β}
    (hYields : Yields c true e.position e.which e.name) (hRooted : Rooted c initLength consumed e.position.place)
    (hDistinct : ∀ e' ∈ emitted, SameAddress c e.position e'.position → e.which ≠ e'.which)
    (hAhead : ∀ l ∈ live, Apart e.position.place l.2.place ∨ Behind e.position l.2)
    (hPending : ∀ l ∈ live, l.1.position = 0 ∨ Pending c (e :: emitted) l.1 l.2) :
    Traced c initLength live (e :: emitted) consumed where
  standing := h.standing
  pending := hPending
  apart := h.apart
  ahead := List.forall_mem_cons.mpr ⟨hAhead, h.ahead⟩
  used := h.used
  rootedLive := h.rootedLive
  rootedEmitted := List.forall_mem_cons.mpr ⟨hRooted, h.rootedEmitted⟩
  rootedConsumed := h.rootedConsumed
  yields := List.forall_mem_cons.mpr ⟨hYields, h.yields⟩
  distinct := List.pairwise_cons.mpr ⟨hDistinct, h.distinct⟩

section

variable (h : Traced c initLength ((g, p) :: rest) emitted consumed)

include h

theorem drawFirst (hHash : g.hash c = some g') :
    ∃ q, Traced c initLength (({ g' with position := 32 }, q) :: rest)
      (⟨p, false, g'.hashArray.take 32⟩ :: emitted) consumed := by
  have hSelf : (g, p) ∈ (g, p) :: rest := List.mem_cons_self
  have hStanding := h.standing _ hSelf
  have hRooted := h.rootedLive _ hSelf
  obtain ⟨-, hYields, q, hAt, hExtends, hBehind, hPlace⟩ := hStanding.hash hHash
  have hFresh : ∀ e ∈ emitted, ¬ SameAddress c e.position p := fun e he =>
    not_sameAddress (h.rootedEmitted e he) hRooted (h.ahead e he _ hSelf)
  have hPending : Pending c emitted { g' with position := 32 } q :=
    ⟨p, hPlace.symm, hBehind, hYields true, fun e he hSame => absurd hSame (hFresh e he)⟩
  have hMoved : Traced c initLength ([({ g' with position := 32 }, q)] ++ rest) emitted consumed := by
    refine h.replace ?_ ?_ ?_ (List.pairwise_singleton _ _)
    · exact List.forall_mem_singleton.mpr
        ⟨hAt.digest, hAt.lastBlock, hAt.pathPosition, hAt.countLow, hAt.countHigh, hAt.count⟩
    · exact List.forall_mem_singleton.mpr (.inr hPending)
    · exact List.forall_mem_singleton.mpr hExtends
  refine ⟨q, hMoved.emit (hYields false) hRooted ?_ ?_ ?_⟩
  · exact fun e he hSame => absurd hSame.symm (hFresh e he)
  · refine List.forall_mem_cons.mpr ⟨.inr hBehind, fun l hl => .inl ?_⟩
    exact (List.pairwise_cons.mp h.apart).1 l hl
  · intro l hl
    refine (hMoved.pending l hl).imp_right fun ⟨e, hSamePlace, hOrder, hHalf, hFirst⟩ => ?_
    exact ⟨e, hSamePlace, hOrder, hHalf, List.forall_mem_cons.mpr ⟨fun _ => rfl, hFirst⟩⟩

theorem drawSecond (hPosition : g.position ≠ 0) :
    ∃ e : Position β, Traced c initLength (({ g with position := 0 }, p) :: rest)
      (⟨e, true, g.hashArray.drop 32⟩ :: emitted) consumed := by
  have hSelf : (g, p) ∈ (g, p) :: rest := List.mem_cons_self
  have hStanding := h.standing _ hSelf
  have hHead := (List.pairwise_cons.mp h.apart).1
  obtain ⟨e, hPlace, hBehind, hYields, hOnlyFirst⟩ := (h.pending _ hSelf).resolve_left hPosition
  have hRooted : Rooted c initLength consumed e.place := hPlace ▸ h.rootedLive _ hSelf
  have hMoved : Traced c initLength ([({ g with position := 0 }, p)] ++ rest) emitted consumed := by
    refine h.replace ?_ ?_ ?_ (List.pairwise_singleton _ _)
    · exact List.forall_mem_singleton.mpr ⟨hStanding.digest, hStanding.lastBlock, hStanding.pathPosition,
        hStanding.countLow, hStanding.countHigh, hStanding.count⟩
    · exact List.forall_mem_singleton.mpr (.inl rfl)
    · exact List.forall_mem_singleton.mpr (.refl p)
  refine ⟨e, hMoved.emit hYields hRooted ?_ ?_ ?_⟩
  · intro e' he' hSame
    rw [hOnlyFirst e' he' hSame.symm]
    exact Bool.true_eq_false_eq_False
  · refine List.forall_mem_cons.mpr ⟨.inr hBehind, fun l hl => .inl ?_⟩
    change Apart e.place _
    rw [hPlace]
    exact hHead l hl
  · refine List.forall_mem_cons.mpr ⟨.inl rfl, fun l hl => ?_⟩
    have hOther : l ∈ (g, p) :: rest := List.mem_cons_of_mem _ hl
    refine (h.pending l hOther).imp_right fun ⟨e₂, hSamePlace, hOrder, hHalf, hFirst⟩ => ?_
    refine ⟨e₂, hSamePlace, hOrder, hHalf, List.forall_mem_cons.mpr ⟨fun hSame => ?_, hFirst⟩⟩
    -- the other pending half was hashed at a place apart from this one
    have hRooted₂ : Rooted c initLength consumed e₂.place := hSamePlace ▸ h.rootedLive l hOther
    have hApart : Apart e.place e₂.place := by
      rw [hPlace, hSamePlace]
      exact hHead l hl
    exact absurd hSame (not_sameAddress hRooted hRooted₂ (.inl hApart))

theorem draw {name : List β} (hNext : g.next c = some (name, g')) :
    ∃ q e, e.name = name ∧ Traced c initLength ((g', q) :: rest) (e :: emitted) consumed := by
  rw [Blake2b512Random.next] at hNext
  split at hNext
  · obtain ⟨hashed, hHash, hRest⟩ := Option.bind_eq_some_iff.mp hNext
    obtain ⟨rfl, rfl⟩ := Prod.mk.inj (Option.some.inj hRest)
    obtain ⟨q, hTraced⟩ := h.drawFirst hHash
    exact ⟨q, _, rfl, hTraced⟩
  · next hPosition =>
    obtain ⟨rfl, rfl⟩ := Prod.mk.inj (Option.some.inj hNext)
    obtain ⟨e, hTraced⟩ := h.drawSecond hPosition
    exact ⟨p, _, rfl, hTraced⟩

theorem split {indices : List SplitIndex}
    {children : List (Blake2b512Random β)} (hDistinct : DistinctIndices indices) (hEncoding : OneEncoding indices)
    (hSplit : List.Forall₂ (fun index child => g.split c index = some child) indices children) :
    ∃ split, split.map Prod.fst = children ∧ Traced c initLength (split ++ rest) emitted consumed := by
  obtain ⟨split, hChildren, hSpec, hApart⟩ :=
    (h.standing _ List.mem_cons_self).splitAll (packed_apart hDistinct hEncoding) hSplit
  refine ⟨split, hChildren, h.replace (fun l hl => (hSpec l hl).1) (fun l hl => .inl (hSpec l hl).2.1)
    (fun l hl => (hSpec l hl).2.2.1) hApart⟩

end

theorem origin_fresh (hc : c.HalvesInjective) (h : Traced c initLength ((g, p) :: rest) emitted consumed)
    {origin : List (List β)} {first : List β} (hFirst : Yields c false p false (first.take 32)) {fanout : UInt8}
    (hFanout : fanout ≠ 0) {a : Place β} (ha : Rooted c initLength consumed a) :
    ¬ (a.fanout = fanout ∧ a.origin = origin ++ [first]) := by
  rintro ⟨hSameFanout, hSameOrigin⟩
  rcases ha with ⟨hZero, -⟩ | ⟨-, -, x, hx, first', hLast, hYields⟩
  · exact hFanout (hSameFanout.symm.trans hZero)
  · rw [hSameOrigin, List.getLast?_concat, Option.some.injEq] at hLast
    subst hLast
    have hSame := (yields_injective hc hYields hFirst).1
    have hSelf : (g, p) ∈ (g, p) :: rest := List.mem_cons_self
    exact not_sameAddress (h.rootedConsumed x hx) (h.rootedLive _ hSelf) (.inl (h.used x hx _ hSelf)) hSame

variable {chainBlock : List β}

theorem squash (hc : c.HalvesInjective) {slice : List (Blake2b512Random β × Position β)}
    (h : Traced c initLength (slice ++ rest) emitted consumed) (hne : slice ≠ []) (hLength : slice.length ≤ 255)
    {chainBlock' : List β}
    (hSquash : Blake2b512Random.squash c chainBlock (slice.map Prod.fst) = some (g', chainBlock')) :
    ∃ q, Traced c initLength ((g', q) :: rest) emitted (slice.map Prod.snd ++ consumed) := by
  obtain - | ⟨⟨child, p⟩, slice⟩ := slice
  · exact absurd rfl hne
  rw [List.map_cons] at hSquash
  obtain ⟨hPosition, origin, first, hAt, hOrigin, hFirst⟩ := at_squash hSquash
  have hYields : Yields c false p false (first.take 32) := (h.standing (child, p) List.mem_cons_self).finalizeInternal hFirst
  have hCount : (UInt8.ofNat ((slice.map Prod.fst).length + 1)).toNat = slice.length + 1 := by
    rw [List.length_cons] at hLength
    rw [List.length_map]
    exact UInt8.toNat_ofNat_of_lt (show _ < 256 by omega)
  have hFanout : UInt8.ofNat ((slice.map Prod.fst).length + 1) ≠ 0 := by
    intro hZero
    rw [hZero] at hCount
    exact absurd hCount (Nat.succ_ne_zero _).symm
  generalize UInt8.ofNat ((slice.map Prod.fst).length + 1) = fanout at hAt hCount hFanout
  have hNew : ∀ a, Rooted c initLength consumed a → Apart a (Position.fresh fanout (origin ++ [first])).place :=
    fun a ha => .inl (h.origin_fresh hc hYields hFanout ha)
  have hMore : ∀ x ∈ consumed, x ∈ ((child, p) :: slice).map Prod.snd ++ consumed :=
    fun x hx => List.mem_append_right _ hx
  have hLater : ∀ l ∈ rest, l ∈ (child, p) :: slice ++ rest := fun l hl => List.mem_append_right _ hl
  have hGone : ∀ x ∈ ((child, p) :: slice).map Prod.snd, ∃ l ∈ (child, p) :: slice, l.2 = x := fun x hx =>
    List.mem_map.mp hx
  obtain ⟨-, hRest, hBetween⟩ := List.pairwise_append.mp h.apart
  refine ⟨.fresh fanout (origin ++ [first]), ?_, ?_, ?_, ?_, ?_, ?_, ?_, ?_, h.yields, h.distinct⟩
  · exact List.forall_mem_cons.mpr ⟨hAt, fun l hl => h.standing l (hLater l hl)⟩
  · exact List.forall_mem_cons.mpr ⟨.inl hPosition, fun l hl => h.pending l (hLater l hl)⟩
  · exact List.pairwise_cons.mpr ⟨fun l hl => (hNew _ (h.rootedLive l (hLater l hl))).symm, hRest⟩
  · intro e he
    exact List.forall_mem_cons.mpr ⟨.inl (hNew _ (h.rootedEmitted e he)), fun l hl => h.ahead e he l (hLater l hl)⟩
  · refine List.forall_mem_append.mpr ⟨fun x hx => ?_, fun x hx => ?_⟩
    · obtain ⟨l, hl, rfl⟩ := hGone x hx
      refine List.forall_mem_cons.mpr ⟨hNew _ (h.rootedLive l (List.mem_append_left _ hl)), fun l' hl' => ?_⟩
      exact hBetween l hl l' hl'
    · exact List.forall_mem_cons.mpr ⟨hNew _ (h.rootedConsumed x hx), fun l hl => h.used x hx l (hLater l hl)⟩
  · refine List.forall_mem_cons.mpr ⟨.inr ⟨hFanout, ?_, p, ?_, first, ?_, hYields⟩, fun l hl => ?_⟩
    · change (origin ++ [first]).length = (fanout.toNat + 3) / 4
      rw [hOrigin, hCount, List.length_map]
    · exact List.mem_append_left _ List.mem_cons_self
    · exact List.getLast?_concat
    · exact (h.rootedLive l (hLater l hl)).mono hMore
  · exact fun e he => (h.rootedEmitted e he).mono hMore
  · refine List.forall_mem_append.mpr ⟨fun x hx => ?_, fun x hx => (h.rootedConsumed x hx).mono hMore⟩
    obtain ⟨l, hl, rfl⟩ := hGone x hx
    exact (h.rootedLive l (List.mem_append_left _ hl)).mono hMore

theorem squashAll (hc : c.HalvesInjective) {slices : List (List (Blake2b512Random β))}
    (h : Traced c initLength (children ++ rest) emitted consumed)
    (hChildren : children.map Prod.fst = slices.flatten) (hSlices : ∀ slice ∈ slices, slice ≠ [] ∧ slice.length ≤ 255)
    {chainBlock' : List β} {squashed : List (Blake2b512Random β)}
    (hSquash : Blake2b512Random.squashAll c chainBlock slices = some (squashed, chainBlock')) :
    ∃ (placed : List (Blake2b512Random β × Position β)) (used : List (Position β)),
      placed.map Prod.fst = squashed ∧ Traced c initLength (placed ++ rest) emitted used := by
  induction slices generalizing children rest consumed chainBlock squashed with
  | nil =>
    obtain ⟨rfl, rfl⟩ := Prod.mk.inj (Option.some.inj hSquash)
    exact ⟨children, consumed, hChildren, h⟩
  | cons slice slices ih =>
    obtain ⟨hSlice, hOtherSlices⟩ := List.forall_mem_cons.mp hSlices
    obtain ⟨⟨merged, chainBlock₁⟩, hFirst, hRest⟩ := Option.bind_eq_some_iff.mp hSquash
    obtain ⟨⟨others, chainBlock₂⟩, hOthers, hRest⟩ := Option.bind_eq_some_iff.mp hRest
    obtain ⟨rfl, rfl⟩ := Prod.mk.inj (Option.some.inj hRest)
    obtain ⟨taken, left, rfl, rfl, hLeft⟩ := List.map_eq_append_iff.mp hChildren
    rw [List.append_assoc] at h
    have hne : taken ≠ [] := fun hNil => hSlice.1 (by rw [hNil, List.map_nil])
    obtain ⟨q, hTraced⟩ := h.squash hc hne (by simpa only [List.length_map] using hSlice.2) hFirst
    obtain ⟨placed, used, hPlaced, hDone⟩ := ih (hTraced.perm (List.perm_middle.symm)) hLeft hOtherSlices hOthers
    refine ⟨(merged, q) :: placed, used, by rw [List.map_cons, hPlaced], hDone.perm ?_⟩
    exact List.perm_middle

theorem mergeRounds (hc : c.HalvesInjective) {fuel : Nat}
    (h : Traced c initLength (children ++ rest) emitted consumed)
    {merged : List (Blake2b512Random β)}
    (hMerge : Blake2b512Random.mergeRounds c fuel chainBlock (children.map Prod.fst) = some merged) :
    ∃ (placed : List (Blake2b512Random β × Position β)) (used : List (Position β)),
      placed.map Prod.fst = merged ∧ Traced c initLength (placed ++ rest) emitted used := by
  induction fuel generalizing children consumed chainBlock with
  | zero =>
    obtain rfl := Option.some.inj hMerge
    exact ⟨children, consumed, rfl, h⟩
  | succ fuel ih =>
    rw [Blake2b512Random.mergeRounds] at hMerge
    split at hMerge
    · obtain ⟨⟨squashed, chainBlock₁⟩, hSquash, hRest⟩ := Option.bind_eq_some_iff.mp hMerge
      obtain ⟨placed, used, rfl, hTraced⟩ :=
        h.squashAll hc (flatten_chunks 254 _).symm (fun slice hSlice => of_mem_chunks hSlice) hSquash
      exact ih hTraced hRest
    · obtain rfl := Option.some.inj hMerge
      exact ⟨children, consumed, rfl, h⟩

end Traced

theorem length_squashAll {slices : List (List (Blake2b512Random β))} {chainBlock chainBlock' : List β}
    {squashed : List (Blake2b512Random β)}
    (h : Blake2b512Random.squashAll c chainBlock slices = some (squashed, chainBlock')) :
    squashed.length = slices.length := by
  induction slices generalizing chainBlock squashed with
  | nil =>
    obtain ⟨rfl, rfl⟩ := Prod.mk.inj (Option.some.inj h)
    rfl
  | cons slice slices ih =>
    obtain ⟨⟨merged, chainBlock₁⟩, -, hRest⟩ := Option.bind_eq_some_iff.mp h
    obtain ⟨⟨others, chainBlock₂⟩, hOthers, hRest⟩ := Option.bind_eq_some_iff.mp hRest
    obtain ⟨rfl, rfl⟩ := Prod.mk.inj (Option.some.inj hRest)
    rw [List.length_cons, List.length_cons, ih hOthers]

theorem length_mergeRounds {fuel : Nat} {children merged : List (Blake2b512Random β)} {chainBlock : List β}
    (hne : children ≠ []) (hFuel : children.length ≤ fuel + 1)
    (h : Blake2b512Random.mergeRounds c fuel chainBlock children = some merged) : merged.length = 1 := by
  induction fuel generalizing children chainBlock with
  | zero =>
    obtain rfl := Option.some.inj h
    have hPos := List.length_pos_iff.mpr hne
    omega
  | succ fuel ih =>
    have hPos := List.length_pos_iff.mpr hne
    rw [Blake2b512Random.mergeRounds] at h
    split at h
    · next hMany =>
      obtain ⟨⟨squashed, chainBlock₁⟩, hSquash, hRest⟩ := Option.bind_eq_some_iff.mp h
      have hLength : squashed.length = (children.length + 254) / 255 := by
        rw [length_squashAll hSquash, length_chunks]
      refine ih (List.length_pos_iff.mp ?_) ?_ hRest
      · omega
      · omega
    · obtain rfl := Option.some.inj h
      omega

variable (c) in
def PoolTraced (initLength : Nat) (pool : Pool β) : Prop :=
  ∃ (live : List (Blake2b512Random β × Position β)) (emitted : List (Emission β)) (consumed : List (Position β)),
    live.map Prod.fst = pool.live ∧ emitted.map Emission.name = pool.names ∧
    Traced c initLength live emitted consumed

theorem poolTraced_create {init : Bytes} {g : Blake2b512Random β} (h : Blake2b512Random.create c init = some g) :
    ∃ initLength, PoolTraced c initLength ⟨[g], []⟩ := by
  obtain ⟨hPosition, origin, hAt⟩ := at_create h
  refine ⟨origin.length, [(g, .fresh 0 origin)], [], [], rfl, rfl, ?_⟩
  refine ⟨?_, ?_, List.pairwise_singleton _ _, ?_, ?_, ?_, ?_, ?_, ?_, .nil⟩
  · exact List.forall_mem_singleton.mpr hAt
  · exact List.forall_mem_singleton.mpr (.inl hPosition)
  · exact fun e he => absurd he List.not_mem_nil
  · exact fun x hx => absurd hx List.not_mem_nil
  · exact List.forall_mem_singleton.mpr (.inl ⟨rfl, rfl⟩)
  · exact fun e he => absurd he List.not_mem_nil
  · exact fun x hx => absurd hx List.not_mem_nil
  · exact fun e he => absurd he List.not_mem_nil

def SplitsInOneEncoding (indices : List SplitIndex) : Prop := DistinctIndices indices ∧ OneEncoding indices

theorem PoolTraced.use (hc : c.HalvesInjective) {initLength : Nat} {pool pool' : Pool β}
    (h : PoolTraced c initLength pool) (hUse : Use c SplitsInOneEncoding pool pool') :
    PoolTraced c initLength pool' := by
  obtain ⟨pairs, emitted, consumed, hLive, hNames, hTraced⟩ := h
  cases hUse with
  | @draw live rest names g g' name hPerm hNext =>
    obtain ⟨placed, hPlaced, hMap⟩ := exists_perm_map_eq (hLive ▸ hPerm : (pairs.map Prod.fst).Perm (g :: rest))
    obtain ⟨⟨_, p⟩, others, rfl, rfl, rfl⟩ := List.map_eq_cons_iff.mp hMap
    obtain ⟨q, e, rfl, hDrawn⟩ := (hTraced.perm hPlaced).draw hNext
    exact ⟨(g', q) :: others, e :: emitted, consumed, rfl, congrArg (List.cons e.name) hNames, hDrawn⟩
  | @split live rest children names g indices hPerm hAllowed hSplit =>
    obtain ⟨placed, hPlaced, hMap⟩ := exists_perm_map_eq (hLive ▸ hPerm : (pairs.map Prod.fst).Perm (g :: rest))
    obtain ⟨⟨_, p⟩, others, rfl, rfl, rfl⟩ := List.map_eq_cons_iff.mp hMap
    obtain ⟨split, rfl, hDone⟩ := (hTraced.perm hPlaced).split hAllowed.1 hAllowed.2 hSplit
    exact ⟨split ++ others, emitted, consumed, List.map_append, hNames, hDone⟩
  | @merge live rest children names merged hPerm hMerge =>
    obtain ⟨placed, hPlaced, hMap⟩ := exists_perm_map_eq (hLive ▸ hPerm : (pairs.map Prod.fst).Perm (children ++ rest))
    obtain ⟨taken, others, rfl, rfl, rfl⟩ := List.map_eq_append_iff.mp hMap
    obtain ⟨_, hMany, hRest⟩ := Option.bind_eq_some_iff.mp hMerge
    obtain ⟨left, hRounds, hHead⟩ := Option.bind_eq_some_iff.mp hRest
    obtain ⟨placed, used, rfl, hDone⟩ := (hTraced.perm hPlaced).mergeRounds hc hRounds
    have hne : taken.map Prod.fst ≠ [] := by
      intro hNil
      rw [hNil, List.length_nil, guard, if_neg (by omega)] at hMany
      cases hMany
    have hOne := length_mergeRounds hne (Nat.le_succ _) hRounds
    obtain ⟨⟨m, q⟩, rfl⟩ := List.length_eq_one_iff.mp (List.length_map (f := Prod.fst) ▸ hOne)
    obtain rfl := Option.some.inj hHead
    exact ⟨(m, q) :: others, emitted, used, rfl, hNames, hDone⟩

/-- No two draws from one initial generator return the same name, if each split uses one encoding of its indices. -/
theorem names_nodup (hc : c.HalvesInjective) {init : Bytes} {g : Blake2b512Random β}
    (hCreate : Blake2b512Random.create c init = some g) {pool : Pool β}
    (hRun : Relation.ReflTransGen (Use c SplitsInOneEncoding) ⟨[g], []⟩ pool) : pool.names.Nodup := by
  obtain ⟨initLength, hStart⟩ := poolTraced_create hCreate
  have hEnd : PoolTraced c initLength pool := by
    induction hRun with
    | refl => exact hStart
    | tail _ hUse ih => exact ih.use hc hUse
  obtain ⟨live, emitted, consumed, -, hNames, hTraced⟩ := hEnd
  rw [← hNames]
  exact hTraced.nodup_names hc

end

inductive NameSymbol where
  | byte (b : UInt8)
  | output (input : CompressionInput NameSymbol) (index : Nat)

def symbolicCompression : Compression NameSymbol where
  ofByte := ⟨NameSymbol.byte, fun _ _ h => NameSymbol.byte.inj h⟩
  compress input := (List.range 64).map (NameSymbol.output input)
  length_compress input := by rw [List.length_map, List.length_range]

theorem head_half_symbolicCompression (input : CompressionInput NameSymbol) (which : Bool) :
    (half which (symbolicCompression.compress input)).head? = some (.output input (if which then 32 else 0)) := by
  cases which <;> rfl

theorem halvesInjective_symbolicCompression : symbolicCompression.HalvesInjective := by
  intro i j h h' hHalves
  have hHeads := congrArg List.head? hHalves
  rw [head_half_symbolicCompression, head_half_symbolicCompression] at hHeads
  obtain ⟨hInput, hIndex⟩ := NameSymbol.output.inj (Option.some.inj hHeads)
  refine ⟨hInput, ?_⟩
  cases h <;> cases h' <;> first | rfl | cases hIndex

def emptyGenerator : Blake2b512Random NameSymbol :=
  .new symbolicCompression (.newFromFanout symbolicCompression 0) Blake2b512Random.zeroBlock

/-- A draw, a split in two, and a merge of the two with a draw after it. -/
theorem names_nodup_symbolic : ∃ pool : Pool NameSymbol,
    Relation.ReflTransGen (Use symbolicCompression SplitsInOneEncoding) ⟨[emptyGenerator], []⟩ pool ∧
      pool.names.length = 2 ∧ pool.names.Nodup := by
  have hSplits : SplitsInOneEncoding [.byte 0, .byte 1] := by
    constructor
    · exact List.pairwise_pair.mpr (by decide)
    · intro i hi j hj
      simp only [List.mem_cons, List.not_mem_nil, or_false] at hi hj
      rcases hi with rfl | rfl <;> rcases hj with rfl | rfl <;> rfl
  have hRun : ∃ pool : Pool NameSymbol, pool.names.length = 2 ∧
      Relation.ReflTransGen (Use symbolicCompression SplitsInOneEncoding) ⟨[emptyGenerator], []⟩ pool :=
    ⟨_, rfl, .head (.draw (.refl _) rfl) (.head (.split (.refl _) hSplits (.cons rfl (.cons rfl .nil)))
      (.head (.merge (.refl _) rfl) (.single (.draw (.refl _) rfl))))⟩
  obtain ⟨pool, hLength, hRun⟩ := hRun
  have hCreate : Blake2b512Random.create symbolicCompression [] = some emptyGenerator := rfl
  exact ⟨pool, hRun, hLength, names_nodup halvesInjective_symbolicCompression hCreate hRun⟩

/-- With distinct indices alone, the byte 0 followed by the byte 1 and the short 256 lead to the same names. -/
theorem not_names_nodup_of_distinctIndices : ¬ ∀ (β : Type) (c : Compression β), c.HalvesInjective →
    ∀ (init : Bytes) (g : Blake2b512Random β), Blake2b512Random.create c init = some g → ∀ pool : Pool β,
      Relation.ReflTransGen (Use c DistinctIndices) ⟨[g], []⟩ pool → pool.names.Nodup := by
  intro hClaim
  have hMixed : DistinctIndices [.byte 0, .short 256] := List.pairwise_pair.mpr (by decide)
  have hOne : DistinctIndices [.byte 1] := List.pairwise_singleton _ _
  have hRun : ∃ pool : Pool NameSymbol, (∃ name, pool.names = [name, name]) ∧
      Relation.ReflTransGen (Use symbolicCompression DistinctIndices) ⟨[emptyGenerator], []⟩ pool :=
    ⟨_, ⟨_, rfl⟩, .head (.split (.refl _) hMixed (.cons rfl (.cons rfl .nil)))
      (.head (.split (.refl _) hOne (.cons rfl .nil))
        (.head (.draw (.refl _) rfl) (.single (.draw (.swap _ _ _) rfl))))⟩
  obtain ⟨pool, ⟨name, hNames⟩, hRun⟩ := hRun
  have hNodup := hClaim NameSymbol symbolicCompression halvesInjective_symbolicCompression [] emptyGenerator rfl pool hRun
  rw [hNames] at hNodup
  exact (List.nodup_cons.mp hNodup).1 List.mem_cons_self

end F1r3Node.Crypto
