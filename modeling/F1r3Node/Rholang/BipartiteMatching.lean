import F1r3Node.Lib.ListRelation
import F1r3Node.Rholang.MaximumBipartiteMatch
import Mathlib.Data.Fin.VecNotation
import Mathlib.Data.Fintype.Basic
import Mathlib.Tactic.FinCases

/-! # When the patterns find their targets

A round fails if no target can be freed by moving placed patterns on. This is not the same as that no
assignment exists, since a placed pattern may have to move back.
-/

namespace F1r3Node.Rholang

namespace MaximumBipartiteMatch

variable {P T R σ : Type} [DecidableEq T]

abbrev Matched (P T R : Type) := AList fun _ : Candidate T => CandidatePattern P T × R

section

variable (f : P → T → Option R)

def WellPlaced (ts : List (Candidate T)) (matched : Matched P T R) : Prop :=
  ∀ t e, matched.lookup t = some e → ∃ rest, e.1.2 = t :: rest ∧ t :: rest <:+ ts ∧ f e.1.1 t.value = some e.2

/-- The outcome of a search that failed: all candidates of the pattern were seen, and so were those of the
patterns on the targets that this search has seen. -/
structure Exhausted (matched : Matched P T R) (seen seen' : Finset (Candidate T)) (p : P)
    (candidates : List (Candidate T)) : Prop where
  fits : ∀ c ∈ candidates, (f p c.value).isSome → c ∈ seen'
  closed : ∀ t ∈ seen', t ∉ seen →
    ∃ e, matched.lookup t = some e ∧ ∀ c ∈ e.1.2, (f e.1.1 c.value).isSome → c ∈ seen'

end

/-- The outcome of a search that succeeded: the pattern has a target, the others have moved on along `g`
and the targets seen before are as they were. -/
structure Shifted (matched matched' : Matched P T R) (seen : Finset (Candidate T)) (p : P)
    (candidates : List (Candidate T)) (g : Candidate T → Candidate T) (placed : Candidate T) : Prop where
  injOn : ∀ t ∈ matched, ∀ t' ∈ matched, g t = g t' → t = t'
  ne_placed : ∀ t ∈ matched, g t ≠ placed
  moved : ∀ t e, matched.lookup t = some e → g t ∈ e.1.2 ∧ ∃ e', matched'.lookup (g t) = some e' ∧ e'.1.1 = e.1.1
  mem_candidates : placed ∈ candidates
  lookup_placed : ∃ e, matched'.lookup placed = some e ∧ e.1.1 = p
  onto : ∀ t' ∈ matched', t' = placed ∨ ∃ t ∈ matched, g t = t'
  kept : ∀ t ∈ seen, matched'.lookup t = matched.lookup t ∧ g t = t ∧ placed ≠ t

variable {seen : Finset (Candidate T)}

variable {g : Candidate T → Candidate T}

theorem Shifted.mono {matched matched' : Matched P T R} {seen' : Finset (Candidate T)} {p : P}
    {candidates candidates' : List (Candidate T)} {placed : Candidate T}
    (h : Shifted matched matched' seen' p candidates g placed) (hSeen : seen ⊆ seen')
    (hCandidates : candidates ⊆ candidates') : Shifted matched matched' seen p candidates' g placed :=
  { h with mem_candidates := hCandidates h.mem_candidates, kept := fun t ht => h.kept t (hSeen ht) }

theorem mem_of_lookup {matched : Matched P T R} {t : Candidate T} {e : CandidatePattern P T × R}
    (h : matched.lookup t = some e) : t ∈ matched := by
  rw [← AList.lookup_isSome, h]
  rfl

theorem WellPlaced.insert {f : P → T → Option R} {ts : List (Candidate T)} {matched : Matched P T R}
    (h : WellPlaced f ts matched) {p : P} {c : Candidate T} {candidates : List (Candidate T)}
    (hSuffix : c :: candidates <:+ ts) {r : R} (hFits : f p c.value = some r) :
    WellPlaced f ts (matched.insert c ((p, c :: candidates), r)) := by
  intro t e hLookup
  obtain rfl | hNe := eq_or_ne t c
  · rw [AList.lookup_insert] at hLookup
    obtain rfl := Option.some.inj hLookup
    exact ⟨candidates, rfl, hSuffix, hFits⟩
  · rw [AList.lookup_insert_ne hNe] at hLookup
    exact h t e hLookup

theorem shifted_free {f : P → T → Option R} {ts : List (Candidate T)} {matched : Matched P T R}
    (hPlaced : WellPlaced f ts matched) {p : P} {c : Candidate T}
    {candidates : List (Candidate T)} (hFree : matched.lookup c = none) (hNew : c ∉ seen) (r : R) :
    Shifted matched (matched.insert c ((p, c :: candidates), r)) seen p (c :: candidates) id c where
  injOn := fun _ _ _ _ h => h
  ne_placed := by
    rintro t ht rfl
    exact AList.lookup_eq_none.mp hFree ht
  moved := by
    intro t e hLookup
    obtain ⟨rest, hRest, -, -⟩ := hPlaced t e hLookup
    have hNe : t ≠ c := by
      rintro rfl
      rw [hFree] at hLookup
      cases hLookup
    refine ⟨?_, e, ?_, rfl⟩
    · rw [hRest]
      exact List.mem_cons_self
    · exact (AList.lookup_insert_ne hNe).trans hLookup
  mem_candidates := List.mem_cons_self
  lookup_placed := ⟨_, AList.lookup_insert _, rfl⟩
  onto := by
    intro t' ht'
    rcases (AList.mem_insert _).mp ht' with rfl | ht'
    · exact Or.inl rfl
    · exact Or.inr ⟨t', ht', rfl⟩
  kept := by
    intro t ht
    have hNe : t ≠ c := fun hEq => hNew (hEq ▸ ht)
    exact ⟨AList.lookup_insert_ne hNe, rfl, hNe.symm⟩

theorem Shifted.displace {matched matched' : Matched P T R} {p : P} {c : Candidate T}
    {candidates : List (Candidate T)} {previous : CandidatePattern P T × R}
    {placed : Candidate T} (hTaken : matched.lookup c = some previous) (hNew : c ∉ seen)
    (h : Shifted matched matched' (insert c seen) previous.1.1 previous.1.2 g placed) (r : R) :
    Shifted matched (matched'.insert c ((p, c :: candidates), r)) seen p (c :: candidates)
      (fun t => if t = c then placed else g t) c := by
  have hIn := mem_of_lookup hTaken
  obtain ⟨-, hFixed, hPlacedNe⟩ := h.kept c (Finset.mem_insert_self _ _)
  have hAway : ∀ t ∈ matched, t ≠ c → g t ≠ c := by
    intro t ht hNe hEq
    exact hNe (h.injOn t ht c hIn (hEq.trans hFixed.symm))
  constructor
  · intro t ht t' ht' hEq
    split_ifs at hEq with hLeft hRight hRight
    · exact hLeft.trans hRight.symm
    · exact absurd hEq.symm (h.ne_placed t' ht')
    · exact absurd hEq (h.ne_placed t ht)
    · exact h.injOn t ht t' ht' hEq
  · intro t ht
    split_ifs with hEq
    · exact hPlacedNe
    · exact hAway t ht hEq
  · intro t e hLookup
    obtain rfl | hNe := eq_or_ne t c
    · obtain rfl := Option.some.inj (hTaken.symm.trans hLookup)
      obtain ⟨e', hPlaced, hPattern⟩ := h.lookup_placed
      rw [if_pos rfl]
      exact ⟨h.mem_candidates, e', (AList.lookup_insert_ne hPlacedNe).trans hPlaced, hPattern⟩
    · obtain ⟨hMem, e', hMoved, hPattern⟩ := h.moved t e hLookup
      rw [if_neg hNe]
      exact ⟨hMem, e', (AList.lookup_insert_ne (hAway t (mem_of_lookup hLookup) hNe)).trans hMoved, hPattern⟩
  · exact List.mem_cons_self
  · exact ⟨_, AList.lookup_insert _, rfl⟩
  · intro t' ht'
    rcases (AList.mem_insert _).mp ht' with rfl | ht'
    · exact Or.inl rfl
    rcases h.onto t' ht' with rfl | ⟨t, ht, rfl⟩
    · exact Or.inr ⟨c, hIn, if_pos rfl⟩
    · obtain rfl | hNe := eq_or_ne t c
      · exact Or.inl hFixed
      · exact Or.inr ⟨t, ht, if_neg hNe⟩
  · intro t ht
    have hNe : t ≠ c := fun hEq => hNew (hEq ▸ ht)
    obtain ⟨hLookup, hSame, -⟩ := h.kept t (Finset.mem_insert_of_mem ht)
    refine ⟨(AList.lookup_insert_ne hNe).trans hLookup, ?_, hNe.symm⟩
    rw [if_neg hNe, hSame]

def unseen (ts : List (Candidate T)) (seen : Finset (Candidate T)) : Nat := (ts.toFinset \ seen).card

theorem unseen_insert {ts : List (Candidate T)} {c : Candidate T} (hMem : c ∈ ts)
    (hNew : c ∉ seen) : unseen ts (insert c seen) + 1 = unseen ts seen := by
  rw [unseen, unseen, Finset.sdiff_insert]
  exact Finset.card_erase_add_one (Finset.mem_sdiff.mpr ⟨List.mem_toFinset.mpr hMem, hNew⟩)

theorem unseen_mono {ts : List (Candidate T)} {seen' : Finset (Candidate T)} (h : seen ⊆ seen') :
    unseen ts seen' ≤ unseen ts seen := Finset.card_le_card (Finset.sdiff_subset_sdiff (Finset.Subset.refl _) h)

section round

variable {matchFunction : P → T → σ → Option R × σ} {f : P → T → Option R} {ts : List (Candidate T)}
  {self : MaximumBipartiteMatch P T R σ} {p : P} {c : Candidate T} {candidates : List (Candidate T)}
  {result : Option (Bool × MaximumBipartiteMatch P T R σ)}

/-- Either everything the search could reach is taken, or the pattern and those in its way have moved on. -/
def Outcome (f : P → T → Option R) (ts : List (Candidate T)) (self : MaximumBipartiteMatch P T R σ) (p : P)
    (candidates : List (Candidate T)) (result : Option (Bool × MaximumBipartiteMatch P T R σ)) : Prop :=
  (∃ self', result = some (false, self') ∧ self'.matched = self.matched ∧ self.seenTargets ⊆ self'.seenTargets ∧
    Exhausted f self.matched self.seenTargets self'.seenTargets p candidates) ∨
  ∃ self' g placed, result = some (true, self') ∧ WellPlaced f ts self'.matched ∧
    Shifted self.matched self'.matched self.seenTargets p candidates g placed

theorem Outcome.cons (h : Outcome f ts self p candidates result)
    (hSkip : (f p c.value).isSome → c ∈ self.seenTargets) : Outcome f ts self p (c :: candidates) result := by
  rcases h with ⟨self', hEq, hMatched, hSeen, hExhausted⟩ | ⟨self', g, placed, hEq, hPlaced', hShifted⟩
  · refine Or.inl ⟨self', hEq, hMatched, hSeen, ?_, hExhausted.closed⟩
    intro c' hc' hSome
    rcases List.mem_cons.mp hc' with rfl | hc'
    · exact hSeen (hSkip hSome)
    · exact hExhausted.fits c' hc' hSome
  · exact Or.inr ⟨self', g, placed, hEq, hPlaced', hShifted.mono (Finset.Subset.refl _) (List.subset_cons_self _ _)⟩

theorem tryClaimMatch_spec
    {find : MaximumBipartiteMatch P T R σ → CandidatePattern P T → Option (Bool × MaximumBipartiteMatch P T R σ)}
    {r : R} (hPlaced : WellPlaced f ts self.matched) (hSuffix : c :: candidates <:+ ts) (hNew : c ∉ self.seenTargets)
    (hFits : f p c.value = some r)
    (hFind : ∀ self' p' candidates', WellPlaced f ts self'.matched → candidates' <:+ ts →
      insert c self.seenTargets ⊆ self'.seenTargets → Outcome f ts self' p' candidates' (find self' (p', candidates'))) :
    Outcome f ts self p (c :: candidates) (tryClaimMatch find (self.addSeen c) c (p, c :: candidates) r) := by
  rw [tryClaimMatch, getMatch]
  have hMatched : (self.addSeen c).matched = self.matched := rfl
  rw [hMatched]
  cases hLookup : self.matched.lookup c with
  | none =>
    exact Or.inr ⟨_, id, c, rfl, hPlaced.insert hSuffix hFits, shifted_free hPlaced hLookup hNew r⟩
  | some previous =>
    obtain ⟨rest, hCandidates, hPrevious, -⟩ := hPlaced c previous hLookup
    dsimp only [Option.map_some]
    rcases hFind (self.addSeen c) previous.1.1 previous.1.2 hPlaced (hCandidates ▸ hPrevious) (Finset.Subset.refl _) with
      ⟨self₂, hEq, hMatched₂, hSeen₂, hExhausted₂⟩ | ⟨self₂, g, placed, hEq, hPlaced₂, hShifted⟩
    · -- the previous pattern stays, and the search goes on with all it has seen
      have hNewSeen : insert c self.seenTargets ⊆ self₂.seenTargets := hSeen₂
      rw [hEq]
      dsimp only [bind, Option.bind]
      rcases hFind self₂ p (c :: candidates) (hMatched₂ ▸ hPlaced) hSuffix hNewSeen with
        ⟨self₃, hEq₃, hMatched₃, hSeen₃, hExhausted₃⟩ | ⟨self₃, g, placed, hEq₃, hPlaced₃, hShifted⟩
      · refine Or.inl ⟨self₃, hEq₃, hMatched₃.trans hMatched₂,
          ((Finset.subset_insert _ _).trans hNewSeen).trans hSeen₃, hExhausted₃.fits, ?_⟩
        intro t ht hNot
        by_cases hLate : t ∈ self₂.seenTargets
        · by_cases hEq : t = c
          · subst hEq
            exact ⟨previous, hLookup, fun c' hc' hSome => hSeen₃ (hExhausted₂.fits c' hc' hSome)⟩
          · have hNotEarly : t ∉ (self.addSeen c).seenTargets := fun hIn =>
              (Finset.mem_insert.mp hIn).elim hEq hNot
            obtain ⟨e, he, hClosed⟩ := hExhausted₂.closed t hLate hNotEarly
            exact ⟨e, he, fun c' hc' hSome => hSeen₃ (hClosed c' hc' hSome)⟩
        · obtain ⟨e, he, hClosed⟩ := hExhausted₃.closed t ht hLate
          rw [hMatched₂] at he
          exact ⟨e, he, hClosed⟩
      · rw [hMatched₂] at hShifted
        exact Or.inr ⟨self₃, g, placed, hEq₃, hPlaced₃,
          hShifted.mono ((Finset.subset_insert _ _).trans hNewSeen) (List.Subset.refl _)⟩
    · rw [hEq]
      exact Or.inr ⟨_, _, c, rfl, hPlaced₂.insert hSuffix hFits, hShifted.displace hLookup hNew r⟩

theorem findMatch_spec (hPure : ∀ p t matchState, (matchFunction p t matchState).1 = f p t) (fuel : Nat)
    (self : MaximumBipartiteMatch P T R σ) (p : P) (candidates : List (Candidate T))
    (hPlaced : WellPlaced f ts self.matched) (hSuffix : candidates <:+ ts)
    (hFuel : unseen ts self.seenTargets * (ts.length + 1) + candidates.length < fuel) :
    Outcome f ts self p candidates (findMatch matchFunction fuel self (p, candidates)) := by
  induction fuel generalizing self p candidates with
  | zero => omega
  | succ fuel ih =>
    cases candidates with
    | nil =>
      refine Or.inl ⟨self, rfl, rfl, Finset.Subset.refl _, ?_, ?_⟩
      · intro c hc
        exact absurd hc List.not_mem_nil
      · intro t ht hNot
        exact absurd ht hNot
    | cons c candidates =>
      have hRest : candidates <:+ ts := (List.suffix_cons c candidates).trans hSuffix
      rw [List.length_cons] at hFuel
      rw [findMatch]
      by_cases hNew : c ∈ self.seenTargets
      · rw [if_neg (not_not_intro hNew)]
        exact (ih self p candidates hPlaced hRest (by omega)).cons fun _ => hNew
      · rw [if_pos hNew]
        obtain ⟨result, matchState, hResult⟩ : ∃ result matchState,
            matchFunction p c.value self.matchState = (result, matchState) := ⟨_, _, rfl⟩
        have hFits : f p c.value = result := by rw [← hPure p c.value self.matchState, hResult]
        rw [hResult]
        cases result with
        | none =>
          have hNext := ih { self with matchState } p candidates hPlaced hRest (by dsimp only; omega)
          exact hNext.cons fun hSome => absurd hSome (by rw [hFits]; exact Bool.false_ne_true)
        | some r =>
          refine tryClaimMatch_spec hPlaced hSuffix hNew hFits ?_
          intro self' p' candidates' hPlaced' hSuffix' hSeen'
          refine ih self' p' candidates' hPlaced' hSuffix' ?_
          -- one target fewer is left to be seen, which pays for any list of candidates
          have hLess : unseen ts self'.seenTargets + 1 ≤ unseen ts self.seenTargets := by
            rw [← unseen_insert (hSuffix.subset List.mem_cons_self) hNew]
            exact Nat.add_le_add_right (unseen_mono hSeen') 1
          have hPays := Nat.mul_le_mul_right (ts.length + 1) hLess
          have hLength := hSuffix'.length_le
          rw [Nat.add_mul, Nat.one_mul] at hPays
          omega

end round

section forward

variable {f : P → T → Option R} {ts : List (Candidate T)} {matched : Matched P T R} {p : P}

/-- The pattern can be placed if every placed pattern stays on its target or moves to a later one. -/
def CanPlaceForward (f : P → T → Option R) (ts : List (Candidate T)) (matched : Matched P T R) (p : P) : Prop :=
  ∃ (g : Candidate T → Candidate T) (placed : Candidate T),
    (∀ t ∈ matched, ∀ t' ∈ matched, g t = g t' → t = t') ∧ (∀ t ∈ matched, g t ≠ placed) ∧
    (∀ t e, matched.lookup t = some e → g t ∈ ts ∧ t.index ≤ (g t).index ∧ (f e.1.1 (g t).value).isSome) ∧
    placed ∈ ts ∧ (f p placed.value).isSome

def Ascending (ts : List (Candidate T)) : Prop := ts.Pairwise fun a b => a.index < b.index

omit [DecidableEq T] in
theorem Ascending.mem_suffix_iff (hAscending : Ascending ts) {t c : Candidate T} {rest : List (Candidate T)}
    (hSuffix : t :: rest <:+ ts) : c ∈ t :: rest ↔ c ∈ ts ∧ t.index ≤ c.index := by
  obtain ⟨front, rfl⟩ := hSuffix
  rw [Ascending, List.pairwise_append, List.pairwise_cons] at hAscending
  constructor
  · intro hc
    refine ⟨List.mem_append_right front hc, ?_⟩
    rcases List.mem_cons.mp hc with rfl | hc
    · exact Nat.le_refl _
    · exact (hAscending.2.1.1 c hc).le
  · rintro ⟨hc, hLe⟩
    rcases List.mem_append.mp hc with hFront | hc
    · exact absurd hLe (Nat.not_le.mpr (hAscending.2.2 c hFront t List.mem_cons_self))
    · exact hc

theorem canPlaceForward_of_shifted (hAscending : Ascending ts) (hPlaced : WellPlaced f ts matched)
    {matched' : Matched P T R} (hPlaced' : WellPlaced f ts matched') {seen : Finset (Candidate T)}
    {g : Candidate T → Candidate T} {placed : Candidate T} (h : Shifted matched matched' seen p ts g placed) :
    CanPlaceForward f ts matched p := by
  refine ⟨g, placed, h.injOn, h.ne_placed, ?_, h.mem_candidates, ?_⟩
  · intro t e hLookup
    obtain ⟨rest, hRest, hSuffix, -⟩ := hPlaced t e hLookup
    obtain ⟨hMem, e', hMoved, hPattern⟩ := h.moved t e hLookup
    rw [hRest, hAscending.mem_suffix_iff hSuffix] at hMem
    obtain ⟨-, -, -, hFits⟩ := hPlaced' (g t) e' hMoved
    rw [← hPattern, hFits]
    exact ⟨hMem.1, hMem.2, rfl⟩
  · obtain ⟨e, hLookup, rfl⟩ := h.lookup_placed
    obtain ⟨-, -, -, hFits⟩ := hPlaced' placed e hLookup
    rw [hFits]
    rfl

theorem not_canPlaceForward_of_exhausted (hAscending : Ascending ts) (hPlaced : WellPlaced f ts matched)
    {seen : Finset (Candidate T)} (h : Exhausted f matched ∅ seen p ts) : ¬ CanPlaceForward f ts matched p := by
  rintro ⟨g, placed, hInj, hNe, hForward, hMem, hFits⟩
  have hSeen : placed ∈ seen := h.fits placed hMem hFits
  have hTaken : ∀ t ∈ seen, t ∈ matched := by
    intro t ht
    obtain ⟨e, hLookup, -⟩ := h.closed t ht (Finset.notMem_empty t)
    exact mem_of_lookup hLookup
  have hMaps : ∀ t ∈ seen, g t ∈ seen.erase placed := by
    intro t ht
    obtain ⟨e, hLookup, hClosed⟩ := h.closed t ht (Finset.notMem_empty t)
    obtain ⟨rest, hRest, hSuffix, -⟩ := hPlaced t e hLookup
    obtain ⟨hIn, hLe, hFitsMoved⟩ := hForward t e hLookup
    have hCandidate : g t ∈ e.1.2 := by
      rw [hRest, hAscending.mem_suffix_iff hSuffix]
      exact ⟨hIn, hLe⟩
    exact Finset.mem_erase.mpr ⟨hNe t (hTaken t ht), hClosed (g t) hCandidate hFitsMoved⟩
  have hCard := Finset.card_le_card_of_injOn g hMaps
    fun t ht t' ht' hEq => hInj t (hTaken t ht) t' (hTaken t' ht') hEq
  have hLess := Finset.card_erase_lt_of_mem hSeen
  omega

end forward

section rounds

variable {matchFunction : P → T → σ → Option R × σ} {f : P → T → Option R} {ts : List (Candidate T)}

theorem round_spec (hPure : ∀ p t matchState, (matchFunction p t matchState).1 = f p t) (hAscending : Ascending ts)
    (self : MaximumBipartiteMatch P T R σ) (p : P) (hPlaced : WellPlaced f ts self.matched) :
    (∃ self', findMatch matchFunction (searchFuel ts.length) self.resetSeen (p, ts) = some (false, self') ∧
      ¬ CanPlaceForward f ts self.matched p) ∨
    ∃ self' g placed, findMatch matchFunction (searchFuel ts.length) self.resetSeen (p, ts) = some (true, self') ∧
      CanPlaceForward f ts self.matched p ∧ WellPlaced f ts self'.matched ∧
      Shifted self.matched self'.matched ∅ p ts g placed := by
  have hFuel : unseen ts self.resetSeen.seenTargets * (ts.length + 1) + ts.length < searchFuel ts.length := by
    have hUnseen : unseen ts self.resetSeen.seenTargets ≤ ts.length :=
      (Finset.card_le_card Finset.sdiff_subset).trans ts.toFinset_card_le
    have hLe := Nat.mul_le_mul_right (ts.length + 1) hUnseen
    rw [searchFuel, Nat.add_mul ts.length 1, Nat.one_mul]
    omega
  rcases findMatch_spec hPure _ self.resetSeen p ts hPlaced List.suffix_rfl hFuel with
    ⟨self', hEq, -, -, hExhausted⟩ | ⟨self', g, placed, hEq, hPlaced', hShifted⟩
  · exact Or.inl ⟨self', hEq, not_canPlaceForward_of_exhausted hAscending hPlaced hExhausted⟩
  · exact Or.inr ⟨self', g, placed, hEq, canPlaceForward_of_shifted hAscending hPlaced hPlaced' hShifted, hPlaced',
      hShifted⟩

/-- The targets of the patterns, in the order of the patterns. -/
structure Assigned (done : List P) (matched : Matched P T R) (positions : List (Candidate T)) : Prop where
  nodup : positions.Nodup
  placed : List.Forall₂ (fun p t => ∃ e, matched.lookup t = some e ∧ e.1.1 = p) done positions
  all : ∀ t ∈ matched, t ∈ positions

theorem Assigned.mem {done : List P} {matched : Matched P T R} {positions : List (Candidate T)}
    (h : Assigned done matched positions) {t : Candidate T} (ht : t ∈ positions) : t ∈ matched := by
  obtain ⟨p, -, e, hLookup, -⟩ := Lib.exists_left_of_forall₂ h.placed ht
  exact mem_of_lookup hLookup

theorem Assigned.step {done : List P} {matched matched' : Matched P T R} {positions : List (Candidate T)}
    (h : Assigned done matched positions) {p : P} {g : Candidate T → Candidate T} {placed : Candidate T}
    (hShifted : Shifted matched matched' ∅ p ts g placed) :
    Assigned (done ++ [p]) matched' (positions.map g ++ [placed]) := by
  refine ⟨?_, ?_, ?_⟩
  · refine List.nodup_append.mpr ⟨h.nodup.map_on ?_, List.nodup_singleton _, ?_⟩
    · intro t ht t' ht' hEq
      exact hShifted.injOn t (h.mem ht) t' (h.mem ht') hEq
    · rintro _ hMoved _ hPlaced rfl
      obtain ⟨t, ht, rfl⟩ := List.mem_map.mp hMoved
      exact hShifted.ne_placed t (h.mem ht) (List.mem_singleton.mp hPlaced)
  · refine List.rel_append ?_ (.cons hShifted.lookup_placed .nil)
    refine List.forall₂_map_right_iff.mpr (h.placed.imp ?_)
    rintro p' t ⟨e, hLookup, rfl⟩
    exact (hShifted.moved t e hLookup).2
  · intro t' ht'
    rcases hShifted.onto t' ht' with rfl | ⟨t, ht, rfl⟩
    · exact List.mem_append_right _ (List.mem_singleton_self _)
    · exact List.mem_append_left _ (List.mem_map_of_mem (h.all t ht))

def RoundsForward (matchFunction : P → T → σ → Option R × σ) (f : P → T → Option R) (ts : List (Candidate T))
    (self : MaximumBipartiteMatch P T R σ) (patterns : List P) : Prop :=
  ∀ before p after self', patterns = before ++ p :: after →
    placeAll matchFunction (searchFuel ts.length) ts self before = some (true, self') →
    CanPlaceForward f ts self'.matched p

theorem placeAll_spec (hPure : ∀ p t matchState, (matchFunction p t matchState).1 = f p t) (hAscending : Ascending ts)
    (self : MaximumBipartiteMatch P T R σ) (done patterns : List P) (positions : List (Candidate T))
    (hPlaced : WellPlaced f ts self.matched) (hAssigned : Assigned done self.matched positions) :
    ∃ found self', placeAll matchFunction (searchFuel ts.length) ts self patterns = some (found, self') ∧
      (found = true ↔ RoundsForward matchFunction f ts self patterns) ∧
      (found = true → WellPlaced f ts self'.matched ∧
        ∃ positions', Assigned (done ++ patterns) self'.matched positions') := by
  induction patterns generalizing self done positions with
  | nil =>
    refine ⟨true, self, rfl, ⟨fun _ => ?_, fun _ => rfl⟩, fun _ => ⟨hPlaced, positions, by rwa [List.append_nil]⟩⟩
    intro before p after self' hSplit
    cases before <;> cases hSplit
  | cons p patterns ih =>
    rcases round_spec hPure hAscending self p hPlaced with
      ⟨self', hRound, hNot⟩ | ⟨self', g, placed, hRound, hCan, hPlaced', hShifted⟩
    · refine ⟨false, self', ?_, ⟨fun h => absurd h Bool.false_ne_true, fun hForward => ?_⟩,
        fun h => absurd h Bool.false_ne_true⟩
      · rw [placeAll, hRound]
        rfl
      · exact absurd (hForward [] p patterns self rfl rfl) hNot
    · obtain ⟨found, self'', hRest, hIff, hDone⟩ := ih self' (done ++ [p]) _ hPlaced' (hAssigned.step hShifted)
      have hEq : placeAll matchFunction (searchFuel ts.length) ts self (p :: patterns) = some (found, self'') := by
        rw [placeAll, hRound]
        exact hRest
      refine ⟨found, self'', hEq, ?_, ?_⟩
      · rw [hIff]
        constructor
        · intro hForward before q after state hSplit hBefore
          cases before with
          | nil =>
            obtain ⟨rfl, -⟩ := List.cons.inj hSplit
            obtain ⟨-, rfl⟩ := Prod.mk.inj (Option.some.inj hBefore)
            exact hCan
          | cons q' before =>
            obtain ⟨rfl, hRestSplit⟩ := List.cons.inj hSplit
            rw [placeAll, hRound] at hBefore
            exact hForward before q after state hRestSplit hBefore
        · intro hForward before q after state hSplit hBefore
          refine hForward (p :: before) q after state (by rw [hSplit, List.cons_append]) ?_
          rw [placeAll, hRound]
          exact hBefore
      · intro hFound
        rw [List.append_cons]
        exact hDone hFound

end rounds

section assignments

variable {f : P → T → Option R} {patterns : List P} {targets : List T}

/-- The patterns can be given targets at different positions, each one that it matches. -/
def Assignable (f : P → T → Option R) (patterns : List P) (targets : List T) : Prop :=
  ∃ h : Fin patterns.length → Fin targets.length, Function.Injective h ∧
    ∀ i, (f (patterns.get i) (targets.get (h i))).isSome

/-- The triples of an assignment, each position used once and each pattern with its own result. -/
def Assigns (f : P → T → Option R) (patterns : List P) (targets : List T) (triples : List (T × P × R)) : Prop :=
  ∃ (h : Fin patterns.length → Fin targets.length) (r : Fin patterns.length → R), Function.Injective h ∧
    (∀ i, f (patterns.get i) (targets.get (h i)) = some (r i)) ∧
    triples.Perm (List.ofFn fun i => (targets.get (h i), patterns.get i, r i))

omit [DecidableEq T] in
theorem assignable_of_assigns {triples : List (T × P × R)} (h : Assigns f patterns targets triples) :
    Assignable f patterns targets := by
  obtain ⟨h, r, hInj, hFits, -⟩ := h
  refine ⟨h, hInj, fun i => ?_⟩
  rw [hFits i]
  rfl

omit [DecidableEq T] in
theorem ascending_enumerate (targets : List T) : Ascending (enumerate targets) := by
  rw [Ascending, enumerate, List.pairwise_map, List.pairwise_iff_getElem]
  intro i j hi hj hLess
  simpa using hLess

omit [DecidableEq T] in
theorem getElem_of_mem_enumerate {t : Candidate T} (h : t ∈ enumerate targets) :
    ∃ hIndex : t.index < targets.length, targets.get ⟨t.index, hIndex⟩ = t.value := by
  obtain ⟨⟨value, index⟩, hMem, rfl⟩ := List.mem_map.mp h
  have hEq := List.mem_zipIdx_iff_getElem?.mp hMem
  obtain ⟨hIndex, hValue⟩ := List.getElem?_eq_some_iff.mp hEq
  exact ⟨hIndex, hValue⟩

theorem perm_triples (le : T → T → Bool) {self : MaximumBipartiteMatch P T R σ} {positions : List (Candidate T)}
    (h : Assigned patterns self.matched positions) :
    (((sortedMatches le self).map fun m => (m.1.value, m.2.1.1, m.2.2)).map some).Perm
      (positions.map fun t => (self.matched.lookup t).map fun e => (t.value, e.1.1, e.2)) := by
  have hKeys : self.matched.keys.Perm positions :=
    (List.perm_ext_iff_of_nodup self.matched.keys_nodup h.nodup).mpr fun t => ⟨h.all t, h.mem⟩
  refine List.Perm.trans ?_ (hKeys.map _)
  have hEntries : self.matched.entries.map (some ∘ fun m => (m.1.value, m.2.1.1, m.2.2)) =
      self.matched.keys.map fun t => (self.matched.lookup t).map fun e => (t.value, e.1.1, e.2) := by
    rw [AList.keys, List.keys, List.map_map]
    apply List.map_congr_left
    rintro ⟨t, e⟩ hMem
    have hLookup : self.matched.lookup t = some e := AList.mem_lookup_iff.mpr hMem
    simp only [Function.comp_apply, hLookup, Option.map_some]
  rw [List.map_map, ← hEntries]
  exact (List.mergeSort_perm _ _).map _

theorem assigns_of_assigned (le : T → T → Bool) {self : MaximumBipartiteMatch P T R σ} {positions : List (Candidate T)}
    (hPlaced : WellPlaced f (enumerate targets) self.matched) (h : Assigned patterns self.matched positions) :
    Assigns f patterns targets ((sortedMatches le self).map fun m => (m.1.value, m.2.1.1, m.2.2)) := by
  obtain ⟨hLength, hAt⟩ := List.forall₂_iff_get.mp h.placed
  have hEntry : ∀ i : Fin patterns.length, ∃ e, self.matched.lookup (positions.get (i.cast hLength)) = some e ∧
      e.1.1 = patterns.get i := fun i => hAt i i.2 (hLength ▸ i.2)
  choose entry hLookup hPattern using hEntry
  have hFits : ∀ i, ∃ rest, (entry i).1.2 = positions.get (i.cast hLength) :: rest ∧
      positions.get (i.cast hLength) :: rest <:+ enumerate targets ∧
      f (entry i).1.1 (positions.get (i.cast hLength)).value = some (entry i).2 := fun i => hPlaced _ _ (hLookup i)
  have hMem : ∀ i : Fin patterns.length, positions.get (i.cast hLength) ∈ enumerate targets := by
    intro i
    obtain ⟨rest, -, hSuffix, -⟩ := hFits i
    exact hSuffix.subset List.mem_cons_self
  choose hIndex hValue using fun i => getElem_of_mem_enumerate (hMem i)
  refine ⟨fun i => ⟨(positions.get (i.cast hLength)).index, hIndex i⟩, fun i => (entry i).2, ?_, ?_, ?_⟩
  · intro i j hEq
    have hSame : positions.get (i.cast hLength) = positions.get (j.cast hLength) := by
      refine Indexed.ext ?_ (congrArg Fin.val hEq)
      rw [← hValue i, ← hValue j]
      exact congrArg targets.get hEq
    exact Fin.cast_injective hLength (List.nodup_iff_injective_get.mp h.nodup hSame)
  · intro i
    obtain ⟨-, -, -, hSome⟩ := hFits i
    rw [hValue i, ← hPattern i, hSome]
  · refine (List.map_perm_map_iff (Option.some_injective _)).mp ((perm_triples le h).trans (List.Perm.of_eq ?_))
    refine List.ext_getElem (by simp [hLength]) fun i hi hi' => ?_
    have hi'' : i < patterns.length := by simpa using hi'
    have hLookupAt : self.matched.lookup positions[i] = some (entry ⟨i, hi''⟩) := hLookup ⟨i, hi''⟩
    have hValueAt := hValue ⟨i, hi''⟩
    have hPatternAt := hPattern ⟨i, hi''⟩
    simp only [List.get_eq_getElem, Fin.cast_mk] at hValueAt hPatternAt
    simp [hLookupAt, hPatternAt, hValueAt]

def pureFunction (f : P → T → Option R) : P → T → Unit → Option R × Unit := fun p t _ => (f p t, ())

/-- A result if and only if there is an assignment, and the result is one. -/
structure Completes (f : P → T → Option R) (le : T → T → Bool) (patterns : List P) (targets : List T) : Prop where
  complete : ∃ result, findMatches (pureFunction f) le () patterns targets = some (result, ()) ∧
    (result.isSome ↔ Assignable f patterns targets)
  sound : ∀ triples, findMatches (pureFunction f) le () patterns targets = some (some triples, ()) →
    Assigns f patterns targets triples

/-- The search ends, and it is complete if and only if, where an assignment exists, every round can place its pattern
with those before it staying or moving on. -/
theorem completes_iff (f : P → T → Option R) (le : T → T → Bool) (patterns : List P) (targets : List T) :
    Completes f le patterns targets ↔
      (Assignable f patterns targets →
        RoundsForward (pureFunction f) f (enumerate targets) (new ()) patterns) := by
  have hLength : (enumerate targets).length = targets.length := by simp [enumerate]
  have hNothing : WellPlaced f (enumerate targets) (new () : MaximumBipartiteMatch P T R Unit).matched := by
    intro t e hLookup
    cases hLookup
  have hNone : Assigned [] (new () : MaximumBipartiteMatch P T R Unit).matched [] :=
    ⟨List.nodup_nil, .nil, fun t ht => absurd ht (AList.notMem_empty t)⟩
  have hPure : ∀ p t matchState, (pureFunction f p t matchState).1 = f p t := fun _ _ _ => rfl
  obtain ⟨found, self, hRun, hIff, hDone⟩ :=
    placeAll_spec hPure (ascending_enumerate targets) (new ()) [] patterns [] hNothing hNone
  rw [hLength] at hRun
  have hResult : findMatches (pureFunction f) le () patterns targets =
      some (if found then some ((sortedMatches le self).map fun m => (m.1.value, m.2.1.1, m.2.2)) else none, ()) := by
    rw [findMatches, hRun]
    rfl
  have hSound : found = true →
      Assigns f patterns targets ((sortedMatches le self).map fun m => (m.1.value, m.2.1.1, m.2.2)) := by
    intro hFound
    obtain ⟨hPlaced, positions, hAssigned⟩ := hDone hFound
    exact assigns_of_assigned le hPlaced hAssigned
  constructor
  · rintro ⟨⟨result, hFound, hComplete⟩, -⟩ hAssignable
    obtain ⟨rfl, -⟩ := Prod.mk.inj (Option.some.inj (hResult.symm.trans hFound))
    refine hIff.mp ?_
    have hSome := hComplete.mpr hAssignable
    by_contra hNotFound
    rw [if_neg hNotFound] at hSome
    cases hSome
  · intro hForward
    refine ⟨⟨_, hResult, ?_, ?_⟩, ?_⟩
    · intro hSome
      split_ifs at hSome with hFound
      · exact assignable_of_assigns (hSound hFound)
      · cases hSome
    · intro hAssignable
      rw [if_pos (hIff.mpr (hForward hAssignable))]
      rfl
    · intro triples hTriples
      obtain ⟨hEq, -⟩ := Prod.mk.inj (Option.some.inj (hResult.symm.trans hTriples))
      split_ifs at hEq with hFound
      obtain rfl := Option.some.inj hEq
      exact hSound hFound

/-- Three patterns that match the given targets. The second one sends the first on from target 0 to 1, and
nothing sends it back when the third needs target 1. -/
theorem not_completes_send_back :
    ¬ Completes (fun (p : List Nat) (t : Nat) => if t ∈ p then some () else none) (fun a b => a ≤ b)
      [[0, 1], [0, 2], [1]] [0, 1, 2] := by
  rintro ⟨⟨result, hResult, hComplete⟩, -⟩
  have hNone : findMatches (pureFunction fun (p : List Nat) (t : Nat) => if t ∈ p then some () else none)
      (fun a b => a ≤ b) () [[0, 1], [0, 2], [1]] [0, 1, 2] = some (none, ()) := rfl
  obtain ⟨rfl, -⟩ := Prod.mk.inj (Option.some.inj (hNone.symm.trans hResult))
  have hInjective : Function.Injective (![0, 2, 1] : Fin 3 → Fin 3) := by decide
  have hAssignable : Assignable (fun (p : List Nat) (t : Nat) => if t ∈ p then some () else none)
      [[0, 1], [0, 2], [1]] [0, 1, 2] := ⟨![0, 2, 1], hInjective, fun i => by fin_cases i <;> rfl⟩
  cases hComplete.mpr hAssignable

end assignments

end MaximumBipartiteMatch

end F1r3Node.Rholang
