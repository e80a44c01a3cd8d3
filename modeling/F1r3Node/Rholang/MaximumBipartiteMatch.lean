import Mathlib.Data.Finset.Card
import Mathlib.Data.List.AList
import Mathlib.Data.List.Enum
import Mathlib.Data.List.Sort

/-! # Assigning patterns to targets

A pattern that wants the target of another sends it on to the rest of its own candidates, never back to an earlier
one.
-/

namespace F1r3Node.Rholang

@[ext]
structure Indexed (A : Type) where
  value : A
  index : Nat
  deriving DecidableEq

abbrev Candidate := Indexed

abbrev CandidatePattern (P T : Type) := P × List (Candidate T)

/-- What the match function keeps between its calls, the targets that are taken and the targets that were
looked at in this round. -/
structure MaximumBipartiteMatch (P T R σ : Type) [DecidableEq T] where
  matchState : σ
  matched : AList fun _ : Candidate T => CandidatePattern P T × R
  seenTargets : Finset (Candidate T)

namespace MaximumBipartiteMatch

variable {P T R σ : Type} [DecidableEq T]

def new (matchState : σ) : MaximumBipartiteMatch P T R σ := ⟨matchState, ∅, ∅⟩

def resetSeen (self : MaximumBipartiteMatch P T R σ) : MaximumBipartiteMatch P T R σ := { self with seenTargets := ∅ }

def addSeen (self : MaximumBipartiteMatch P T R σ) (candidate : Candidate T) : MaximumBipartiteMatch P T R σ :=
  { self with seenTargets := insert candidate self.seenTargets }

def getMatch (self : MaximumBipartiteMatch P T R σ) (candidate : Candidate T) : Option (CandidatePattern P T) :=
  (self.matched.lookup candidate).map Prod.fst

def claimMatch (self : MaximumBipartiteMatch P T R σ) (candidate : Candidate T) (pattern : CandidatePattern P T)
    (result : R) : MaximumBipartiteMatch P T R σ :=
  { self with matched := self.matched.insert candidate (pattern, result) }

/-- The first comes first. Whoever has the target has to find another one, else the pattern goes on. -/
def tryClaimMatch
    (findMatch : MaximumBipartiteMatch P T R σ → CandidatePattern P T → Option (Bool × MaximumBipartiteMatch P T R σ))
    (self : MaximumBipartiteMatch P T R σ) (candidate : Candidate T) (pattern : CandidatePattern P T) (result : R) :
    Option (Bool × MaximumBipartiteMatch P T R σ) :=
  match self.getMatch candidate with
  | none => some (true, self.claimMatch candidate pattern result)
  | some previousPattern => do
    let (found, self) ← findMatch self previousPattern
    if found then some (true, self.claimMatch candidate pattern result) else findMatch self pattern

def findMatch (matchFunction : P → T → σ → Option R × σ) :
    Nat → MaximumBipartiteMatch P T R σ → CandidatePattern P T → Option (Bool × MaximumBipartiteMatch P T R σ)
  | 0, _, _ => none
  | _ + 1, self, (_, []) => some (false, self)
  | fuel + 1, self, (p, candidate :: candidates) =>
    if candidate ∉ self.seenTargets then
      match matchFunction p candidate.value self.matchState with
      | (some matchResult, matchState) =>
        tryClaimMatch (findMatch matchFunction fuel) ({ self with matchState }.addSeen candidate) candidate
          (p, candidate :: candidates) matchResult
      | (none, matchState) => findMatch matchFunction fuel { self with matchState } (p, candidates)
    else findMatch matchFunction fuel self (p, candidates)

def placeAll (matchFunction : P → T → σ → Option R × σ) (fuel : Nat) (ts : List (Candidate T)) :
    MaximumBipartiteMatch P T R σ → List P → Option (Bool × MaximumBipartiteMatch P T R σ)
  | self, [] => some (true, self)
  | self, p :: patterns => do
    let (found, self) ← findMatch matchFunction fuel self.resetSeen (p, ts)
    if found then placeAll matchFunction fuel ts self patterns else some (false, self)

def enumerate (targets : List T) : List (Candidate T) := targets.zipIdx.map fun t => ⟨t.1, t.2⟩

def searchFuel (targets : Nat) : Nat := (targets + 1) * (targets + 1)

def sortedMatches (le : T → T → Bool) (self : MaximumBipartiteMatch P T R σ) :
    List (Sigma fun _ : Candidate T => CandidatePattern P T × R) :=
  self.matched.entries.mergeSort fun a b =>
    if a.1.value = b.1.value then decide (a.1.index ≤ b.1.index) else le a.1.value b.1.value

def findMatches (matchFunction : P → T → σ → Option R × σ) (le : T → T → Bool) (matchState : σ) (patterns : List P)
    (targets : List T) : Option (Option (List (T × P × R)) × σ) := do
  let ts := enumerate targets
  let (found, self) ← placeAll matchFunction (searchFuel targets.length) ts (new matchState) patterns
  return (if found then some ((sortedMatches le self).map fun m => (m.1.value, m.2.1.1, m.2.2)) else none,
    self.matchState)

end MaximumBipartiteMatch

end F1r3Node.Rholang
