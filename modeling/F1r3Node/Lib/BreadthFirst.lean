import Mathlib.Data.Finset.Card

/-! # Breadth-first walks that may fail

A walk takes the nodes of a queue one after the other and appends the neighbours that were not seen and are in scope.
-/

namespace F1r3Node.Lib.BreadthFirst

variable {N E : Type*} [DecidableEq N]

def enqueue (inScope : N → Except E Bool) : List N → Finset N → List N → Except E (Finset N × List N)
  | [], seen, queue => .ok (seen, queue)
  | n :: ns, seen, queue =>
    if n ∈ seen then enqueue inScope ns seen queue
    else
      match inScope n with
      | .error e => .error e
      | .ok false => enqueue inScope ns seen queue
      | .ok true => enqueue inScope ns (insert n seen) (queue ++ [n])

/-- The accepted node, if there is one; `none` when the fuel runs out. -/
def walk (visit : N → Except E Bool) (next : N → List N) (inScope : N → Except E Bool) :
    Nat → Finset N → List N → Option (Except E (Option N))
  | _, _, [] => some (.ok none)
  | 0, _, _ :: _ => none
  | fuel + 1, seen, n :: queue =>
    match visit n with
    | .error e => some (.error e)
    | .ok true => some (.ok (some n))
    | .ok false =>
      match enqueue inScope (next n) seen queue with
      | .error e => some (.error e)
      | .ok (seen', queue') => walk visit next inScope fuel seen' queue'

inductive InWalk (next : N → List N) (inScope : N → Except E Bool) (starts : List N) : N → Prop where
  | start {n : N} (mem : n ∈ starts) : InWalk next inScope starts n
  | step {n m : N} (reached : InWalk next inScope starts n) (mem : m ∈ next n) (scope : inScope m = .ok true) :
      InWalk next inScope starts m

variable {visit visit' : N → Except E Bool} {next : N → List N} {inScope : N → Except E Bool}

theorem enqueue_eq_ok {ns queue queue' : List N} {seen seen' : Finset N}
    (h : enqueue inScope ns seen queue = .ok (seen', queue')) :
    (∀ m ∈ queue', m ∈ queue ∨ m ∈ ns ∧ inScope m = .ok true) ∧
      (∀ m ∈ seen', m ∈ seen ∨ inScope m = .ok true) ∧
      seen'.card + queue.length = seen.card + queue'.length := by
  induction ns generalizing seen queue with
  | nil =>
    obtain ⟨rfl, rfl⟩ := Prod.mk.inj (Except.ok.inj h)
    exact ⟨fun m hm => .inl hm, fun m hm => .inl hm, rfl⟩
  | cons n ns ih =>
    have hWiden : ∀ {q : List N} {m : N}, m ∈ q ∨ m ∈ ns ∧ inScope m = .ok true →
        m ∈ q ∨ m ∈ n :: ns ∧ inScope m = .ok true := fun hm => hm.imp_right (And.imp_left (List.mem_cons_of_mem n))
    rw [enqueue] at h
    split at h
    · obtain ⟨hQueue, hSeen, hCard⟩ := ih h
      exact ⟨fun m hm => hWiden (hQueue m hm), hSeen, hCard⟩
    · next hNew =>
      split at h
      · cases h
      · obtain ⟨hQueue, hSeen, hCard⟩ := ih h
        exact ⟨fun m hm => hWiden (hQueue m hm), hSeen, hCard⟩
      · next hScope =>
        obtain ⟨hQueue, hSeen, hCard⟩ := ih h
        refine ⟨fun m hm => ?_, fun m hm => ?_, ?_⟩
        · obtain hOld | hLater := hQueue m hm
          · obtain hOld | rfl := List.mem_append.mp hOld |>.imp_right List.mem_singleton.mp
            · exact .inl hOld
            · exact .inr ⟨List.mem_cons_self, hScope⟩
          · exact hWiden (.inr hLater)
        · obtain hOld | hLater := hSeen m hm
          · obtain rfl | hOld := Finset.mem_insert.mp hOld
            · exact .inr hScope
            · exact .inl hOld
          · exact .inr hLater
        · rw [Finset.card_insert_of_notMem hNew, List.length_append, List.length_singleton] at hCard
          omega

theorem enqueue_of_scope {ns queue : List N} {seen : Finset N} (h : ∀ m ∈ ns, ∃ b, inScope m = .ok b) :
    ∃ seen' queue', enqueue inScope ns seen queue = .ok (seen', queue') := by
  induction ns generalizing seen queue with
  | nil => exact ⟨seen, queue, rfl⟩
  | cons n ns ih =>
    obtain ⟨⟨b, hb⟩, hRest⟩ := List.forall_mem_cons.mp h
    rw [enqueue]
    split
    · exact ih hRest
    · rw [hb]
      cases b with
      | false => exact ih hRest
      | true => exact ih hRest

section walk

variable {starts : List N}

variable {queue : List N} {seen : Finset N}

theorem inWalk_of_enqueue {n : N} {queue' : List N} {seen' : Finset N}
    (h : enqueue inScope (next n) seen queue = .ok (seen', queue')) (hNode : InWalk next inScope starts n)
    (hQueue : ∀ m ∈ queue, InWalk next inScope starts m) : ∀ m ∈ queue', InWalk next inScope starts m := by
  intro m hm
  obtain hOld | ⟨hNext, hScope⟩ := (enqueue_eq_ok h).1 m hm
  · exact hQueue m hOld
  · exact hNode.step hNext hScope

variable {fuel : Nat}

theorem walk_congr (hVisit : ∀ n, InWalk next inScope starts n → visit n = visit' n)
    (hQueue : ∀ n ∈ queue, InWalk next inScope starts n) :
    walk visit next inScope fuel seen queue = walk visit' next inScope fuel seen queue := by
  induction fuel generalizing seen queue with
  | zero =>
    cases queue with
    | nil => rfl
    | cons n queue => rfl
  | succ fuel ih =>
    cases queue with
    | nil => rfl
    | cons n queue =>
      obtain ⟨hNode, hRest⟩ := List.forall_mem_cons.mp hQueue
      rw [walk, walk, hVisit n hNode]
      split
      · rfl
      · rfl
      · split
        · rfl
        · next seen' queue' hEnqueue => exact ih (inWalk_of_enqueue hEnqueue hNode hRest)

theorem inWalk_of_walk {found : N}
    (hQueue : ∀ n ∈ queue, InWalk next inScope starts n)
    (h : walk visit next inScope fuel seen queue = some (.ok (some found))) : InWalk next inScope starts found := by
  induction fuel generalizing seen queue with
  | zero =>
    cases queue with
    | nil => cases h
    | cons n queue => cases h
  | succ fuel ih =>
    cases queue with
    | nil => cases h
    | cons n queue =>
      obtain ⟨hNode, hRest⟩ := List.forall_mem_cons.mp hQueue
      rw [walk] at h
      split at h
      · cases h
      · obtain rfl : n = found := by simpa using h
        exact hNode
      · split at h
        · cases h
        · next seen' queue' hEnqueue => exact ih (inWalk_of_enqueue hEnqueue hNode hRest) h

theorem walk_ne_none {bound : Finset N} (hBound : ∀ m, inScope m = .ok true → m ∈ bound)
    (hSeen : seen ⊆ bound) (hFuel : queue.length + bound.card ≤ fuel + seen.card) :
    walk visit next inScope fuel seen queue ≠ none := by
  induction fuel generalizing seen queue with
  | zero =>
    cases queue with
    | nil => exact Option.some_ne_none _
    | cons n queue =>
      have hCard := Finset.card_le_card hSeen
      rw [List.length_cons] at hFuel
      omega
  | succ fuel ih =>
    cases queue with
    | nil => exact Option.some_ne_none _
    | cons n queue =>
      rw [walk]
      split
      · exact Option.some_ne_none _
      · exact Option.some_ne_none _
      · split
        · exact Option.some_ne_none _
        · next seen' queue' hEnqueue =>
          obtain ⟨-, hScope, hCard⟩ := enqueue_eq_ok hEnqueue
          refine ih (fun m hm => ?_) ?_
          · obtain hOld | hNew := hScope m hm
            · exact hSeen hOld
            · exact hBound m hNew
          · rw [List.length_cons] at hFuel
            omega

theorem walk_eq_ok_none (hVisit : ∀ n, InWalk next inScope starts n → visit n = .ok false)
    (hScope : ∀ n, InWalk next inScope starts n → ∀ m ∈ next n, ∃ b, inScope m = .ok b)
    (hQueue : ∀ n ∈ queue, InWalk next inScope starts n)
    (hFuel : walk visit next inScope fuel seen queue ≠ none) :
    walk visit next inScope fuel seen queue = some (.ok none) := by
  induction fuel generalizing seen queue with
  | zero =>
    cases queue with
    | nil => rfl
    | cons n queue => exact absurd rfl hFuel
  | succ fuel ih =>
    cases queue with
    | nil => rfl
    | cons n queue =>
      obtain ⟨hNode, hRest⟩ := List.forall_mem_cons.mp hQueue
      obtain ⟨seen', queue', hEnqueue⟩ : ∃ seen' queue', enqueue inScope (next n) seen queue = .ok (seen', queue') :=
        enqueue_of_scope (hScope n hNode)
      rw [walk, hVisit n hNode] at hFuel ⊢
      dsimp only at hFuel ⊢
      rw [hEnqueue] at hFuel ⊢
      exact ih (inWalk_of_enqueue hEnqueue hNode hRest) hFuel

end walk

end F1r3Node.Lib.BreadthFirst
