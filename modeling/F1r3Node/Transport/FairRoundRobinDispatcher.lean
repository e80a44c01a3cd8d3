import F1r3Node.Lib.Fuelled
import Mathlib.Algebra.BigOperators.Group.List.Basic
import Mathlib.Algebra.Ring.Nat
import Mathlib.Data.List.Nodup

/-! # The fair round robin dispatcher

Every source has a queue of its own, and the sources take turns. A call holds the single permit of the dispatcher, so it
is one computation.
-/

namespace F1r3Node.Transport

open Lib

variable {S M : Type}

structure DispatcherState (S M : Type) where
  queue : List S
  messages : S → Option (List M)
  retries : S → Option Nat
  skipped : Nat

namespace DispatcherState

def new : DispatcherState S M := ⟨[], fun _ => none, fun _ => none, 0⟩

def messagesOf (state : DispatcherState S M) (source : S) : List M := (state.messages source).getD []

end DispatcherState

structure DispatcherConfig where
  maxSourceQueueSize : Nat
  giveUpAfterSkipped : Nat
  dropSourceAfterRetries : Nat
  maxSourceQueueSize_pos : 0 < maxSourceQueueSize

inductive Dispatch where
  | handle
  | pass
  | drop
  deriving DecidableEq

inductive DispatchError (S : Type) where
  | sourceNotFound (source : S)
  | noMessage (source : S)

inductive Turn (S M : Type) where
  | added (source : S)
  | enqueued (source : S) (message : M)
  | handled (source : S) (message : M)
  | skipped (source : S)
  | rotated (source : S)
  | droppedSource (source : S)
  | passed (source : S) (message : M)

/-- The state with all that happened, each event with the state after it. -/
structure FairRoundRobinDispatcher (S M : Type) where
  state : DispatcherState S M
  trace : List (Turn S M × DispatcherState S M)

def rotate : List S → List S
  | [] => []
  | source :: rest => rest ++ [source]

namespace FairRoundRobinDispatcher

def new : FairRoundRobinDispatcher S M := ⟨.new, []⟩

def record (d : FairRoundRobinDispatcher S M) (event : Turn S M) (state : DispatcherState S M) :
    FairRoundRobinDispatcher S M :=
  ⟨state, d.trace ++ [(event, state)]⟩

variable [DecidableEq S]

def ensureSourceExists (d : FairRoundRobinDispatcher S M) (source : S) : FairRoundRobinDispatcher S M :=
  match d.state.messages source with
  | some _ => d
  | none =>
    d.record (.added source)
      { d.state with
        queue := source :: d.state.queue
        messages := Function.update d.state.messages source (some [])
        retries := Function.update d.state.retries source (some 0) }

def isDuplicate [BEq M] (d : FairRoundRobinDispatcher S M) (source : S) (message : M) : Bool :=
  match d.state.messages source with
  | some queue => queue.any (· == message)
  | none => false

def enqueueMessage (config : DispatcherConfig) (d : FairRoundRobinDispatcher S M) (source : S) (message : M) :
    Except (DispatchError S) (FairRoundRobinDispatcher S M) :=
  match d.state.messages source with
  | none => .error (.sourceNotFound source)
  | some queue =>
    if queue.length < config.maxSourceQueueSize then
      .ok (d.record (.enqueued source message)
        { d.state with
          messages := Function.update d.state.messages source (some (queue ++ [message]))
          retries := Function.update d.state.retries source (some 0) })
    else .ok d

def handleMessage (d : FairRoundRobinDispatcher S M) (source : S) : Option M := (d.state.messages source).bind List.head?

/-- After the handler has returned, the message leaves the queue and the next source has its turn. -/
def success (d : FairRoundRobinDispatcher S M) (source : S) :
    Except (DispatchError S) (FairRoundRobinDispatcher S M) :=
  match d.state.messages source with
  | none => .error (.sourceNotFound source)
  | some [] => .error (.noMessage source)
  | some (message :: queue) =>
    .ok (d.record (.handled source message)
      { d.state with
        queue := rotate d.state.queue
        messages := Function.update d.state.messages source (some queue)
        skipped := 0 })

def giveUp (config : DispatcherConfig) (d : FairRoundRobinDispatcher S M) (source : S) : FairRoundRobinDispatcher S M :=
  let retryCount := (d.state.retries source).getD 0 + 1
  if config.dropSourceAfterRetries < retryCount then
    d.record (.droppedSource source)
      { queue := d.state.queue.filter (· ≠ source)
        messages := Function.update d.state.messages source none
        retries := Function.update d.state.retries source none
        skipped := 0 }
  else
    d.record (.rotated source)
      { d.state with
        queue := rotate d.state.queue
        retries := Function.update d.state.retries source (some retryCount)
        skipped := 0 }

/-- The flag tells whether the source was given up. -/
def failure (config : DispatcherConfig) (d : FairRoundRobinDispatcher S M) (source : S) :
    FairRoundRobinDispatcher S M × Bool :=
  if config.giveUpAfterSkipped ≤ d.state.skipped + 1 then (d.giveUp config source, true)
  else (d.record (.skipped source) { d.state with skipped := d.state.skipped + 1 }, false)

/-- One round of `handle_messages_without_giveup`. -/
def withoutGiveupRound (d : FairRoundRobinDispatcher S M) :
    Fuelled (DispatchError S) (FairRoundRobinDispatcher S M ⊕ FairRoundRobinDispatcher S M) :=
  match d.state.queue.head? with
  | none => pure (.inr d)
  | some source =>
    match d.handleMessage source with
    | none => pure (.inr d)
    | some _ => do
      let d ← Fuelled.ofExcept (d.success source)
      pure (.inl d)

def handleMessagesWithoutGiveup (d : FairRoundRobinDispatcher S M) :
    Fuelled (DispatchError S) (FairRoundRobinDispatcher S M) :=
  Fuelled.loop withoutGiveupRound d

def handleNextMessageWithGiveup (config : DispatcherConfig) (d : FairRoundRobinDispatcher S M) :
    Fuelled (DispatchError S) (FairRoundRobinDispatcher S M × Bool) :=
  match d.state.queue.head? with
  | none => pure (d, false)
  | some source =>
    match d.handleMessage source with
    | none => pure (d.failure config source)
    | some _ => do
      let d ← Fuelled.ofExcept (d.success source)
      let d ← d.handleMessagesWithoutGiveup
      pure (d, false)

def withGiveupRound (config : DispatcherConfig) (d : FairRoundRobinDispatcher S M) :
    Fuelled (DispatchError S) (FairRoundRobinDispatcher S M ⊕ FairRoundRobinDispatcher S M) := do
  let (d, shouldContinue) ← d.handleNextMessageWithGiveup config
  pure (if shouldContinue then .inl d else .inr d)

def handleMessages (config : DispatcherConfig) (d : FairRoundRobinDispatcher S M) :
    Fuelled (DispatchError S) (FairRoundRobinDispatcher S M) :=
  Fuelled.loop (withGiveupRound config) d

def dispatch [BEq M] (config : DispatcherConfig) (action : Dispatch) (d : FairRoundRobinDispatcher S M) (source : S)
    (message : M) : Fuelled (DispatchError S) (FairRoundRobinDispatcher S M) :=
  match action with
  | .handle => do
    let d := d.ensureSourceExists source
    if d.isDuplicate source message then pure d
    else do
      let d ← Fuelled.ofExcept (d.enqueueMessage config source message)
      d.handleMessages config
  | .pass => pure (d.record (.passed source message) d.state)
  | .drop => pure d

def dispatchAll [BEq M] (config : DispatcherConfig) (d : FairRoundRobinDispatcher S M) (calls : List (S × M)) :
    Fuelled (DispatchError S) (FairRoundRobinDispatcher S M) :=
  calls.foldlM (fun d call => d.dispatch config .handle call.1 call.2) d

end FairRoundRobinDispatcher

/-- One source has its turn before the other. -/
def Ahead (first second : S) (queue : List S) : Prop := ∃ l l', queue = l ++ second :: l' ∧ first ∈ l

variable {first second : S} {rest : List S}

theorem ahead_concat (h : first ∈ rest) : Ahead first second (rest ++ [second]) :=
  ⟨rest, [], rfl, h⟩

theorem Ahead.tail {front : S} (h : Ahead first second (front :: rest))
    (hNe : front ≠ first) : Ahead first second rest := by
  obtain ⟨l, l', hEq, hMem⟩ := h
  cases l with
  | nil => cases hMem
  | cons head l =>
    obtain ⟨rfl, rfl⟩ := List.cons.inj hEq
    exact ⟨l, l', rfl, (List.mem_cons.mp hMem).resolve_left (Ne.symm hNe)⟩

theorem Ahead.append {queue : List S} (h : Ahead first second queue) (more : List S) :
    Ahead first second (queue ++ more) := by
  obtain ⟨l, l', rfl, hMem⟩ := h
  exact ⟨l, l' ++ more, by simp, hMem⟩

theorem Ahead.not_front (h : Ahead first second (second :: rest))
    (hNodup : (second :: rest).Nodup) : False := by
  obtain ⟨l, l', hEq, hMem⟩ := h
  cases l with
  | nil => cases hMem
  | cons head l =>
    obtain ⟨rfl, rfl⟩ := List.cons.inj hEq
    exact (List.nodup_cons.mp hNodup).1 (List.mem_append_right l List.mem_cons_self)

section steps

variable [DecidableEq S]

inductive Step : DispatcherState S M → Turn S M → DispatcherState S M → Prop
  | added {s s' : DispatcherState S M} {source : S} : s.messages source = none → s'.queue = source :: s.queue →
      s'.messages = Function.update s.messages source (some []) → Step s (.added source) s'
  | enqueued {s s' : DispatcherState S M} {source : S} {message : M} {queue : List M} :
      s.messages source = some queue → s'.queue = s.queue →
      s'.messages = Function.update s.messages source (some (queue ++ [message])) → Step s (.enqueued source message) s'
  | handled {s s' : DispatcherState S M} {source : S} {message : M} {queue : List M} {rest : List S} :
      s.queue = source :: rest → s.messages source = some (message :: queue) → s'.queue = rest ++ [source] →
      s'.messages = Function.update s.messages source (some queue) → Step s (.handled source message) s'
  | skipped {s s' : DispatcherState S M} {source : S} : s'.queue = s.queue → s'.messages = s.messages →
      Step s (.skipped source) s'
  | rotated {s s' : DispatcherState S M} {source : S} {rest : List S} : s.queue = source :: rest →
      s.messagesOf source = [] → s'.queue = rest ++ [source] → s'.messages = s.messages → Step s (.rotated source) s'
  | droppedSource {s s' : DispatcherState S M} {source : S} {rest : List S} : s.queue = source :: rest →
      s.messagesOf source = [] → s'.queue = s.queue.filter (· ≠ source) →
      s'.messages = Function.update s.messages source none → Step s (.droppedSource source) s'

inductive Run : DispatcherState S M → List (Turn S M × DispatcherState S M) → DispatcherState S M → Prop
  | nil {s : DispatcherState S M} : Run s [] s
  | cons {s s₁ s' : DispatcherState S M} {event : Turn S M} {rest : List (Turn S M × DispatcherState S M)} :
      Step s event s₁ → Run s₁ rest s' → Run s ((event, s₁) :: rest) s'

/-- The sources of the queue are those with messages, each once. -/
structure DispatcherState.Valid (s : DispatcherState S M) : Prop where
  nodup : s.queue.Nodup
  mem_queue : ∀ source, source ∈ s.queue ↔ s.messages source ≠ none

omit [DecidableEq S] in
theorem DispatcherState.valid_new : (DispatcherState.new : DispatcherState S M).Valid :=
  ⟨List.nodup_nil, fun _ => by simp [DispatcherState.new]⟩

variable {event : Turn S M}

theorem Step.valid {s s' : DispatcherState S M} (h : Step s event s') (hValid : s.Valid) :
    s'.Valid := by
  obtain ⟨hNodup, hMem⟩ := hValid
  cases h with
  | @added _ source hNone hQueue hMessages =>
    refine ⟨?_, fun other => ?_⟩
    · rw [hQueue]
      exact List.nodup_cons.mpr ⟨fun hIn => (hMem source).mp hIn hNone, hNodup⟩
    · rw [hQueue, hMessages, List.mem_cons, hMem, Function.update_apply]
      split <;> simp_all
  | @enqueued _ source _ queue hSome hQueue hMessages =>
    refine ⟨hQueue ▸ hNodup, fun other => ?_⟩
    rw [hQueue, hMessages, hMem, Function.update_apply]
    split <;> simp_all
  | @handled _ source _ queue rest hFront hSome hQueue hMessages =>
    have hPerm : s'.queue.Perm s.queue := by
      rw [hQueue, hFront]
      exact List.perm_append_singleton source rest
    refine ⟨hPerm.nodup_iff.mpr hNodup, fun other => ?_⟩
    rw [hPerm.mem_iff, hMem, hMessages, Function.update_apply]
    split <;> simp_all
  | skipped hQueue hMessages =>
    refine ⟨hQueue ▸ hNodup, fun other => ?_⟩
    rw [hQueue, hMessages, hMem]
  | @rotated _ source rest hFront _ hQueue hMessages =>
    have hPerm : s'.queue.Perm s.queue := by
      rw [hQueue, hFront]
      exact List.perm_append_singleton source rest
    refine ⟨hPerm.nodup_iff.mpr hNodup, fun other => ?_⟩
    rw [hPerm.mem_iff, hMem, hMessages]
  | @droppedSource _ source rest _ _ hQueue hMessages =>
    refine ⟨?_, fun other => ?_⟩
    · rw [hQueue]
      exact hNodup.filter _
    · rw [hQueue, hMessages, List.mem_filter, hMem, Function.update_apply]
      split <;> simp_all

namespace Run

variable {s s' s'' : DispatcherState S M} {trace trace' : List (Turn S M × DispatcherState S M)}

theorem valid (h : Run s trace s') (hValid : s.Valid) : s'.Valid := by
  induction h with
  | nil => exact hValid
  | cons hStep _ ih => exact ih (hStep.valid hValid)

theorem append (h : Run s trace s') (h' : Run s' trace' s'') : Run s (trace ++ trace') s'' := by
  induction h with
  | nil => exact h'
  | cons hStep _ ih => exact .cons hStep (ih h')

theorem split (h : Run s (trace ++ trace') s'') : ∃ middle, Run s trace middle ∧ Run middle trace' s'' := by
  induction trace generalizing s with
  | nil => exact ⟨s, .nil, h⟩
  | cons entry trace ih =>
    cases h with
    | cons hStep hRest =>
      obtain ⟨middle, hFirst, hSecond⟩ := ih hRest
      exact ⟨middle, .cons hStep hFirst, hSecond⟩

end Run

def enqueuedOf (source : S) (trace : List (Turn S M × DispatcherState S M)) : List M :=
  trace.filterMap fun entry =>
    match entry.1 with
    | .enqueued from_ message => if from_ = source then some message else none
    | _ => none

def handledOf (source : S) (trace : List (Turn S M × DispatcherState S M)) : List M :=
  trace.filterMap fun entry =>
    match entry.1 with
    | .handled from_ message => if from_ = source then some message else none
    | _ => none

theorem Step.messagesOf {s s' : DispatcherState S M} (h : Step s event s') (source : S) :
    s.messagesOf source ++ enqueuedOf source [(event, s')] = handledOf source [(event, s')] ++ s'.messagesOf source := by
  cases h with
  | @added _ other hNone hQueue hMessages =>
    simp only [enqueuedOf, handledOf, DispatcherState.messagesOf, hMessages, Function.update_apply]
    split <;> simp_all
  | @enqueued _ other _ queue hSome hQueue hMessages =>
    simp only [enqueuedOf, handledOf, DispatcherState.messagesOf, hMessages, Function.update_apply]
    rcases eq_or_ne other source with rfl | hNe
    · simp [hSome]
    · simp [hNe, hNe.symm]
  | @handled _ other _ queue rest hFront hSome hQueue hMessages =>
    simp only [enqueuedOf, handledOf, DispatcherState.messagesOf, hMessages, Function.update_apply]
    rcases eq_or_ne other source with rfl | hNe
    · simp [hSome]
    · simp [hNe, hNe.symm]
  | skipped hQueue hMessages => simp [enqueuedOf, handledOf, DispatcherState.messagesOf, hMessages]
  | rotated _ _ _ hMessages => simp [enqueuedOf, handledOf, DispatcherState.messagesOf, hMessages]
  | @droppedSource _ other rest _ hEmpty hQueue hMessages =>
    simp only [enqueuedOf, handledOf, DispatcherState.messagesOf, hMessages, Function.update_apply] at hEmpty ⊢
    split <;> simp_all

theorem Run.messagesOf {s s' : DispatcherState S M} {trace : List (Turn S M × DispatcherState S M)}
    (h : Run s trace s') (source : S) :
    s.messagesOf source ++ enqueuedOf source trace = handledOf source trace ++ s'.messagesOf source := by
  induction h with
  | nil => simp [enqueuedOf, handledOf]
  | @cons s s₁ s' event rest hStep _ ih =>
    have hCons : ∀ f : Turn S M × DispatcherState S M → Option M,
        ((event, s₁) :: rest).filterMap f = [(event, s₁)].filterMap f ++ rest.filterMap f := fun f => by
      rw [← List.filterMap_append, List.singleton_append]
    have hEnqueued : enqueuedOf source ((event, s₁) :: rest) = enqueuedOf source [(event, s₁)] ++ enqueuedOf source rest :=
      hCons _
    have hHandled : handledOf source ((event, s₁) :: rest) = handledOf source [(event, s₁)] ++ handledOf source rest :=
      hCons _
    rw [hEnqueued, hHandled, ← List.append_assoc, hStep.messagesOf source, List.append_assoc, ih, List.append_assoc]

theorem Step.ahead {s s' : DispatcherState S M} {first second : S} (h : Step s event s')
    (hValid : s.Valid) (hAhead : Ahead first second s.queue) (hWaits : s.messagesOf first ≠ [])
    (hNot : ∀ message, event ≠ .handled first message) :
    Ahead first second s'.queue ∧ ∀ message, event ≠ .handled second message := by
  cases h with
  | @added _ source _ hQueue _ =>
    obtain ⟨l, l', hEq, hMem⟩ := hAhead
    rw [hQueue]
    exact ⟨⟨source :: l, l', by rw [hEq, List.cons_append], List.mem_cons_of_mem _ hMem⟩, fun _ => by simp⟩
  | enqueued _ hQueue _ => exact ⟨hQueue ▸ hAhead, fun _ => by simp⟩
  | @handled _ source message _ rest hFront _ hQueue _ =>
    have hNe : source ≠ first := fun hEq => hNot message (by rw [hEq])
    rw [hFront] at hAhead
    refine ⟨?_, fun other hEq => ?_⟩
    · rw [hQueue]
      exact (hAhead.tail hNe).append _
    · obtain ⟨rfl, -⟩ := Turn.handled.inj hEq
      exact hAhead.not_front (hFront ▸ hValid.nodup)
  | skipped hQueue _ => exact ⟨hQueue ▸ hAhead, fun _ => by simp⟩
  | @rotated _ source rest hFront hEmpty hQueue _ =>
    have hNe : source ≠ first := fun hEq => hWaits (hEq ▸ hEmpty)
    rw [hFront] at hAhead
    refine ⟨?_, fun _ => by simp⟩
    rw [hQueue]
    exact (hAhead.tail hNe).append _
  | @droppedSource _ source rest hFront hEmpty hQueue _ =>
    have hNe : source ≠ first := fun hEq => hWaits (hEq ▸ hEmpty)
    have hNodup := hFront ▸ hValid.nodup
    rw [hFront] at hAhead hQueue
    refine ⟨?_, fun _ => by simp⟩
    have hRest : (source :: rest).filter (· ≠ source) = rest := by
      rw [List.filter_cons_of_neg (by simp)]
      exact List.filter_eq_self.mpr fun other hOther =>
        decide_eq_true fun hEq => (List.nodup_cons.mp hNodup).1 (hEq ▸ hOther)
    rw [hQueue, hRest]
    exact hAhead.tail hNe

theorem Run.fair {s s' last : DispatcherState S M} {middle : List (Turn S M × DispatcherState S M)} {first second : S}
    {message : M} (h : Run s middle s') (hValid : s.Valid) (hAhead : Ahead first second s.queue) (hNe : first ≠ second)
    (hAll : ∀ state ∈ s :: middle.map Prod.snd, state.messagesOf first ≠ [])
    (hLast : Step s' (.handled second message) last) : ∃ other state, (Turn.handled first other, state) ∈ middle := by
  have hOther : ∀ other, Turn.handled second message ≠ .handled first other := by
    intro other hEq
    exact hNe (Turn.handled.inj hEq).1.symm
  induction h with
  | nil => exact absurd rfl ((hLast.ahead hValid hAhead (hAll _ List.mem_cons_self) hOther).2 message)
  | @cons s s₁ s' event rest hStep _ ih =>
    by_cases hHandled : ∃ other, event = .handled first other
    · obtain ⟨other, rfl⟩ := hHandled
      exact ⟨other, s₁, List.mem_cons_self⟩
    · have hKeeps := hStep.ahead hValid hAhead (hAll _ List.mem_cons_self) fun other hEq => hHandled ⟨other, hEq⟩
      obtain ⟨other, state, hMem⟩ := ih (hStep.valid hValid) hKeeps.1
        (fun state hState => hAll state (List.mem_cons_of_mem _ hState)) hLast
      exact ⟨other, state, List.mem_cons_of_mem _ hMem⟩

namespace FairRoundRobinDispatcher

def Traced (d : FairRoundRobinDispatcher S M) : Prop := Run .new d.trace d.state

variable {d : FairRoundRobinDispatcher S M} {source : S}

theorem Traced.valid (h : d.Traced) : d.state.Valid := Run.valid h DispatcherState.valid_new

theorem Traced.record (h : d.Traced) {event : Turn S M} {state : DispatcherState S M} (hStep : Step d.state event state) :
    (d.record event state).Traced := Run.append h (.cons hStep .nil)

theorem Traced.ensureSourceExists (h : d.Traced) (source : S) : (d.ensureSourceExists source).Traced := by
  rw [FairRoundRobinDispatcher.ensureSourceExists]
  split
  · exact h
  · next hNone => exact h.record (.added hNone rfl rfl)

theorem messages_ensureSourceExists (d : FairRoundRobinDispatcher S M) (source : S) :
    ∃ queue, (d.ensureSourceExists source).state.messages source = some queue := by
  rw [FairRoundRobinDispatcher.ensureSourceExists]
  split
  · next queue hSome => exact ⟨queue, hSome⟩
  · exact ⟨[], Function.update_self ..⟩

theorem Traced.enqueueMessage (h : d.Traced) (config : DispatcherConfig) (message : M) {queue : List M}
    (hSome : d.state.messages source = some queue) :
    ∃ d', d.enqueueMessage config source message = .ok d' ∧ d'.Traced ∧ d'.state.messagesOf source ≠ [] := by
  rw [FairRoundRobinDispatcher.enqueueMessage]
  simp only [hSome]
  split
  · refine ⟨_, rfl, h.record (.enqueued hSome rfl rfl), ?_⟩
    simp [FairRoundRobinDispatcher.record, DispatcherState.messagesOf]
  · next hFull =>
    refine ⟨d, rfl, h, ?_⟩
    have hPos := config.maxSourceQueueSize_pos
    rw [DispatcherState.messagesOf, hSome, Option.getD_some]
    exact List.ne_nil_of_length_pos (by omega)

variable {message : M}

omit [DecidableEq S] in
theorem handleMessage_eq_some (h : d.handleMessage source = some message) :
    ∃ queue, d.state.messages source = some (message :: queue) := by
  rw [handleMessage, Option.bind_eq_some_iff] at h
  obtain ⟨queue, hSome, hHead⟩ := h
  obtain ⟨rest, rfl⟩ := List.head?_eq_some_iff.mp hHead
  exact ⟨rest, hSome⟩

omit [DecidableEq S] in
theorem handleMessage_eq_none : d.handleMessage source = none ↔ d.state.messagesOf source = [] := by
  rw [handleMessage, DispatcherState.messagesOf]
  cases d.state.messages source with
  | none => simp
  | some queue => simp

def pending (s : DispatcherState S M) : Nat := (s.queue.map fun source => (s.messagesOf source).length).sum

theorem pending_handled {s s' : DispatcherState S M} (hValid : s.Valid)
    (h : Step s (.handled source message) s') : pending s = pending s' + 1 := by
  cases h with
  | @handled _ _ _ queue rest hFront hSome hQueue hMessages =>
    have hNotIn : source ∉ rest := (List.nodup_cons.mp (hFront ▸ hValid.nodup)).1
    have hRest : rest.map (fun other => (s'.messagesOf other).length) =
        rest.map fun other => (s.messagesOf other).length := by
      refine List.map_congr_left fun other hOther => ?_
      have hNe : other ≠ source := fun hEq => hNotIn (hEq ▸ hOther)
      rw [DispatcherState.messagesOf, DispatcherState.messagesOf, hMessages, Function.update_of_ne hNe]
    rw [pending, pending, hFront, hQueue, List.map_append, hRest]
    simp [DispatcherState.messagesOf, hMessages, hSome]
    omega

theorem Traced.success (h : d.Traced) {rest : List S} (hFront : d.state.queue = source :: rest)
    (hMessage : d.handleMessage source = some message) :
    ∃ d', d.success source = .ok d' ∧ d'.Traced ∧ pending d.state = pending d'.state + 1 := by
  obtain ⟨queue, hSome⟩ := handleMessage_eq_some hMessage
  rw [FairRoundRobinDispatcher.success]
  simp only [hSome]
  refine ⟨_, rfl, ?_⟩
  have hStep : Step d.state (.handled source message)
      { d.state with
        queue := rotate d.state.queue
        messages := Function.update d.state.messages source (some queue)
        skipped := 0 } := .handled hFront hSome (by rw [hFront, rotate]) rfl
  exact ⟨h.record hStep, pending_handled h.valid hStep⟩

theorem withoutGiveupRound_reaches (h : d.Traced) :
    ∃ d', RoundsReach withoutGiveupRound d (.ok d') ∧ d'.Traced := by
  generalize hCount : pending d.state = count
  induction count using Nat.strong_induction_on generalizing d with
  | _ count ih =>
    cases hQueue : d.state.queue with
    | nil =>
      refine ⟨d, .done ?_, h⟩
      rw [withoutGiveupRound, hQueue]
      exact .pure _
    | cons source rest =>
      cases hMessage : d.handleMessage source with
      | none =>
        refine ⟨d, .done ?_, h⟩
        simp only [withoutGiveupRound, hQueue, List.head?_cons, hMessage]
        exact .pure _
      | some message =>
        obtain ⟨d₁, hSuccess, hTraced, hPending⟩ := h.success hQueue hMessage
        obtain ⟨d', hReach, hTraced'⟩ := ih (pending d₁.state) (by omega) hTraced rfl
        refine ⟨d', .next ?_ hReach, hTraced'⟩
        simp only [withoutGiveupRound, hQueue, List.head?_cons, hMessage]
        exact .bind (.of_eq hSuccess) (.pure _)

theorem Traced.failure (h : d.Traced) (config : DispatcherConfig) {rest : List S} (hFront : d.state.queue = source :: rest)
    (hEmpty : d.state.messagesOf source = []) :
    (d.failure config source).1.Traced ∧ ((d.failure config source).2 = true →
      (∀ other ∈ rest, (d.failure config source).1.state.messagesOf other = d.state.messagesOf other) ∧
        ∃ last, (d.failure config source).1.state.queue = rest ++ last) := by
  have hNotIn : source ∉ rest := (List.nodup_cons.mp (hFront ▸ h.valid.nodup)).1
  have hFilter : d.state.queue.filter (· ≠ source) = rest := by
    rw [hFront, List.filter_cons_of_neg (by simp)]
    exact List.filter_eq_self.mpr fun other hOther => decide_eq_true fun hEq => hNotIn (hEq ▸ hOther)
  rw [FairRoundRobinDispatcher.failure]
  split
  · rw [giveUp]
    dsimp only
    split
    · refine ⟨h.record (.droppedSource hFront hEmpty rfl rfl), fun _ => ⟨fun other hOther => ?_, [], ?_⟩⟩
      · have hNe : other ≠ source := fun hEq => hNotIn (hEq ▸ hOther)
        simp only [FairRoundRobinDispatcher.record, DispatcherState.messagesOf, Function.update_of_ne hNe]
      · rw [List.append_nil]
        exact hFilter
    · refine ⟨h.record (.rotated hFront hEmpty (by rw [hFront, rotate]) rfl), fun _ => ⟨fun _ _ => rfl, [source], ?_⟩⟩
      simp only [FairRoundRobinDispatcher.record, hFront, rotate]
  · exact ⟨h.record (.skipped rfl rfl), fun hFalse => by cases hFalse⟩

theorem withGiveupRound_reaches (h : d.Traced) (config : DispatcherConfig) {before after : List S}
    (hQueue : d.state.queue = before ++ source :: after) (hWaits : d.state.messagesOf source ≠ []) :
    ∃ d', RoundsReach (withGiveupRound config) d (.ok d') ∧ d'.Traced := by
  induction before generalizing d after with
  | nil =>
    obtain ⟨message, hMessage⟩ := Option.ne_none_iff_exists'.mp (mt handleMessage_eq_none.mp hWaits)
    obtain ⟨d₁, hSuccess, hTraced, -⟩ := h.success hQueue hMessage
    obtain ⟨d', hReach, hTraced'⟩ := withoutGiveupRound_reaches hTraced
    refine ⟨d', .done ?_, hTraced'⟩
    have hNext : Reaches (d.handleNextMessageWithGiveup config) (.ok (d', false)) := by
      rw [handleNextMessageWithGiveup, hQueue]
      simp only [List.nil_append, List.head?_cons, hMessage]
      exact .bind (.of_eq hSuccess) (.bind hReach.loop (.pure _))
    exact .bind hNext (.pure _)
  | cons front before ih =>
    cases hMessage : d.handleMessage front with
    | some message =>
      obtain ⟨d₁, hSuccess, hTraced, -⟩ := h.success hQueue hMessage
      obtain ⟨d', hReach, hTraced'⟩ := withoutGiveupRound_reaches hTraced
      refine ⟨d', .done ?_, hTraced'⟩
      have hNext : Reaches (d.handleNextMessageWithGiveup config) (.ok (d', false)) := by
        rw [handleNextMessageWithGiveup, hQueue]
        simp only [List.cons_append, List.head?_cons, hMessage]
        exact .bind (.of_eq hSuccess) (.bind hReach.loop (.pure _))
      exact .bind hNext (.pure _)
    | none =>
      have hNext : Reaches (d.handleNextMessageWithGiveup config) (.ok (d.failure config front)) := by
        rw [handleNextMessageWithGiveup, hQueue]
        simp only [List.cons_append, List.head?_cons, hMessage]
        exact .pure _
      obtain ⟨hTraced, hGivenUp⟩ := h.failure config hQueue (handleMessage_eq_none.mp hMessage)
      have hRound : Reaches (d.withGiveupRound config)
          (.ok (if (d.failure config front).2 then .inl (d.failure config front).1 else .inr (d.failure config front).1)) :=
        .bind hNext (.pure _)
      cases hFlag : (d.failure config front).2 with
      | false =>
        rw [hFlag] at hRound
        exact ⟨_, .done hRound, hTraced⟩
      | true =>
        rw [hFlag] at hRound
        obtain ⟨hSame, last, hLast⟩ := hGivenUp hFlag
        obtain ⟨d', hReach, hTraced'⟩ := ih hTraced (hLast.trans (List.append_assoc before (source :: after) last))
          (by rw [hSame source (by simp)]; exact hWaits)
        exact ⟨d', .next hRound hReach, hTraced'⟩

theorem dispatch_reaches [BEq M] (h : d.Traced) (config : DispatcherConfig) (source : S) (message : M) :
    ∃ d', Reaches (d.dispatch config .handle source message) (.ok d') ∧ d'.Traced := by
  obtain ⟨queue, hSome⟩ := messages_ensureSourceExists d source
  have hTraced := h.ensureSourceExists source
  rw [dispatch]
  split
  · exact ⟨_, .pure _, hTraced⟩
  · obtain ⟨d₁, hEnqueued, hTraced₁, hWaits⟩ := hTraced.enqueueMessage config message hSome
    have hMem : source ∈ d₁.state.queue := by
      rw [hTraced₁.valid.mem_queue]
      intro hNone
      apply hWaits
      rw [DispatcherState.messagesOf, hNone]
      rfl
    obtain ⟨before, after, hQueue⟩ := List.append_of_mem hMem
    obtain ⟨d', hReach, hTraced'⟩ := withGiveupRound_reaches hTraced₁ config hQueue hWaits
    exact ⟨d', .bind (.of_eq hEnqueued) hReach.loop, hTraced'⟩

theorem dispatchAll_reaches [BEq M] (h : d.Traced) (config : DispatcherConfig) (calls : List (S × M)) :
    ∃ d', Reaches (d.dispatchAll config calls) (.ok d') ∧ d'.Traced := by
  induction calls generalizing d with
  | nil => exact ⟨d, .pure d, h⟩
  | cons call calls ih =>
    obtain ⟨d₁, hReach, hTraced⟩ := dispatch_reaches h config call.1 call.2
    obtain ⟨d', hRest, hTraced'⟩ := ih hTraced
    refine ⟨d', ?_, hTraced'⟩
    rw [dispatchAll, List.foldlM_cons]
    exact .bind hReach hRest

theorem Traced.fair (h : d.Traced) {before middle after : List (Turn S M × DispatcherState S M)} {other : S}
    {message' : M} {state state' : DispatcherState S M}
    (hTrace : d.trace = before ++ (.handled source message, state) :: (middle ++ (.handled source message', state') :: after))
    (hNe : other ≠ source) (hAll : ∀ s ∈ state :: middle.map Prod.snd, s.messagesOf other ≠ []) :
    ∃ handled s, (Turn.handled other handled, s) ∈ middle := by
  have hRun : Run .new d.trace d.state := h
  rw [hTrace] at hRun
  obtain ⟨s, hBefore, hRest⟩ := hRun.split
  have hValid := hBefore.valid DispatcherState.valid_new
  cases hRest with
  | cons hFirst hRest =>
    obtain ⟨s', hMiddle, hLast⟩ := hRest.split
    have hValid₁ := hFirst.valid hValid
    have hMem : other ∈ state.queue := by
      rw [hValid₁.mem_queue]
      intro hNone
      apply hAll state List.mem_cons_self
      rw [DispatcherState.messagesOf, hNone]
      rfl
    have hAhead : Ahead other source state.queue := by
      cases hFirst with
      | handled _ _ hQueue _ =>
        rw [hQueue] at hMem ⊢
        exact ahead_concat ((List.mem_append.mp hMem).resolve_right (by simpa using hNe))
    cases hLast with
    | cons hLast _ => exact hMiddle.fair hValid₁ hAhead hNe hAll hLast

/-- Every sequence of calls ends. What was enqueued for a source is handled in order or still waits; between two messages
of a source every other waiting source is handled. -/
theorem dispatchAll_fair [BEq M] (config : DispatcherConfig) (calls : List (S × M)) :
    ∃ d : FairRoundRobinDispatcher S M, Reaches (new.dispatchAll config calls) (.ok d) ∧
      (∀ source, enqueuedOf source d.trace = handledOf source d.trace ++ d.state.messagesOf source) ∧
      ∀ before middle after source other message message' state state',
        d.trace = before ++ (.handled source message, state) :: (middle ++ (.handled source message', state') :: after) →
        other ≠ source → (∀ s ∈ state :: middle.map Prod.snd, s.messagesOf other ≠ []) →
        ∃ handled s, (Turn.handled other handled, s) ∈ middle := by
  have hNew : (new : FairRoundRobinDispatcher S M).Traced := .nil
  obtain ⟨d, hReach, hTraced⟩ := dispatchAll_reaches hNew config calls
  refine ⟨d, hReach, fun source => ?_, fun _ _ _ _ _ _ _ _ _ hTrace hNe hAll => hTraced.fair hTrace hNe hAll⟩
  have hMessages := Run.messagesOf hTraced source
  rwa [show (DispatcherState.new : DispatcherState S M).messagesOf source = [] from rfl, List.nil_append] at hMessages

end FairRoundRobinDispatcher

end steps

end F1r3Node.Transport
