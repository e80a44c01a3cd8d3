import F1r3Node.Lib.Fallible
import F1r3Node.Transport.StreamHandler

/-! # Limits that reach the breaker through the thread

A stream that ends empties the slot for every other stream on the thread, and a stream that moves leaves its slot
behind.
-/

namespace F1r3Node.Transport

open Shared
open Lib (exists_of_bind_ok)

section

variable {params : Params}

/-- The header, once there is one, names the network, and no more bytes were read than allowed. -/
def Within (params : Params) (streamed : Streamed) : Prop :=
  (∀ header, streamed.header = some header → header.networkId = params.networkId) ∧ streamed.readSoFar ≤ params.maxSize

theorem within_new (params : Params) (key : String) : Within params (.new key) :=
  ⟨fun _ hHeader => absurd hHeader (by simp [Streamed.new]), Nat.zero_le _⟩

variable {streamed : Streamed}

theorem circuitBreakerWithParams_eq_closed :
    circuitBreakerWithParams (some params) streamed = .closed ↔ Within params streamed := by
  have hForeign : Header.foreign streamed.header params.networkId = true ↔
      ¬ ∀ header, streamed.header = some header → header.networkId = params.networkId := by
    rw [Header.foreign]
    cases streamed.header <;> simp
  rw [circuitBreakerWithParams, Within]
  split_ifs with hId hSize
  · exact iff_of_false nofun fun h => hForeign.mp hId h.1
  · exact iff_of_false nofun fun h => Nat.not_le.mpr hSize h.2
  · exact iff_of_true rfl ⟨Decidable.not_not.mp (mt hForeign.mpr hId), Nat.not_lt.mp hSize⟩

theorem collectChunk_eq_ok {slot : Slot} {senderId : Bytes} {after : Streamed} {chunk : Chunk}
    (h : collectChunk slot senderId streamed chunk = .ok after) :
    ∃ current, processChunk streamed chunk = .ok current ∧ circuitBreakerWithParams slot current = .closed ∧
      after = { current with circuit := .closed } := by
  rw [collectChunk] at h
  obtain ⟨current, hCurrent, hBreaker⟩ := exists_of_bind_ok h
  refine ⟨current, hCurrent, ?_⟩
  rw [circuitBreaker] at hBreaker
  split at hBreaker
  · cases hBreaker
  · next hClosed =>
    split at hClosed
    · next hParams => exact ⟨hParams, (Except.ok.inj hBreaker).symm⟩
    · next hOther => exact absurd hClosed hOther

theorem header_of_endOfStream {message : StreamMessage} (h : endOfStream streamed = .ok message) :
    streamed.header.isSome := by
  rw [endOfStream] at h
  split at h
  · cases h
  · rw [toResult] at h
    split at h
    · cases h
    · next hHeader => rw [hHeader]; rfl

/-- What a call has collected is within the limits, and there is a header once it has returned a message. -/
def Task.Kept (params : Params) : Task → Prop
  | .collecting streamed _ => Within params streamed
  | .finished streamed (.ok _) => Within params streamed ∧ streamed.header.isSome
  | _ => True

theorem kept_endOfStream (h : Within params streamed) :
    (Task.finished streamed (endOfStream streamed)).Kept params := by
  cases hResult : endOfStream streamed with
  | ok message => exact ⟨h, header_of_endOfStream hResult⟩
  | error error => trivial

end

section

variable {K T : Type} {server : Server K T} {params : Params}

def SlotsSound (params : Params) (server : Server K T) : Prop :=
  ∀ t, server.slots t = none ∨ server.slots t = some params

def Collected (params : Params) (server : Server K T) : Prop := ∀ k, (server.tasks k).Kept params

/-- The breaker looks at a chunk of a stream: the slot it finds, and what has been collected with the chunk. -/
def Looks (server : Server K T) (event : Event K T) (slot : Slot) (current : Streamed) : Prop :=
  ∃ k t chunk streamed senderId, event = .chunk k t chunk ∧ server.tasks k = .collecting streamed senderId ∧
    processChunk streamed chunk = .ok current ∧ slot = server.slots t

def Spared (params : Params) (server : Server K T) (event : Event K T) : Prop :=
  ∀ current, Looks server event none current → Within params current

theorem SlotsSound.setSlot [DecidableEq T] (h : SlotsSound params server) (t : T) {slot : Slot}
    (hSlot : slot = none ∨ slot = some params) : SlotsSound params (server.setSlot t slot) := by
  intro t'
  rw [Server.setSlot]
  obtain rfl | hNe := eq_or_ne t' t
  · simpa using hSlot
  · simpa [hNe] using h t'

theorem Collected.setTask [DecidableEq K] (h : Collected params server) (k : K) {task : Task}
    (hTask : task.Kept params) : Collected params (server.setTask k task) := by
  intro k'
  rw [Server.setTask]
  obtain rfl | hNe := eq_or_ne k' k
  · simpa using hTask
  · simpa [hNe] using h k'

variable [DecidableEq K] [DecidableEq T]

theorem slotsSound_step (h : SlotsSound params server) (event : Event K T) :
    SlotsSound params (step params server event) := by
  cases event with
  | start k t senderId key =>
    rw [step]
    split
    · exact h.setSlot t (.inr rfl)
    · exact h
  | chunk k t chunk =>
    rw [step]
    split
    · split
      · exact h
      · exact h.setSlot t (.inl rfl)
    · exact h
  | close k t =>
    rw [step]
    split
    · exact h.setSlot t (.inl rfl)
    · exact h
  | drop k =>
    rw [step]
    split <;> exact h

theorem collected_step {event : Event K T} (hSlots : SlotsSound params server) (h : Collected params server)
    (hSpared : Spared params server event) : Collected params (step params server event) := by
  cases event with
  | start k t senderId key =>
    rw [step]
    split
    · exact Collected.setTask h k (within_new params key)
    · exact h
  | chunk k t chunk =>
    rw [step]
    split
    · next streamed senderId hTask =>
      split
      · next after hAfter =>
        obtain ⟨current, hCurrent, hBreaker, rfl⟩ := collectChunk_eq_ok hAfter
        have hWithin : Within params current := by
          obtain hNone | hSome := hSlots t
          · exact hSpared current ⟨k, t, chunk, streamed, senderId, rfl, hTask, hCurrent, hNone.symm⟩
          · rw [hSome] at hBreaker
            exact circuitBreakerWithParams_eq_closed.mp hBreaker
        exact h.setTask k hWithin
      · exact h.setTask k trivial
    · exact h
  | close k t =>
    rw [step]
    split
    · next streamed senderId hTask =>
      have hWithin := h k
      rw [hTask] at hWithin
      exact h.setTask k (kept_endOfStream hWithin)
    · exact h
  | drop k =>
    rw [step]
    split
    · exact h.setTask k trivial
    · exact h

end

section

variable {K T : Type} [DecidableEq K] [DecidableEq T] {params : Params}

def Reaches (events before : List (Event K T)) (event : Event K T) : Prop := ∃ after, events = before ++ event :: after

/-- A call that returned a message had the network id in its header and read no more than allowed, and the breaker
always decided as it does with the limits of the service. -/
structure Enforced (params : Params) (events : List (Event K T)) : Prop where
  accepted : ∀ before, before <+: events → ∀ k streamed message,
    (run params before).tasks k = .finished streamed (.ok message) →
    (∃ header, streamed.header = some header ∧ header.networkId = params.networkId) ∧
      streamed.readSoFar ≤ params.maxSize
  decided : ∀ before event, Reaches events before event → ∀ slot current,
    Looks (run params before) event slot current →
    circuitBreakerWithParams slot current = circuitBreakerWithParams (some params) current

theorem run_concat (params : Params) (events : List (Event K T)) (event : Event K T) :
    run params (events ++ [event]) = step params (run params events) event := by
  rw [run, List.foldl_concat]
  rfl

theorem slotsSound_run (params : Params) (events : List (Event K T)) : SlotsSound params (run params events) := by
  induction events using List.reverseRecOn with
  | nil => exact fun _ => .inl rfl
  | append_singleton events event ih =>
    rw [run_concat]
    exact slotsSound_step ih event

theorem collected_run {events : List (Event K T)}
    (hSpared : ∀ before event, Reaches events before event → Spared params (run params before) event) :
    Collected params (run params events) := by
  induction events using List.reverseRecOn with
  | nil => exact fun _ => trivial
  | append_singleton events event ih =>
    rw [run_concat]
    apply collected_step (slotsSound_run params events)
    · apply ih
      rintro before event' ⟨after, rfl⟩
      exact hSpared before event' ⟨after ++ [event], by simp⟩
    · exact hSpared events event ⟨[], rfl⟩

/-- The limits are enforced in a run exactly if none of its chunks leaves them on a thread with an empty slot. -/
theorem limits_enforced_iff (params : Params) (events : List (Event K T)) :
    Enforced params events ↔
      ∀ before event, Reaches events before event → Spared params (run params before) event := by
  constructor
  · intro hEnforced before event hReaches current hLooks
    exact circuitBreakerWithParams_eq_closed.mp (hEnforced.decided before event hReaches none current hLooks).symm
  · intro hSpared
    refine ⟨?_, ?_⟩
    · rintro before ⟨rest, rfl⟩ k streamed message hTask
      have hCollected : Collected params (run params before) := by
        apply collected_run
        rintro before' event ⟨after, rfl⟩
        exact hSpared before' event ⟨after ++ rest, by simp⟩
      have hKept := hCollected k
      rw [hTask] at hKept
      obtain ⟨⟨hId, hSize⟩, hHeader⟩ := hKept
      obtain ⟨header, hEq⟩ := Option.isSome_iff_exists.mp hHeader
      exact ⟨⟨header, hEq, hId header hEq⟩, hSize⟩
    · intro before event hReaches slot current hLooks
      obtain ⟨k, t, chunk, streamed, senderId, hEvent, hTask, hCurrent, rfl⟩ := hLooks
      obtain hNone | hSome := slotsSound_run params before t
      · have hWithin := hSpared before event hReaches current
          ⟨k, t, chunk, streamed, senderId, hEvent, hTask, hCurrent, hNone.symm⟩
        rw [hNone, circuitBreakerWithParams_eq_closed.mpr hWithin]
        rfl
      · rw [hSome]

end

def somePeer : PeerNode := ⟨[1], "localhost", 40400, 40404⟩

/-- The second stream ends and empties the slot; the first one then sends a header of another network and three bytes
where two are allowed. -/
def emptiedSlot : List (Event Bool Unit) :=
  [.start false () [1] "packet_send/a", .start true () [1] "packet_send/b", .close true (),
    .chunk false () (.header ⟨some somePeer, "Block", false, 3, "other"⟩), .chunk false () (.data [1, 2, 3]),
    .close false ()]

theorem emptiedSlot_accepts_foreign_stream : ¬ Enforced ⟨"main", 2⟩ emptiedSlot := by
  intro hEnforced
  obtain ⟨-, hSize⟩ := hEnforced.accepted emptiedSlot List.prefix_rfl false
    ⟨some ⟨somePeer, "Block", 3, "other", false⟩, 3, .closed, "packet_send/a"⟩
    ⟨somePeer, "Block", "packet_send/a", false, 3⟩ (by rfl)
  exact absurd hSize (by decide)

end F1r3Node.Transport
