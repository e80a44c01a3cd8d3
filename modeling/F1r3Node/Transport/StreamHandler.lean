import F1r3Node.Shared.Bytes

/-! # Streams received by the worker threads

The limits reach it through a slot of the thread it runs on, which the stream fills when it starts and empties when it
ends. Between two chunks a stream may go on on another thread.
-/

namespace F1r3Node.Transport

open Shared

structure PeerNode where
  key : Bytes
  host : String
  tcpPort : UInt32
  udpPort : UInt32
  deriving DecidableEq

structure Header where
  sender : PeerNode
  typeId : String
  contentLength : Int32
  networkId : String
  compressed : Bool
  deriving DecidableEq

inductive StreamError where
  | wrongNetworkId
  | maxSizeReached
  | senderMismatch
  | notFullMessage (streamed : String)
  | unexpected (error : String)
  deriving DecidableEq

inductive Circuit where
  | opened (error : StreamError)
  | closed
  deriving DecidableEq

structure Streamed where
  header : Option Header
  readSoFar : Nat
  circuit : Circuit
  key : String
  deriving DecidableEq

structure StreamMessage where
  sender : PeerNode
  typeId : String
  key : String
  compressed : Bool
  contentLength : Int32
  deriving DecidableEq

/-- The sender of a header, once it is converted to a peer node. -/
structure ChunkHeader where
  sender : Option PeerNode
  typeId : String
  compressed : Bool
  contentLength : Int32
  networkId : String

inductive Chunk where
  | header (header : ChunkHeader)
  | data (contentData : Bytes)
  | unknown

namespace StreamError

def message : StreamError → String
  | .wrongNetworkId => "Could not receive stream! Wrong network id."
  | .maxSizeReached => "Max message size was reached."
  | .senderMismatch => "Could not receive stream! Sender does not match the TLS certificate."
  | .notFullMessage streamed => "Received not full stream message, will not process. " ++ streamed
  | .unexpected error => "Could not receive stream! " ++ error

end StreamError

namespace Circuit

def broken : Circuit → Bool
  | .opened _ => true
  | .closed => false

end Circuit

namespace Streamed

def new (key : String) : Streamed := ⟨none, 0, .closed, key⟩

def display (streamed : Streamed) : String :=
  let typeId := match streamed.header with
    | some header => "Some(" ++ header.typeId.quote ++ ")"
    | none => "None"
  "Streamed(header: " ++ typeId ++ ", read_so_far: " ++ toString streamed.readSoFar ++ ", circuit_broken: " ++
    toString streamed.circuit.broken ++ ", key: " ++ streamed.key ++ ")"

end Streamed

def processChunk (streamed : Streamed) : Chunk → Except StreamError Streamed
  | .header chunkHeader =>
    match chunkHeader.sender with
    | none => .error (.notFullMessage "Header chunk missing sender")
    | some sender => .ok { streamed with
        header := some ⟨sender, chunkHeader.typeId, chunkHeader.contentLength, chunkHeader.networkId,
          chunkHeader.compressed⟩ }
  | .data contentData => .ok { streamed with readSoFar := streamed.readSoFar + contentData.length }
  | .unknown => .error (.notFullMessage "Not all data received")

structure Params where
  networkId : String
  maxSize : Nat
  deriving DecidableEq

abbrev Slot := Option Params

def Header.foreign (header : Option Header) (networkId : String) : Bool :=
  header.any fun header => header.networkId ≠ networkId

def circuitBreakerWithParams (slot : Slot) (streamed : Streamed) : Circuit :=
  match slot with
  | none => .closed
  | some params =>
    if Header.foreign streamed.header params.networkId then .opened .wrongNetworkId
    else if params.maxSize < streamed.readSoFar then .opened .maxSizeReached
    else .closed

def verifyStreamSender (streamed : Streamed) (senderId : Bytes) : Circuit :=
  match streamed.header with
  | some header => if header.sender.key ≠ senderId then .opened .senderMismatch else .closed
  | none => .closed

def circuitBreaker (slot : Slot) (senderId : Bytes) (streamed : Streamed) : Circuit :=
  match circuitBreakerWithParams slot streamed with
  | .closed => verifyStreamSender streamed senderId
  | opened => opened

/-- One round of the loop of `collect`. -/
def collectChunk (slot : Slot) (senderId : Bytes) (streamed : Streamed) (chunk : Chunk) : Except StreamError Streamed := do
  let current ← processChunk streamed chunk
  match circuitBreaker slot senderId current with
  | .opened error => throw error
  | .closed => pure { current with circuit := .closed }

def toResult (streamed : Streamed) : Except StreamError StreamMessage :=
  match streamed.header with
  | none => .error (.notFullMessage streamed.display)
  | some header =>
    if !header.compressed && streamed.readSoFar != header.contentLength.toInt64.toUInt64.toNat then
      .error (.notFullMessage streamed.display)
    else .ok ⟨header.sender, header.typeId, streamed.key, header.compressed, header.contentLength⟩

def endOfStream (streamed : Streamed) : Except StreamError StreamMessage :=
  match streamed.circuit with
  | .opened error => .error error
  | .closed => toResult streamed

/-- A call of `handle_stream_with_params`; a finished one keeps what it had collected. -/
inductive Task where
  | idle
  | collecting (streamed : Streamed) (senderId : Bytes)
  | finished (streamed : Streamed) (result : Except StreamError StreamMessage)
  | dropped
  deriving DecidableEq

section

variable {K T : Type} [DecidableEq K] [DecidableEq T]

structure Server (K T : Type) where
  slots : T → Slot
  tasks : K → Task

/-- What a thread does between two waits of the task it runs. -/
inductive Event (K T : Type) where
  | start (k : K) (t : T) (senderId : Bytes) (key : String)
  | chunk (k : K) (t : T) (chunk : Chunk)
  | close (k : K) (t : T)
  | drop (k : K)

namespace Server

def initial : Server K T := ⟨fun _ => none, fun _ => .idle⟩

variable (server : Server K T)

def setTask (k : K) (task : Task) : Server K T := { server with tasks := Function.update server.tasks k task }

def setSlot (t : T) (slot : Slot) : Server K T := { server with slots := Function.update server.slots t slot }

def finish (k : K) (t : T) (streamed : Streamed) (result : Except StreamError StreamMessage) : Server K T :=
  (server.setTask k (.finished streamed result)).setSlot t none

end Server

def step (params : Params) (server : Server K T) : Event K T → Server K T
  | .start k t senderId key =>
    match server.tasks k with
    | .idle => (server.setSlot t (some params)).setTask k (.collecting (.new key) senderId)
    | _ => server
  | .chunk k t chunk =>
    match server.tasks k with
    | .collecting streamed senderId =>
      match collectChunk (server.slots t) senderId streamed chunk with
      | .ok current => server.setTask k (.collecting current senderId)
      | .error error => server.finish k t streamed (.error error)
    | _ => server
  | .close k t =>
    match server.tasks k with
    | .collecting streamed _ => server.finish k t streamed (endOfStream streamed)
    | _ => server
  | .drop k =>
    -- the connection is gone: the task is dropped where it waits, and no slot is touched
    match server.tasks k with
    | .collecting _ _ => server.setTask k .dropped
    | _ => server

def run (params : Params) (events : List (Event K T)) : Server K T := events.foldl (step params) .initial

end

end F1r3Node.Transport
