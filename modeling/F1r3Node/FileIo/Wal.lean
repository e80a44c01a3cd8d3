import F1r3Node.Lib.Posix
import F1r3Node.Shared.Bytes

/-! # The write-ahead log of file operations

A handler reserves an entry before its system call and marks it as failed when the call returns an error.
-/

namespace F1r3Node.FileIo

open Shared
open Lib.Posix (Path)

inductive WalOp where
  | write
  | writeAt
  | truncate
  | chmod
  | chown
  | removeFile
  | removeDir
  | rename
  | copyFile
  | read
  | readAt
  | stat
  | entries
  | size
  | entriesStreamNext
  | exist
  | mkdir
  deriving DecidableEq

inductive WalOutcome where
  | success
  | failure (code : UInt32)
  deriving DecidableEq

inductive PayloadRef where
  | hash (digest : Bytes)
  | deployRef (blockHash : Bytes) (deployIndex argIndex : UInt32)
  deriving DecidableEq

structure WalEntry where
  op : WalOp
  path : Path
  extraPath : Option Path
  offset : Option Nat
  length : Option Nat
  payloadRef : Option PayloadRef
  modeBits : Option UInt32
  owner : Option String
  group : Option String
  outcome : WalOutcome
  deriving DecidableEq

/-- An entry with its place in the side vector of hashes. -/
structure WalSlot where
  entry : WalEntry
  ackHash : Bytes
  deriving DecidableEq

abbrev Wal := List WalSlot

def maxWalEntries : Nat := 65536

def Wal.entries (wal : Wal) : List WalEntry := wal.map WalSlot.entry

def appendWithAck (wal : Wal) (entry : WalEntry) (ackHash : Bytes) : Option Wal :=
  if maxWalEntries ≤ wal.length then none else some (wal ++ [⟨entry, ackHash⟩])

def updateOutcomeByAckHash (ackHash : Bytes) (outcome : WalOutcome) : Wal → Wal
  | [] => []
  | slot :: rest =>
    if rest.any fun later => later.ackHash = ackHash then slot :: updateOutcomeByAckHash ackHash outcome rest
    else if slot.ackHash = ackHash then { slot with entry := { slot.entry with outcome } } :: rest
    else slot :: rest

theorem updateOutcome_append (wal : Wal) (entry : WalEntry) (ackHash : Bytes) (outcome : WalOutcome) :
    updateOutcomeByAckHash ackHash outcome (wal ++ [⟨entry, ackHash⟩]) = wal ++ [⟨{ entry with outcome }, ackHash⟩] := by
  induction wal with
  | nil => simp [updateOutcomeByAckHash]
  | cons slot rest ih =>
    have hSome : (List.any (rest ++ [⟨entry, ackHash⟩]) fun later : WalSlot => decide (later.ackHash = ackHash)) = true := by
      simp
    rw [List.cons_append, updateOutcomeByAckHash, hSome, if_pos rfl, ih, List.cons_append]

end F1r3Node.FileIo
