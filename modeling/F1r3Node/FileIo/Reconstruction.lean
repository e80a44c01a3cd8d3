import F1r3Node.FileIo.Handlers

/-! # The tree rebuilt from the log

Where no open makes or empties a file, and no failed call without an entry marks the entry of another one, the copy
ends as the tree of the leader.
-/

namespace F1r3Node.FileIo

open Shared Lib Lib.Posix Lib.Stateful

def contentAt (fs : FileSystem) (names : List Name) : Option (List UInt8) :=
  (descend fs top names).bind fun i =>
    match fs.object i with
    | some (.file content) => some content
    | _ => none

def SameFiles (fs fs' : FileSystem) : Prop := ∀ names, contentAt fs names = contentAt fs' names

def Reconstructs (A : Applier) (tree : FileSystem) (s : Leader) : Prop :=
  ∃ fs, (A.applyWalToFreshTree s.wal.entries).run tree = .ok () fs ∧ SameFiles fs s.fs

def FsCall.Writes (bytes : Bytes) : FsCall → Prop
  | .write _ bytes' _ => bytes' = bytes
  | .writeAt _ _ bytes' _ => bytes' = bytes
  | _ => False

/-- The applier works on a copy: a path of the log leads it where the leader found the file, and it has the bytes of
every write. -/
structure Mirrors (A : Applier) (node : FsNode) (calls : List FsCall) : Prop where
  host : A.host = node.host
  paths : ∀ root rel mode onDisk id fs parent, .openFile root rel mode ∈ calls →
    node.resolveOrIdentityGated root = .ok (onDisk, id) →
    safeDescendVerified node.host fs onDisk rel id = .ok parent →
    ∃ dst, ∀ index, A.descendEntry fs index (join root rel) = .ok (parent, dst)
  payloads : ∀ call ∈ calls, ∀ bytes, call.Writes bytes → A.payloadBytes (node.payloadHash.hash bytes) = some bytes

/-- Offsets are signed, and a file that may be read and written may be written. -/
structure PosixLimits (proc : Process) : Prop where
  size : proc.maxFileSize < offsetBound
  write : ∀ mode uid gid, proc.permits mode uid gid .readWrite → proc.permits mode uid gid .write

def KeepsFiles (proc : Process) (fs : FileSystem) (parent : SafeParent) (intent : OpenIntent) : Prop :=
  match step fs parent.dirfd parent.leaf with
  | .ok i => intent.policy = .createOrTruncate → ∀ inode content, fs.inodes i = some inode →
      inode.object = .file content → proc.permits inode.mode inode.uid inode.gid intent.mode → content = []
  | .error _ => intent.policy = .require ∨ isDirectory fs parent.dirfd = false

def Unclaimed (ack : Bytes) (wal : Wal) : Prop :=
  ∀ slot, (wal.filter (·.ackHash = ack)).getLast? = some slot → slot.entry.outcome ≠ .success

def Journaled (node : FsNode) (s : Leader) : FsCall → Prop
  | .openFile root rel mode => ∀ intent onDisk id parent, parseOpenMode mode = some intent →
      intent.policy ≠ .createOrAppend → node.resolveOrIdentityGated root = .ok (onDisk, id) →
      safeDescendVerified node.host s.fs onDisk rel id = .ok parent → KeepsFiles node.host.proc s.fs parent intent
  | .write fd bytes ack => bytes.length ≤ maxWriteBytes → s.table.lookup fd.toUInt64.toNat = none → Unclaimed ack s.wal
  | .writeAt fd off bytes ack => 0 ≤ off → bytes.length ≤ maxWriteBytes →
      s.table.lookup fd.toUInt64.toNat = none → Unclaimed ack s.wal
  | .truncate fd n ack => 0 ≤ n → s.table.lookup fd.toUInt64.toNat = none ∨ maxTruncateBytes < n.toInt.toNat →
      Unclaimed ack s.wal
  | .close _ => True

def JournaledRun (node : FsNode) (tree : FileSystem) (nextFd : Nat) (calls : List FsCall) : Prop :=
  ∀ before call after, calls = before ++ call :: after → Journaled node (node.run tree nextFd before) call

section

variable {host : Host} {fs fs' : FileSystem}

theorem openIntermediates_extends (h : Extends fs fs') {cur dirfd : Ino} {names : List Name}
    (hWay : openIntermediates fs cur names = .ok dirfd) : openIntermediates fs' cur names = .ok dirfd := by
  induction names generalizing cur with
  | nil => exact hWay
  | cons component rest ih =>
    obtain ⟨name, hC, hNext⟩ := exists_of_bind_ok hWay
    obtain ⟨next, hOpen, hInto⟩ := exists_of_bind_ok hNext
    rw [openIntermediates, hC]
    change (openDirAt fs' cur name).mapError mapOpenErr >>= _ = _
    rw [h.openDirAt (eq_ok_of_mapError hOpen)]
    exact ih hInto

theorem safeDescendVerified_extends (h : Extends fs fs') {root rel : Path} {id : Option (Nat × Nat)}
    {parent : SafeParent} (hDescend : safeDescendVerified host fs root rel id = .ok parent) :
    safeDescendVerified host fs' root rel id = .ok parent := by
  rw [safeDescendVerified] at hDescend ⊢
  split at hDescend
  · cases hDescend
  next hRelative =>
    split at hDescend
    · cases hDescend
    next hDown =>
      obtain ⟨cur, hOpen, hRest⟩ := exists_of_bind_ok hDescend
      obtain ⟨_, hCheck, hLeaf⟩ := exists_of_bind_ok hRest
      rw [if_neg hRelative, if_neg hDown, h.openDir (eq_ok_of_mapError hOpen)]
      change checkIdentity host cur id >>= _ = _
      rw [hCheck]
      split at hLeaf
      · cases hLeaf
      next leafName hLast =>
        obtain ⟨dirfd, hWay, hC⟩ := exists_of_bind_ok hLeaf
        change openIntermediates fs' cur rel.segments.dropLast >>= _ = _
        rw [openIntermediates_extends h hWay]
        exact hC

theorem descendEntry_extends {A : Applier} (h : Extends fs fs') {index : Nat} {path dst : Path} {parent : SafeParent}
    (hDescend : A.descendEntry fs index path = .ok (parent, dst)) :
    A.descendEntry fs' index path = .ok (parent, dst) := by
  obtain ⟨_, hAllowed, hRest⟩ := exists_of_bind_ok hDescend
  obtain ⟨parent', hWay, hPure⟩ := exists_of_bind_ok hRest
  rw [Applier.descendEntry, hAllowed]
  change (safeDescendVerified _ fs' _ _ _).mapError _ >>= _ = _
  rw [safeDescendVerified_extends h (eq_ok_of_mapError hWay)]
  exact hPure

end

section

variable {A : Applier} {fs fs' tree : FileSystem}

theorem applyWalFrom_concat {entries : List WalEntry} {entry : WalEntry} (index : Nat)
    (hBefore : (A.applyWalFrom index entries).run tree = .ok () fs)
    (hEntry : ∀ index, (A.applyEntry index entry).run fs = .ok () fs') :
    (A.applyWalFrom index (entries ++ [entry])).run tree = .ok () fs' := by
  induction entries generalizing index tree with
  | nil =>
    obtain rfl : tree = fs := (EStateM.Result.ok.inj hBefore).2
    rw [List.nil_append, Applier.applyWalFrom, run_bind_of_ok (hEntry index)]
    rfl
  | cons first rest ih =>
    rw [Applier.applyWalFrom] at hBefore
    obtain ⟨_, t, hFirst, hRest⟩ := run_bind_eq_ok.mp hBefore
    rw [List.cons_append, Applier.applyWalFrom, run_bind_of_ok hFirst]
    exact ih (index + 1) hRest

theorem applyWalFrom_patched {ack : Bytes} (code : UInt32) {wal : Wal} (index : Nat) (h : Unclaimed ack wal) :
    A.applyWalFrom index (Wal.entries (updateOutcomeByAckHash ack (.failure code) wal)) =
      A.applyWalFrom index wal.entries := by
  induction wal generalizing index with
  | nil => rfl
  | cons slot rest ih =>
    rw [updateOutcomeByAckHash]
    split
    next hLater =>
      have hNext : Unclaimed ack rest := by
        intro last hLast
        refine h last ?_
        rw [List.filter_cons]
        split
        · rw [List.getLast?_cons, hLast]
          rfl
        · exact hLast
      exact congrArg (fun later => A.applyEntry index slot.entry >>= fun _ => later) (ih (index + 1) hNext)
    next hLast =>
      split
      next hAck =>
        have hNone : rest.filter (·.ackHash = ack) = [] := by
          simpa [List.filter_eq_nil_iff] using hLast
        have hFailed : slot.entry.outcome ≠ .success := by
          refine h slot ?_
          rw [List.filter_cons_of_pos (by simpa using hAck), hNone]
          rfl
        have hSkip : A.applyEntry index { slot.entry with outcome := .failure code } = A.applyEntry index slot.entry := by
          cases hOutcome : slot.entry.outcome with
          | success => exact absurd hOutcome hFailed
          | failure old => rw [Applier.applyEntry, Applier.applyEntry, hOutcome]
        change A.applyEntry index { slot.entry with outcome := .failure code } >>= _ = A.applyEntry index slot.entry >>= _
        rw [hSkip]
      · rfl

end

section

variable {A : Applier} {fs fs' : FileSystem} {handle : FileHandle}

/-- The applier finds the open file under the path of the log and may write it, and the two offsets agree. -/
structure Stands (A : Applier) (fs : FileSystem) (handle : FileHandle) : Prop where
  place : ∃ parent dst, (∀ index, A.descendEntry fs index handle.canonPath = .ok (parent, dst)) ∧
    step fs parent.dirfd parent.leaf = .ok handle.ino
  file : ∃ inode content, fs.inodes handle.ino = some inode ∧ inode.object = .file content ∧
    (handle.mode ≠ .read → A.host.proc.permits inode.mode inode.uid inode.gid .write)
  inStep : handle.position = handle.offset
  bounded : handle.offset ≤ A.host.proc.maxFileSize

theorem Stands.setContent (h : Stands A fs handle) (i : Ino) (content : List UInt8) :
    Stands A (fs.setContent i content) handle := by
  have hExtends := extends_setContent fs i content
  refine ⟨?_, ?_, h.inStep, h.bounded⟩
  · obtain ⟨parent, dst, hDescend, hStep⟩ := h.place
    exact ⟨parent, dst, fun index => descendEntry_extends hExtends (hDescend index), hExtends.step _ _ _ hStep⟩
  · obtain ⟨inode, old, hInode, hFile, hPermits⟩ := h.file
    obtain hEq | hNe := eq_or_ne handle.ino i
    · refine ⟨{ inode with object := .file content }, content, ?_, rfl, hPermits⟩
      rw [FileSystem.setContent, hEq, inodes_modify_self, ← hEq, hInode, Option.map_some, hFile]
      rfl
    · exact ⟨inode, old, (inodes_modify_of_ne hNe).trans hInode, hFile, hPermits⟩

theorem Stands.openAt (h : Stands A fs handle) (hMode : handle.mode ≠ .read) (create : Bool) (mode : UInt32) :
    ∃ parent dst, (∀ index, A.descendEntry fs index handle.canonPath = .ok (parent, dst)) ∧
      openAt A.host.proc fs parent.dirfd parent.leaf ⟨.write, create, false, false, false⟩ mode =
        .ok (handle.ino, fs) := by
  obtain ⟨parent, dst, hDescend, hStep⟩ := h.place
  obtain ⟨inode, content, hInode, hFile, hPermits⟩ := h.file
  refine ⟨parent, dst, hDescend, ?_⟩
  rw [Posix.openAt, hStep]
  simp [hInode, hFile, hPermits hMode]

theorem run_callUnit_of_ok {wrap : Errno → ApplierError} {f : FileSystem → Except Errno FileSystem} (h : f fs = .ok fs') :
    (callUnit wrap f).run fs = .ok () fs' := by
  refine run_update_of_ok ?_
  simp only [h]
  rfl

theorem run_call_of_ok {α : Type} {wrap : Errno → ApplierError} {f : FileSystem → Except Errno (α × FileSystem)} {a : α}
    (h : f fs = .ok (a, fs')) : (call wrap f).run fs = .ok a fs' := by
  refine run_update_of_ok ?_
  rw [h]
  rfl

theorem applyWrite_run {entry : WalEntry} {digest bytes : Bytes} {off : Nat} (h : Stands A fs handle)
    (hMode : handle.mode ≠ .read) (hPath : entry.path = handle.canonPath) (hRef : entry.payloadRef = some (.hash digest))
    (hBytes : A.payloadBytes digest = some bytes) (hOffset : entry.offset = some off)
    (hWrite : pwriteAll A.host.proc fs handle.ino bytes off = .ok fs') (index : Nat) :
    (A.applyWrite index entry).run fs = .ok () fs' := by
  obtain ⟨parent, dst, hDescend, hOpen⟩ := h.openAt hMode true 0o644
  have hPayload : A.payloadOf index entry = .ok bytes := by
    rw [Applier.payloadOf, hRef]
    simp only [hBytes]
  rw [Applier.applyWrite, hOffset, hPath]
  refine run_bind_eq_ok.mpr ⟨bytes, fs, run_query_of_ok hPayload, ?_⟩
  refine run_bind_eq_ok.mpr ⟨off, fs, run_query_of_ok rfl, ?_⟩
  refine run_bind_eq_ok.mpr ⟨(parent, dst), fs, run_query_of_ok (hDescend index), ?_⟩
  refine run_bind_eq_ok.mpr ⟨handle.ino, fs, run_call_of_ok hOpen, ?_⟩
  exact run_callUnit_of_ok hWrite

theorem applyTruncate_run {entry : WalEntry} {n : Nat} (h : Stands A fs handle) (hMode : handle.mode ≠ .read)
    (hPath : entry.path = handle.canonPath) (hOffset : entry.offset = some n)
    (hTruncate : ftruncateTo A.host.proc fs handle.ino n = .ok fs') (index : Nat) :
    (A.applyTruncate index entry).run fs = .ok () fs' := by
  obtain ⟨parent, dst, hDescend, hOpen⟩ := h.openAt hMode false 0
  rw [Applier.applyTruncate, hOffset, hPath]
  refine run_bind_eq_ok.mpr ⟨n, fs, run_query_of_ok rfl, ?_⟩
  refine run_bind_eq_ok.mpr ⟨(parent, dst), fs, run_query_of_ok (hDescend index), ?_⟩
  refine run_bind_eq_ok.mpr ⟨handle.ino, fs, run_call_of_ok hOpen, ?_⟩
  exact run_callUnit_of_ok hTruncate

end

/-- The state after a call on a descriptor: nothing was done, or a call without an entry failed, or the entry failed, or
the call was made and the handle went on. -/
inductive Leaves (s : Leader) (ack : Bytes) (Reserves : Prop) (Done : WalEntry → FileSystem → FileHandle → Prop) :
    Leader → Prop
  | same : Leaves s ack Reserves Done s
  | unreserved (code : UInt32) (hNone : ¬ Reserves) :
      Leaves s ack Reserves Done { s with wal := updateOutcomeByAckHash ack (.failure code) s.wal }
  | failed (entry : WalEntry) (code : UInt32) :
      Leaves s ack Reserves Done { s with wal := s.wal ++ [⟨{ entry with outcome := .failure code }, ack⟩] }
  | done (entry : WalEntry) (fs : FileSystem) (handle : FileHandle) (table : AList fun _ : Nat => FileHandle)
      (hDone : Done entry fs handle)
      (hTable : ∀ fd other, table.lookup fd = some other → other = handle ∨ s.table.lookup fd = some other) :
      Leaves s ack Reserves Done { s with fs, table, wal := s.wal ++ [⟨entry, ack⟩] }

theorem Leaves.imp {s s' : Leader} {ack : Bytes} {Reserves : Prop} {Done Done' : WalEntry → FileSystem → FileHandle → Prop}
    (h : Leaves s ack Reserves Done s') (hDone : ∀ entry fs handle, Done entry fs handle → Done' entry fs handle) :
    Leaves s ack Reserves Done' s' := by
  cases h with
  | same => exact .same
  | unreserved code hNone => exact .unreserved code hNone
  | failed entry code => exact .failed entry code
  | done entry fs handle table hd hTable => exact .done entry fs handle table (hDone _ _ _ hd) hTable

section

variable {A : Applier} {tree : FileSystem}

/-- The log brings the copy to the very tree of the leader, and every open file stands. -/
structure Mirrored (A : Applier) (tree : FileSystem) (s : Leader) : Prop where
  applied : (A.applyWalToFreshTree s.wal.entries).run tree = .ok () s.fs
  stands : ∀ fd handle, s.table.lookup fd = some handle → Stands A s.fs handle

theorem Mirrored.reconstructs {s : Leader} (h : Mirrored A tree s) : Reconstructs A tree s :=
  ⟨s.fs, h.applied, fun _ => rfl⟩

theorem Mirrored.start (A : Applier) (tree : FileSystem) (nextFd : Nat) : Mirrored A tree (.start tree nextFd) where
  applied := rfl
  stands fd handle h := by
    rw [Leader.start, AList.lookup_empty] at h
    cases h

/-- The call of an entry, made by the leader and by the applier on the same tree. -/
structure Repeats (A : Applier) (fs : FileSystem) (entry : WalEntry) (fs' : FileSystem) : Prop where
  applied : ∀ index, (A.applyEntry index entry).run fs = .ok () fs'
  content : fs' = fs ∨ ∃ i content, fs' = fs.setContent i content

theorem Repeats.stands {fs fs' : FileSystem} {entry : WalEntry} {handle : FileHandle} (h : Repeats A fs entry fs')
    (hStands : Stands A fs handle) : Stands A fs' handle := by
  obtain rfl | ⟨i, content, rfl⟩ := h.content
  · exact hStands
  · exact hStands.setContent i content

theorem applyWal_concat {s : Leader} {entry : WalEntry} {ack : Bytes} {fs : FileSystem}
    (hApplied : (A.applyWalToFreshTree s.wal.entries).run tree = .ok () s.fs)
    (h : ∀ index, (A.applyEntry index entry).run s.fs = .ok () fs) :
    (A.applyWalToFreshTree (Wal.entries (s.wal ++ [⟨entry, ack⟩]))).run tree = .ok () fs := by
  rw [Wal.entries, List.map_append]
  exact applyWalFrom_concat 0 hApplied h

theorem Mirrored.leaves {s s' : Leader} {ack : Bytes} {Reserves : Prop} {Done : WalEntry → FileSystem → FileHandle → Prop}
    (h : Mirrored A tree s) (hLeaves : Leaves s ack Reserves Done s') (hUnclaimed : ¬ Reserves → Unclaimed ack s.wal)
    (hDone : ∀ entry fs handle, Done entry fs handle → Repeats A s.fs entry fs ∧ Stands A fs handle) :
    Mirrored A tree s' := by
  cases hLeaves with
  | same => exact h
  | unreserved code hNone =>
    refine ⟨?_, h.stands⟩
    rw [Applier.applyWalToFreshTree, applyWalFrom_patched code 0 (hUnclaimed hNone)]
    exact h.applied
  | failed entry code => exact ⟨applyWal_concat h.applied fun index => rfl, h.stands⟩
  | done entry fs handle table hd hTable =>
    obtain ⟨hRepeats, hStands⟩ := hDone entry fs handle hd
    refine ⟨applyWal_concat h.applied hRepeats.applied, fun fd other hLookup => ?_⟩
    obtain rfl | hOld := hTable fd other hLookup
    · exact hStands
    · exact hRepeats.stands (h.stands fd other hOld)

end

section

variable {node : FsNode} {s s' : Leader} {fd : Nat} {bytes ack : Bytes} {offset : Option Nat} {reply : FsReply}

def FsNode.writeEntry (node : FsNode) (handle : FileHandle) (bytes : Bytes) (offset : Option Nat) : WalEntry :=
  reservedEntry (if offset.isSome then .writeAt else .write) handle.canonPath (some (offset.getD handle.position))
    (some bytes.length) (some (.hash (node.payloadHash.hash bytes)))

theorem journalWriteViaTable_of_lookup {handle : FileHandle} (h : s.table.lookup fd = some handle) :
    node.journalWriteViaTable s fd bytes offset ack =
      (appendWithAck s.wal (node.writeEntry handle bytes offset) ack).map fun wal => { s with wal } := by
  rw [FsNode.journalWriteViaTable, h]
  cases offset <;> rfl

def FileHandle.moved (handle : FileHandle) (bytes : Bytes) : Option Nat → FileHandle
  | some _ => handle
  | none => { handle with offset := handle.offset + bytes.length }

theorem writeCore_cases (h : node.writeCore s fd bytes offset ack = (reply, s')) :
    ((∃ code message, reply = .err code message) ∧
        Leaves s ack (bytes.length ≤ maxWriteBytes → s.table.lookup fd ≠ none) (fun _ _ _ => False) s') ∨
      ∃ handle fs, s.table.lookup fd = some handle ∧
        node.writeCall s.fs handle bytes (offset.getD handle.offset) = .ok fs ∧ reply = .okU64 bytes.length ∧
        s' = { s with fs, table := s.table.insert fd (handle.moved bytes offset),
                      wal := s.wal ++ [⟨node.writeEntry handle bytes offset, ack⟩] } := by
  rw [FsNode.writeCore] at h
  split at h
  · obtain ⟨rfl, rfl⟩ := Prod.mk.inj h
    exact .inl ⟨⟨_, _, rfl⟩, .same⟩
  next hLength =>
    cases hLookup : s.table.lookup fd with
    | none =>
      rw [FsNode.journalWriteViaTable, hLookup] at h
      simp only [FsNode.writeImplViaTable, if_neg hLength, hLookup, Prod.mk.injEq] at h
      obtain ⟨rfl, rfl⟩ := h
      exact .inl ⟨⟨_, _, rfl⟩, .unreserved _ fun hReserves => hReserves (Nat.le_of_not_lt hLength) rfl⟩
    | some handle =>
      rw [journalWriteViaTable_of_lookup hLookup, appendWithAck] at h
      split at h
      next hNone =>
        obtain ⟨rfl, rfl⟩ := Prod.mk.inj h
        exact .inl ⟨⟨_, _, rfl⟩, .same⟩
      next reserved hSome =>
        obtain ⟨wal, hWal, rfl⟩ := Option.map_eq_some_iff.mp hSome
        split at hWal
        · cases hWal
        obtain rfl := Option.some.inj hWal
        simp only [FsNode.writeImplViaTable, if_neg hLength, hLookup] at h
        cases hCall : node.writeCall s.fs handle bytes (offset.getD handle.offset) with
        | error e =>
          simp only [hCall, Prod.mk.injEq] at h
          obtain ⟨rfl, rfl⟩ := h
          left
          refine ⟨⟨_, _, rfl⟩, ?_⟩
          rw [FsNode.finalizeFailure, updateOutcome_append]
          exact .failed _ _
        | ok fs =>
          simp only [hCall, Prod.mk.injEq] at h
          obtain ⟨rfl, rfl⟩ := h
          right
          refine ⟨handle, fs, rfl, hCall, rfl, ?_⟩
          cases offset <;> rfl

theorem lookup_insert_cases {table : AList fun _ : Nat => FileHandle} {handle other : FileHandle} {fd' : Nat}
    (h : (table.insert fd handle).lookup fd' = some other) : other = handle ∨ table.lookup fd' = some other := by
  obtain rfl | hNe := eq_or_ne fd' fd
  · rw [AList.lookup_insert] at h
    exact .inl (Option.some.inj h).symm
  · rw [AList.lookup_insert_ne hNe] at h
    exact .inr h

def WriteDone (node : FsNode) (s : Leader) (fd : Nat) (bytes : Bytes) (offset : Option Nat)
    (after : FileHandle → FileHandle) (entry : WalEntry) (fs : FileSystem) (handle' : FileHandle) : Prop :=
  ∃ handle, s.table.lookup fd = some handle ∧ node.writeCall s.fs handle bytes (offset.getD handle.offset) = .ok fs ∧
    entry = node.writeEntry handle bytes offset ∧ handle' = after handle

theorem fsWriteAt_leaves {fd off : Int64} (hOff : ¬ off < 0) :
    Leaves s ack (bytes.length ≤ maxWriteBytes → s.table.lookup fd.toUInt64.toNat ≠ none)
      (WriteDone node s fd.toUInt64.toNat bytes (some off.toInt.toNat) id) (node.fsWriteAt s fd off bytes ack).2 := by
  rw [FsNode.fsWriteAt, if_neg hOff]
  cases hCore : node.writeCore s fd.toUInt64.toNat bytes (some off.toInt.toNat) ack with | mk reply s' =>
  obtain ⟨-, hLeaves⟩ | ⟨handle, fs, hLookup, hCall, -, rfl⟩ := writeCore_cases hCore
  · exact hLeaves.imp fun _ _ _ => False.elim
  · exact .done _ fs handle _ ⟨handle, hLookup, hCall, rfl, rfl⟩ fun fd' other => lookup_insert_cases

def FileHandle.advanced (bytes : Bytes) (handle : FileHandle) : FileHandle :=
  { handle with offset := handle.offset + bytes.length, position := min (handle.position + bytes.length) maxU64 }

theorem fsWrite_leaves {fd : Int64} :
    Leaves s ack (bytes.length ≤ maxWriteBytes → s.table.lookup fd.toUInt64.toNat ≠ none)
      (WriteDone node s fd.toUInt64.toNat bytes none (FileHandle.advanced bytes)) (node.fsWrite s fd bytes ack).2 := by
  rw [FsNode.fsWrite]
  cases hCore : node.writeCore s fd.toUInt64.toNat bytes none ack with | mk reply s' =>
  obtain ⟨⟨code, message, rfl⟩, hLeaves⟩ | ⟨handle, fs, hLookup, hCall, rfl, rfl⟩ := writeCore_cases hCore
  · exact hLeaves.imp fun _ _ _ => False.elim
  · simp only [FsNode.advance, AList.lookup_insert]
    refine .done _ fs (handle.advanced bytes) _ ⟨handle, hLookup, hCall, rfl, rfl⟩ fun fd' other hOther => ?_
    obtain rfl | hNe := eq_or_ne fd' fd.toUInt64.toNat
    · rw [AList.lookup_insert] at hOther
      exact .inl (Option.some.inj hOther).symm
    · rw [AList.lookup_insert_ne hNe, AList.lookup_insert_ne hNe] at hOther
      exact .inr hOther

theorem pwrite_bounded {proc : Process} {fs fs' : FileSystem} {i : Ino} {off : Nat}
    (h : pwrite proc fs i bytes off = .ok fs') : bytes = [] ∨ off + bytes.length ≤ proc.maxFileSize := by
  rw [pwrite] at h
  split at h
  · split at h
    next hEmpty => exact .inl hEmpty
    · split at h
      · cases h
      next hSize => exact .inr (Nat.le_of_not_lt hSize)
  · cases h

theorem pwriteAll_of_pwrite {proc : Process} {fs fs' : FileSystem} {i : Ino} {off : Nat} (hLimits : PosixLimits proc)
    (h : pwrite proc fs i bytes off = .ok fs') : pwriteAll proc fs i bytes off = .ok fs' := by
  rw [pwriteAll]
  split
  next hEmpty =>
    rw [pwrite] at h
    split at h
    · rw [if_pos hEmpty] at h
      exact h
    · cases h
  next hBytes =>
    have hBound := (pwrite_bounded h).resolve_left hBytes
    have hSize := hLimits.size
    rw [if_neg (by omega)]
    exact h

variable {A : Applier} {fs fs' : FileSystem} {handle : FileHandle}

theorem repeats_write (hHost : A.host = node.host) (hLimits : PosixLimits node.host.proc) (h : Stands A fs handle)
    (hBytes : A.payloadBytes (node.payloadHash.hash bytes) = some bytes)
    (hCall : node.writeCall fs handle bytes (offset.getD handle.offset) = .ok fs') :
    Repeats A fs (node.writeEntry handle bytes offset) fs' := by
  rw [FsNode.writeCall] at hCall
  split at hCall
  · cases hCall
  next hMode =>
    rw [← hHost] at hCall hLimits
    constructor
    · intro index
      have hOffset : (node.writeEntry handle bytes offset).offset = some (offset.getD handle.offset) := by
        rw [← h.inStep]
        rfl
      have hRun := applyWrite_run h hMode rfl rfl hBytes hOffset (pwriteAll_of_pwrite hLimits hCall) index
      cases offset <;> exact hRun
    · obtain hSame | ⟨content, hContent⟩ := pwrite_ok hCall
      · exact .inl hSame
      · exact .inr ⟨_, content, hContent⟩

theorem Stands.advanced (hHost : A.host = node.host) (hLimits : PosixLimits node.host.proc) (h : Stands A fs handle)
    (hCall : node.writeCall s.fs handle bytes handle.offset = .ok fs') : Stands A fs (handle.advanced bytes) := by
  rw [FsNode.writeCall] at hCall
  split at hCall
  · cases hCall
  have hBound : handle.offset + bytes.length ≤ A.host.proc.maxFileSize := by
    rw [hHost]
    obtain rfl | hSum := pwrite_bounded hCall
    · exact hHost ▸ h.bounded
    · exact hSum
  refine ⟨h.place, h.file, ?_, hBound⟩
  have hSize := hLimits.size
  rw [← hHost] at hSize
  rw [FileHandle.advanced, h.inStep]
  simp only [offsetBound, maxU64] at hSize ⊢
  omega

end

section

variable {node : FsNode} {A : Applier} {s : Leader} {fs fs' : FileSystem} {handle : FileHandle} {ack : Bytes}

def truncateEntry (handle : FileHandle) (n : Nat) : WalEntry :=
  FsNode.reservedEntry .truncate handle.canonPath (some n) none none

def TruncateDone (node : FsNode) (s : Leader) (fd n : Nat) (entry : WalEntry) (fs : FileSystem) (handle : FileHandle) :
    Prop :=
  s.table.lookup fd = some handle ∧ node.truncateCall s.fs handle n = .ok fs ∧ entry = truncateEntry handle n

theorem fsTruncate_leaves {fd n : Int64} (hSize : ¬ n < 0) :
    Leaves s ack (¬ (s.table.lookup fd.toUInt64.toNat = none ∨ maxTruncateBytes < n.toInt.toNat))
      (TruncateDone node s fd.toUInt64.toNat n.toInt.toNat) (node.fsTruncate s fd n ack).2 := by
  rw [FsNode.fsTruncate, if_neg hSize]
  by_cases hLarge : maxTruncateBytes < n.toInt.toNat
  · simp only [if_pos hLarge, FsNode.truncateImpl]
    exact .unreserved _ fun hReserves => hReserves (.inr hLarge)
  · simp only [if_neg hLarge, FsNode.truncateImpl, FsNode.journalTruncateViaTable]
    cases hLookup : s.table.lookup fd.toUInt64.toNat with
    | none =>
      simp only [hLookup]
      exact .unreserved _ (by simp)
    | some handle =>
      simp only [appendWithAck]
      by_cases hFull : maxWalEntries ≤ s.wal.length
      · simp only [if_pos hFull, Option.map_none]
        exact .same
      · simp only [if_neg hFull, Option.map_some, hLookup]
        cases hCall : node.truncateCall s.fs handle n.toInt.toNat with
        | error e =>
          simp only [FsNode.finalizeFailure, updateOutcome_append]
          exact .failed (truncateEntry handle n.toInt.toNat) _
        | ok fs => exact .done (truncateEntry handle n.toInt.toNat) fs handle s.table ⟨hLookup, hCall, rfl⟩ fun _ _ => .inr

theorem repeats_truncate {n : Nat} (hHost : A.host = node.host) (hLimits : PosixLimits node.host.proc)
    (h : Stands A fs handle) (hCall : node.truncateCall fs handle n = .ok fs') :
    Repeats A fs (truncateEntry handle n) fs' := by
  rw [FsNode.truncateCall] at hCall
  split at hCall
  · cases hCall
  next hMode =>
    rw [← hHost] at hCall hLimits
    obtain ⟨content, hContent⟩ := ftruncate_ok hCall
    have hBound : n ≤ A.host.proc.maxFileSize := by
      rw [ftruncate] at hCall
      split at hCall
      · split at hCall
        · cases hCall
        next hSize => exact Nat.le_of_not_lt hSize
      · cases hCall
    have hSize := hLimits.size
    have hTo : ftruncateTo A.host.proc fs handle.ino n = .ok fs' := by
      rw [ftruncateTo, if_neg (by omega)]
      exact hCall
    refine ⟨fun index => ?_, .inr ⟨_, content, hContent⟩⟩
    exact applyTruncate_run h hMode rfl rfl hTo index

end

section

variable {node : FsNode} {A : Applier} {s : Leader} {fs fs' : FileSystem} {proc : Process}

theorem openAt_keepsFiles {parent : SafeParent} {intent : OpenIntent} {mode : UInt32} {i : Ino}
    (hKeeps : KeepsFiles proc fs parent intent)
    (h : openAt proc fs parent.dirfd parent.leaf (fopenFlags intent) mode = .ok (i, fs')) :
    fs' = fs ∧ step fs parent.dirfd parent.leaf = .ok i ∧
      ∀ content, fs.object i = some (.file content) → ∃ inode, fs.inodes i = some inode ∧ inode.object = .file content ∧
        proc.permits inode.mode inode.uid inode.gid intent.mode := by
  have hAccess : (fopenFlags intent).access = intent.mode := by
    rw [fopenFlags]
    split <;> rfl
  have hTrunc : (fopenFlags intent).trunc = true → intent.policy = .createOrTruncate := by
    rw [fopenFlags]
    cases intent.policy <;> simp
  rw [KeepsFiles] at hKeeps
  rw [openAt] at h
  cases hStep : step fs parent.dirfd parent.leaf with
  | error e =>
    rw [hStep] at h hKeeps
    have hCreate : ¬ ((fopenFlags intent).create ∧ isDirectory fs parent.dirfd) := by
      rintro ⟨hFlag, hDir⟩
      obtain hRequire | hNot := hKeeps
      · rw [fopenFlags, hRequire] at hFlag
        cases hFlag
      · rw [hDir] at hNot
        cases hNot
    cases e <;> simp [hCreate] at h
  | ok j =>
    simp only [hStep] at h hKeeps
    cases hInode : fs.inodes j with
    | none => simp [hInode] at h
    | some inode =>
      simp only [hInode] at h
      split at h
      · cases h
      split at h
      · cases h
      next hObject =>
        split at h
        · obtain ⟨rfl, rfl⟩ := Prod.mk.inj (Except.ok.inj h)
          refine ⟨rfl, rfl, fun content hFile => ?_⟩
          rw [FileSystem.object, hInode, Option.map_some, hObject] at hFile
          cases hFile
        · cases h
      next content hObject =>
        split at h
        next hPermits =>
          obtain ⟨rfl, rfl⟩ := Prod.mk.inj (Except.ok.inj h)
          rw [hAccess] at hPermits
          refine ⟨?_, rfl, fun content' hFile => ⟨inode, hInode, ?_, hPermits⟩⟩
          · split
            next hFlag =>
              obtain rfl := hKeeps (hTrunc hFlag) inode content hInode hObject hPermits
              exact setContent_eq_self hInode hObject
            · rfl
          · rw [FileSystem.object, hInode] at hFile
            exact Option.some.inj hFile
        · cases h

theorem insert_table {handle : FileHandle} (P : Leader → Prop) (hSame : P s)
    (hInsert : P { s with table := s.table.insert s.nextFd handle, nextFd := s.nextFd + 1 }) :
    P (FsNode.insert s handle).2 := by
  rw [FsNode.insert]
  split
  · exact hSame
  · exact hInsert

variable {calls : List FsCall} {tree : FileSystem}

theorem canonicalizeLexical_eq {root rel path : Path} (h : FsNode.canonicalizeLexical root rel = .ok path) :
    path = join root rel := by
  rw [FsNode.canonicalizeLexical] at h
  split at h
  · cases h
  · exact (Except.ok.inj h).symm

theorem stands_opened {root rel onDisk : Path} {mode : String} {id : Option (Nat × Nat)} {parent : SafeParent}
    {access : Access} {i : Ino} (hMirrors : Mirrors A node calls) (hLimits : PosixLimits node.host.proc)
    (hMem : .openFile root rel mode ∈ calls) (hRoot : node.resolveOrIdentityGated root = .ok (onDisk, id))
    (hDescend : safeDescendVerified node.host fs onDisk rel id = .ok parent)
    (hStep : step fs parent.dirfd parent.leaf = .ok i)
    (hFile : ∃ inode content, fs.inodes i = some inode ∧ inode.object = .file content ∧
      node.host.proc.permits inode.mode inode.uid inode.gid access) :
    Stands A fs ⟨i, 0, join root rel, access, 0⟩ := by
  obtain ⟨dst, hDst⟩ := hMirrors.paths root rel mode onDisk id fs parent hMem hRoot hDescend
  obtain ⟨inode, content, hInode, hObject, hPermits⟩ := hFile
  refine ⟨⟨parent, dst, hDst, hStep⟩, ⟨inode, content, hInode, hObject, fun hWrites => ?_⟩, rfl, Nat.zero_le _⟩
  rw [hMirrors.host]
  cases access with
  | read => exact absurd rfl hWrites
  | write => exact hPermits
  | readWrite => exact hLimits.write _ _ _ hPermits

theorem Mirrored.openFile {root rel : Path} {mode : String} (h : Mirrored A tree s) (hMirrors : Mirrors A node calls)
    (hLimits : PosixLimits node.host.proc) (hMem : .openFile root rel mode ∈ calls)
    (hJournaled : Journaled node s (.openFile root rel mode)) :
    Mirrored A tree (node.openImplViaTable s root rel mode).2 := by
  unfold FsNode.openImplViaTable
  split
  · exact h
  next intent hIntent =>
    split
    · exact h
    next hPolicy =>
      split
      · exact h
      next onDisk id hRoot =>
        split
        · exact h
        next i fs' hOpen =>
          obtain ⟨parent, hDescend, hAt⟩ := exists_of_bind_ok hOpen
          have hKeeps := hJournaled intent onDisk id parent hIntent hPolicy hRoot hDescend
          obtain ⟨rfl, hStep, hFile⟩ := openAt_keepsFiles hKeeps (eq_ok_of_mapError hAt)
          split
          next content hObject =>
            obtain ⟨inode, hInode, hKind, hPermits⟩ := hFile content hObject
            have hStands := stands_opened hMirrors hLimits hMem hRoot hDescend hStep
              ⟨inode, content, hInode, hKind, hPermits⟩
            have hEntered : Mirrored A tree (FsNode.insert s ⟨i, 0, join root rel, intent.mode, 0⟩).2 := by
              refine insert_table (Mirrored A tree) h ⟨h.applied, fun fd other hLookup => ?_⟩
              obtain rfl | hOld := lookup_insert_cases hLookup
              · exact hStands
              · exact h.stands fd other hOld
            cases hCanon : FsNode.canonicalizeLexical root rel with
            | error e => exact hEntered
            | ok path =>
              obtain rfl := canonicalizeLexical_eq hCanon
              exact hEntered
          · exact h

end

section

variable {node : FsNode} {A : Applier} {s : Leader} {calls : List FsCall} {tree : FileSystem}

theorem Mirrored.close {fd : Int64} (h : Mirrored A tree s) : Mirrored A tree (FsNode.fsClose s fd).2 := by
  refine ⟨h.applied, fun fd' handle hLookup => h.stands fd' handle ?_⟩
  obtain rfl | hNe := eq_or_ne fd' fd.toUInt64.toNat
  · rw [FsNode.fsClose, AList.lookup_erase] at hLookup
    cases hLookup
  · rw [FsNode.fsClose, AList.lookup_erase_ne hNe] at hLookup
    exact hLookup

theorem Mirrored.handle {call : FsCall} (h : Mirrored A tree s) (hMirrors : Mirrors A node calls)
    (hLimits : PosixLimits node.host.proc) (hMem : call ∈ calls) (hJournaled : Journaled node s call) :
    Mirrored A tree (node.handle s call).2 := by
  cases call with
  | openFile root rel mode => exact h.openFile hMirrors hLimits hMem hJournaled
  | close fd => exact h.close
  | write fd bytes ack =>
    refine h.leaves fsWrite_leaves (fun hNone => ?_) ?_
    · obtain ⟨hLength, hLookup⟩ := Classical.not_imp.mp hNone
      exact hJournaled hLength (not_not.mp hLookup)
    · rintro entry fs handle' ⟨handle, hLookup, hCall, rfl, rfl⟩
      have hStands := h.stands _ _ hLookup
      have hRepeats := repeats_write hMirrors.host hLimits hStands (hMirrors.payloads _ hMem bytes rfl) hCall
      exact ⟨hRepeats, (hRepeats.stands hStands).advanced hMirrors.host hLimits hCall⟩
  | writeAt fd off bytes ack =>
    by_cases hOff : off < 0
    · rw [FsNode.handle, FsNode.fsWriteAt, if_pos hOff]
      exact h
    · refine h.leaves (fsWriteAt_leaves hOff) (fun hNone => ?_) ?_
      · obtain ⟨hLength, hLookup⟩ := Classical.not_imp.mp hNone
        exact hJournaled (Int64.not_lt.mp hOff) hLength (not_not.mp hLookup)
      · rintro entry fs handle' ⟨handle, hLookup, hCall, rfl, rfl⟩
        have hStands := h.stands _ _ hLookup
        have hRepeats := repeats_write hMirrors.host hLimits hStands (hMirrors.payloads _ hMem bytes rfl) hCall
        exact ⟨hRepeats, hRepeats.stands hStands⟩
  | truncate fd n ack =>
    by_cases hSize : n < 0
    · rw [FsNode.handle, FsNode.fsTruncate, if_pos hSize]
      exact h
    · refine h.leaves (fsTruncate_leaves hSize) (fun hNone => ?_) ?_
      · exact hJournaled (Int64.not_lt.mp hSize) (not_not.mp hNone)
      · rintro entry fs handle ⟨hLookup, hCall, rfl⟩
        have hStands := h.stands _ _ hLookup
        have hRepeats := repeats_truncate hMirrors.host hLimits hStands hCall
        exact ⟨hRepeats, hRepeats.stands hStands⟩

theorem run_concat (node : FsNode) (tree : FileSystem) (nextFd : Nat) (calls : List FsCall) (call : FsCall) :
    node.run tree nextFd (calls ++ [call]) = (node.handle (node.run tree nextFd calls) call).2 := by
  rw [FsNode.run, List.foldl_append]
  rfl

theorem mirrored_run {nextFd : Nat} (hMirrors : Mirrors A node calls) (hLimits : PosixLimits node.host.proc)
    (hRun : JournaledRun node tree nextFd calls) {before : List FsCall} (hBefore : before <+: calls) :
    Mirrored A tree (node.run tree nextFd before) := by
  induction before using List.reverseRecOn with
  | nil => exact .start A tree nextFd
  | append_singleton before call ih =>
    obtain ⟨after, rfl⟩ := hBefore
    have hMem : call ∈ before ++ [call] ++ after := by simp
    rw [run_concat]
    refine (ih ⟨call :: after, by simp⟩).handle hMirrors hLimits hMem ?_
    exact hRun before call after (by simp)

/-- In a run whose calls all leave what the log does not record as it is, the log of every state reached rebuilds the
files of the leader from the tree of the start. -/
theorem journaledRun_reconstructs (A : Applier) (node : FsNode) (tree : FileSystem) (nextFd : Nat) (calls : List FsCall)
    (hMirrors : Mirrors A node calls) (hLimits : PosixLimits node.host.proc)
    (hRun : JournaledRun node tree nextFd calls) :
    ∀ before, before <+: calls → Reconstructs A tree (node.run tree nextFd before) :=
  fun _ hBefore => (mirrored_run hMirrors hLimits hRun hBefore).reconstructs

end

def leaderHost : Host where
  proc :=
    { cwd := top, umask := 0o022, uid := 0, gid := 0, maxFileSize := 2 ^ 43, permits := fun _ _ _ _ => true,
      mayChmod := fun _ => true, mayChown := fun _ _ _ => true }
  identity i := (0, i)
  toStringLossy := id
  debugPath _ := ""
  resolveUid _ := .ok none
  resolveGid _ := .ok none

/-- The digest of the payload `02`. -/
def digestOfTwo : Bytes :=
  [187, 48, 164, 44, 30, 98, 240, 175, 218, 95, 10, 78, 138, 86, 47, 122, 19, 162, 76, 234, 0, 238, 129, 145, 123, 134,
    184, 158, 128, 19, 20, 170]

def leaderNode : FsNode where
  host := leaderHost
  registry := ⟨fun path => if path = ⟨true, []⟩ then some (⟨true, []⟩, (0, 0)) else none, false⟩
  payloadHash := ⟨fun bytes => if bytes = [2] then digestOfTwo else List.replicate 32 0, fun bytes => by split <;> rfl⟩

def copyApplier : Applier where
  host := leaderHost
  payloadBytes digest := if digest = digestOfTwo then some [2] else none
  pathMap path := ⟨⟨true, []⟩, ⟨false, path.segments⟩, some (0, 0)⟩
  allowedRoots := [⟨true, []⟩]

/-- The file `/a` with the one byte `01`. -/
def singleFile : FileSystem :=
  .ofList [⟨.directory 0 (AList.singleton [97] 1), 0o755, 0, 0⟩, ⟨.file [1], 0o644, 0, 0⟩] (by decide)

theorem leaderHost_limits : PosixLimits leaderHost.proc := ⟨by decide, fun _ _ _ _ => rfl⟩

theorem descendEntry_of_pathMap {A : Applier} {fs : FileSystem} {index : Nat} {path : Path} {resolved : ResolvedWalPath}
    {parent : SafeParent} (hAllowed : A.checkAllowed index path = .ok ()) (hMap : A.pathMap path = resolved)
    (hWay : safeDescendVerified A.host fs resolved.root (A.relStr resolved.rel) resolved.expectedRootId = .ok parent) :
    A.descendEntry fs index path = .ok (parent, join resolved.root resolved.rel) := by
  subst hMap
  rw [Applier.descendEntry, hAllowed]
  change (safeDescendVerified A.host fs (A.pathMap path).root (A.relStr (A.pathMap path).rel)
    (A.pathMap path).expectedRootId).mapError _ >>= _ = _
  rw [hWay]
  rfl

theorem copyApplier_mirrors {calls : List FsCall}
    (hPaths : ∀ root rel mode, .openFile root rel mode ∈ calls → root = ⟨true, []⟩ ∧ rel = ⟨false, [[97]]⟩)
    (hBytes : ∀ call ∈ calls, ∀ bytes, call.Writes bytes → bytes = [2]) : Mirrors copyApplier leaderNode calls where
  host := rfl
  paths root rel mode onDisk id fs parent hMem hRoot hDescend := by
    obtain ⟨rfl, rfl⟩ := hPaths root rel mode hMem
    obtain ⟨rfl, rfl⟩ := Prod.mk.inj (Except.ok.inj hRoot)
    refine ⟨⟨true, [[97]]⟩, fun index => ?_⟩
    have hAllowed : copyApplier.checkAllowed index (join ⟨true, []⟩ ⟨false, [[97]]⟩) = .ok () := by
      simp [Applier.checkAllowed, Applier.checkPathAllowed, copyApplier, startsWith, components, join]
    exact descendEntry_of_pathMap hAllowed rfl hDescend
  payloads call hMem bytes hWrites := by
    rw [hBytes call hMem bytes hWrites]
    rfl

/-- An open with `w` empties the file, and the log does not say so. -/
theorem open_not_reconstructed :
    ¬ ∀ A node tree nextFd calls, Mirrors A node calls → PosixLimits node.host.proc →
      Reconstructs A tree (node.run tree nextFd calls) := by
  intro h
  have hMirrors : Mirrors copyApplier leaderNode [.openFile ⟨true, []⟩ ⟨false, [[97]]⟩ "w"] := by
    refine copyApplier_mirrors (fun root rel mode hMem => ?_) fun call hMem bytes hWrites => ?_
    · obtain ⟨rfl, rfl, -⟩ := FsCall.openFile.inj (List.mem_singleton.mp hMem)
      exact ⟨rfl, rfl⟩
    · obtain rfl := List.mem_singleton.mp hMem
      exact hWrites.elim
  obtain ⟨fs, hApplied, hSame⟩ := h _ _ singleFile 0 _ hMirrors leaderHost_limits
  obtain rfl : singleFile = fs := (EStateM.Result.ok.inj hApplied).2
  exact absurd (hSame [[97]]) (by decide)

/-- The file is opened for reading and writing, and its byte is written over. -/
theorem overwrite_reconstructed :
    Reconstructs copyApplier singleFile (leaderNode.run singleFile 0
      [.openFile ⟨true, []⟩ ⟨false, [[97]]⟩ "r+", .write 0 [2] [9]]) := by
  refine journaledRun_reconstructs copyApplier leaderNode singleFile 0 _ ?_ leaderHost_limits ?_
    _ (List.prefix_refl _)
  · refine copyApplier_mirrors (fun root rel mode hMem => ?_) fun call hMem bytes hWrites => ?_
    · obtain hOpen | hWrite := List.mem_pair.mp hMem
      · obtain ⟨rfl, rfl, -⟩ := FsCall.openFile.inj hOpen
        exact ⟨rfl, rfl⟩
      · cases hWrite
    · obtain rfl | rfl := List.mem_pair.mp hMem
      · exact hWrites.elim
      · exact hWrites.symm
  · intro before call after hCalls
    match before, hCalls with
    | [], hCalls =>
      obtain ⟨rfl, -⟩ := List.cons.inj hCalls
      intro intent onDisk id parent hIntent _ _ _
      obtain rfl := Option.some.inj hIntent
      rw [KeepsFiles]
      split
      · exact nofun
      · exact .inl rfl
    | [first], hCalls =>
      obtain ⟨rfl, hRest⟩ := List.cons.inj hCalls
      obtain ⟨rfl, -⟩ := List.cons.inj hRest
      intro _ hLookup
      exact absurd hLookup (by decide)
    | first :: second :: rest, hCalls =>
      obtain ⟨-, hRest⟩ := List.cons.inj hCalls
      obtain ⟨-, hEnd⟩ := List.cons.inj hRest
      simp at hEnd

end F1r3Node.FileIo
