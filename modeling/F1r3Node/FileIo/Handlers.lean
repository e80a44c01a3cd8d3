import F1r3Node.FileIo.WalApplier

/-! # The handlers of open files

A write or a truncate reserves an entry of the log before its system call; an open reserves none. Every write is
whole.
-/

namespace F1r3Node.FileIo

open Shared Lib.Posix

inductive FserrCode where
  | badArg
  | io
  | notFound
  | alreadyExists
  | perm
  | unsupported
  | quarantine
  | closed
  | quotaExceeded
  deriving DecidableEq

def fserrToCode : FserrCode → UInt32
  | .badArg => 1
  | .io => 2
  | .notFound => 3
  | .alreadyExists => 4
  | .perm => 5
  | .unsupported => 6
  | .quarantine => 7
  | .closed => 8
  | .quotaExceeded => 10

inductive FsReply where
  | okFd (fd : Nat)
  | okU64 (n : Nat)
  | okBare
  | err (code : FserrCode) (message : String)
  deriving DecidableEq

/-- `io_err_code` of an `ErrorKind`, by its name. -/
def kindErrCode : String → FserrCode
  | "NotFound" => .notFound
  | "PermissionDenied" => .perm
  | "AlreadyExists" => .alreadyExists
  | "InvalidInput" => .badArg
  | _ => .io

def ioErrCode (e : Errno) : FserrCode := kindErrCode (errorKind e)

def quarantineErrReply : QuarantineError → FsReply
  | .empty => .err .badArg "empty relative path"
  | .escapesRoot => .err .quarantine "path escapes root"
  | .symlinkComponent => .err .quarantine "symlink in path components"
  | .rootIdentityChanged => .err .quarantine
      ("provisioned root's (dev, inode) does not match boot-captured identity — possible rename-and-recreate attack " ++
        "(H-5); check for out-of-band mv/rebind on the provisioned path")
  | .ioError kind message => .err (kindErrCode kind) message

inductive ExistPolicy where
  | require
  | requireAbsent
  | createOrTruncate
  | createOrAppend
  deriving DecidableEq

structure OpenIntent where
  mode : Access
  policy : ExistPolicy
  deriving DecidableEq

def parseOpenMode : String → Option OpenIntent
  | "r" => some ⟨.read, .require⟩
  | "r+" => some ⟨.readWrite, .require⟩
  | "w" => some ⟨.write, .createOrTruncate⟩
  | "w+" => some ⟨.readWrite, .createOrTruncate⟩
  | "wx" => some ⟨.write, .requireAbsent⟩
  | "w+x" => some ⟨.readWrite, .requireAbsent⟩
  | "a" => some ⟨.write, .createOrAppend⟩
  | "a+" => some ⟨.readWrite, .createOrAppend⟩
  | _ => none

def defaultCreateMode : UInt32 := 0o644

def fopenFlags (intent : OpenIntent) : OpenFlags :=
  match intent.policy with
  | .require => ⟨intent.mode, false, false, false, false⟩
  | .requireAbsent => ⟨intent.mode, true, true, false, false⟩
  | .createOrTruncate => ⟨intent.mode, true, false, true, false⟩
  | .createOrAppend => ⟨intent.mode, true, false, false, true⟩

/-- An open file: its inode with the offset of the descriptor, and the offset that the table keeps beside it. -/
structure FileHandle where
  ino : Ino
  offset : Nat
  canonPath : Path
  mode : Access
  position : Nat

structure RootIdentityRegistry where
  get : Path → Option (Path × (Nat × Nat))
  testPermissive : Bool

structure FsNode where
  host : Host
  registry : RootIdentityRegistry
  payloadHash : Blake2b256

structure Leader where
  fs : FileSystem
  table : AList fun _ : Nat => FileHandle
  nextFd : Nat
  wal : Wal

def maxOpenFds : Nat := 1024

def maxWriteBytes : Nat := 64 * 1024 * 1024

def maxTruncateBytes : Nat := 16 * 1024 * 1024 * 1024

def maxU64 : Nat := 2 ^ 64 - 1

def maxI64 : Nat := 2 ^ 63 - 1

namespace FsNode

variable (node : FsNode)

def resolveOrIdentityGated (logical : Path) : Except FsReply (Path × Option (Nat × Nat)) :=
  match node.registry.get logical with
  | some (onDisk, identity) => .ok (onDisk, some identity)
  | none =>
    if node.registry.testPermissive then .ok (logical, none)
    else .error (.err .unsupported
      ("M-04: Consensus-mode cap targets unregistered logical root " ++ node.host.debugPath logical ++
        ".  Under Consensus-fs Shape A every Consensus cap's canonRoot must be boot-registered in the " ++
        "RootIdentityRegistry; falling through with expected_root_id=None would silently disable safe_descend's " ++
        "identity check.  Fix: register the cap's canonRoot at boot (see " ++
        "node::rust::runtime::setup::register_consensus_bundle_roots), or use Oracular mode for unregistered paths."))

def safeOpenVerified (fs : FileSystem) (root rel : Path) (flags : OpenFlags) (mode : UInt32)
    (expectedRootId : Option (Nat × Nat)) : Except QuarantineError (Ino × FileSystem) := do
  let parent ← safeDescendVerified node.host fs root rel expectedRootId
  (openAt node.host.proc fs parent.dirfd parent.leaf flags mode).mapError mapOpenErr

def canonicalizeLexical (root rel : Path) : Except QuarantineError Path :=
  if dotdot ∈ rel.segments ∨ rel.absolute then .error .escapesRoot else .ok (join root rel)

/-- The handle goes in unless the table is full or the counter is at its end; a number beyond `i64::MAX` is kept in the
table but not handed out. -/
def insert (s : Leader) (handle : FileHandle) : FsReply × Leader :=
  if maxOpenFds ≤ s.table.keys.length ∨ s.nextFd = maxU64 then (.err .quotaExceeded "per-runtime fd cap reached", s)
  else
    let reply := if s.nextFd ≤ maxI64 then .okFd s.nextFd
      else .err .quotaExceeded "allocator produced out-of-range fd"
    (reply, { s with table := s.table.insert s.nextFd handle, nextFd := s.nextFd + 1 })

def openImplViaTable (s : Leader) (root rel : Path) (mode : String) : FsReply × Leader :=
  match parseOpenMode mode with
  | none => (.err .badArg ("unknown fopen mode " ++ String.quote mode), s)
  | some intent =>
    if intent.policy = .createOrAppend then
      (.err .badArg
        ("append modes (\"a\", \"a+\") are not supported on Consensus caps — use a non-append mode plus " ++
          "fs_seek(SEEK_END) if append semantics are required, or open the cap as Oracular"), s)
    else match node.resolveOrIdentityGated root with
      | .error reply => (reply, s)
      | .ok (onDisk, expectedRootId) =>
        match node.safeOpenVerified s.fs onDisk rel (fopenFlags intent) defaultCreateMode expectedRootId with
        | .error qe => (quarantineErrReply qe, s)
        | .ok (ino, fs) =>
          match fs.object ino with
          | some (.file _) =>
            let canonPath := match canonicalizeLexical root rel with
              | .ok path => path
              | .error _ => join root rel
            insert { s with fs } ⟨ino, 0, canonPath, intent.mode, 0⟩
          | _ => (.err .unsupported "not a regular file", { s with fs })

def reservedEntry (op : WalOp) (path : Path) (offset length : Option Nat) (payloadRef : Option PayloadRef) : WalEntry :=
  { op, path, extraPath := none, offset, length, payloadRef, modeBits := none, owner := none, group := none,
    outcome := .success }

def journalWriteViaTable (s : Leader) (fd : Nat) (bytes : Bytes) (offset : Option Nat) (ack : Bytes) : Option Leader :=
  match s.table.lookup fd with
  | none => some s
  | some handle =>
    let (op, resolved) := match offset with
      | some off => (WalOp.writeAt, off)
      | none => (WalOp.write, handle.position)
    let entry := reservedEntry op handle.canonPath (some resolved) (some bytes.length)
      (some (.hash (node.payloadHash.hash bytes)))
    (appendWithAck s.wal entry ack).map fun wal => { s with wal }

def writeCall (fs : FileSystem) (handle : FileHandle) (bytes : Bytes) (off : Nat) : Except Errno FileSystem :=
  if handle.mode = .read then .error .badf else pwrite node.host.proc fs handle.ino bytes off

def writeImplViaTable (s : Leader) (fd : Nat) (bytes : Bytes) (offset : Option Nat) : FsReply × Leader :=
  if maxWriteBytes < bytes.length then
    (.err .quotaExceeded ("write " ++ toString bytes.length ++ " exceeds MAX_WRITE_BYTES"), s)
  else match s.table.lookup fd with
    | none => (.err .closed ("unknown fd " ++ toString fd), s)
    | some handle =>
      match node.writeCall s.fs handle bytes (offset.getD handle.offset) with
      | .error e => (.err (ioErrCode e) (ioMsgScrub e), s)
      | .ok fs =>
        -- only the call without an offset moves the descriptor
        let moved := match offset with
          | some _ => handle
          | none => { handle with offset := handle.offset + bytes.length }
        (.okU64 bytes.length, { s with fs, table := s.table.insert fd moved })

def finalizeFailure (reply : FsReply) (ack : Bytes) (s : Leader) : Leader :=
  match reply with
  | .err code _ => { s with wal := updateOutcomeByAckHash ack (.failure (fserrToCode code)) s.wal }
  | _ => s

def advance (s : Leader) (fd : Nat) : FsReply → Leader
  | .okU64 n =>
    match s.table.lookup fd with
    | some handle => { s with table := s.table.insert fd { handle with position := min (handle.position + n) maxU64 } }
    | none => s
  | _ => s

/-- What the two handlers of writes have in common; `offset` is given for `fs_write_at`. -/
def writeCore (s : Leader) (fd : Nat) (bytes : Bytes) (offset : Option Nat) (ack : Bytes) : FsReply × Leader :=
  if maxWriteBytes < bytes.length then
    (.err .quotaExceeded ("write " ++ toString bytes.length ++ " exceeds MAX_WRITE_BYTES"), s)
  else match node.journalWriteViaTable s fd bytes offset ack with
    | none => (.err .quotaExceeded "WAL cap exceeded", s)
    | some reserved =>
      let (reply, s) := node.writeImplViaTable reserved fd bytes offset
      (reply, finalizeFailure reply ack s)

def fsWrite (s : Leader) (fd : Int64) (bytes ack : Bytes) : FsReply × Leader :=
  let fd := fd.toUInt64.toNat
  let (reply, s) := node.writeCore s fd bytes none ack
  (reply, advance s fd reply)

def fsWriteAt (s : Leader) (fd off : Int64) (bytes ack : Bytes) : FsReply × Leader :=
  if off < 0 then (.err .badArg "expected (u64, u64, ByteArray)", s)
  else node.writeCore s fd.toUInt64.toNat bytes (some off.toInt.toNat) ack

def journalTruncateViaTable (s : Leader) (fd n : Nat) (ack : Bytes) : Option Leader :=
  match s.table.lookup fd with
  | none => some s
  | some handle =>
    (appendWithAck s.wal (reservedEntry .truncate handle.canonPath (some n) none none) ack).map fun wal => { s with wal }

def truncateCall (fs : FileSystem) (handle : FileHandle) (n : Nat) : Except Errno FileSystem :=
  if handle.mode = .read then .error .inval else ftruncate node.host.proc fs handle.ino n

def truncateImpl (s : Leader) (fd n : Nat) : FsReply × Leader :=
  if maxTruncateBytes < n then
    (.err .quotaExceeded ("truncate " ++ toString n ++ " exceeds MAX_TRUNCATE_BYTES"), s)
  else match s.table.lookup fd with
    | none => (.err .closed ("unknown fd " ++ toString fd), s)
    | some handle =>
      match node.truncateCall s.fs handle n with
      | .error e => (.err (ioErrCode e) (ioMsgScrub e), s)
      | .ok fs => (.okBare, { s with fs })

def fsTruncate (s : Leader) (fd n : Int64) (ack : Bytes) : FsReply × Leader :=
  if n < 0 then (.err .badArg "expected (u64, u64)", s)
  else
    let fd := fd.toUInt64.toNat
    let size := n.toInt.toNat
    let reserved := if maxTruncateBytes < size then some s else journalTruncateViaTable s fd size ack
    match reserved with
    | none => (.err .quotaExceeded "WAL cap exceeded", s)
    | some reserved =>
      let (reply, s) := node.truncateImpl reserved fd size
      (reply, finalizeFailure reply ack s)

def fsClose (s : Leader) (fd : Int64) : FsReply × Leader :=
  (.okBare, { s with table := s.table.erase fd.toUInt64.toNat })

end FsNode

/-- The calls with their arguments; `ack` is the hash of the channel that waits for the reply. -/
inductive FsCall where
  | openFile (root rel : Path) (mode : String)
  | write (fd : Int64) (bytes ack : Bytes)
  | writeAt (fd off : Int64) (bytes ack : Bytes)
  | truncate (fd n : Int64) (ack : Bytes)
  | close (fd : Int64)

def FsNode.handle (node : FsNode) (s : Leader) : FsCall → FsReply × Leader
  | .openFile root rel mode => node.openImplViaTable s root rel mode
  | .write fd bytes ack => node.fsWrite s fd bytes ack
  | .writeAt fd off bytes ack => node.fsWriteAt s fd off bytes ack
  | .truncate fd n ack => node.fsTruncate s fd n ack
  | .close fd => FsNode.fsClose s fd

def Leader.start (tree : FileSystem) (nextFd : Nat) : Leader := ⟨tree, ∅, nextFd, []⟩

def FsNode.run (node : FsNode) (tree : FileSystem) (nextFd : Nat) (calls : List FsCall) : Leader :=
  calls.foldl (fun s call => (node.handle s call).2) (.start tree nextFd)

end F1r3Node.FileIo
