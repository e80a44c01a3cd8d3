import F1r3Node.FileIo.Descend
import F1r3Node.FileIo.Wal
import F1r3Node.Lib.Stateful
import F1r3Node.Merging.NumberChannels

/-! # The log applied to a tree

Every entry that did not fail is carried out again with the system call of its operation.
-/

namespace F1r3Node.FileIo

open Shared Lib.Posix Lib.Stateful
open Merging (hexEncode)

structure ResolvedWalPath where
  root : Path
  rel : Path
  expectedRootId : Option (Nat × Nat)
  deriving DecidableEq

inductive ApplierError where
  | missingSidecarEntry (entryIndex : Nat) (hashHex : String)
  | unsupportedPayloadRef (entryIndex : Nat)
  | missingPayloadRef (entryIndex : Nat) (op : WalOp)
  | missingOffset (entryIndex : Nat) (op : WalOp)
  | missingModeBits (entryIndex : Nat)
  | missingOwner (entryIndex : Nat)
  | missingExtraPath (entryIndex : Nat) (op : WalOp)
  | pathOutsideAllowedRoots (entryIndex : Nat) (path : Path)
  | nssResolutionFailed (name : String) (errno : Int)
  | nssNotFound (name : String)
  | ioFailure (entryIndex : Nat) (op : WalOp) (path : Path) (message : String)
  | chownFailed (entryIndex : Nat) (path : Path) (errno : Int)
  | safeDescendFailed (entryIndex : Nat) (root rel : Path) (reason : String)
  deriving DecidableEq

def formatQuarantine : QuarantineError → String
  | .empty => "empty rel"
  | .escapesRoot => "rel escapes root"
  | .symlinkComponent => "symlink component in path"
  | .rootIdentityChanged => "root identity changed post-boot"
  | .ioError kind message => kind ++ ": " ++ message

def rawOsError : Errno → Int
  | .perm => 1
  | .noent => 2
  | .badf => 9
  | .acces => 13
  | .exist => 17
  | .notdir => 20
  | .isdir => 21
  | .inval => 22
  | .fbig => 27
  | .notempty => 39
  | .loop => 40

def strerror : Errno → String
  | .perm => "Operation not permitted"
  | .noent => "No such file or directory"
  | .badf => "Bad file descriptor"
  | .acces => "Permission denied"
  | .exist => "File exists"
  | .notdir => "Not a directory"
  | .isdir => "Is a directory"
  | .inval => "Invalid argument"
  | .fbig => "File too large"
  | .notempty => "Directory not empty"
  | .loop => "Too many levels of symbolic links"

def displayError (e : Errno) : String := strerror e ++ " (os error " ++ toString (rawOsError e) ++ ")"

/-- `none` stands for the root directory. -/
def components (path : Path) : List (Option Name) := (if path.absolute then [none] else []) ++ path.segments.map some

def startsWith (path root : Path) : Bool := (components root).isPrefixOf (components path)

def join (root rel : Path) : Path := if rel.absolute then rel else ⟨root.absolute, root.segments ++ rel.segments⟩

/-- `create_dir_all` of a path given by its segments from the last to the first. -/
def createDirAll (proc : Process) (absolute : Bool) : List Name → EStateM Errno FileSystem Unit
  -- the empty path counts as created, and `/` is always there
  | [], fs => .ok () fs
  | name :: before, fs =>
    let path : Path := ⟨absolute, (name :: before).reverse⟩
    match mkdir proc fs path 0o777 with
    | .ok fs' => .ok () fs'
    | .error .noent =>
      match createDirAll proc absolute before fs with
      | .error e fs' => .error e fs'
      | .ok _ fs' =>
        match mkdir proc fs' path 0o777 with
        | .ok fs'' => .ok () fs''
        | .error e => if isDir proc fs' path then .ok () fs' else .error e fs'
    | .error e => if isDir proc fs path then .ok () fs else .error e fs

def offsetBound : Nat := 2 ^ 63

def pwriteAll (proc : Process) (fs : FileSystem) (fd : Ino) (bytes : Bytes) (off : Nat) : Except Errno FileSystem :=
  if bytes = [] then .ok fs
  else if offsetBound ≤ off then .error .inval
  else pwrite proc fs fd bytes off

def ftruncateTo (proc : Process) (fs : FileSystem) (fd : Ino) (size : Nat) : Except Errno FileSystem :=
  if offsetBound ≤ size then .error .inval else ftruncate proc fs fd size

/-- `read` of at most the given number of bytes at the offset of the descriptor. -/
def readAt (fs : FileSystem) (fd : Ino) (off limit : Nat) : Except Errno Bytes :=
  match fs.object fd with
  | some (.file content) => .ok ((content.drop off).take limit)
  | some (.directory ..) => .error .isdir
  | _ => .error .badf

def copyBufLen : Nat := 64 * 1024

def copyLoop (proc : Process) (fromFd toFd : Ino) : Nat → Nat → EStateM Errno FileSystem Unit
  | 0, _ => pure ()
  | rounds + 1, off => do
    let buf ← query fun fs => readAt fs fromFd off copyBufLen
    if buf = [] then pure ()
    else do
      update fun fs => (pwrite proc fs toFd buf off).map ((), ·)
      copyLoop proc fromFd toFd rounds (off + buf.length)

def fileSize (fs : FileSystem) (fd : Ino) : Nat :=
  match fs.object fd with
  | some (.file content) => content.length
  | _ => 0

/-- The destination is opened before the source is read, so it is empty when both are one file. -/
def copyAt (proc : Process) (source dest : SafeParent) : EStateM Errno FileSystem Unit := do
  let (fromFd, _) ← query fun fs => openAt proc fs source.dirfd source.leaf ⟨.read, false, false, false, false⟩ 0
  let toFd ← update fun fs => openAt proc fs dest.dirfd dest.leaf ⟨.write, true, false, true, false⟩ 0o644
  let size ← query fun fs => .ok (fileSize fs fromFd)
  copyLoop proc fromFd toFd (size + 1) 0

/-- The arguments of the call, with the machine on which it runs. -/
structure Applier where
  host : Host
  payloadBytes : Bytes → Option Bytes
  pathMap : Path → ResolvedWalPath
  allowedRoots : List Path

abbrev Apply := EStateM ApplierError FileSystem

def call {α : Type} (wrap : Errno → ApplierError) (f : FileSystem → Except Errno (α × FileSystem)) : Apply α :=
  update fun fs => (f fs).mapError wrap

def callUnit (wrap : Errno → ApplierError) (f : FileSystem → Except Errno FileSystem) : Apply Unit :=
  call wrap fun fs => (f fs).map ((), ·)

def okOr {α : Type} (x : Option α) (e : ApplierError) : Apply α := query fun _ => x.elim (.error e) .ok

def lookupId (name : String) (found : Except Int (Option UInt32)) : Except ApplierError UInt32 :=
  match found with
  | .ok (some id) => .ok id
  | .ok none => .error (.nssNotFound name)
  | .error errno => .error (.nssResolutionFailed name errno)

namespace Applier

variable (A : Applier)

def resolveUid (name : String) : Except ApplierError UInt32 := lookupId name (A.host.resolveUid name)

def resolveGid (name : String) : Except ApplierError UInt32 := lookupId name (A.host.resolveGid name)

def checkPathAllowed (index : Nat) (path : Path) : Except ApplierError Unit :=
  if A.allowedRoots.any (startsWith path) then .ok () else .error (.pathOutsideAllowedRoots index path)

def checkAllowed (index : Nat) (path : Path) : Except ApplierError Unit :=
  if A.allowedRoots = [] then .ok () else A.checkPathAllowed index path

def relStr (path : Path) : Path := ⟨path.absolute, path.segments.map A.host.toStringLossy⟩

def descendEntry (fs : FileSystem) (index : Nat) (entryPath : Path) : Except ApplierError (SafeParent × Path) := do
  A.checkAllowed index entryPath
  let resolved := A.pathMap entryPath
  let parent ← (safeDescendVerified A.host fs resolved.root (A.relStr resolved.rel) resolved.expectedRootId).mapError
    fun qe => .safeDescendFailed index resolved.root resolved.rel (formatQuarantine qe)
  return (parent, join resolved.root resolved.rel)

def payloadOf (index : Nat) (entry : WalEntry) : Except ApplierError Bytes :=
  match entry.payloadRef with
  | some (.hash digest) =>
    match A.payloadBytes digest with
    | some bytes => .ok bytes
    | none => .error (.missingSidecarEntry index (hexEncode digest))
  | some (.deployRef ..) => .error (.unsupportedPayloadRef index)
  | none => .error (.missingPayloadRef index entry.op)

def applyWrite (index : Nat) (entry : WalEntry) : Apply Unit := do
  let bytes ← query fun _ => A.payloadOf index entry
  let off ← okOr entry.offset (.missingOffset index entry.op)
  let (parent, dst) ← query fun fs => A.descendEntry fs index entry.path
  let fd ← call (fun e => .ioFailure index entry.op dst ("openat: " ++ displayError e)) fun fs =>
    openAt A.host.proc fs parent.dirfd parent.leaf ⟨.write, true, false, false, false⟩ 0o644
  callUnit (fun e => .ioFailure index entry.op dst ("pwrite: " ++ displayError e)) fun fs =>
    pwriteAll A.host.proc fs fd bytes off

def applyTruncate (index : Nat) (entry : WalEntry) : Apply Unit := do
  let n ← okOr entry.offset (.missingOffset index entry.op)
  let (parent, dst) ← query fun fs => A.descendEntry fs index entry.path
  let fd ← call (fun e => .ioFailure index entry.op dst ("openat: " ++ displayError e)) fun fs =>
    openAt A.host.proc fs parent.dirfd parent.leaf ⟨.write, false, false, false, false⟩ 0
  callUnit (fun e => .ioFailure index entry.op dst ("ftruncate: " ++ displayError e)) fun fs =>
    ftruncateTo A.host.proc fs fd n

def applyChmod (index : Nat) (entry : WalEntry) : Apply Unit := do
  let bits ← okOr entry.modeBits (.missingModeBits index)
  let (parent, dst) ← query fun fs => A.descendEntry fs index entry.path
  -- the call is made without `AT_SYMLINK_NOFOLLOW`
  callUnit (fun e => .ioFailure index entry.op dst ("fchmodat: " ++ displayError e)) fun fs =>
    fchmodAt A.host.proc fs parent.dirfd parent.leaf bits

def permitting (fs : FileSystem) (result : Except Errno FileSystem) : Except Errno FileSystem :=
  match result with
  | .error .perm => .ok fs
  | result => result

def applyChown (index : Nat) (entry : WalEntry) : Apply Unit := do
  let owner ← okOr entry.owner (.missingOwner index)
  let uid ← query fun _ => if owner = "" then .ok unchanged else A.resolveUid owner
  let gid ← query fun _ =>
    match entry.group with
    | none => .ok unchanged
    | some group => if group = "" then .ok unchanged else A.resolveGid group
  let (parent, dst) ← query fun fs => A.descendEntry fs index entry.path
  callUnit (fun e => .chownFailed index dst (rawOsError e)) fun fs =>
    permitting fs (fchownAt A.host.proc fs parent.dirfd parent.leaf uid gid)

def applyRemoveFile (index : Nat) (entry : WalEntry) : Apply Unit := do
  let (parent, dst) ← query fun fs => A.descendEntry fs index entry.path
  callUnit (fun e => .ioFailure index entry.op dst ("unlinkat: " ++ displayError e)) fun fs =>
    unlinkAt fs parent.dirfd parent.leaf

def applyRemoveDir (index : Nat) (entry : WalEntry) : Apply Unit := do
  let (parent, dst) ← query fun fs => A.descendEntry fs index entry.path
  callUnit (fun e => .ioFailure index entry.op dst ("unlinkat(AT_REMOVEDIR): " ++ displayError e)) fun fs =>
    rmdirAt fs parent.dirfd parent.leaf

def applyRename (index : Nat) (entry : WalEntry) : Apply Unit := do
  let extra ← okOr entry.extraPath (.missingExtraPath index entry.op)
  let (source, fromDst) ← query fun fs => A.descendEntry fs index entry.path
  let (dest, toDst) ← query fun fs => A.descendEntry fs index extra
  let wrap e := ApplierError.ioFailure index entry.op fromDst
    ("renameat → " ++ A.host.debugPath toDst ++ ": " ++ displayError e)
  callUnit wrap fun fs => renameAt fs source.dirfd source.leaf dest.dirfd dest.leaf

def applyCopyFile (index : Nat) (entry : WalEntry) : Apply Unit := do
  let extra ← okOr entry.extraPath (.missingExtraPath index entry.op)
  let (source, fromDst) ← query fun fs => A.descendEntry fs index entry.path
  let (dest, toDst) ← query fun fs => A.descendEntry fs index extra
  let wrap e := ApplierError.ioFailure index entry.op fromDst
    ("copy → " ++ A.host.debugPath toDst ++ ": " ++ displayError e)
  adapt wrap (copyAt A.host.proc source dest)

def applyMkdirParents (index : Nat) (entry : WalEntry) (bits : UInt32) : Apply Unit := do
  let resolved := A.pathMap entry.path
  query fun _ => A.checkAllowed index entry.path
  let hostPath := join resolved.root resolved.rel
  let failed message := ApplierError.ioFailure index entry.op hostPath message
  query fun _ =>
    if hostPath.segments.any (0 ∈ ·) then
      .error (failed "create_dir_all: file name contained an unexpected NUL byte")
    else .ok ()
  adapt (fun e => failed ("create_dir_all: " ++ displayError e))
    (createDirAll A.host.proc hostPath.absolute hostPath.segments.reverse)
  callUnit (fun e => failed ("set_permissions: " ++ displayError e)) fun fs => chmod A.host.proc fs hostPath bits

def applyMkdirAt (index : Nat) (entry : WalEntry) (bits : UInt32) : Apply Unit := do
  let (parent, dst) ← query fun fs => A.descendEntry fs index entry.path
  callUnit (fun e => .ioFailure index entry.op dst ("mkdirat: " ++ displayError e)) fun fs =>
    mkdirAt A.host.proc fs parent.dirfd parent.leaf bits

def applyMkdir (index : Nat) (entry : WalEntry) : Apply Unit := do
  let bits ← okOr entry.modeBits (.missingModeBits index)
  if entry.length = some 1 then A.applyMkdirParents index entry bits else A.applyMkdirAt index entry bits

def applyOp (index : Nat) (entry : WalEntry) : Apply Unit :=
  match entry.op with
  | .write | .writeAt => A.applyWrite index entry
  | .truncate => A.applyTruncate index entry
  | .read | .readAt | .stat | .entries | .size | .entriesStreamNext | .exist => pure ()
  | .chmod => A.applyChmod index entry
  | .chown => A.applyChown index entry
  | .removeFile => A.applyRemoveFile index entry
  | .removeDir => A.applyRemoveDir index entry
  | .rename => A.applyRename index entry
  | .copyFile => A.applyCopyFile index entry
  | .mkdir => A.applyMkdir index entry

def applyEntry (index : Nat) (entry : WalEntry) : Apply Unit :=
  match entry.outcome with
  | .failure _ => pure ()
  | .success => A.applyOp index entry

def applyWalFrom : Nat → List WalEntry → Apply Unit
  | _, [] => pure ()
  | index, entry :: rest => do
    A.applyEntry index entry
    applyWalFrom (index + 1) rest

def applyWalToFreshTree (wal : List WalEntry) : Apply Unit := A.applyWalFrom 0 wal

end Applier

end F1r3Node.FileIo
