import F1r3Node.Lib.PosixChanges

/-! # The way from a root to the parent of a leaf

The root is opened without following its last segment, and every component but the last is opened under the directory
before it in the same way.
-/

namespace F1r3Node.FileIo

open Lib
open Lib.Posix

inductive QuarantineError where
  | empty
  | escapesRoot
  | symlinkComponent
  | rootIdentityChanged
  | ioError (kind message : String)
  deriving DecidableEq

/-- The name of the `ErrorKind`. -/
def errorKind : Errno → String
  | .perm | .acces => "PermissionDenied"
  | .noent => "NotFound"
  | .badf => "Uncategorized"
  | .exist => "AlreadyExists"
  | .notdir => "NotADirectory"
  | .isdir => "IsADirectory"
  | .inval => "InvalidInput"
  | .fbig => "FileTooLarge"
  | .loop => "FilesystemLoop"
  | .notempty => "DirectoryNotEmpty"

def ioMsgScrub : Errno → String
  | .noent => "not found"
  | .perm | .acces => "permission denied"
  | .exist => "already exists"
  | .inval => "invalid input"
  | _ => "io error"

def mapOpenErr (e : Errno) : QuarantineError :=
  if e = .loop then .symlinkComponent else .ioError (errorKind e) (ioMsgScrub e)

/-- What the calls see of the machine and of the standard library. -/
structure Host where
  proc : Process
  identity : Ino → Nat × Nat
  toStringLossy : Name → Name
  debugPath : Path → String
  resolveUid : String → Except Int (Option UInt32)
  resolveGid : String → Except Int (Option UInt32)

structure SafeParent where
  dirfd : Ino
  leaf : Name
  deriving DecidableEq

def toC (name : Name) : Except QuarantineError Name :=
  if 0 ∈ name then .error (.ioError "InvalidInput" "NUL byte in path component") else .ok name

section

variable (host : Host) (fs : FileSystem)

def openIntermediates : Ino → List Name → Except QuarantineError Ino
  | cur, [] => .ok cur
  | cur, component :: rest => do
    let name ← toC component
    let next ← (openDirAt fs cur name).mapError mapOpenErr
    openIntermediates next rest

def checkIdentity (cur : Ino) (expectedRootId : Option (Nat × Nat)) : Except QuarantineError Unit :=
  match expectedRootId with
  | none => .ok ()
  | some expected => if host.identity cur = expected then .ok () else .error .rootIdentityChanged

def safeDescendVerified (root rel : Path) (expectedRootId : Option (Nat × Nat)) : Except QuarantineError SafeParent :=
  if rel.absolute then .error .escapesRoot
  else if dotdot ∈ rel.segments then .error .escapesRoot
  else do
    let cur ← (openDir fs host.proc.cwd root).mapError mapOpenErr
    checkIdentity host cur expectedRootId
    match rel.segments.getLast? with
    | none => .error .empty
    | some leafName => do
      let dirfd ← openIntermediates fs cur rel.segments.dropLast
      let leaf ← toC leafName
      return ⟨dirfd, leaf⟩

end

variable {host : Host} {fs : FileSystem} {root rel : Path} {expectedRootId : Option (Nat × Nat)} {parent : SafeParent}

theorem openIntermediates_ok {cur dirfd : Ino} {names : List Name} (hDown : dotdot ∉ names)
    (h : openIntermediates fs cur names = .ok dirfd) : descend fs cur names = some dirfd := by
  induction names generalizing cur with
  | nil => exact congrArg some (Except.ok.inj h)
  | cons component rest ih =>
    obtain ⟨hName, hRest⟩ := not_or.mp (mt List.mem_cons.mpr hDown)
    obtain ⟨name, hC, hNext⟩ := exists_of_bind_ok h
    obtain ⟨next, hOpen, hInto⟩ := exists_of_bind_ok hNext
    rw [toC] at hC
    split at hC
    · cases hC
    obtain rfl := Except.ok.inj hC
    have hEntry := (step_eq_ok (Ne.symm hName)).mp (openDirAt_ok (eq_ok_of_mapError hOpen)).1
    rw [descend, hEntry]
    exact ih hRest hInto

/-- The leaf is named in a directory that lies below the root, and no link was met on the way. -/
structure Descended (host : Host) (fs : FileSystem) (root rel : Path) (parent : SafeParent) : Prop where
  relative : rel.absolute = false
  down : dotdot ∉ rel.segments
  way : ∃ cur before, openDir fs host.proc.cwd root = .ok cur ∧ rel.segments = before ++ [parent.leaf] ∧
    descend fs cur before = some parent.dirfd

theorem safeDescendVerified_ok (h : safeDescendVerified host fs root rel expectedRootId = .ok parent) :
    Descended host fs root rel parent := by
  rw [safeDescendVerified] at h
  split at h
  · cases h
  next hRelative =>
    split at h
    · cases h
    next hDown =>
      obtain ⟨cur, hOpen, hRest⟩ := exists_of_bind_ok h
      obtain ⟨-, -, hLeaf⟩ := exists_of_bind_ok hRest
      refine ⟨by simpa using hRelative, hDown, ?_⟩
      split at hLeaf
      · cases hLeaf
      next leafName hLast =>
        obtain ⟨before, hSegments⟩ := List.getLast?_eq_some_iff.mp hLast
        rw [hSegments, List.dropLast_concat] at hLeaf
        obtain ⟨dirfd, hWay, hC⟩ := exists_of_bind_ok hLeaf
        obtain ⟨leaf, hName, hPure⟩ := exists_of_bind_ok hC
        rw [toC] at hName
        split at hName
        · cases hName
        obtain rfl := Except.ok.inj hName
        obtain rfl := Except.ok.inj hPure
        have hBefore : dotdot ∉ before := fun hMem => hDown (hSegments ▸ List.mem_append_left _ hMem)
        exact ⟨cur, before, eq_ok_of_mapError hOpen, hSegments, openIntermediates_ok hBefore hWay⟩

end F1r3Node.FileIo
