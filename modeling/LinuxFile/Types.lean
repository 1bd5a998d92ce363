import Mathlib.Algebra.Group.Nat.Defs
import Mathlib.Data.Nat.Notation

/-!
# Modes, credentials and permission checks
-/

namespace LinuxFile

def sIfmt : UInt16 := 0o170000
def sIfsock : UInt16 := 0o140000
def sIflnk : UInt16 := 0o120000
def sIfreg : UInt16 := 0o100000
def sIfblk : UInt16 := 0o060000
def sIfdir : UInt16 := 0o040000
def sIfchr : UInt16 := 0o020000
def sIfifo : UInt16 := 0o010000
def sIsvtx : UInt16 := 0o1000
def modePerm : UInt16 := 0o7777

def oRdonly : UInt32 := 0
def oWronly : UInt32 := 1
def oRdwr : UInt32 := 2
def oAccmode : UInt32 := 3
def oCreat : UInt32 := 0o100
def oExcl : UInt32 := 0o200
def oTrunc : UInt32 := 0o1000
def oAppend : UInt32 := 0o2000
def oDirectory : UInt32 := 0o200000
def oNofollow : UInt32 := 0o400000
def oPath : UInt32 := 0o10000000

def xattrCreate : UInt32 := 1
def xattrReplace : UInt32 := 2

/-- 16 TiB. -/
def maxFileSize : ℕ := 16 * 2 ^ 40

inductive FileType where
  | file | directory | symlink | blockDevice | charDevice | fifo | socket
  deriving DecidableEq, Repr

namespace FileType

def fromMode (mode : UInt16) : FileType :=
  let format := mode &&& sIfmt
  if format = sIfdir then .directory
  else if format = sIflnk then .symlink
  else if format = sIfblk then .blockDevice
  else if format = sIfchr then .charDevice
  else if format = sIfifo then .fifo
  else if format = sIfsock then .socket
  else .file

def isFile (t : FileType) : Bool := t == .file
def isDir (t : FileType) : Bool := t == .directory
def isSymlink (t : FileType) : Bool := t == .symlink

end FileType

/-- A time stamp in seconds and nanoseconds. -/
structure Timespec where
  sec : Int64
  nsec : UInt32
  deriving DecidableEq, Repr

/-- Process credentials used for permission checks. -/
structure Creds where
  uid : UInt32
  gid : UInt32
  groups : List UInt32
  fsuid : UInt32
  fsgid : UInt32
  deriving DecidableEq, Repr

namespace Creds

def root : Creds := ⟨0, 0, [0], 0, 0⟩

def isSuperuser (creds : Creds) : Bool := creds.fsuid == 0

end Creds

inductive Access where
  | read | write | exec
  deriving DecidableEq, Repr

def Access.need : Access → UInt16
  | .read => 4
  | .write => 2
  | .exec => 1

def checkAccess (mode : UInt16) (uid gid : UInt32) (creds : Creds) (access : Access) : Bool :=
  if creds.isSuperuser then
    match access with
    | .exec => mode &&& 0o111 != 0 || (FileType.fromMode mode).isDir
    | _ => true
  else
    let bits :=
      if creds.fsuid = uid then (mode >>> 6) &&& 7
      else if creds.fsgid = gid ∨ gid ∈ creds.groups then (mode >>> 3) &&& 7
      else mode &&& 7
    bits &&& access.need == access.need

def applyUmask (mode umask : UInt16) : UInt16 := (mode &&& modePerm) &&& ~~~umask

end LinuxFile
