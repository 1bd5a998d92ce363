import LinuxFile.Inner.Namespace

/-!
# What a caller sees of an inode
-/

namespace LinuxFile

/-- The result of `stat`. -/
structure Stat where
  ino : ℕ
  mode : UInt16
  nlink : ℕ
  uid : UInt32
  gid : UInt32
  size : ℕ
  blocks : ℕ
  blksize : ℕ
  rdev : UInt64
  atime : Timespec
  mtime : Timespec
  ctime : Timespec
  btime : Timespec
  deriving DecidableEq, Repr

namespace Stat

def fileType (st : Stat) : FileType := FileType.fromMode st.mode

def isDir (st : Stat) : Bool := st.fileType.isDir

def isSymlink (st : Stat) : Bool := st.fileType.isSymlink

/-- `Permissions::from_mode`. -/
def permissions (st : Stat) : UInt16 := st.mode &&& modePerm

end Stat

structure FileTimes where
  accessed : Option Timespec
  modified : Option Timespec
  created : Option Timespec
  deriving DecidableEq, Repr

namespace Inner

def statIno (ino : ℕ) : Fs Stat := do
  let i ← getInode ino
  pure ⟨i.ino, i.mode, i.nlink, i.uid, i.gid, i.size, i.blocks, blockSize, i.rdev, i.atime, i.mtime, i.ctime, i.btime⟩

def setTimes (ino : ℕ) (times : FileTimes) : Fs Unit := do
  requireWrite
  let now ← Exec.read (·.env.now)
  getInodeMut ino (fun i ↦
    { i with
      atime := times.accessed.getD i.atime
      mtime := times.modified.getD i.mtime
      btime := times.created.getD i.btime
      ctime := now })

def listxattr (ino : ℕ) : Fs (List Bytes) := do
  let inode ← getInode ino
  pure (inode.xattr.map Prod.fst)

end Inner

end LinuxFile
