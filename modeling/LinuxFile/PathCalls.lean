import LinuxFile.Facade
import LinuxFile.FileCalls

/-!
# Calls by path

The other calls of the crate's `LinuxFile` handle. All of them resolve their paths as the superuser from the root
directory; those that take the lock more than once are written in terms of the calls that take it once.
-/

namespace LinuxFile

namespace Error

def ebusy (message : String) : Error := .fs .other EBUSY message

def isNotFound (e : Error) : Bool := e.errno == ENOENT

def isExists (e : Error) : Bool := e.errno == EEXIST

end Error

namespace Facade

def missing : Error := Error.enoent "no such file or directory"

/-- The walk from the root directory. -/
def lookUp (depth : ℕ) (path : UnixPath) (follow : Bool) : Fs Resolved :=
  Inner.walk ⟨rootIno, follow, Creds.root⟩ depth rootIno path

/-- The inode a path names. -/
def find (depth : ℕ) (path : UnixPath) (follow : Bool) : Fs ℕ := do
  let resolved ← lookUp depth path follow
  Exec.ofOption missing resolved.ino

/-- The calls that work on the inode their path leads to. -/
def onPath {α : Type} (depth : ℕ) (path : UnixPath) (follow : Bool) (x : ℕ → Fs α) : Fs α := do
  let ino ← find depth path follow
  x ino

/-! ## Attributes -/

def stat (depth : ℕ) (path : UnixPath) : Fs Stat := onPath depth path true Inner.statIno

def lstat (depth : ℕ) (path : UnixPath) : Fs Stat := onPath depth path false Inner.statIno

def exists? (depth : ℕ) (path : UnixPath) : Fs Bool := do
  let found ← Exec.attempt (stat depth path)
  pure (found.toOption.isSome)

def fileCompression (depth : ℕ) (path : UnixPath) : Fs Compression := onPath depth path true fun ino ↦ do
  let inode ← Inner.getInode ino
  pure (Compression.fromU8 inode.compression)

def setCompression (depth : ℕ) (path : UnixPath) (compression : Compression) : Fs Unit :=
  onPath depth path true fun ino ↦ Inner.setInodeCompression ino compression

/-- `chmod`, and `set_permissions`. -/
def chmod (depth : ℕ) (path : UnixPath) (mode : UInt16) : Fs Unit :=
  onPath depth path true fun ino ↦ Inner.chmod ino mode Creds.root

def chown (depth : ℕ) (path : UnixPath) (uid gid : UInt32) : Fs Unit :=
  onPath depth path true fun ino ↦ Inner.chown ino (some uid) (some gid) Creds.root

def lchown (depth : ℕ) (path : UnixPath) (uid gid : UInt32) : Fs Unit :=
  onPath depth path false fun ino ↦ Inner.chown ino (some uid) (some gid) Creds.root

def setTimes (depth : ℕ) (path : UnixPath) (times : FileTimes) : Fs Unit :=
  onPath depth path true fun ino ↦ Inner.setTimes ino times

/-- `truncate`, and `set_len`. -/
def truncate (depth : ℕ) (path : UnixPath) (size : ℕ) : Fs Unit := onPath depth path true fun ino ↦ do
  let inode ← Inner.getInode ino
  if inode.isDir then Exec.throw (Error.eisdir "is a directory") else Inner.truncateData ino size

def getxattr (depth : ℕ) (path : UnixPath) (name : Bytes) : Fs Bytes :=
  onPath depth path true fun ino ↦ Inner.getxattr ino name

def setxattr (depth : ℕ) (path : UnixPath) (name value : Bytes) (flags : UInt32) : Fs Unit :=
  onPath depth path true fun ino ↦ Inner.setxattr ino name value flags

def listxattr (depth : ℕ) (path : UnixPath) : Fs (List Bytes) := onPath depth path true Inner.listxattr

def removexattr (depth : ℕ) (path : UnixPath) (name : Bytes) : Fs Unit :=
  onPath depth path true fun ino ↦ Inner.removexattr ino name

/-- The bits of `access` with what each asks for. -/
def accessBits : List (UInt32 × Access) := [(4, .read), (2, .write), (1, .exec)]

def access (depth : ℕ) (path : UnixPath) (mode : UInt32) : Fs Unit := do
  let st ← stat depth path
  if mode = 0 then pure ()
  else if accessBits.any fun b ↦ mode &&& b.1 != 0 && !checkAccess st.mode st.uid st.gid Creds.root b.2 then
    Exec.throw (Error.eacces "access")
  else pure ()

/-! ## Names -/

/-- The calls that make an inode at a free path. -/
def makeAt (depth : ℕ) (path : UnixPath) (follow : Bool) (mode : UInt16) (dev : UInt64) : Fs ℕ := do
  let resolved ← lookUp depth path follow
  if resolved.ino.isSome then Exec.throw (Error.eexist "file exists")
  else Inner.createChild resolved.parent resolved.name mode Creds.root.fsuid Creds.root.fsgid dev Creds.root

def createDir (depth : ℕ) (path : UnixPath) : Fs Unit := do
  let _ ← makeAt depth path true (sIfdir ||| applyUmask 0o777 0o022) 0
  pure ()

def mknod (depth : ℕ) (path : UnixPath) (mode : UInt16) (dev : UInt64) : Fs Unit := do
  let _ ← makeAt depth path false mode dev
  pure ()

def mkfifo (depth : ℕ) (path : UnixPath) (mode : UInt16) : Fs Unit :=
  mknod depth path (sIfifo ||| (mode &&& 0o777)) 0

def symlink (depth : ℕ) (target link : UnixPath) : Fs Unit := do
  let ino ← makeAt depth link false (sIflnk ||| 0o777) 0
  let _ ← Inner.writeData ino 0 target
  pure ()

def readLink (depth : ℕ) (path : UnixPath) : Fs UnixPath := onPath depth path false fun ino ↦ do
  let inode ← Inner.getInode ino
  if inode.isSymlink = false then Exec.throw (Error.einval "not a symbolic link")
  else do
    let data ← Inner.readData ino 0 inode.size
    pure (resizeBytes data inode.size)

def link (depth : ℕ) (old new : UnixPath) : Fs Unit := do
  let ino ← find depth old true
  let dst ← lookUp depth new false
  if dst.ino.isSome then Exec.throw (Error.eexist "file exists")
  else Inner.linkInto ino dst.parent dst.name Creds.root

/-- `unlink`, and `remove_file`. -/
def unlink (depth : ℕ) (path : UnixPath) : Fs Unit := do
  let resolved ← lookUp depth path false
  if resolved.ino = none then Exec.throw missing
  else Inner.unlinkName resolved.parent resolved.name false Creds.root

/-- `rmdir`, and `remove_dir`. -/
def rmdir (depth : ℕ) (path : UnixPath) : Fs Unit := do
  let resolved ← lookUp depth path false
  if resolved.ino = none then Exec.throw missing
  else if resolved.ino = some rootIno then Exec.throw (Error.ebusy "cannot remove root")
  else Inner.unlinkName resolved.parent resolved.name true Creds.root

def rename (depth : ℕ) (source target : UnixPath) : Fs Unit := do
  let src ← lookUp depth source false
  if src.ino = none then Exec.throw missing
  else do
    let dst ← lookUp depth target false
    Inner.rename src.parent src.name dst.parent dst.name Creds.root

def readDir (depth : ℕ) (path : UnixPath) : Fs (List DirEntry) := onPath depth path true Inner.parseDir

/-! ## Whole files -/

def openFile (depth : ℕ) (path : UnixPath) : Fs File := openOpts depth path { OpenOptions.new with read := true }

/-- `create_file`. -/
def createFile (depth : ℕ) (path : UnixPath) : Fs File :=
  openOpts depth path { OpenOptions.new with write := true, create := true, truncate := true }

def read (depth : ℕ) (sizes : ℕ → ℕ) (rounds : ℕ) (path : UnixPath) : Fs Bytes := do
  let f ← openFile depth path
  f.during (File.readToEnd sizes rounds 0 f)

def write (depth : ℕ) (path : UnixPath) (contents : Bytes) : Fs Unit := do
  let f ← createFile depth path
  f.during (do
    let _ ← File.writeAll (contents.length + 1) f contents
    pure ())

def copy (depth : ℕ) (sizes : ℕ → ℕ) (rounds : ℕ) (source target : UnixPath) : Fs ℕ := do
  let data ← read depth sizes rounds source
  let st ← stat depth source
  write depth target data
  chmod depth target st.permissions
  pure data.length

/-! ## Whole directories -/

/-- `create_dir_all`; `levels` bounds the recursion over the parents of the path. -/
def createDirsFrom (depth : ℕ) : ℕ → UnixPath → Fs Unit
  | 0, _ => Exec.abort
  | levels + 1, path =>
    if UnixPath.isRoot path = true ∨ path = [] then pure ()
    else do
      match UnixPath.parent path with
      | some parent =>
        Exec.when (parent ≠ [] ∧ UnixPath.isRoot parent = false) (do
          let _ ← Exec.attempt (createDirsFrom depth levels parent)
          pure ())
      | none => pure ()
      let made ← Exec.attempt (createDir depth path)
      match made with
      | .ok _ => pure ()
      | .error e =>
        if e.isExists then do
          let st ← stat depth path
          if st.isDir then pure () else Exec.throw e
        else Exec.throw e

/-- Each parent is shorter than its path. -/
def createDirAll (depth : ℕ) (path : UnixPath) : Fs Unit := createDirsFrom depth (path.length + 1) path

/-- `remove_dir_all`; `levels` is the number of nested calls the stack has room for. -/
def removeDirAll (depth : ℕ) : ℕ → UnixPath → Fs Unit
  | 0, _ => Exec.abort
  | levels + 1, path => do
    let found ← Exec.attempt (lstat depth path)
    match found with
    | .error e => if e.isNotFound then pure () else Exec.throw e
    | .ok st =>
      if st.isDir = true ∧ st.isSymlink = false then do
        let entries ← readDir depth path
        Exec.forEach (fun e ↦
          if e.fileType.isDir then removeDirAll depth levels (UnixPath.join path e.name)
          else unlink depth (UnixPath.join path e.name))
          (entries.filter fun e ↦ e.name != dotName && e.name != dotdotName)
        rmdir depth path
      else unlink depth path

/-! ## The filesystem -/

structure StatFs where
  blockSize : ℕ
  totalBlocks : ℕ
  freeBlocks : ℕ
  availBlocks : ℕ
  totalInodes : ℕ
  freeInodes : ℕ
  namelen : ℕ
  fsid : ℕ
  deriving DecidableEq, Repr

/-- `Allocator::free_blocks`. -/
def freeBlocks (a : Allocator) : ℕ := (a.free.entries.map Prod.snd).sum

def statfs : Fs StatFs := do
  let s ← Exec.get
  let freeInodes ← addU64 s.sb.freeInodeCount 16
  pure ⟨blockSize, s.alloc.totalBlocks, freeBlocks s.alloc, freeBlocks s.alloc, inodeTableCapacity s.sb, freeInodes,
    nameMax, s.sb.uuid.getU64 0⟩

end Facade

end LinuxFile
