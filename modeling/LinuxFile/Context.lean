import LinuxFile.Inner.Walk

/-!
# Process contexts

A context holds credentials, a root, a working directory and a table of open files over the mounted
filesystem. Its calls resolve a path or a descriptor and then work on the filesystem as any other
caller would.
-/

namespace LinuxFile

/-- An open file. Flags are the bits of the source's 32-bit integer. -/
structure File where
  ino : ℕ
  flags : UInt32
  pos : ℕ
  deriving DecidableEq, Repr

namespace File

def accmode (f : File) : UInt32 := f.flags &&& oAccmode

/-- Whether `require_read` lets the file be read. -/
def readable (f : File) : Bool := f.accmode != oWronly

/-- Whether `require_write` lets the file be written. -/
def writable (f : File) : Bool := f.accmode != oRdonly

end File

def seekSet : ℤ := 0
def seekCur : ℤ := 1
def seekEnd : ℤ := 2

/-- Where a seek counts from. -/
inductive SeekFrom where
  | start (off : UInt64)
  | current (off : Int64)
  | fromEnd (off : Int64)

def SeekFrom.ofWhence (off : Int64) (whence : ℤ) : Option SeekFrom :=
  if whence = seekSet then some (.start off.toUInt64)
  else if whence = seekCur then some (.current off)
  else if whence = seekEnd then some (.fromEnd off)
  else none

/-- The sum, which the source forms in 128 bits. -/
def SeekFrom.sum (pos size : ℕ) : SeekFrom → ℤ
  | .start off => off.toNat
  | .current off => pos + off.toInt
  | .fromEnd off => size + off.toInt

/-- The position `Seek for File` moves to. -/
def File.seek (f : File) (target : SeekFrom) : Fs ℕ := do
  let inode ← Inner.getInode f.ino
  let new := target.sum f.pos inode.size
  if new < 0 then Exec.throw (Error.einval "negative seek")
  -- `new as u64`
  else pure (new.toNat % 2 ^ 64)

structure OpenOptions where
  read : Bool
  write : Bool
  append : Bool
  truncate : Bool
  create : Bool
  createNew : Bool
  mode : UInt16
  nofollow : Bool
  directory : Bool
  deriving DecidableEq, Repr

def OpenOptions.fromLinuxFlags (flags : UInt32) (mode : UInt16) : OpenOptions where
  read := flags &&& oAccmode == oRdonly || flags &&& oAccmode == oRdwr
  write := flags &&& oAccmode == oWronly || flags &&& oAccmode == oRdwr
  append := flags &&& oAppend != 0
  truncate := flags &&& oTrunc != 0
  create := flags &&& oCreat != 0
  createNew := flags &&& oCreat != 0 && flags &&& oExcl != 0
  mode := mode
  nofollow := flags &&& oNofollow != 0
  directory := flags &&& oDirectory != 0

structure Fd where
  file : File
  flags : UInt32
  dirIno : Option ℕ
  deriving DecidableEq, Repr

structure Context where
  fs : Inner
  creds : Creds
  cwd : ℕ
  root : ℕ
  umask : UInt16
  fds : List (ℤ × Fd)
  nextFd : ℤ

abbrev Ctx (α : Type) := Exec Error Context α

namespace Context

def atFdcwd : ℤ := -100

/-- `Context::new`. -/
def new (fs : Inner) (creds : Creds) : Context where
  fs := fs
  creds := creds
  cwd := rootIno
  root := rootIno
  umask := 0o022
  fds := []
  nextFd := 3

def onFs {α : Type} (x : Fs α) : Ctx α :=
  Exec.zoom (·.fs) (fun fs c ↦ { c with fs := fs }) x

def lookupFd (c : Context) (fd : ℤ) : Option Fd := (c.fds.find? (fun e ↦ e.1 == fd)).map Prod.snd

def setFd (c : Context) (fd : ℤ) (entry : Fd) : Context :=
  { c with fds := (fd, entry) :: c.fds.filter (fun e ↦ e.1 != fd) }

/-- The first number from `n` on that is not in use; one more round than there are descriptors
suffices. -/
def freeFd (c : Context) : ℕ → ℤ → ℤ
  | 0, n => n
  | fuel + 1, n => if (c.lookupFd n).isSome then freeFd c fuel (n + 1) else n

def allocFd (entry : Fd) : Ctx ℤ := do
  let c ← Exec.get
  let n := c.freeFd (c.fds.length + 1) c.nextFd
  -- descriptors are 32-bit numbers and the increment is checked
  if 2 ^ 31 ≤ n + 1 then Exec.abort
  else do
    Exec.modify (fun c ↦ { c.setFd n entry with nextFd := n + 1 })
    pure n

def getFd (fd : ℤ) : Ctx Fd := do
  let c ← Exec.get
  Exec.ofOption Error.ebadf (c.lookupFd fd)

/-! ## Opening -/

/-- Where the walk of a path starts. -/
def walkStart (c : Context) (dirfd : ℤ) (path : UnixPath) : Option ℕ :=
  if UnixPath.isAbsolute path then some c.root
  else if dirfd = atFdcwd then some c.cwd
  else (c.lookupFd dirfd).bind (·.dirIno)

/-- The checks `openat` makes on an inode that exists. -/
def refusal (opts : OpenOptions) (flags : UInt32) (inode : Inode) : Option Error :=
  if opts.createNew then some (Error.eexist "file exists")
  else if opts.directory = true ∧ inode.isDir = false then some (Error.enotdir "not a directory")
  else if inode.isDir = true ∧ opts.write = true ∧ opts.directory = false ∧
      flags &&& oDirectory = 0 ∧ flags &&& oAccmode ≠ oRdonly ∧ flags &&& oAccmode ≠ oPath then
    some (Error.eisdir "is a directory")
  else none

/-- `openat` on an inode that exists. -/
def openExisting (opts : OpenOptions) (flags : UInt32) (ino : ℕ) : Fs Unit :=
  if opts.createNew then Exec.throw (Error.eexist "file exists")
  else do
    let inode ← Inner.getInode ino
    match refusal opts flags inode with
    | some e => Exec.throw e
    | none => Exec.when (opts.truncate = true ∧ inode.isFile = true) (Inner.truncateData ino 0)

/-- The inode `openat` opens, found or created. -/
def openTarget (c : Context) (opts : OpenOptions) (flags : UInt32) (resolved : Resolved) : Fs ℕ :=
  match resolved.ino with
  | some ino => do
    openExisting opts flags ino
    pure ino
  | none =>
    if opts.create = false ∧ opts.createNew = false then
      Exec.throw (Error.enoent "no such file or directory")
    else
      Inner.createChild resolved.parent resolved.name (sIfreg ||| applyUmask opts.mode c.umask)
        c.creds.fsuid c.creds.fsgid 0 c.creds

/-- The walk `openat` starts with. -/
def openWalk (c : Context) (depth : ℕ) (dirfd : ℤ) (path : UnixPath) (opts : OpenOptions) :
    Fs Resolved := do
  let start ← Exec.ofOption Error.ebadf (c.walkStart dirfd path)
  Inner.walk ⟨c.root, !opts.nofollow, c.creds⟩ depth start path

def openat (depth : ℕ) (dirfd : ℤ) (path : UnixPath) (flags : UInt32) (mode : UInt16) : Ctx ℤ := do
  let c ← Exec.get
  let opts := OpenOptions.fromLinuxFlags flags mode
  let resolved ← onFs (openWalk c depth dirfd path opts)
  let ino ← onFs (openTarget c opts flags resolved)
  let inode ← onFs (Inner.getInode ino)
  onFs (Inner.incOpen ino)
  allocFd ⟨⟨ino, flags, 0⟩, flags, if inode.isDir then some ino else none⟩

/-! ## Calls on descriptors -/

/-- `Context::close`: the file's drop tells the filesystem that it is no longer open. -/
def close (fd : ℤ) : Ctx Unit := do
  let entry ← getFd fd
  Exec.modify (fun c ↦ { c with fds := c.fds.filter (fun e ↦ e.1 != fd) })
  let _ ← Exec.attempt (onFs (Inner.decOpen entry.file.ino))
  pure ()

/-- `File::try_clone` into a new descriptor. -/
def dup (fd : ℤ) : Ctx ℤ := do
  let src ← getFd fd
  onFs (Inner.incOpen src.file.ino)
  allocFd { src with file := { src.file with pos := 0 } }

/-- The file that had the descriptor is closed after the clone has been made. -/
def dup2 (old new : ℤ) : Ctx ℤ := do
  let c ← Exec.get
  if old = new then
    if (c.lookupFd old).isNone then Exec.throw Error.ebadf else pure new
  else do
    let src ← getFd old
    onFs (Inner.incOpen src.file.ino)
    Exec.when ((c.lookupFd new).isSome = true) (close new)
    Exec.modify (fun c ↦ c.setFd new { src with file := { src.file with pos := 0 } })
    pure new

/-- The bytes read into a buffer of `count` bytes. Reads, writes and seeks go through the traits of the standard
library, so their errors have been an `std::io::Error` in between. -/
def read (fd : ℤ) (count : ℕ) : Ctx Bytes := do
  let entry ← getFd fd
  if entry.file.readable = false then Exec.throw Error.ebadf.viaIo
  else do
    let data ← onFs ((Inner.readData entry.file.ino entry.file.pos count).mapError Error.viaIo)
    let pos ← addU64 entry.file.pos data.length
    Exec.modify (fun c ↦ c.setFd fd { entry with file := { entry.file with pos := pos } })
    pure data

def write (fd : ℤ) (buf : Bytes) : Ctx ℕ := do
  let entry ← getFd fd
  if entry.file.writable = false then Exec.throw Error.ebadf.viaIo
  else do
    let off ←
      if entry.file.flags &&& oAppend ≠ 0 then do
        let inode ← onFs ((Inner.getInode entry.file.ino).mapError Error.viaIo)
        pure inode.size
      else pure entry.file.pos
    let n ← onFs ((Inner.writeData entry.file.ino off buf).mapError Error.viaIo)
    let pos ← addU64 off n
    Exec.modify (fun c ↦ c.setFd fd { entry with file := { entry.file with pos := pos } })
    pure n

/-- The position goes through three widths: the offset is a signed number of 64 bits, which `SEEK_SET` casts to an
unsigned one, and the answer is cast back. -/
def lseek (fd : ℤ) (off : Int64) (whence : ℤ) : Ctx Int64 := do
  let entry ← getFd fd
  let target ← Exec.ofOption (Error.einval "bad whence") (SeekFrom.ofWhence off whence)
  let pos ← onFs ((entry.file.seek target).mapError Error.viaIo)
  Exec.modify (fun c ↦ c.setFd fd { entry with file := { entry.file with pos := pos } })
  pure (UInt64.ofNat pos).toInt64

def ftruncate (fd : ℤ) (size : ℕ) : Ctx Unit := do
  let entry ← getFd fd
  if entry.file.writable = false then Exec.throw Error.ebadf
  else onFs (Inner.truncateData entry.file.ino size)

def getdents (fd : ℤ) : Ctx (List DirEntry) := do
  let c ← Exec.get
  let ino ← Exec.ofOption Error.ebadf ((c.lookupFd fd).bind (·.dirIno))
  onFs (Inner.parseDir ino)

end Context

end LinuxFile
