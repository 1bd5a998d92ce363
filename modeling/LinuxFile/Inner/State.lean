import LinuxFile.Alloc
import LinuxFile.Compress
import LinuxFile.Journal
import LinuxFile.Library.Chunk
import LinuxFile.Path

/-!
# The mounted filesystem

`Inner` is the state behind the lock. What the crate takes from outside, the LZ4 codec and the
clock, is in `env`. Arithmetic on the program's counters is checked, as in its development
profile: an overflow ends the operation without a result.
-/

namespace LinuxFile

inductive SyncMode where
  | none | ordered | full
  deriving DecidableEq, Repr

structure CreateOptions where
  journalBlocks : ℕ
  initialBlocks : ℕ
  cacheBlocks : ℕ
  sync : SyncMode
  compression : Compression
  recordBlocks : ℕ

/-- What the operations take from outside the crate. -/
structure Env where
  lz4 : Lz4
  now : Timespec

/-- The one record held back by the compressed write path. -/
structure RecordCache where
  ino : ℕ
  record : ℕ
  data : Bytes
  dirty : Bool
  deriving DecidableEq, Repr

structure Inner where
  image : Image
  sb : Superblock
  cache : BlockCache
  alloc : Allocator
  journal : Journal
  inodes : KeyMap Inode
  dirtyInodes : KeyMap Unit
  freeInodes : List ℕ
  openCount : KeyMap ℕ
  orphans : KeyMap Unit
  writable : Bool
  syncMode : SyncMode
  checkPerm : Bool
  defaultCompression : Compression
  recordBlocks : ℕ
  recordCache : Option RecordCache
  env : Env

abbrev Fs (α : Type) := Exec Error Inner α

/-- The end of an operation of the mounted filesystem. -/
abbrev FsOutcome (α : Type) := Outcome Error Inner α

def u32Limit : ℕ := 2 ^ 32
def u64Limit : ℕ := 2 ^ 64

/-- Checked 32-bit addition. -/
def addU32 {σ : Type} (a b : ℕ) : Exec Error σ ℕ :=
  if u32Limit ≤ a + b then Exec.abort else pure (a + b)

/-- Checked 64-bit addition. -/
def addU64 {σ : Type} (a b : ℕ) : Exec Error σ ℕ :=
  if u64Limit ≤ a + b then Exec.abort else pure (a + b)

/-- `Vec::resize` with zeros. -/
def resizeBytes (data : Bytes) (n : ℕ) : Bytes := data.take n ++ List.replicate (n - data.length) 0

/-- `data[off..off + new.len()].copy_from_slice(new)`. -/
def overwriteBytes (data : Bytes) (off : ℕ) (new : Bytes) : Bytes :=
  data.take off ++ new ++ data.drop (off + new.length)

namespace Inner

def onImage {α : Type} (x : Exec Error Image α) : Fs α :=
  Exec.zoom (·.image) (fun img s ↦ { s with image := img }) x

def onCache {α : Type} (x : Exec Error CachedImage α) : Fs α :=
  Exec.zoom (fun s ↦ ⟨s.cache, s.image⟩) (fun d s ↦ { s with cache := d.cache, image := d.image }) x

def onAlloc {α : Type} (x : Exec Error AllocImage α) : Fs α :=
  Exec.zoom (fun s ↦ ⟨s.alloc, s.image⟩) (fun d s ↦ { s with alloc := d.alloc, image := d.image }) x

def onJournal {α : Type} (x : Exec Error JournalImage α) : Fs α :=
  Exec.zoom (fun s ↦ ⟨s.journal, s.sb, s.image⟩)
    (fun d s ↦ { s with journal := d.journal, sb := d.sb, image := d.image }) x

def freeBlocks (start len : ℕ) : Fs Unit :=
  Exec.modify (fun s ↦ { s with alloc := s.alloc.freeRange start len })

/-- Change an inode that is in memory; nothing happens to one that is not. -/
def modifyInode (ino : ℕ) (f : Inode → Inode) : Fs Unit :=
  Exec.modify (fun s ↦
    match s.inodes.find? ino with
    | some i => { s with inodes := s.inodes.insert ino (f i) }
    | none => s)

def putInode (ino : ℕ) (i : Inode) : Fs Unit :=
  Exec.modify (fun s ↦ { s with inodes := s.inodes.insert ino i })

def markDirty (ino : ℕ) : Fs Unit :=
  Exec.modify (fun s ↦ { s with dirtyInodes := s.dirtyInodes.insert ino () })

def requireWrite : Fs Unit := do
  let writable ← Exec.read (·.writable)
  if writable then pure () else Exec.throw (Error.fromErrno Error.EROFS)

def accessOk (inode : Inode) (creds : Creds) (acc : Access) : Fs Unit := do
  let checkPerm ← Exec.read (·.checkPerm)
  if checkPerm = false then pure ()
  else if checkAccess inode.mode inode.uid inode.gid creds acc then pure ()
  else Exec.throw (Error.eacces "permission denied")

end Inner

end LinuxFile
