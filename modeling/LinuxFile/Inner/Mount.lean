import LinuxFile.Inner.Namespace

/-!
# Writing back, creating and opening an image

`flush_all` first writes the dirty inodes to the journal in one transaction, then writes everything
to its place. The two halves have names of their own here, because a crash between them is what
the journal is for.
-/

namespace LinuxFile

/-- The orders in which `flush_all` meets the dirty inodes and the cached blocks. -/
structure FlushOrder where
  inodes : IterOrder
  blocks : IterOrder

namespace FlushOrder

def inOrder : FlushOrder := ⟨IterOrder.inOrder, IterOrder.inOrder⟩

end FlushOrder

namespace Inner

/-! ## Write-back -/

/-- The transaction that holds the dirty inodes found in memory. -/
def dirtyTransaction (inodes : KeyMap Inode) (tx : Transaction) (dirty : List ℕ) : Transaction :=
  dirty.foldl (fun tx ino ↦
    match inodes.find? ino with
    | some i => tx.writeInode ino (i.encode.slice 0 inodeSize)
    | none => tx) tx

/-- Commit the dirty inodes to the journal. -/
def journalDirty (dirty : List ℕ) : Fs Unit := do
  let mode ← Exec.read (·.syncMode)
  Exec.when (mode ≠ .none) (do
    let tx ← onJournal Journal.beginTx
    let inodes ← Exec.read (·.inodes)
    onJournal (Journal.commit (dirtyTransaction inodes tx dirty) (mode == .full)))

/-- Write the superblock and its backup copy. -/
def writeSuperblock : Fs Unit := do
  let sb ← Exec.read (·.sb)
  onImage (Image.writeAllAt (sb.encode.slice 0 superblockSize) 0)
  onImage (Image.writeBlock sb.backupBlock sb.encode)

/-- Store a snapshot of the allocator and note where it is. -/
def writeAllocator : Fs Unit := do
  let now ← Exec.read (·.env.now)
  Exec.modify (fun s ↦
    { s with sb := { s.sb with mtime := now, totalBlocks := s.alloc.totalBlocks } })
  let existing ← Exec.read (fun s ↦ s.sb.allocBlock)
  let allocBlock ← onAlloc (Allocator.writeAllocBlocks existing)
  Exec.modify (fun s ↦
    { s with sb := { s.sb with allocBlock := allocBlock, totalBlocks := s.alloc.totalBlocks } })

/-- Give trailing free blocks back to the host. -/
def shrinkImage : Fs Unit := do
  let _ ← onAlloc Allocator.maybeShrink
  Exec.modify (fun s ↦
    { s with
      cache := s.cache.dropFrom s.alloc.totalBlocks
      sb := { s.sb with totalBlocks := s.alloc.totalBlocks } })

/-- Everything `flush_all` does after the journal. -/
def writeBack (order : FlushOrder) (dirty : List ℕ) : Fs Unit := do
  Exec.forEach persistInode dirty
  Exec.modify (fun s ↦ { s with dirtyInodes := KeyMap.empty })
  onCache (BlockCache.flush order.blocks)
  writeAllocator
  writeSuperblock
  shrinkImage
  let mode ← Exec.read (·.syncMode)
  Exec.when (mode = .full) (onImage Image.sync)

/-- The first half of `flush_all`: the held record is stored and the journal written. Answers the
inodes to persist. -/
def commitDirty (order : FlushOrder) : Fs (List ℕ) := do
  flushRecordCache
  let dirty ← Exec.read (fun s ↦ order.inodes.arrange s.dirtyInodes.keys)
  journalDirty dirty
  pure dirty

def flushAll (order : FlushOrder) : Fs Unit := do
  let writable ← Exec.read (·.writable)
  if writable = false then pure ()
  else do
    let dirty ← commitDirty order
    writeBack order dirty

def sync (order : FlushOrder) : Fs Unit := do
  flushAll order
  onImage Image.sync

/-- Write back file data only. -/
def flushCache (order : IterOrder) : Fs Unit := do
  flushRecordCache
  onCache (BlockCache.flush order)

def flushCacheData (order : IterOrder) : Fs Unit := do
  flushCache order
  onImage Image.syncData

/-! ## A new image -/

/-- The state from which a new filesystem is built: an empty host file and no inode table yet. -/
def blank (opts : CreateOptions) (env : Env) (uuid : Buf 16) (faults : List (Option ErrorKind)) :
    Inner :=
  let journalBlocks := max opts.journalBlocks 8
  let firstData := 2 + journalBlocks
  let initialBlocks := max opts.initialBlocks (firstData + 8)
  let recordBlocks := normalizeRecordBlocks opts.recordBlocks
  let sb : Superblock := {
    magic := Buf.ofBytes 8 magicBytes
    version := formatVersion
    blockSize := blockSize
    journalBlocks := journalBlocks
    firstDataBlock := firstData
    totalBlocks := initialBlocks
    inodeCount := 0
    freeInodeCount := 0
    nextInode := firstUserIno
    rootIno := rootIno
    generation := 1
    uuid := uuid
    features := if opts.compression.isOff then 0 else featureCompression
    mtime := env.now
    inodeTableExtents := []
    allocBlock := 0
    journalSeq := 0
    journalHead := 0
    journalTail := 0
    journalCommitted := 0
    defaultCompression := opts.compression.asU8
    recordBlocks := UInt8.ofNat recordBlocks }
  { image := Image.fresh faults
    sb := sb
    cache := BlockCache.new opts.cacheBlocks
    alloc := Allocator.new firstData initialBlocks
    journal := Journal.new sb
    inodes := KeyMap.empty
    dirtyInodes := KeyMap.empty
    freeInodes := []
    openCount := KeyMap.empty
    orphans := KeyMap.empty
    writable := true
    syncMode := opts.sync
    checkPerm := false
    defaultCompression := opts.compression
    recordBlocks := recordBlocks
    recordCache := none
    env := env }

/-- The first two blocks of the inode table. -/
def initTable : Fs Unit := do
  let start ← onAlloc (Allocator.allocate 2)
  Exec.modify (fun s ↦
    { s with sb := { s.sb with inodeTableExtents := s.sb.inodeTableExtents ++ [Extent.new 0 start 2] } })

/-- The root directory. -/
def initRoot : Fs Unit := do
  let s ← Exec.get
  let root := { Inode.new s.env.now rootIno (sIfdir ||| 0o755) 0 0 with
    compression := s.defaultCompression.asU8
    nlink := 2 }
  writeDirEntries rootIno root [⟨rootIno, .directory, dotName⟩, ⟨rootIno, .directory, dotdotName⟩]
  markDirty rootIno
  Exec.modify (fun s ↦ { s with sb := { s.sb with inodeCount := 1 } })

def format (order : FlushOrder) : Fs Unit := do
  let sb ← Exec.read (·.sb)
  -- the block counts are 32-bit and the length in bytes is 64-bit
  if u32Limit ≤ sb.firstDataBlock ∨ u64Limit ≤ sb.totalBlocks * blockSize then Exec.abort
  else do
    onImage (Image.create (sb.totalBlocks * blockSize))
    initTable
    initRoot
    flushAll order

/-- `Inner::create`. -/
def create (opts : CreateOptions) (env : Env) (uuid : Buf 16) (faults : List (Option ErrorKind))
    (order : FlushOrder) : FsOutcome Unit :=
  format order (blank opts env uuid faults)

/-! ## An existing image -/

/-- Note whether one inode number is in use. -/
def scanInode (acc : ℕ × List ℕ) (ino : ℕ) : Fs (ℕ × List ℕ) := do
  let found ← Exec.attempt (readInodeRaw ino)
  match found with
  | .ok (some _) => pure (acc.1 + 1, acc.2)
  | _ => pure (acc.1, if firstUserIno ≤ ino then acc.2 ++ [ino] else acc.2)

def rebuildFreeInodes : Fs Unit := do
  let sb ← Exec.read (·.sb)
  let limit := min sb.nextInode (inodeTableCapacity sb)
  let found ← Exec.foldE scanInode (0, []) (List.range' 1 (limit - 1))
  Exec.modify (fun s ↦
    { s with
      sb := { s.sb with inodeCount := found.1, freeInodeCount := found.2.length }
      freeInodes := found.2 })

/-- Read the superblock, or its backup copy behind the journal. -/
def readSuperblock : Exec Error Image Superblock := do
  let buf ← Image.readExactAt 0 superblockSize
  let buf : Buf superblockSize := Buf.ofBytes superblockSize buf
  match Superblock.decode buf with
  | .ok sb => pure sb
  | .error _ => do
    let buf ← Image.readBlock (1 + buf.getU32 16)
    Exec.ofExcept (Superblock.decode buf)

/-- The mounted state over an image, before the free inode numbers are known. -/
def mounted (image : Image) (sb : Superblock) (alloc : Allocator) (writable : Bool)
    (cacheBlocks : ℕ) (sync : SyncMode) (env : Env) : Inner where
  image := image
  sb := sb
  cache := BlockCache.new cacheBlocks
  alloc := alloc
  journal := Journal.new sb
  inodes := KeyMap.empty
  dirtyInodes := KeyMap.empty
  freeInodes := []
  openCount := KeyMap.empty
  orphans := KeyMap.empty
  writable := writable
  syncMode := sync
  checkPerm := false
  defaultCompression := Compression.fromU8 sb.defaultCompression
  recordBlocks :=
    if sb.recordBlocks = 0 then defaultRecordBlocks else normalizeRecordBlocks sb.recordBlocks.toNat
  recordCache := none
  env := env

/-- Read what a mount needs from the image; the journal is replayed before the allocator is read. -/
def loadMount (writable : Bool) (cacheBlocks : ℕ) (sync : SyncMode) (env : Env) :
    Exec Error Image Inner := do
  Image.openFile writable
  let sb ← readSuperblock
  let _ ← Journal.replay sb
  let alloc ←
    if sb.allocBlock ≠ 0 then Allocator.readAllocBlocks sb.allocBlock
    else pure (Allocator.new sb.firstData sb.totalBlocks)
  let image ← Exec.get
  pure (mounted image sb alloc writable cacheBlocks sync env)

/-- `Inner::open`. -/
def openImage (writable : Bool) (cacheBlocks : ℕ) (sync : SyncMode) (env : Env) :
    Exec Error Image Inner := do
  let inner ← loadMount writable cacheBlocks sync env
  fun _ ↦
    match rebuildFreeInodes inner with
    | .ok _ s => .ok s s.image
    | .err e s => .err e s.image
    | .panic => .panic

end Inner

end LinuxFile
