import LinuxFile.Inner.State

/-!
# Inode table: slots, loading and persisting
-/

namespace LinuxFile

/-! ## Extended attributes -/

/-- `XAT1`. -/
def xattrMagic : Bytes := [0x58, 0x41, 0x54, 0x31]

def encodeXattrs (attrs : List (Bytes × Bytes)) : Bytes :=
  xattrMagic ++ leBytes 4 attrs.length ++
    attrs.flatMap (fun a ↦ leBytes 2 a.1.length ++ leBytes 4 a.2.length ++ a.1 ++ a.2)

/-- Read up to `count` attributes; the first that does not fit ends the list. -/
def decodeXattrList : ℕ → Bytes → List (Bytes × Bytes)
  | 0, _ => []
  | count + 1, rest =>
    if rest.length < 6 then []
    else
      let nl := leNat (rest.take 2)
      let vl := leNat ((rest.drop 2).take 4)
      let body := rest.drop 6
      if body.length < nl + vl then []
      else (body.take nl, (body.drop nl).take vl) :: decodeXattrList count (body.drop (nl + vl))

def decodeXattrs (buf : Bytes) : List (Bytes × Bytes) :=
  if buf.length < 8 ∨ buf.take 4 ≠ xattrMagic then []
  else decodeXattrList (leNat ((buf.drop 4).take 4)) (buf.drop 8)

/-! ## Slots -/

def inodeTableCapacity (sb : Superblock) : ℕ :=
  (sb.inodeTableExtents.map Extent.length).sum * inodesPerBlock

/-- Block and byte offset of an inode's slot. -/
def mapInodeSlot (sb : Superblock) (ino : ℕ) : Except Error (ℕ × ℕ) :=
  match mapExtents sb.inodeTableExtents (ino / inodesPerBlock) with
  | some phys => .ok (phys, ino % inodesPerBlock * inodeSize)
  | none => .error (Error.eio "inode table mapping failed")

namespace Inner

/-- The table's extent list after `add` blocks at `start` have been appended. -/
def appendTable (extents : List Extent) (start add : ℕ) : Exec Error Inner (List Extent) :=
  match extents.getLast? with
  | some last =>
    if last.physicalEnd = start then do
      let length ← addU32 last.length add
      pure (extents.dropLast ++ [{ last with length := length }])
    else pure (extents ++ [Extent.new last.logicalEnd start add])
  | none => pure (extents ++ [Extent.new 0 start add])

def growInodeTable : Fs Unit := do
  let start ← onAlloc (Allocator.allocate 2)
  let extents ← Exec.read (fun s ↦ s.sb.inodeTableExtents)
  let extents ← appendTable extents start 2
  Exec.modify (fun s ↦ { s with sb := { s.sb with inodeTableExtents := extents } })

/-! ## Loading -/

def loadXattrs (inode : Inode) : Fs Inode :=
  if inode.xattrBlock = 0 then pure inode
  else do
    let block ← onCache (BlockCache.get inode.xattrBlock)
    pure { inode with xattr := decodeXattrs (block.slice 0 blockSize) }

/-- `EXT2`. -/
def treeMagic : Bytes := [0x45, 0x58, 0x54, 0x32]

/-- Extent records in block `b` of an extent tree. The first block starts with a 16-byte header. -/
def treePer (b : ℕ) : ℕ := if b = 0 then (blockSize - 16) / 20 else blockSize / 20

def treeStart (b : ℕ) : ℕ := if b = 0 then 16 else 0

/-- Read the records of the tree blocks from block `b` on. -/
def loadTreeBlocks (tree : ℕ) (first : Block) : ℕ → ℕ → ℕ → Fs (List Extent)
  | 0, _, _ => pure []
  | count + 1, b, remaining => do
    let block ← if b = 0 then pure first else onCache (BlockCache.get (tree + b))
    let take := min remaining (treePer b)
    let rest ← loadTreeBlocks tree first count (b + 1) (remaining - take)
    pure (getExtents block (treeStart b) take ++ rest)

def loadExtentTree (inode : Inode) : Fs Inode :=
  if inode.extentTree = 0 then pure inode
  else do
    let first ← onCache (BlockCache.get inode.extentTree)
    let n := first.getU32 0
    if first.slice 8 4 = treeMagic then do
      let nblocks := max (first.getU32 4) 1
      let extents ← loadTreeBlocks inode.extentTree first nblocks 0 n
      pure { inode with extents := extents, extentTreeBlocks := nblocks }
    else
      -- images written before the tree had a header with its own magic
      pure { inode with extents := getExtents first 8 (min n 200), extentTreeBlocks := 1 }

/-- Recover `physLength` and `compress` from the first block of the extent. -/
def resolveExtent (ext : Extent) : Fs Extent :=
  if ext.physLength ≠ 0 ∨ ext.physical = 0 then pure ext
  else do
    let block ← onCache (BlockCache.get ext.physical)
    match RecordHeader.parse block with
    | some h => pure { ext with physLength := h.physBlocks, compress := h.algo.asU8 }
    | none => pure { ext with physLength := ext.length }

def resolveExtents : List Extent → Fs (List Extent)
  | [] => pure []
  | ext :: rest => do
    let ext ← resolveExtent ext
    let rest ← resolveExtents rest
    pure (ext :: rest)

def resolveAllExtents (inode : Inode) : Fs Inode := do
  let extents ← resolveExtents inode.extents
  pure { inode with extents := extents }

/-- What `read_inode_raw` does with a slot that has decoded. -/
def completeInode (inode : Inode) : Fs Inode := do
  let inode ← loadXattrs inode
  let inode ← if inode.dataKind = .extentTree then loadExtentTree inode else pure inode
  if inode.usesCompression then resolveAllExtents inode else pure inode

def readInodeRaw (ino : ℕ) : Fs (Option Inode) := do
  let sb ← Exec.read (·.sb)
  if ino = 0 ∨ inodeTableCapacity sb ≤ ino then pure none
  else do
    let slot ← Exec.ofExcept (mapInodeSlot sb ino)
    let block ← onCache (BlockCache.get slot.1)
    let raw : Buf inodeSize := block.sub slot.2 inodeSize
    if (raw.slice 0 inodeSize).all (· == 0) ∨ raw.getU16 0 = 0 then pure none
    else
      match Inode.decode ino raw with
      | .error _ => pure none
      | .ok inode => do
        let inode ← completeInode inode
        pure (some inode)

def loadInode (ino : ℕ) : Fs Inode := do
  let loaded ← readInodeRaw ino
  let inode ← Exec.ofOption (Error.eio s!"missing inode {ino}") loaded
  putInode ino inode
  pure inode

def getInode (ino : ℕ) : Fs Inode := do
  let hit ← Exec.read (fun s ↦ s.inodes.find? ino)
  match hit with
  | some i => pure i
  | none => loadInode ino

/-- `get_inode_mut` followed by the caller's change to the inode. -/
def getInodeMut (ino : ℕ) (change : Inode → Inode) : Fs Unit := do
  let inode ← getInode ino
  markDirty ino
  putInode ino (change inode)

/-! ## Persisting -/

/-- Grow the table until it has a slot for `ino`. -/
def growUntil (ino : ℕ) : ℕ → Fs Unit
  | 0 => pure ()
  | fuel + 1 => do
    let sb ← Exec.read (·.sb)
    if ino < inodeTableCapacity sb then pure ()
    else do
      growInodeTable
      growUntil ino fuel

def writeInodeToTable (inode : Inode) : Fs Unit := do
  -- every round adds 32 slots, so this many rounds reach `inode.ino`
  growUntil inode.ino (inode.ino + 1)
  let sb ← Exec.read (·.sb)
  let slot ← Exec.ofExcept (mapInodeSlot sb inode.ino)
  onCache (BlockCache.getMut slot.1 (fun block ↦ block.put slot.2 (inode.encode.slice 0 inodeSize)))

def storeXattrs (inode : Inode) : Fs Unit :=
  if inode.xattr = [] then
    if inode.xattrBlock ≠ 0 then do
      freeBlocks inode.xattrBlock 1
      modifyInode inode.ino (fun i ↦ { i with xattrBlock := 0, flags := i.flags &&& ~~~flagHasXattr })
    else pure ()
  else
    let blob := encodeXattrs inode.xattr
    if blockSize < blob.length then Exec.throw (Error.fromErrno Error.ERANGE)
    else do
      let xb ←
        if inode.xattrBlock = 0 then do
          let xb ← onAlloc (Allocator.allocate 1)
          modifyInode inode.ino (fun i ↦ { i with xattrBlock := xb, flags := i.flags ||| flagHasXattr })
          pure xb
        else pure inode.xattrBlock
      onCache (BlockCache.insertDirty xb (Buf.ofBytes blockSize blob))

/-- Block `b` of the tree of `extents`, which starts with `part`. -/
def treeBlock (extents part : List Extent) (nblocks b : ℕ) : Block :=
  let block := Buf.zero blockSize
  let block := if b = 0 then ((block.putU32 0 extents.length).putU32 4 nblocks).put 8 treeMagic else block
  putExtents block (treeStart b) part

/-- Write the tree blocks from block `b` on. -/
def storeTreeBlocks (extents : List Extent) (tree nblocks : ℕ) : ℕ → ℕ → List Extent → Fs Unit
  | 0, _, _ => pure ()
  | count + 1, b, remaining => do
    let part := remaining.take (treePer b)
    onCache (BlockCache.insertDirty (tree + b) (treeBlock extents part nblocks b))
    storeTreeBlocks extents tree nblocks count (b + 1) (remaining.drop (treePer b))

def storeExtentTree (inode : Inode) : Fs Unit :=
  let oldTree := inode.extentTree
  let oldN := if oldTree ≠ 0 then max inode.extentTreeBlocks 1 else 0
  if inode.extents.length ≤ maxDirectExtents then
    if oldTree ≠ 0 then do
      freeBlocks oldTree oldN
      modifyInode inode.ino (fun i ↦
        { i with extentTree := 0, extentTreeBlocks := 0, dataKind := .extents })
    else pure ()
  else do
    let per := treePer 0
    let nblocks := max ((inode.extents.length + (per - 1)) / per) 1
    Exec.when (oldTree ≠ 0) (freeBlocks oldTree oldN)
    let tree ← onAlloc (Allocator.allocate nblocks)
    storeTreeBlocks inode.extents tree nblocks nblocks 0 inode.extents
    modifyInode inode.ino (fun i ↦
      { i with extentTree := tree, extentTreeBlocks := nblocks, dataKind := .extentTree })

def persistInode (ino : ℕ) : Fs Unit := do
  let found ← Exec.read (fun s ↦ s.inodes.find? ino)
  match found with
  | none => pure ()
  | some inode => do
    storeXattrs inode
    storeExtentTree inode
    -- storing attributes and extents may have changed the inode
    let inode ← Exec.read (fun s ↦ (s.inodes.find? ino).getD inode)
    writeInodeToTable inode

/-! ## Allocating -/

def takeInodeNumber : Fs ℕ := do
  let free ← Exec.read (·.freeInodes)
  match free.getLast? with
  | some ino => do
    Exec.modify (fun s ↦
      { s with
        freeInodes := free.dropLast
        sb := { s.sb with freeInodeCount := free.dropLast.length } })
    pure ino
  | none => do
    let sb ← Exec.read (·.sb)
    Exec.when (inodeTableCapacity sb ≤ sb.nextInode) growInodeTable
    let next ← addU64 sb.nextInode 1
    Exec.modify (fun s ↦ { s with sb := { s.sb with nextInode := next } })
    pure sb.nextInode

def allocInode (mode : UInt16) (uid gid : UInt32) : Fs ℕ := do
  requireWrite
  let ino ← takeInodeNumber
  let s ← Exec.get
  putInode ino
    { Inode.new s.env.now ino mode uid gid with compression := s.defaultCompression.asU8 }
  markDirty ino
  let count ← addU64 s.sb.inodeCount 1
  Exec.modify (fun s ↦ { s with sb := { s.sb with inodeCount := count } })
  pure ino

end Inner

end LinuxFile
