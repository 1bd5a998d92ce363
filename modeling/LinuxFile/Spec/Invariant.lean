import LinuxFile.Inner.Data
import LinuxFile.Spec.Alloc
import LinuxFile.Spec.Cache

/-!
# The invariant of the mounted filesystem

The invariant speaks about the state and a map `live` of all inodes in use, whether they are in
memory or only on disk. Every block of the data area has at most one owner: the free map, the inode
table, the stored allocator snapshot, a live inode, or the operation in progress, whose blocks are
listed in `hand`. A live inode that is not in memory can be read back; one that is not dirty is
stored; the slot of a number that was used and given back is zero.

What is said about blocks on disk is said of all their copies, so that it survives eviction and
write-back, and is only lost by a write to the block.
-/

namespace LinuxFile

open Ledger

/-! ## Owners -/

namespace Inode

def treeRanges (i : Inode) : List (ℕ × ℕ) :=
  if i.extentTree = 0 then [] else [(i.extentTree, i.extentTreeBlocks)]

def xattrRanges (i : Inode) : List (ℕ × ℕ) := if i.xattrBlock = 0 then [] else [(i.xattrBlock, 1)]

/-- Every block range an inode owns. -/
def ranges (i : Inode) : List (ℕ × ℕ) := extentRanges i.extents ++ (i.treeRanges ++ i.xattrRanges)

end Inode

def tableRanges (sb : Superblock) : List (ℕ × ℕ) :=
  sb.inodeTableExtents.map (fun e ↦ (e.physical, e.length))

namespace Inner

def disk (s : Inner) : CachedImage := ⟨s.cache, s.image⟩

def withDisk (s : Inner) (d : CachedImage) : Inner := { s with cache := d.cache, image := d.image }

/-- The blocks of the stored allocator snapshot: its header, and as many as the header says. -/
def mapRanges (s : Inner) : List (ℕ × ℕ) :=
  if s.sb.allocBlock = 0 then []
  else [(s.sb.allocBlock, max ((s.image.block s.sb.allocBlock).getU32 4) 1)]

/-- How many owners a block has. -/
def load (s : Inner) (live : KeyMap Inode) (b : ℕ) : ℕ :=
  cover s.alloc.free.entries b + cover (tableRanges s.sb) b + cover s.mapRanges b +
    live.total (fun _ i ↦ cover i.ranges b)

end Inner

/-! ## Shape of a live inode -/

/-- Extents of the inode table: consecutive from `first` on, none empty. -/
def Contiguous : ℕ → List Extent → Prop
  | _, [] => True
  | first, e :: rest =>
    e.logical = first ∧ 0 < e.length ∧ e.length < u32Limit ∧ e.physLength = 0 ∧ e.compress = 0 ∧
      Contiguous (first + e.length) rest

/-- File blocks stay below this bound. -/
def maxLogical : ℕ := 2 ^ 33

/-- No file block is in both extents. -/
def Clear (a b : Extent) : Prop :=
  ∀ n, ¬((a.logical ≤ n ∧ n < a.logicalEnd) ∧ b.logical ≤ n ∧ n < b.logicalEnd)

/-- An extent of the inode. Its length may be zero: inline data of 2^32 blocks has a length that
does not fit. -/
structure Extent.Wf (i : Inode) (e : Extent) : Prop where
  length_lt : e.length < u32Limit
  logical_le : e.logicalEnd ≤ maxLogical
  raw : e.compress = 0 → e.physLength = e.length ∨ e.physLength = 0
  packed : e.compress ≠ 0 → 0 < e.physLength ∧ i.flags &&& flagCompressed ≠ 0
  empty : e.length = 0 → e.physical < u64Limit

structure Inode.Wf (i : Inode) : Prop where
  extents : ∀ e ∈ i.extents, e.Wf i
  clear : i.extents.Pairwise Clear
  tree : i.extentTree = 0 ↔ i.extentTreeBlocks = 0
  size_le : i.size ≤ maxFileSize
  inline : i.dataKind = .inline → i.extents = []

/-! ## What stands on disk -/

namespace Inner

/-- All copies of the inode's table slot satisfy `P`. -/
def SlotAll (s : Inner) (ino : ℕ) (P : Buf inodeSize → Prop) : Prop :=
  ∃ phys off, mapInodeSlot s.sb ino = .ok (phys, off) ∧
    s.disk.Copies (fun c ↦ P (c.sub off inodeSize)) phys

/-- The slot holds `raw`. -/
def SlotIs (s : Inner) (ino : ℕ) (raw : Buf inodeSize) : Prop := s.SlotAll ino (· = raw)

/-- Copies of the blocks in `ranges` that satisfied something still do. -/
def KeepsBlocks (ranges : List (ℕ × ℕ)) (s t : Inner) : Prop :=
  ∀ b, 0 < cover ranges b → ∀ P, s.disk.Copies P b → t.disk.Copies P b

/-- The inode can be read back: `read_inode_raw` gives it now, and in every later state that keeps
its slot and its blocks. -/
def Parked (s : Inner) (ino : ℕ) (i : Inode) : Prop :=
  ∃ raw, s.SlotIs ino raw ∧ ∀ t : Inner, t.image.Ok → ino < inodeTableCapacity t.sb →
    t.SlotIs ino raw → KeepsBlocks i.ranges s t →
    (readInodeRaw ino).Holds t
      (fun found u ↦ found = some i ∧ ∃ d, u = t.withDisk d ∧ CachedImage.Quiet t.disk d)
      (fun e _ ↦ e.IsHost)

def XattrStored (s : Inner) (i : Inode) : Prop :=
  (i.xattr = [] ∧ i.xattrBlock = 0) ∨
    (i.xattr ≠ [] ∧ i.xattrBlock ≠ 0 ∧ (encodeXattrs i.xattr).length ≤ blockSize ∧
      s.disk.Copies (· = Buf.ofBytes blockSize (encodeXattrs i.xattr)) i.xattrBlock)

/-- Number of blocks of an extent tree for `n` extents. -/
def treeSize (n : ℕ) : ℕ := max ((n + (treePer 0 - 1)) / treePer 0) 1

def TreeStored (s : Inner) (i : Inode) : Prop :=
  (i.extents.length ≤ maxDirectExtents ∧ i.extentTree = 0) ∨
    (maxDirectExtents < i.extents.length ∧ i.dataKind = .extentTree ∧ i.extentTree ≠ 0 ∧
      i.extentTreeBlocks = treeSize i.extents.length ∧
      ∀ b, b < treeSize i.extents.length → s.disk.Copies
        (· = treeBlock i.extents ((i.extents.drop (b * treePer 0)).take (treePer 0))
          (treeSize i.extents.length) b) (i.extentTree + b))

/-- The inode's slot, attributes and extent tree are on disk. -/
structure Stored (s : Inner) (ino : ℕ) (i : Inode) : Prop where
  slot : s.SlotIs ino i.encode
  xattr : s.XattrStored i
  tree : s.TreeStored i

/-- The first block of a compressed extent starts with the header that describes it. -/
def HeaderAt (s : Inner) (e : Extent) : Prop :=
  s.disk.Copies (fun c ↦ ∃ h, RecordHeader.parse c = some h ∧ h.physBlocks = e.physLength ∧
    h.algo.asU8 = e.compress) e.physical

/-- The stored allocator snapshot will not be overwritten from the cache. -/
def MapStored (s : Inner) : Prop := ∀ b, 0 < cover s.mapRanges b → ¬s.disk.DirtyAt b

/-! ## The invariant -/

structure Geometry (s : Inner) : Prop where
  image : s.image.Ok
  first : s.alloc.firstData = s.sb.firstDataBlock
  data : s.sb.firstDataBlock = 2 + s.sb.journalBlocks
  inside : s.sb.firstDataBlock * blockSize ≤ s.image.len
  backed : s.alloc.totalBlocks * blockSize ≤ s.image.len
  journal : s.journal.startBlock = 1 ∧ s.journal.blocks = s.sb.journalBlocks
  total : s.alloc.totalBlocks < u64Limit
  table : Contiguous 0 s.sb.inodeTableExtents
  next : firstUserIno ≤ s.sb.nextInode ∧ s.sb.nextInode ≤ inodeTableCapacity s.sb
  records : 0 < s.recordBlocks ∧ s.recordBlocks ≤ maxRecordBlocks
  waiting : ∀ b, s.disk.DirtyAt b → b * blockSize + blockSize ≤ s.image.len

structure Owned (s : Inner) (live : KeyMap Inode) (hand : List (ℕ × ℕ)) : Prop where
  alloc : s.alloc.Ok
  fits : ∀ b, s.load live b + cover hand b ≤ s.alloc.area b

/-- A held record belongs to a file that compresses. -/
structure RecordOk (s : Inner) (c : RecordCache) : Prop where
  length_le : c.data.length ≤ s.recordBytes
  index_le : c.record * s.recordBlocks ≤ maxFileSize / blockSize
  owner : c.dirty = true → ∃ i, s.inodes.find? c.ino = some i ∧ i.usesCompression = true ∧
    i.dataKind ≠ .inline

structure Numbered (s : Inner) (live : KeyMap Inode) : Prop where
  memory : ∀ k i, s.inodes.find? k = some i → live.find? k = some i
  dirty : ∀ k, s.dirtyInodes.contains k = true → ∃ i, s.inodes.find? k = some i
  keys : ∀ k i, live.find? k = some i → 0 < k ∧ k < s.sb.nextInode ∧ i.ino = k
  shape : ∀ k i, live.find? k = some i → i.Wf
  nodup : s.freeInodes.Nodup
  free : ∀ k ∈ s.freeInodes, firstUserIno ≤ k ∧ k < s.sb.nextInode ∧ live.find? k = none
  record : ∀ c, s.recordCache = some c → s.RecordOk c

structure OnDisk (s : Inner) (live : KeyMap Inode) : Prop where
  stored : ∀ k i, live.find? k = some i → s.dirtyInodes.contains k = false → s.Stored k i
  parked : ∀ k i, live.find? k = some i → s.inodes.find? k = none → s.Parked k i
  dead : ∀ k, 0 < k → k < s.sb.nextInode → live.find? k = none → s.SlotIs k (Buf.zero inodeSize)
  headers : ∀ k i, live.find? k = some i → ∀ e ∈ i.extents, e.isCompressed = true → s.HeaderAt e
  map : s.MapStored

structure Inv (s : Inner) (live : KeyMap Inode) (hand : List (ℕ × ℕ)) : Prop where
  geometry : s.Geometry
  owned : s.Owned live hand
  numbered : s.Numbered live
  onDisk : s.OnDisk live

end Inner

end LinuxFile
