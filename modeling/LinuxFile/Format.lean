import LinuxFile.Crc
import LinuxFile.Error
import LinuxFile.Types

/-!
# On-disk structures

Superblock, extents and inodes with their byte layout. `encode` and `decode` write and read the
fields at the source's offsets in a zeroed buffer; the checksum covers everything before it.
Sizes, block numbers and counters are natural numbers, cut to the field's width when they are
written; fields on which no arithmetic is done keep their machine type.
-/

namespace LinuxFile

def blockSize : ℕ := 4096
def inodeSize : ℕ := 256
def inodesPerBlock : ℕ := 16
def superblockSize : ℕ := 4096
def inlineMax : ℕ := 128
def maxDirectExtents : ℕ := 6
def rootIno : ℕ := 1
def firstUserIno : ℕ := 2
def shrinkSlackBlocks : ℕ := 64

def flagHasXattr : UInt32 := 1
def flagCompressed : UInt32 := 8
def featureCompression : UInt64 := 1

abbrev Block := Buf blockSize

/-- `LNXFILE\0`. -/
def magicBytes : Bytes := [0x4C, 0x4E, 0x58, 0x46, 0x49, 0x4C, 0x45, 0]
def formatVersion : ℕ := 1

/-! ## Extents -/

/-- Logical file blocks mapped to physical image blocks. `physLength` and `compress` live in
memory only; a zero `physLength` stands for `length`. -/
structure Extent where
  logical : ℕ
  physical : ℕ
  length : ℕ
  physLength : ℕ
  compress : UInt8
  deriving DecidableEq, Repr

namespace Extent

def new (logical physical length : ℕ) : Extent := ⟨logical, physical, length, 0, 0⟩

def withPhys (logical physical length physLength : ℕ) (compress : UInt8) : Extent :=
  ⟨logical, physical, length, physLength, compress⟩

def physLen (e : Extent) : ℕ := if e.physLength ≠ 0 then e.physLength else e.length

def isCompressed (e : Extent) : Bool := e.compress != 0

def logicalEnd (e : Extent) : ℕ := e.logical + e.length

def physicalEnd (e : Extent) : ℕ := e.physical + e.physLen

def containsLogical (e : Extent) (block : ℕ) : Bool :=
  decide (e.logical ≤ block) && decide (block < e.logicalEnd)

def map (e : Extent) (block : ℕ) : Option ℕ :=
  if e.containsLogical block then some (e.physical + (block - e.logical)) else none

end Extent

/-- The physical block of a logical one, in the first extent that contains it. -/
def mapExtents (extents : List Extent) (block : ℕ) : Option ℕ :=
  extents.findSome? (fun e ↦ e.map block)

/-- Write extents as consecutive 20-byte records. -/
def putExtents {n : ℕ} (buf : Buf n) : ℕ → List Extent → Buf n
  | _, [] => buf
  | off, e :: rest =>
    putExtents (((buf.putU64 off e.logical).putU64 (off + 8) e.physical).putU32 (off + 16) e.length)
      (off + 20) rest

/-- Read `count` consecutive 20-byte records. -/
def getExtents {n : ℕ} (buf : Buf n) : ℕ → ℕ → List Extent
  | _, 0 => []
  | off, count + 1 =>
    Extent.new (buf.getU64 off) (buf.getU64 (off + 8)) (buf.getU32 (off + 16)) ::
      getExtents buf (off + 20) count

def putTimespec {n : ℕ} (buf : Buf n) (off : ℕ) (t : Timespec) : Buf n :=
  (buf.putU64 off t.sec.toUInt64.toNat).putU32 (off + 8) t.nsec.toNat

def getTimespec {n : ℕ} (buf : Buf n) (off : ℕ) : Timespec :=
  ⟨(UInt64.ofNat (buf.getU64 off)).toInt64, UInt32.ofNat (buf.getU32 (off + 8))⟩

/-! ## Superblock -/

@[ext] structure Superblock where
  magic : Buf 8
  version : ℕ
  blockSize : ℕ
  journalBlocks : ℕ
  firstDataBlock : ℕ
  totalBlocks : ℕ
  inodeCount : ℕ
  freeInodeCount : ℕ
  nextInode : ℕ
  rootIno : ℕ
  generation : ℕ
  uuid : Buf 16
  features : UInt64
  mtime : Timespec
  inodeTableExtents : List Extent
  allocBlock : ℕ
  journalSeq : ℕ
  journalHead : ℕ
  journalTail : ℕ
  journalCommitted : ℕ
  defaultCompression : UInt8
  recordBlocks : UInt8

namespace Superblock

/-- Number of extent records the superblock has room for. -/
def maxTableExtents : ℕ := 16

def firstData (sb : Superblock) : ℕ := sb.firstDataBlock

def journalStart : ℕ := 1

def backupBlock (sb : Superblock) : ℕ := 1 + sb.journalBlocks

/-- The superblock's fields before the checksum is added. -/
def encodeBody (sb : Superblock) : Buf superblockSize :=
  let buf := Buf.zero superblockSize
  let buf := buf.put 0 (sb.magic.slice 0 8)
  let buf := buf.putU32 8 sb.version
  let buf := buf.putU32 12 sb.blockSize
  let buf := buf.putU32 16 sb.journalBlocks
  let buf := buf.putU32 20 sb.firstDataBlock
  let buf := buf.putU64 24 sb.totalBlocks
  let buf := buf.putU64 32 sb.inodeCount
  let buf := buf.putU64 40 sb.freeInodeCount
  let buf := buf.putU64 48 sb.nextInode
  let buf := buf.putU64 56 sb.rootIno
  let buf := buf.putU64 64 sb.generation
  let buf := buf.put 72 (sb.uuid.slice 0 16)
  let buf := buf.putU64 88 sb.features.toNat
  let buf := putTimespec buf 96 sb.mtime
  let buf := buf.putU64 112 sb.allocBlock
  let buf := buf.putU64 120 sb.journalSeq
  let buf := buf.putU32 128 sb.journalHead
  let buf := buf.putU32 132 sb.journalTail
  let buf := buf.putU64 136 sb.journalCommitted
  let buf := buf.putU8 108 sb.defaultCompression
  let buf := buf.putU8 109 sb.recordBlocks
  let buf := buf.putU32 144 (min sb.inodeTableExtents.length maxTableExtents)
  putExtents buf 148 (sb.inodeTableExtents.take maxTableExtents)

def encode (sb : Superblock) : Buf superblockSize :=
  let body := sb.encodeBody
  body.putU32 (superblockSize - 4) (Crc.crc32 (body.slice 0 (superblockSize - 4))).toNat

/-- The fields of a superblock whose checks have passed. -/
def decodeBody (buf : Buf superblockSize) : Superblock where
  magic := buf.sub 0 8
  version := buf.getU32 8
  blockSize := buf.getU32 12
  journalBlocks := buf.getU32 16
  firstDataBlock := buf.getU32 20
  totalBlocks := buf.getU64 24
  inodeCount := buf.getU64 32
  freeInodeCount := buf.getU64 40
  nextInode := buf.getU64 48
  rootIno := buf.getU64 56
  generation := buf.getU64 64
  uuid := buf.sub 72 16
  features := UInt64.ofNat (buf.getU64 88)
  mtime := getTimespec buf 96
  inodeTableExtents := getExtents buf 148 (min (buf.getU32 144) maxTableExtents)
  allocBlock := buf.getU64 112
  journalSeq := buf.getU64 120
  journalHead := buf.getU32 128
  journalTail := buf.getU32 132
  journalCommitted := buf.getU64 136
  defaultCompression := buf.byte 108
  recordBlocks := buf.byte 109

def decode (buf : Buf superblockSize) : Except Error Superblock :=
  if buf.getU32 (superblockSize - 4) ≠ (Crc.crc32 (buf.slice 0 (superblockSize - 4))).toNat then
    .error (Error.eio "superblock checksum mismatch")
  else if buf.slice 0 8 ≠ magicBytes then
    .error (Error.eio "bad filesystem magic")
  else if buf.getU32 8 ≠ formatVersion then
    .error (Error.eio "unsupported filesystem version")
  else if buf.getU32 12 ≠ LinuxFile.blockSize then
    .error (Error.eio "unsupported block size")
  else
    .ok (decodeBody buf)

end Superblock

/-! ## Inodes -/

inductive DataKind where
  | inline | extents | extentTree
  deriving DecidableEq, Repr

namespace DataKind

def toU8 : DataKind → UInt8
  | .inline => 0
  | .extents => 1
  | .extentTree => 2

def fromU8 (v : UInt8) : DataKind :=
  if v = 1 then .extents else if v = 2 then .extentTree else .inline

end DataKind

@[ext] structure Inode where
  ino : ℕ
  mode : UInt16
  nlink : ℕ
  uid : UInt32
  gid : UInt32
  size : ℕ
  blocks : ℕ
  atime : Timespec
  mtime : Timespec
  ctime : Timespec
  btime : Timespec
  rdev : UInt64
  flags : UInt32
  generation : UInt32
  dataKind : DataKind
  compression : UInt8
  inlineData : Bytes
  extents : List Extent
  extentTree : ℕ
  extentTreeBlocks : ℕ
  xattrBlock : ℕ
  xattr : List (Bytes × Bytes)
  deriving DecidableEq, Repr

namespace Inode

def new (now : Timespec) (ino : ℕ) (mode : UInt16) (uid gid : UInt32) : Inode where
  ino := ino
  mode := mode
  nlink := 1
  uid := uid
  gid := gid
  size := 0
  blocks := 0
  atime := now
  mtime := now
  ctime := now
  btime := now
  rdev := 0
  flags := 0
  generation := 1
  dataKind := .inline
  compression := 0
  inlineData := []
  extents := []
  extentTree := 0
  extentTreeBlocks := 0
  xattrBlock := 0
  xattr := []

def fileType (i : Inode) : FileType := FileType.fromMode i.mode
def isDir (i : Inode) : Bool := i.fileType.isDir
def isFile (i : Inode) : Bool := i.fileType.isFile
def isSymlink (i : Inode) : Bool := i.fileType.isSymlink

def usesCompression (i : Inode) : Bool := i.compression != 0 || i.flags &&& flagCompressed != 0

def touchMtime (i : Inode) (now : Timespec) : Inode := { i with mtime := now, ctime := now }

def touchCtime (i : Inode) (now : Timespec) : Inode := { i with ctime := now }

/-- The inode's fields up to the data area. -/
def encodeHead (i : Inode) : Buf inodeSize :=
  let buf := Buf.zero inodeSize
  let buf := buf.putU16 0 i.mode.toNat
  let buf := buf.putU32 2 i.nlink
  let buf := buf.putU32 6 i.uid.toNat
  let buf := buf.putU32 10 i.gid.toNat
  let buf := buf.putU64 14 i.size
  let buf := buf.putU64 22 i.blocks
  let buf := putTimespec buf 30 i.atime
  let buf := putTimespec buf 42 i.mtime
  let buf := putTimespec buf 54 i.ctime
  let buf := putTimespec buf 66 i.btime
  let buf := buf.putU64 78 i.rdev.toNat
  let buf := buf.putU32 86 i.flags.toNat
  let buf := buf.putU32 90 i.generation.toNat
  let buf := buf.putU8 94 i.dataKind.toU8
  let buf := buf.putU8 95 i.compression
  let buf := buf.putU64 96 i.extentTree
  buf.putU64 240 i.xattrBlock

/-- The inode's fields before the checksum is added. -/
def encodeBody (i : Inode) : Buf inodeSize :=
  match i.dataKind with
  | .inline =>
    let n := min i.inlineData.length inlineMax
    (i.encodeHead.putU16 104 n).put 106 (i.inlineData.take n)
  | .extents | .extentTree =>
    putExtents (i.encodeHead.putU16 104 (min i.extents.length maxDirectExtents)) 106
      (i.extents.take maxDirectExtents)

def encode (i : Inode) : Buf inodeSize :=
  let body := i.encodeBody
  body.putU32 252 (Crc.crc32 (body.slice 0 252)).toNat

/-- The fields before the data area, and the attribute block. -/
def decodeHead (ino : ℕ) (buf : Buf inodeSize) : Inode where
  ino := ino
  mode := UInt16.ofNat (buf.getU16 0)
  nlink := buf.getU32 2
  uid := UInt32.ofNat (buf.getU32 6)
  gid := UInt32.ofNat (buf.getU32 10)
  size := buf.getU64 14
  blocks := buf.getU64 22
  atime := getTimespec buf 30
  mtime := getTimespec buf 42
  ctime := getTimespec buf 54
  btime := getTimespec buf 66
  rdev := UInt64.ofNat (buf.getU64 78)
  flags := UInt32.ofNat (buf.getU32 86)
  generation := UInt32.ofNat (buf.getU32 90)
  dataKind := DataKind.fromU8 (buf.byte 94)
  compression := buf.byte 95
  inlineData := []
  extents := []
  extentTree := buf.getU64 96
  extentTreeBlocks := 0
  xattrBlock := buf.getU64 240
  xattr := []

/-- The fields of an inode whose checks have passed. -/
def decodeBody (ino : ℕ) (buf : Buf inodeSize) : Inode :=
  let head := decodeHead ino buf
  match head.dataKind with
  | .inline => { head with inlineData := buf.slice 106 (min (buf.getU16 104) inlineMax) }
  | .extents | .extentTree =>
    { head with extents := getExtents buf 106 (min (buf.getU16 104) maxDirectExtents) }

def decode (ino : ℕ) (buf : Buf inodeSize) : Except Error Inode :=
  if buf.getU32 252 ≠ (Crc.crc32 (buf.slice 0 252)).toNat then
    .error (Error.eio s!"inode {ino} checksum mismatch")
  else if buf.getU16 0 = 0 then
    .error (Error.eio s!"inode {ino} unused")
  else
    .ok (decodeBody ino buf)

end Inode

end LinuxFile
