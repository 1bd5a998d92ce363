import LinuxFile.Format

/-!
# Record compression

The LZ4 codec is a library outside the crate. It enters as a pair of functions with the two
properties the crate relies on: decompressing a compressed record gives the record back, and the
compressed form of a nonempty record is nonempty.
-/

namespace LinuxFile

/-- The block codec of `lz4_flex`. -/
structure Lz4 where
  compress : Bytes → Bytes
  decompress : Bytes → ℕ → Except String Bytes
  decompress_compress : ∀ data, decompress (compress data) data.length = .ok data
  compress_ne_nil : ∀ data, data ≠ [] → compress data ≠ []

inductive Compression where
  | off | lz4
  deriving DecidableEq, Repr

namespace Compression

def fromU8 (v : UInt8) : Compression := if v = 1 then .lz4 else .off

def asU8 : Compression → UInt8
  | .off => 0
  | .lz4 => 1

def isOff (c : Compression) : Bool := c == .off

end Compression

/-- `LFC1`. -/
def headerMagic : Bytes := [0x4C, 0x46, 0x43, 0x31]
def headerSize : ℕ := 20
def defaultRecordBlocks : ℕ := 8
def maxRecordBlocks : ℕ := 32

/-- The least power of two that is at least `n`, for `n` up to 32. -/
def nextPowerOfTwo (n : ℕ) : ℕ := ([1, 2, 4, 8, 16, 32].find? (fun p ↦ decide (n ≤ p))).getD 64

def normalizeRecordBlocks (n : ℕ) : ℕ :=
  let n := min (max n 2) maxRecordBlocks
  max (min (nextPowerOfTwo n) maxRecordBlocks) 2

/-- Number of blocks that hold `n` bytes. -/
def ceilBlocks (n : ℕ) : ℕ := (n + (blockSize - 1)) / blockSize

structure RecordHeader where
  algo : Compression
  logicalBlocks : ℕ
  payloadLen : ℕ
  uncompressedLen : ℕ
  crc : UInt32
  deriving DecidableEq, Repr

namespace RecordHeader

def physBlocks (h : RecordHeader) : ℕ := ceilBlocks (headerSize + h.payloadLen)

def encode (h : RecordHeader) : Buf headerSize :=
  let buf := Buf.zero headerSize
  let buf := buf.put 0 headerMagic
  let buf := buf.putU8 4 h.algo.asU8
  let buf := buf.putU8 5 0
  let buf := buf.putU16 6 h.logicalBlocks
  let buf := buf.putU32 8 h.payloadLen
  let buf := buf.putU32 12 h.uncompressedLen
  buf.putU32 16 h.crc.toNat

/-- Read a header from the start of a physical block. -/
def parse {n : ℕ} (block : Buf n) : Option RecordHeader :=
  if n < headerSize ∨ block.slice 0 4 ≠ headerMagic then none
  else if block.byte 4 ≠ 1 then none
  else
    let h : RecordHeader := {
      algo := .lz4
      logicalBlocks := block.getU16 6
      payloadLen := block.getU32 8
      uncompressedLen := block.getU32 12
      crc := UInt32.ofNat (block.getU32 16) }
    if h.logicalBlocks = 0 ∨ maxRecordBlocks < h.logicalBlocks then none
    else if h.uncompressedLen = 0 ∨ h.logicalBlocks * blockSize < h.uncompressedLen then none
    else if h.payloadLen = 0 ∨ h.uncompressedLen ≤ h.payloadLen then none
    else if h.logicalBlocks < h.physBlocks then none
    else some h

end RecordHeader

def savesABlock (uncompressed compressed : ℕ) : Bool :=
  decide (headerSize + compressed + blockSize ≤ uncompressed)

/-- Compress `src`, or answer `off` when that would not save a block. -/
def tryCompress (lz : Lz4) (algo : Compression) (src : Bytes) : Compression × Bytes :=
  if algo.isOff ∨ src.length < blockSize * 2 then (.off, [])
  else
    match algo with
    | .off => (.off, [])
    | .lz4 =>
      let payload := lz.compress src
      if savesABlock src.length payload.length then (.lz4, payload) else (.off, [])

def decompress (lz : Lz4) (algo : Compression) (src : Bytes) (uncompressedLen : ℕ) :
    Except Error Bytes :=
  match algo with
  | .off => .ok (src.take uncompressedLen ++ List.replicate (uncompressedLen - src.length) 0)
  | .lz4 =>
    match lz.decompress src uncompressedLen with
    | .ok data => .ok data
    | .error e => .error (Error.eio ("lz4 decompress: " ++ e))

end LinuxFile
