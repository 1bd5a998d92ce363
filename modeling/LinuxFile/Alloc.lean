import LinuxFile.Cache

/-!
# Extent allocator
-/

namespace LinuxFile

structure Allocator where
  /-- Free extents: start block to length in blocks. -/
  free : KeyMap ℕ
  firstData : ℕ
  totalBlocks : ℕ

/-- The allocator with the image it grows and shrinks. -/
structure AllocImage where
  alloc : Allocator
  image : Image

namespace Allocator

def new (firstData totalBlocks : ℕ) : Allocator where
  free := if firstData < totalBlocks then KeyMap.empty.insert firstData (totalBlocks - firstData)
    else KeyMap.empty
  firstData := firstData
  totalBlocks := totalBlocks

/-- The best-fit scan over the free extents in address order; it stops at an exact fit. -/
def bestFit (want : ℕ) : List (ℕ × ℕ) → Option (ℕ × ℕ) → Option (ℕ × ℕ)
  | [], best => best
  | (start, len) :: rest, best =>
    if want ≤ len ∧ (best.all fun b ↦ decide (len < b.2)) = true then
      if len = want then some (start, len) else bestFit want rest (some (start, len))
    else bestFit want rest best

def onImage {α : Type} (x : Exec Error Image α) : Exec Error AllocImage α :=
  Exec.zoom (·.image) (fun img d ↦ { d with image := img }) x

def modifyAlloc (f : Allocator → Allocator) : Exec Error AllocImage Unit :=
  Exec.modify (fun d ↦ { d with alloc := f d.alloc })

/-- Take `want` blocks from the start of a free extent. -/
def carve (a : Allocator) (start len want : ℕ) : Allocator :=
  let free := a.free.erase start
  { a with free := if want < len then free.insert (start + want) (len - want) else free }

/-- The free map and total after the image has been grown for `newTotal` blocks. -/
def extend (a : Allocator) (newTotal imageBlocks : ℕ) : Allocator :=
  { a with
    free := if newTotal < imageBlocks then a.free.insert newTotal (imageBlocks - newTotal) else a.free
    totalBlocks := max imageBlocks newTotal }

def allocate (want : ℕ) : Exec Error AllocImage ℕ :=
  if want = 0 then Exec.throw (Error.einval "zero-length allocation")
  else do
    let a ← Exec.read (·.alloc)
    match bestFit want a.free.entries none with
    | some (start, len) => do
      modifyAlloc (fun a ↦ a.carve start len want)
      pure start
    | none => do
      let newTotal := a.totalBlocks + want
      -- the product has 64 bits and is not checked; here it is exact, and the host refuses such a length
      onImage (Image.growTo (newTotal * blockSize))
      let imageLen ← Exec.read (fun d ↦ d.image.len)
      modifyAlloc (fun a ↦ a.extend newTotal (imageLen / blockSize))
      pure a.totalBlocks

/-- Merge with the free extent that ends where the range starts. -/
def mergeBelow (a : Allocator) (start len : ℕ) : Allocator × ℕ × ℕ :=
  match a.free.below? start with
  | some (ps, pl) =>
    if ps + pl = start then ({ a with free := a.free.erase ps }, ps, len + pl) else (a, start, len)
  | none => (a, start, len)

/-- Merge with the free extent that starts where the range ends. -/
def mergeAbove (a : Allocator) (start len : ℕ) : Allocator × ℕ :=
  match a.free.find? (start + len) with
  | some nl => ({ a with free := a.free.erase (start + len) }, len + nl)
  | none => (a, len)

def freeRange (a : Allocator) (start len : ℕ) : Allocator :=
  if len = 0 then a
  else
    let (a, start, len) := a.mergeBelow start len
    let (a, len) := a.mergeAbove start len
    { a with free := a.free.insert start len }

def maybeShrink : Exec Error AllocImage Bool := do
  let a ← Exec.read (·.alloc)
  match a.free.last? with
  | none => pure false
  | some (start, len) =>
    if start + len ≠ a.totalBlocks then pure false
    else if len ≤ shrinkSlackBlocks then pure false
    else
      let newTotal := max (start + shrinkSlackBlocks) a.firstData
      if a.totalBlocks ≤ newTotal then pure false
      else do
        onImage (Image.shrinkTo (newTotal * blockSize))
        modifyAlloc (fun a ↦
          let free := a.free.erase start
          { a with
            free := if 0 < newTotal - start then free.insert start (newTotal - start) else free
            totalBlocks := newTotal })
        pure true

/-- `LNXA`. -/
def stateMagic : Bytes := [0x4C, 0x4E, 0x58, 0x41]

def encode (a : Allocator) : Bytes :=
  stateMagic ++ leBytes 8 a.firstData ++ leBytes 8 a.totalBlocks ++ leBytes 4 a.free.size ++
    a.free.entries.flatMap (fun e ↦ leBytes 8 e.1 ++ leBytes 8 e.2)

/-- Read `count` free extents from the rest of the state. -/
def decodeFree : ℕ → Bytes → KeyMap ℕ → Except Error (KeyMap ℕ)
  | 0, _, free => .ok free
  | count + 1, rest, free =>
    if rest.length < 16 then .error (Error.eio "allocator state truncated")
    else
      let start := leNat (rest.take 8)
      let len := leNat ((rest.drop 8).take 8)
      decodeFree count (rest.drop 16) (if 0 < len then free.insert start len else free)

def decode (buf : Bytes) : Except Error Allocator :=
  if buf.length < 24 ∨ buf.take 4 ≠ stateMagic then .error (Error.eio "bad allocator state")
  else
    match decodeFree (leNat ((buf.drop 20).take 4)) (buf.drop 24) KeyMap.empty with
    | .error e => .error e
    | .ok free => .ok {
        free := free
        firstData := leNat ((buf.drop 4).take 8)
        totalBlocks := leNat ((buf.drop 12).take 8) }

/-- Payload bytes of one snapshot block. -/
def perBlock : ℕ := blockSize - 16

/-- `ALN\0`. -/
def snapshotMagic : Bytes := [0x41, 0x4C, 0x4E, 0]

/-- Give back the blocks of the previous snapshot, whose count its header records. -/
def releaseSnapshot (existing : ℕ) : Exec Error AllocImage Unit :=
  if existing = 0 then pure ()
  else do
    let len ← Exec.read (fun d ↦ d.image.len)
    if existing * blockSize + blockSize ≤ len then do
      let hdr ← onImage (Image.readBlock existing)
      if hdr.slice 0 4 = snapshotMagic then
        let oldN := hdr.getU32 4
        if 0 < oldN then modifyAlloc (fun a ↦ a.freeRange existing oldN) else pure ()
      else pure ()
    else pure ()

/-- Block `i` of a snapshot of `nblocks` blocks. -/
def snapshotBlock (bytes : Bytes) (nblocks i : ℕ) : Block :=
  let blk := Buf.zero blockSize
  let blk := if i = 0 then ((blk.put 0 snapshotMagic).putU32 4 nblocks).putU32 8 bytes.length else blk
  let srcOff := i * perBlock
  if srcOff < bytes.length then
    let dst := if i = 0 then 16 else 0
    let take := min (min (bytes.length - srcOff) perBlock) (blockSize - dst)
    blk.put dst ((bytes.drop srcOff).take take)
  else blk

def writeAllocBlocks (existing : ℕ) : Exec Error AllocImage ℕ := do
  releaseSnapshot existing
  let a ← Exec.read (·.alloc)
  let nblocks := max ((a.encode.length + 64 + perBlock - 1) / perBlock) 1
  let start ← allocate nblocks
  let a ← Exec.read (·.alloc)
  let bytes := a.encode
  Exec.forEach (fun i ↦ onImage (Image.writeBlock (start + i) (snapshotBlock bytes nblocks i)))
    (List.range nblocks)
  pure start

/-- Collect the payload of the snapshot blocks from block `i` on. -/
def readSnapshot (start nbytes : ℕ) : ℕ → ℕ → Bytes → Exec Error Image Bytes
  | 0, _, acc => pure acc
  | count + 1, i, acc => do
    let blk ← Image.readBlock (start + i)
    if nbytes ≤ i * perBlock then pure acc
    else
      let take := min (nbytes - i * perBlock) perBlock
      readSnapshot start nbytes count (i + 1) (acc ++ blk.slice (if i = 0 then 16 else 0) take)

def readAllocBlocks (start : ℕ) : Exec Error Image Allocator :=
  if start = 0 then Exec.throw (Error.eio "missing allocator")
  else do
    let hdr ← Image.readBlock start
    if hdr.slice 0 4 ≠ snapshotMagic then Exec.throw (Error.eio "bad allocator header")
    else do
      let nbytes := hdr.getU32 8
      let bytes ← readSnapshot start nbytes (hdr.getU32 4) 0 []
      Exec.ofExcept (decode (bytes ++ List.replicate (nbytes - bytes.length) 0))

end Allocator

end LinuxFile
