import LinuxFile.Inner.Table

/-!
# File data

Raw files map logical blocks to image blocks one by one; files that compress work on records of
`recordBlocks` blocks, with the last record touched held back in `recordCache`. The loops over a
byte range run over its `Chunk`s. Giving back blocks only changes the allocator, so the loops that
split extents are stated as two lists: what is kept and what is freed.
-/

namespace LinuxFile

/-- The kind of an inode with these extents. -/
def kindOf (extents : List Extent) : DataKind :=
  if maxDirectExtents < extents.length then .extentTree else .extents

/-- 512-byte sectors held by the extents. -/
def sectorsOf (extents : List Extent) : ℕ :=
  (extents.map (fun e ↦ e.physLen * (blockSize / 512))).sum

/-- Stable sort by logical block. -/
def sortByLogical (extents : List Extent) : List Extent :=
  extents.insertionSort (fun a b ↦ a.logical ≤ b.logical)

/-- Block `i` of a byte string that is padded with zeros. -/
def dataBlock (data : Bytes) (i : ℕ) : Block :=
  Buf.ofBytes blockSize ((data.drop (i * blockSize)).take blockSize)

/-! ## Splitting extents -/

/-- The parts of an extent outside the logical range `[start, stop)`. A compressed extent is never
split. -/
def punchKeep (start stop : ℕ) (ext : Extent) : List Extent :=
  if ext.logicalEnd ≤ start ∨ stop ≤ ext.logical then [ext]
  else if ext.isCompressed then []
  else
    (if ext.logical < start then
      [Extent.withPhys ext.logical ext.physical (start - ext.logical) (start - ext.logical) 0]
    else []) ++
    (if stop < ext.logicalEnd then
      [Extent.withPhys stop (ext.physical + (stop - ext.logical)) (ext.logicalEnd - stop)
        (ext.logicalEnd - stop) 0]
    else [])

/-- The blocks given back when `[start, stop)` is cut out of an extent. -/
def punchFree (start stop : ℕ) (ext : Extent) : List (ℕ × ℕ) :=
  if ext.logicalEnd ≤ start ∨ stop ≤ ext.logical then []
  else if ext.isCompressed then [(ext.physical, ext.physLen)]
  else
    let mid0 := max start ext.logical
    let mid1 := min stop ext.logicalEnd
    if mid0 < mid1 then [(ext.physical + (mid0 - ext.logical), mid1 - mid0)] else []

/-- The part of a raw extent below logical block `firstDrop`. -/
def cutKeep (firstDrop : ℕ) (ext : Extent) : List Extent :=
  if ext.logicalEnd ≤ firstDrop then [ext]
  else if firstDrop ≤ ext.logical then []
  else
    [Extent.withPhys ext.logical ext.physical (firstDrop - ext.logical) (firstDrop - ext.logical) 0]

/-- The blocks given back when an extent is cut at `firstDrop`. -/
def cutFree (firstDrop : ℕ) (ext : Extent) : List (ℕ × ℕ) :=
  if ext.logicalEnd ≤ firstDrop then []
  else if firstDrop ≤ ext.logical then [(ext.physical, ext.physLen)]
  else [(ext.physical + (firstDrop - ext.logical), ext.length - (firstDrop - ext.logical))]

/-- The blocks of whole extents. -/
def extentRanges (extents : List Extent) : List (ℕ × ℕ) :=
  extents.map (fun e ↦ (e.physical, e.physLen))

namespace Inner

/-- Free ranges of blocks one after the other. -/
def freeRanges (ranges : List (ℕ × ℕ)) : Fs Unit :=
  Exec.modify (fun s ↦
    { s with alloc := ranges.foldl (fun a r ↦ a.freeRange r.1 r.2) s.alloc })

/-! ## Extents of an inode -/

def mapFileBlock (inode : Inode) (logical : ℕ) : Option ℕ := mapExtents inode.extents logical

/-- Whether a raw extent continues the last one, in the file and in the image. -/
def continues (last ext : Extent) : Bool :=
  ext.compress == 0 && ext.physLength == ext.length && last.compress == 0 &&
    last.logicalEnd == ext.logical && last.physical + last.physLen == ext.physical

/-- The extent list after `ext` has been added. -/
def appendExtent (extents : List Extent) (ext : Extent) : Fs (List Extent) :=
  match extents.getLast? with
  | some last =>
    if continues last ext then do
      let length ← addU32 last.length ext.length
      let physLength ←
        if last.physLength ≠ 0 then addU32 last.physLength ext.physLength else pure last.physLength
      pure (extents.dropLast ++ [{ last with length := length, physLength := physLength }])
    else pure (sortByLogical (extents ++ [ext]))
  | none => pure (sortByLogical (extents ++ [ext]))

def addExtent (ino : ℕ) (ext : Extent) : Fs Unit := do
  let inode ← getInode ino
  let extents ← appendExtent inode.extents ext
  getInodeMut ino (fun i ↦ { i with extents := extents, dataKind := kindOf extents })

def writePhysicalBytes (phys : ℕ) (data : Bytes) : Fs Unit :=
  Exec.forEach (fun i ↦ onCache (BlockCache.insertDirty (phys + i) (dataBlock data i)))
    (List.range (max (ceilBlocks data.length) 1))

/-- Move inline data to a block of its own. -/
def promoteInline (ino : ℕ) : Fs Unit := do
  let inode ← getInode ino
  if inode.dataKind ≠ .inline then pure ()
  else if inode.inlineData = [] then
    getInodeMut ino (fun i ↦ { i with dataKind := .extents, inlineData := [] })
  else do
    let needBlocks := max (ceilBlocks inode.inlineData.length) 1
    let phys ← onAlloc (Allocator.allocate needBlocks)
    writePhysicalBytes phys inode.inlineData
    getInodeMut ino (fun i ↦
      { i with
        inlineData := []
        dataKind := .extents
        extents := []
        blocks := needBlocks * (blockSize / 512) })
    let length := needBlocks % u32Limit
    addExtent ino (Extent.withPhys 0 phys length length 0)

/-- The block behind a logical block, allocated if there is none. Its contents are whatever the
image block held. -/
def allocateLogical (ino logical : ℕ) : Fs ℕ := do
  let inode ← getInode ino
  match mapFileBlock inode logical with
  | some phys => pure phys
  | none => do
    Exec.when (inode.dataKind = .inline) (promoteInline ino)
    let phys ← onAlloc (Allocator.allocate 1)
    addExtent ino (Extent.withPhys logical phys 1 1 0)
    getInodeMut ino (fun i ↦ { i with blocks := i.blocks + blockSize / 512 })
    pure phys

def punchLogicalRange (ino start stop : ℕ) : Fs Unit :=
  if stop ≤ start then pure ()
  else do
    let inode ← getInode ino
    freeRanges (inode.extents.flatMap (punchFree start stop))
    let kept := sortByLogical (inode.extents.flatMap (punchKeep start stop))
    getInodeMut ino (fun i ↦
      { i with extents := kept, blocks := sectorsOf kept, dataKind := kindOf kept })

/-! ## Records -/

def recordBytes (s : Inner) : ℕ := s.recordBlocks * blockSize

def invalidateRecordCache (ino : ℕ) : Fs Unit :=
  Exec.modify (fun s ↦
    { s with recordCache := s.recordCache.filter (fun c ↦ c.ino ≠ ino) })

/-- The header and payload of a compressed record, padded to whole blocks. -/
def recordImage (hdr : RecordHeader) (payload : Bytes) : Bytes :=
  resizeBytes (hdr.encode.slice 0 headerSize ++ payload) (hdr.physBlocks * blockSize)

def storeRecord (ino record : ℕ) (data : Bytes) : Fs Unit := do
  let recBlocks ← Exec.read (·.recordBlocks)
  let logical := record * recBlocks
  if data.all (· == 0) then punchLogicalRange ino logical (logical + recBlocks)
  else do
    let logicalLen := max (ceilBlocks data.length) 1
    let inode ← getInode ino
    let env ← Exec.read (·.env)
    let packed := tryCompress env.lz4 (Compression.fromU8 inode.compression) data
    if packed.1.isOff then do
      let phys ← onAlloc (Allocator.allocate logicalLen)
      writePhysicalBytes phys data
      punchLogicalRange ino logical (logical + recBlocks)
      addExtent ino (Extent.withPhys logical phys logicalLen logicalLen 0)
    else do
      let hdr : RecordHeader := {
        algo := packed.1
        logicalBlocks := logicalLen
        payloadLen := packed.2.length
        uncompressedLen := data.length
        crc := Crc.crc32 packed.2 }
      let phys ← onAlloc (Allocator.allocate hdr.physBlocks)
      writePhysicalBytes phys (recordImage hdr packed.2)
      punchLogicalRange ino logical (logical + recBlocks)
      addExtent ino (Extent.withPhys logical phys logicalLen hdr.physBlocks packed.1.asU8)
      getInodeMut ino (fun i ↦ { i with flags := i.flags ||| flagCompressed })
    getInodeMut ino (fun i ↦ { i with blocks := sectorsOf i.extents })

/-- Write back the record held in memory. It leaves the cache first. -/
def flushRecordCache : Fs Unit := do
  let held ← Exec.read (·.recordCache)
  match held with
  | none => pure ()
  | some c => do
    Exec.modify (fun s ↦ { s with recordCache := none })
    if c.dirty then storeRecord c.ino c.record c.data else pure ()

/-- The bytes of `count` consecutive blocks. -/
def readBlocks (phys : ℕ) : ℕ → Fs Bytes
  | 0 => pure []
  | count + 1 => do
    let block ← onCache (BlockCache.get phys)
    let rest ← readBlocks (phys + 1) count
    pure (block.slice 0 blockSize ++ rest)

def readCompressedExtent (ext : Extent) : Fs Bytes := do
  let raw ← readBlocks ext.physical (max ext.physLen 1)
  let hdr ← Exec.ofOption (Error.eio "bad compressed record")
    (RecordHeader.parse (Buf.ofBytes raw.length raw))
  if raw.length < headerSize + hdr.payloadLen then
    Exec.throw (Error.eio "compressed record truncated")
  else
    let payload := (raw.drop headerSize).take hdr.payloadLen
    if Crc.crc32 payload ≠ hdr.crc then
      Exec.throw (Error.eio "compressed record checksum mismatch")
    else do
      let env ← Exec.read (·.env)
      Exec.ofExcept (decompress env.lz4 hdr.algo payload hdr.uncompressedLen)

/-! ## Raw reads and writes -/

/-- Copy the chunks of a raw file; an unmapped block reads as zeros. -/
def readChunks (inode : Inode) : List Chunk → Fs Bytes
  | [] => pure []
  | c :: rest => do
    let part ← match mapFileBlock inode c.index with
      | some phys => do
        let block ← onCache (BlockCache.get phys)
        pure (block.slice c.within c.len)
      | none => pure (List.replicate c.len 0)
    let tail ← readChunks inode rest
    pure (part ++ tail)

/-- `inline_data[start..start + n]`; a range past the end ends the operation. -/
def inlineSlice (inode : Inode) (start n : ℕ) : Fs Bytes :=
  if inode.inlineData.length < start + n then Exec.abort
  else pure ((inode.inlineData.drop start).take n)

/-- The bytes `read_data_raw` copies into a buffer of `count` bytes. -/
def readDataRaw (ino offset count : ℕ) : Fs Bytes := do
  let inode ← getInode ino
  if inode.size ≤ offset then pure []
  else
    let n := min (inode.size - offset) count
    if inode.dataKind = .inline then
      if n = 0 then pure [] else inlineSlice inode offset n
    else readChunks inode (Chunk.list blockSize offset n)

/-- Write one chunk of a raw file. -/
def writeChunk (ino : ℕ) (buf : Bytes) (c : Chunk) : Fs Unit := do
  let phys ← allocateLogical ino c.index
  onCache (BlockCache.getMut phys (fun block ↦ block.put c.within ((buf.drop c.done).take c.len)))

def writeDataRaw (ino offset : ℕ) (buf : Bytes) : Fs Unit :=
  if buf = [] then pure ()
  else do
    let inode ← getInode ino
    Exec.when (inode.dataKind = .inline) (promoteInline ino)
    Exec.forEach (writeChunk ino buf) (Chunk.list blockSize offset buf.length)

/-! ## Reads and writes through the record cache -/

def loadRecord (ino record : ℕ) : Fs Bytes := do
  let s ← Exec.get
  let logical := record * s.recordBlocks
  let inode ← getInode ino
  let fromBlocks : Fs Bytes :=
    let fileOff := logical * blockSize
    if fileOff < inode.size then do
      let data ← readDataRaw ino fileOff (min (inode.size - fileOff) s.recordBytes)
      pure (resizeBytes data s.recordBytes)
    else pure (List.replicate s.recordBytes 0)
  match inode.extents.find? (fun e ↦ e.containsLogical logical) with
  | some ext =>
    if ext.isCompressed then do
      let data ← readCompressedExtent ext
      pure (resizeBytes data s.recordBytes)
    else fromBlocks
  | none => fromBlocks

/-- The record, from the cache or loaded into it. -/
def cachedRecord (ino record : ℕ) : Fs Bytes := do
  let held ← Exec.read (·.recordCache)
  match held.filter (fun c ↦ c.ino == ino && c.record == record) with
  | some c => pure c.data
  | none => do
    flushRecordCache
    let data ← loadRecord ino record
    Exec.modify (fun s ↦ { s with recordCache := some ⟨ino, record, data, false⟩ })
    pure data

/-- Write one chunk of a record; the record becomes dirty. -/
def writeRecordChunk (ino : ℕ) (buf : Bytes) (c : Chunk) : Fs Unit := do
  let data ← cachedRecord ino c.index
  let need := c.within + c.len
  let data := if data.length < need then resizeBytes data need else data
  let data := overwriteBytes data c.within ((buf.drop c.done).take c.len)
  Exec.modify (fun s ↦ { s with recordCache := some ⟨ino, c.index, data, true⟩ })

def writeDataCompressed (ino offset : ℕ) (buf : Bytes) : Fs Unit := do
  let recBytes ← Exec.read recordBytes
  Exec.forEach (writeRecordChunk ino buf) (Chunk.list recBytes offset buf.length)

/-- Copy the chunks of a compressed file; a record that is too short reads as zeros at its end. -/
def readRecordChunks (ino : ℕ) : List Chunk → Fs Bytes
  | [] => pure []
  | c :: rest => do
    let data ← cachedRecord ino c.index
    let part := resizeBytes ((data.drop c.within).take c.len) c.len
    let tail ← readRecordChunks ino rest
    pure (part ++ tail)

/-- The bytes `read_data` copies into a buffer of `count` bytes. -/
def readData (ino offset count : ℕ) : Fs Bytes := do
  let inode ← getInode ino
  if inode.size ≤ offset then pure []
  else
    let n := min (inode.size - offset) count
    if n = 0 then pure []
    else if inode.dataKind = .inline then inlineSlice inode offset n
    else if inode.usesCompression then do
      let recBytes ← Exec.read recordBytes
      readRecordChunks ino (Chunk.list recBytes offset n)
    else readDataRaw ino offset count

/-! ## Writing and truncating files -/

/-- Raise the size to `stop` after a write that ended there. -/
def extendSize (now : Timespec) (stop : ℕ) (i : Inode) : Inode :=
  { i with size := max stop i.size }.touchMtime now

/-- A write that stays inline. -/
def writeInline (now : Timespec) (offset : ℕ) (buf : Bytes) (i : Inode) : Inode :=
  let data :=
    if i.inlineData.length < offset + buf.length then resizeBytes i.inlineData (offset + buf.length)
    else i.inlineData
  extendSize now (offset + buf.length) { i with inlineData := overwriteBytes data offset buf }

/-- Store inline data that a write has made too long as records. -/
def spillInline (ino offset : ℕ) (buf : Bytes) (inode : Inode) : Fs Unit := do
  let s ← Exec.get
  let stop := offset + buf.length
  let full :=
    if inode.inlineData.length < stop then resizeBytes inode.inlineData stop else inode.inlineData
  let full := overwriteBytes full offset buf
  getInodeMut ino (fun i ↦
    extendSize s.env.now stop { i with inlineData := [], dataKind := .extents })
  Exec.forEach
    (fun c ↦ storeRecord ino c.index ((full.drop c.done).take c.len))
    (Chunk.list s.recordBytes 0 full.length)

def writeData (ino offset : ℕ) (buf : Bytes) : Fs ℕ := do
  requireWrite
  if buf = [] then pure 0
  else if maxFileSize < offset + buf.length then Exec.throw (Error.fromErrno Error.EFBIG)
  else do
    let stop := offset + buf.length
    let inode ← getInode ino
    let now ← Exec.read (·.env.now)
    if inode.dataKind = .inline ∧ stop ≤ inlineMax ∧ inode.extents = [] then
      getInodeMut ino (writeInline now offset buf)
    else if inode.usesCompression then
      if inode.dataKind = .inline then spillInline ino offset buf inode
      else do
        writeDataCompressed ino offset buf
        getInodeMut ino (extendSize now stop)
    else do
      Exec.when (inode.dataKind = .inline) (promoteInline ino)
      writeDataRaw ino offset buf
      getInodeMut ino (extendSize now stop)
    pure buf.length

/-- Shrink a compressed file to no bytes. -/
def clearCompressed (ino : ℕ) (inode : Inode) (now : Timespec) : Fs Unit := do
  freeRanges (extentRanges inode.extents)
  getInodeMut ino (fun i ↦
    { i with extents := [], size := 0, blocks := 0, dataKind := .inline, inlineData := [] }.touchMtime
      now)

/-- Shrink a compressed file to `newSize` bytes: the last record is stored again, the records after
it are given back. -/
def shrinkCompressed (ino newSize : ℕ) (now : Timespec) : Fs Unit := do
  let s ← Exec.get
  let lastRec := (newSize - 1) / s.recordBytes
  let recStart := lastRec * s.recordBlocks
  let keep := newSize - recStart * blockSize
  let data ← loadRecord ino lastRec
  storeRecord ino lastRec (data.take keep)
  punchLogicalRange ino (recStart + s.recordBlocks) ((2 ^ 64 - 1) / 2)
  getInodeMut ino (fun i ↦ { i with size := newSize }.touchMtime now)

/-- Shrink a raw file to `newSize` bytes: whole blocks past the end are given back. -/
def shrinkRaw (ino newSize : ℕ) (inode : Inode) (now : Timespec) : Fs Unit := do
  let firstDrop := ceilBlocks newSize
  freeRanges (inode.extents.flatMap (cutFree firstDrop))
  let kept := inode.extents.flatMap (cutKeep firstDrop)
  getInodeMut ino (fun i ↦
    { i with extents := kept, size := newSize, blocks := sectorsOf kept }.touchMtime now)

/-- A small file with at most one extent goes back to inline data. -/
def demoteInline (ino newSize : ℕ) (now : Timespec) : Fs Unit := do
  let inode ← getInode ino
  if newSize ≤ inlineMax ∧ inode.extents.length ≤ 1 then do
    let data ← readData ino 0 newSize
    flushRecordCache
    let inode ← getInode ino
    freeRanges (extentRanges inode.extents)
    getInodeMut ino (fun i ↦
      { i with
        extents := []
        dataKind := .inline
        inlineData := resizeBytes data newSize
        blocks := 0 }.touchMtime now)
  else pure ()

def truncateData (ino newSize : ℕ) : Fs Unit := do
  requireWrite
  if maxFileSize < newSize then Exec.throw (Error.fromErrno Error.EFBIG)
  else do
    flushRecordCache
    let inode ← getInode ino
    let now ← Exec.read (·.env.now)
    if newSize = inode.size then pure ()
    else if inode.dataKind = .inline then
      getInodeMut ino (fun i ↦
        { i with inlineData := resizeBytes i.inlineData newSize, size := newSize }.touchMtime now)
    else if newSize < inode.size then
      if inode.usesCompression then
        if newSize = 0 then clearCompressed ino inode now
        else do
          shrinkCompressed ino newSize now
          demoteInline ino newSize now
      else do
        shrinkRaw ino newSize inode now
        demoteInline ino newSize now
    else getInodeMut ino (fun i ↦ { i with size := newSize }.touchMtime now)

def setInodeCompression (ino : ℕ) (compression : Compression) : Fs Unit := do
  requireWrite
  flushRecordCache
  let now ← Exec.read (·.env.now)
  getInodeMut ino (fun i ↦
    { i with
      compression := compression.asU8
      flags := if compression.isOff then i.flags else i.flags ||| flagCompressed }.touchCtime now)

end Inner

end LinuxFile
