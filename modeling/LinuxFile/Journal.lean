import LinuxFile.Store

/-!
# Metadata journal

A transaction is a byte string: a begin record, the operations, and a commit record whose checksum
covers everything before it. `commit` writes the string into the journal area in one piece;
`replay` reads the area from its start and accepts transactions until the first record that does
not parse.
-/

namespace LinuxFile

structure Journal where
  startBlock : ℕ
  blocks : ℕ
  seq : ℕ
  /-- Byte offset within the journal area. -/
  head : ℕ

structure Transaction where
  seq : ℕ
  buf : Bytes

/-- The journal with the superblock and the image it writes. -/
structure JournalImage where
  journal : Journal
  sb : Superblock
  image : Image

/-- `JRNL`. -/
def journalMagic : Bytes := [0x4A, 0x52, 0x4E, 0x4C]

def opBegin : ℕ := 1
def opInode : ℕ := 2
def opBlock : ℕ := 3
def opCommit : ℕ := 4

namespace Transaction

/-- One operation record: kind, key, length and payload. -/
def record (op key : ℕ) (raw : Bytes) : Bytes :=
  leBytes 4 op ++ leBytes 8 key ++ leBytes 4 raw.length ++ raw

def writeInode (tx : Transaction) (ino : ℕ) (raw : Bytes) : Transaction :=
  { tx with buf := tx.buf ++ record opInode ino raw }

def writeBlock (tx : Transaction) (block : ℕ) (data : Bytes) : Transaction :=
  { tx with buf := tx.buf ++ record opBlock block data }

/-- The transaction with its commit record and checksum. -/
def sealed (tx : Transaction) : Bytes :=
  let buf := tx.buf ++ leBytes 4 opCommit ++ leBytes 8 tx.seq
  buf ++ leBytes 4 (Crc.crc32 buf).toNat

end Transaction

namespace Journal

def new (sb : Superblock) : Journal where
  startBlock := Superblock.journalStart
  blocks := sb.journalBlocks
  seq := sb.journalSeq
  head := sb.journalHead

def areaBytes (j : Journal) : ℕ := j.blocks * blockSize

/-- The largest sequence number. -/
def maxSeq : ℕ := 2 ^ 64

def beginTx : Exec Error JournalImage Transaction := do
  let j ← Exec.read (·.journal)
  -- the counter is a 64-bit number and its increment is checked
  if maxSeq ≤ j.seq + 1 then Exec.abort
  else do
    Exec.modify (fun d ↦ { d with journal := { d.journal with seq := j.seq + 1 } })
    pure ⟨j.seq + 1, journalMagic ++ leBytes 4 opBegin ++ leBytes 8 (j.seq + 1)⟩

def onImage {α : Type} (x : Exec Error Image α) : Exec Error JournalImage α :=
  Exec.zoom (·.image) (fun img d ↦ { d with image := img }) x

/-- Where the next transaction of `need` bytes starts. -/
def nextHead (j : Journal) (need : ℕ) : ℕ := if j.areaBytes < j.head + need then 0 else j.head

/-- 32-bit addition that stops at the largest number. -/
def saturatingAdd32 (a b : ℕ) : ℕ := min (a + b) (2 ^ 32 - 1)

def commit (tx : Transaction) (sync : Bool) : Exec Error JournalImage Unit := do
  let bytes := tx.sealed
  let need := bytes.length + 8
  let j ← Exec.read (·.journal)
  if j.areaBytes < need then Exec.throw (Error.eio "journal transaction too large")
  else do
    Exec.modify (fun d ↦ { d with journal := { d.journal with head := j.nextHead need } })
    onImage (Image.writeAllAt bytes (j.startBlock * blockSize + j.nextHead need))
    Exec.when (sync = true) (onImage Image.syncData)
    Exec.modify (fun d ↦
      let head := saturatingAdd32 (j.nextHead need) (bytes.length % 2 ^ 32)
      { d with
        journal := { d.journal with head := head }
        sb := { d.sb with
          journalSeq := d.journal.seq
          journalHead := head
          journalTail := head
          journalCommitted := d.journal.seq } })

/-! ## Replay -/

inductive Op where
  | inode (ino : ℕ) (data : Bytes)
  | block (block : ℕ) (data : Bytes)
  deriving DecidableEq, Repr

/-- The operations of one transaction. `rest` is the journal area from the next record on, `seen`
the transaction's bytes before it. Gives the operations and the area after the commit record. -/
def parseOps (seq : ℕ) : ℕ → Bytes → Bytes → List Op → Option (List Op × Bytes)
  | 0, _, _, _ => none
  | fuel + 1, seen, rest, ops =>
    if rest.length < 4 then none
    else
      let op := leNat (rest.take 4)
      if op = opInode ∨ op = opBlock then
        if rest.length < 16 then none
        else
          let key := leNat ((rest.drop 4).take 8)
          let n := leNat ((rest.drop 12).take 4)
          if rest.length < 16 + n then none
          else
            let data := (rest.drop 16).take n
            parseOps seq fuel (seen ++ rest.take (16 + n)) (rest.drop (16 + n))
              (ops ++ [if op = opInode then .inode key data else .block key data])
      else if op = opCommit then
        if rest.length < 16 then none
        else if leNat ((rest.drop 4).take 8) ≠ seq then none
        else if (Crc.crc32 (seen ++ rest.take 12)).toNat ≠ leNat ((rest.drop 12).take 4) then none
        else some (ops, rest.drop 16)
      else none

/-- The transactions `replay` accepts, in the order it applies them. -/
def parseTxs (committed : ℕ) : ℕ → Bytes → List (List Op)
  | 0, _ => []
  | fuel + 1, rest =>
    if rest.length < 16 then []
    else if rest.take 4 ≠ journalMagic then []
    else if leNat ((rest.drop 4).take 4) ≠ opBegin then []
    else
      let seq := leNat ((rest.drop 8).take 8)
      if seq = 0 ∨ committed < seq then []
      else
        match parseOps seq (rest.length + 1) (rest.take 16) (rest.drop 16) [] with
        | none => []
        | some (ops, rest) => ops :: parseTxs committed fuel rest

/-- Apply one record: whole-block payloads are written, inode records are not. -/
def applyOp : Op → Exec Error Image Unit
  | .block b data =>
    if data.length = blockSize then Image.writeBlock b (Buf.ofBytes blockSize data) else pure ()
  | .inode _ _ => pure ()

def replay (sb : Superblock) : Exec Error Image ℕ :=
  let area := sb.journalBlocks * blockSize
  if area = 0 then pure 0
  else do
    let buf ← Image.readExactAt (Superblock.journalStart * blockSize) area
    let txs := parseTxs sb.journalCommitted (area + 1) buf
    Exec.forEach (fun ops ↦ Exec.forEach applyOp ops) txs
    pure txs.length

end Journal

end LinuxFile
