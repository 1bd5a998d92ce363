import LinuxFile.Spec.JournalRuns
import LinuxFile.Theorems.Sample

/-!
# What replay takes back

Transactions committed into an empty journal area, as long as the area is not filled, are what replay reads: the same
transactions in the same order, of which it writes the whole blocks. Once a commit has gone back to the start of the
area, older transactions stand behind the new ones. Replay goes on into them whenever the end of the newest
transaction falls on the start of an old one, and then applies an older transaction after a newer one.
-/

namespace LinuxFile

namespace Journal

/-! ## Writing back -/

/-- The block a record gives back. -/
def Op.wholeBlock : Op → Option (ℕ × Bytes)
  | .inode _ _ => none
  | .block b data => if data.length = blockSize then some (b, data) else none

/-- The whole blocks of transactions, in their order. -/
def wholeBlocks (txs : List (List Op)) : List (ℕ × Bytes) := txs.flatten.filterMap Op.wholeBlock

/-- Write a block back. -/
def writeBack (block : ℕ × Bytes) : Exec Error Image Unit :=
  Image.writeBlock block.1 (Buf.ofBytes blockSize block.2)

theorem applyOp_eq (op : Op) : applyOp op = Exec.forEach writeBack op.wholeBlock.toList := by
  cases op with
  | inode ino data => rfl
  | block b data =>
    unfold applyOp Op.wholeBlock
    dsimp only
    split_ifs
    · exact (bind_pure (writeBack (b, data))).symm
    · rfl

theorem forEach_applyOp (ops : List Op) : Exec.forEach applyOp ops = Exec.forEach writeBack (ops.filterMap Op.wholeBlock) := by
  induction ops with
  | nil => rfl
  | cons op ops ih =>
    have hsplit : (op :: ops).filterMap Op.wholeBlock = op.wholeBlock.toList ++ ops.filterMap Op.wholeBlock := by
      rw [List.filterMap_cons]
      cases op.wholeBlock <;> rfl
    rw [hsplit, Exec.forEach_append, ← applyOp_eq, ← ih]
    rfl

theorem forEach_txs (txs : List (List Op)) :
    Exec.forEach (fun ops ↦ Exec.forEach applyOp ops) txs = Exec.forEach writeBack (wholeBlocks txs) := by
  induction txs with
  | nil => rfl
  | cons ops txs ih =>
    have hsplit : wholeBlocks (ops :: txs) = ops.filterMap Op.wholeBlock ++ wholeBlocks txs := by
      unfold wholeBlocks
      rw [List.flatten_cons, List.filterMap_append]
    rw [hsplit, Exec.forEach_append, ← forEach_applyOp, ← ih]
    rfl

/-- Read the journal area, write these blocks back and answer a number. -/
def restore (sb : Superblock) (blocks : List (ℕ × Bytes)) (count : ℕ) : Exec Error Image ℕ :=
  let area := sb.journalBlocks * blockSize
  if area = 0 then pure 0
  else do
    let _ ← Image.readExactAt (Superblock.journalStart * blockSize) area
    Exec.forEach writeBack blocks
    pure count

/-- The transactions `replay` accepts, with their sequence numbers. -/
def accepted (img : Image) (sb : Superblock) : List (ℕ × List Op) :=
  acceptedTxs sb.journalCommitted (sb.journalBlocks * blockSize + 1) (areaOf img sb)

/-- `replay` writes back the blocks of the transactions it accepts, and counts them. -/
theorem replay_eq (img : Image) (sb : Superblock) : replay sb img =
    restore sb (wholeBlocks ((accepted img sb).map Prod.snd)) (accepted img sb).length img := by
  unfold replay restore
  dsimp only
  split_ifs with harea
  · rfl
  rw [Exec.bind_apply, Exec.bind_apply]
  cases hread : Image.readExactAt (Superblock.journalStart * blockSize) (sb.journalBlocks * blockSize) img with
  | ok buf img' =>
    obtain ⟨rfl, -⟩ := (Image.readExactAt_spec img _ _).of_ok hread
    dsimp only
    change (do Exec.forEach _ (parseTxs _ _ (areaOf img sb)); pure (parseTxs _ _ (areaOf img sb)).length) img' = _
    rw [parseTxs_eq, forEach_txs, List.length_map]
    rfl
  | err e img' => rfl
  | panic => rfl

/-! ## Transactions committed into an empty area -/

/-- A record with a key the source takes: a 64-bit inode number, or a block number whose byte offset is a 64-bit
number. -/
def Op.Typed : Op → Prop
  | .inode ino _ => ino < 2 ^ 64
  | .block b _ => b < 2 ^ 52

theorem Op.Typed.keyed {op : Op} (h : op.Typed) : op.Keyed := by
  cases op with
  | inode ino data => exact h
  | block b data => exact Nat.lt_trans (show b < 2 ^ 52 from h) (by norm_num)

/-- Transactions with the numbers they get. -/
def numbered : ℕ → List (List Op) → List (ℕ × List Op)
  | _, [] => []
  | seq, ops :: txs => (seq + 1, ops) :: numbered (seq + 1) txs

theorem length_replicate_record (n ino size : ℕ) :
    (encodeOps (List.replicate n (Op.inode ino (List.replicate size 0)))).length = n * (16 + size) := by
  induction n with
  | zero => simp [encodeOps]
  | succ n ih =>
    rw [List.replicate_succ, encodeOps_cons, List.length_append, ih, Nat.succ_mul, Nat.add_comm]
    congr 1
    change (Transaction.record _ _ _).length = _
    rw [record_length, List.length_replicate]

theorem fresh_of_zeros {d : JournalImage} (hstart : d.journal.startBlock = Superblock.journalStart)
    (hblocks : d.journal.blocks = d.sb.journalBlocks) (hhead : d.journal.head = 0) (hbytes : ∀ i, d.image.bytes i = 0)
    (hcounter : d.journal.seq < maxSeq ∧ d.sb.journalCommitted < maxSeq) : Fresh d where
  start := hstart
  blocks := hblocks
  head := hhead
  zeroed := by
    rw [List.eq_replicate_iff]
    refine ⟨areaOf_length _ _, fun b hb ↦ ?_⟩
    obtain ⟨i, -, rfl⟩ := List.mem_map.mp hb
    exact hbytes i
  counter := hcounter

/-- The journal of a new image of eighteen blocks, eight of them the journal's. -/
def sampleJournal : JournalImage :=
  let sb := (Inner.blank sampleOptions sampleEnv (Buf.zero 16) []).sb
  ⟨Journal.new sb, sb, (Image.fresh []).setLenBytes (18 * blockSize)⟩

theorem sampleJournal_fresh : Fresh sampleJournal :=
  fresh_of_zeros rfl rfl rfl (fun _ ↦ ite_self _) ⟨by decide, by decide⟩

theorem sampleJournal_served : Served sampleJournal := ⟨rfl, rfl, by decide⟩

/-- The records of one inode and of one block. -/
def inodeAndBlock : List Op := [.inode 2 (List.replicate inodeSize 0), .block 17 (List.replicate blockSize 7)]

theorem inodeAndBlock_length : txLength inodeAndBlock = 4416 := by
  have hrecords : encodeOps inodeAndBlock = Transaction.record opInode 2 (List.replicate inodeSize 0) ++
      (Transaction.record opBlock 17 (List.replicate blockSize 7) ++ []) := rfl
  unfold txLength
  rw [hrecords, List.append_nil, List.length_append, record_length, record_length, List.length_replicate,
    List.length_replicate]
  rfl

theorem inodeAndBlock_typed : ∀ op ∈ inodeAndBlock, op.Typed := by
  intro op hop
  simp only [inodeAndBlock, List.mem_cons, List.not_mem_nil, or_false] at hop
  rcases hop with rfl | rfl
  · exact (by decide : 2 < 2 ^ 64)
  · exact (by decide : 17 < 2 ^ 52)

end Journal

end LinuxFile
