import LinuxFile.Spec.JournalLog
import LinuxFile.Spec.Remount

/-!
# Runs of the journal

A client begins a transaction, writes its records and commits it. A commit that succeeds puts the transaction's
bytes at the head of the journal area, or at its start when the rest of the area is too short, and touches nothing
else. The transactions written since the head last went back to the start stand in front of the head; what stands
behind it was written before.
-/

namespace LinuxFile

open Journal

namespace Transaction

/-- One call of `write_inode` or `write_block`. -/
def write (tx : Transaction) : Op → Transaction
  | .inode ino data => tx.writeInode ino data
  | .block b data => tx.writeBlock b data

theorem foldl_write (ops : List Op) (tx : Transaction) :
    ops.foldl write tx = { tx with buf := tx.buf ++ encodeOps ops } := by
  induction ops generalizing tx with
  | nil =>
    change tx = { tx with buf := tx.buf ++ [] }
    rw [List.append_nil]
  | cons op ops ih =>
    have hwrite : tx.write op = { tx with buf := tx.buf ++ op.encode } := by
      cases op <;> rfl
    rw [List.foldl_cons, ih, hwrite, encodeOps_cons, ← List.append_assoc]

end Transaction

namespace Image

/-- The bytes of a stretch of the file. -/
def stretch (img : Image) (off n : ℕ) : Bytes := (List.range' off n).map img.bytes

theorem stretch_length (img : Image) (off n : ℕ) : (img.stretch off n).length = n := by
  simp [stretch]

theorem stretch_add (img : Image) (off m n : ℕ) :
    img.stretch off (m + n) = img.stretch off m ++ img.stretch (off + m) n := by
  unfold stretch
  rw [← List.map_append, List.range'_append_1]

theorem stretch_congr {img img' : Image} {off n : ℕ} (h : ∀ i, off ≤ i → i < off + n → img'.bytes i = img.bytes i) :
    img'.stretch off n = img.stretch off n := by
  apply List.map_congr_left
  intro i hi
  rw [List.mem_range'_1] at hi
  exact h i hi.1 hi.2

theorem Wrote.stretch {img img' : Image} {off : ℕ} {data : Bytes} (h : Wrote off data img img') :
    img'.stretch off data.length = data := by
  unfold Image.stretch
  apply List.ext_getElem (by simp)
  intro i hi hdata
  have hbyte : img'.bytes (off + i) = data.getD i 0 := by
    rw [h.bytes, if_pos ⟨Nat.le_add_right _ _, by omega⟩, Nat.add_sub_cancel_left]
  rw [List.getElem_map, List.getElem_range', Nat.one_mul, hbyte, List.getD_eq_getElem _ _ hdata]

theorem Wrote.grown {a b c : Image} {off : ℕ} {data : Bytes} (h : Wrote off data a b) (hgrown : Grown b c) :
    Wrote off data a c :=
  ⟨fun i ↦ by rw [hgrown.bytes]; exact h.bytes i, h.len_le.trans hgrown.len_le, h.end_le.trans hgrown.len_le,
    hgrown.ok ∘ h.ok, hgrown.host.trans h.host⟩

end Image

namespace Journal

/-! ## The area -/

theorem areaOf_length (img : Image) (sb : Superblock) : (areaOf img sb).length = sb.journalBlocks * blockSize :=
  Image.stretch_length _ _ _

/-- The area after a write into it. -/
theorem areaOf_wrote {img img' : Image} {sb : Superblock} {off : ℕ} {data : Bytes}
    (h : Image.Wrote (Superblock.journalStart * blockSize + off) data img img')
    (hend : off + data.length ≤ sb.journalBlocks * blockSize) :
    areaOf img' sb = (areaOf img sb).take off ++ data ++ (areaOf img sb).drop (off + data.length) := by
  set start := Superblock.journalStart * blockSize
  obtain ⟨tail, htail⟩ := Nat.exists_eq_add_of_le hend
  have hsplit : ∀ i : Image, areaOf i sb =
      i.stretch start off ++ i.stretch (start + off) data.length ++ i.stretch (start + (off + data.length)) tail := by
    intro i
    change i.stretch start _ = _
    rw [htail, Image.stretch_add, Image.stretch_add]
  have hfront : img'.stretch start off = img.stretch start off := by
    apply Image.stretch_congr
    intro i _ hi
    rw [h.bytes, if_neg (by omega)]
  have hback : img'.stretch (start + (off + data.length)) tail = img.stretch (start + (off + data.length)) tail := by
    apply Image.stretch_congr
    intro i hi _
    rw [h.bytes, if_neg (by omega)]
  have htake : (areaOf img sb).take off = img.stretch start off := by
    rw [hsplit, List.append_assoc]
    exact List.take_left' (Image.stretch_length _ _ _)
  have hdrop : (areaOf img sb).drop (off + data.length) = img.stretch (start + (off + data.length)) tail := by
    rw [hsplit]
    apply List.drop_left'
    rw [List.length_append, Image.stretch_length, Image.stretch_length]
  rw [hsplit img', hfront, h.stretch, hback, htake, hdrop]

/-! ## One commit -/

theorem nextHead_le {j : Journal} {need : ℕ} (h : need ≤ j.areaBytes) : j.nextHead need + need ≤ j.areaBytes := by
  unfold nextHead
  split_ifs <;> omega

/-- The journal and the superblock after a commit at `head`. -/
structure Committed (tx : Transaction) (head : ℕ) (d d' : JournalImage) : Prop where
  wrote : Image.Wrote (d.journal.startBlock * blockSize + head) tx.sealed d.image d'.image
  journal : d'.journal = { d.journal with head := saturatingAdd32 head (tx.sealed.length % 2 ^ 32) }
  blocks : d'.sb.journalBlocks = d.sb.journalBlocks
  committed : d'.sb.journalCommitted = d.journal.seq

theorem commit_spec (tx : Transaction) (sync : Bool) (d : JournalImage) :
    (commit tx sync).Holds d
      (fun _ d' ↦ tx.sealed.length + 8 ≤ d.journal.areaBytes ∧
        Committed tx (d.journal.nextHead (tx.sealed.length + 8)) d d')
      (fun _ d' ↦ d'.image.bytes = d.image.bytes ∨ tx.sealed.length + 8 ≤ d.journal.areaBytes ∧
        Image.Wrote (d.journal.startBlock * blockSize + d.journal.nextHead (tx.sealed.length + 8)) tx.sealed d.image
          d'.image) := by
  unfold commit
  dsimp only
  rw [Exec.holds_bind, Exec.holds_read]
  set need := tx.sealed.length + 8
  split_ifs with hlarge
  · exact Or.inl rfl
  rw [Exec.holds_bind, Exec.holds_modify, Exec.holds_bind, onImage, Exec.holds_zoom]
  apply (Image.writeAllAt_spec d.image _ _).mono _ (fun _ _ hfailed ↦ Or.inl hfailed.2.bytes)
  intro _ img hwrote
  have hsync : (Exec.when (sync = true) (onImage Image.syncData)).Holds
      { d with journal := { d.journal with head := d.journal.nextHead need }, image := img }
      (fun _ u ↦ ∃ img', Image.Grown img img' ∧
        u = { d with journal := { d.journal with head := d.journal.nextHead need }, image := img' })
      (fun _ u ↦ Image.Grown img u.image) := by
    rw [Exec.holds_when, onImage, Exec.holds_zoom]
    refine ⟨fun _ ↦ (Image.hostCall_spec img).mono ?_ (fun _ _ hfailed ↦ hfailed.2), fun _ ↦ ⟨img, .refl img, rfl⟩⟩
    intro _ img' hanswer
    obtain ⟨faults, rfl⟩ := hanswer
    exact ⟨_, Image.Grown.faults img faults, rfl⟩
  rw [Exec.holds_bind]
  apply hsync.mono
  · intro _ u hu
    obtain ⟨img', hgrown, rfl⟩ := hu
    rw [Exec.holds_modify]
    exact ⟨by omega, hwrote.grown hgrown, rfl, rfl, rfl⟩
  · intro _ u hu
    exact Or.inr ⟨by omega, hwrote.grown hu⟩

/-- The bytes of transactions committed one after another. -/
def encodeLog (log : List (ℕ × List Op)) : Bytes := log.flatMap fun tx ↦ encodeTx tx.1 tx.2

theorem encodeLog_cons (tx : ℕ × List Op) (log : List (ℕ × List Op)) :
    encodeLog (tx :: log) = encodeTx tx.1 tx.2 ++ encodeLog log := rfl

theorem encodeLog_append (log more : List (ℕ × List Op)) :
    encodeLog (log ++ more) = encodeLog log ++ encodeLog more := List.flatMap_append

theorem encodeLog_singleton (tx : ℕ × List Op) : encodeLog [tx] = encodeTx tx.1 tx.2 := List.flatMap_singleton _ _

theorem length_le_encodeLog (log : List (ℕ × List Op)) : log.length ≤ (encodeLog log).length := by
  induction log with
  | nil => exact Nat.le_refl _
  | cons tx log ih =>
    rw [encodeLog_cons, List.length_append, encodeTx_length, List.length_cons]
    omega

/-- A transaction that replay takes. -/
def Acceptable (committed : ℕ) (tx : ℕ × List Op) : Prop :=
  (0 < tx.1 ∧ tx.1 ≤ committed) ∧ ∀ op ∈ tx.2, op.Fits

/-- The parser accepts a log and goes on behind it. -/
theorem acceptedTxs_log {committed : ℕ} (hcommitted : committed < 2 ^ 64) (rest : Bytes) :
    ∀ (log : List (ℕ × List Op)) (fuel : ℕ), (∀ tx ∈ log, Acceptable committed tx) →
      acceptedTxs committed (log.length + fuel) (encodeLog log ++ rest) = log ++ acceptedTxs committed fuel rest
  | [], fuel, _ => by
    rw [List.length_nil, Nat.zero_add]
    rfl
  | tx :: log, fuel, h => by
    have htx := h tx List.mem_cons_self
    have hleads : Leads committed (encodeLog (tx :: log) ++ rest) tx.1 tx.2 (encodeLog log ++ rest) :=
      ⟨htx.1, htx.2, by rw [encodeLog_cons, List.append_assoc]⟩
    have hrest := acceptedTxs_log hcommitted rest log fuel fun t ht ↦ h t (List.mem_cons_of_mem _ ht)
    have hfuel : (tx :: log).length + fuel = log.length + fuel + 1 := by
      rw [List.length_cons]
      omega
    rw [hfuel, acceptedTxs_encode (htx.1.2.trans_lt hcommitted) hleads, hrest]
    rfl

/-- A committed transaction stands at the start of the bytes. -/
def Stands (committed : ℕ) (area : Bytes) : Prop := ∃ seq ops rest, Leads committed area seq ops rest

theorem acceptedTxs_nil {committed : ℕ} {area : Bytes} (h : ¬Stands committed area) (fuel : ℕ) :
    acceptedTxs committed fuel area = [] := by
  cases haccepted : acceptedTxs committed fuel area with
  | nil => rfl
  | cons tx txs =>
    obtain ⟨seq, ops⟩ := tx
    obtain ⟨rest, _, _, hleads, _⟩ := acceptedTxs_cons haccepted
    exact absurd ⟨seq, ops, rest, hleads⟩ h

/-- No transaction stands in an area of zeros. -/
theorem not_stands_zeros (committed n : ℕ) : ¬Stands committed (List.replicate n 0) := by
  intro ⟨seq, ops, rest, hleads⟩
  have hzeros := hleads.2.2
  rw [encodeTx_append] at hzeros
  have hmem : (0x4A : UInt8) ∈ List.replicate n (0 : UInt8) := by
    rw [hzeros]
    apply List.mem_append_left
    simp [encodeBegin, journalMagic]
  exact absurd (List.eq_of_mem_replicate hmem) (by decide)

/-- Committed transactions that stand one behind the other at the start of the bytes. -/
inductive Standing (committed : ℕ) : Bytes → List (ℕ × List Op) → Prop
  | nil (area : Bytes) : Standing committed area []
  | cons {area rest : Bytes} {seq : ℕ} {ops : List Op} {txs : List (ℕ × List Op)}
      (h : Leads committed area seq ops rest) (hrest : Standing committed rest txs) :
      Standing committed area ((seq, ops) :: txs)

theorem standing_acceptedTxs (committed : ℕ) : ∀ (fuel : ℕ) (area : Bytes),
    Standing committed area (acceptedTxs committed fuel area)
  | 0, area => .nil area
  | fuel + 1, area => by
    cases haccepted : acceptedTxs committed (fuel + 1) area with
    | nil => exact .nil area
    | cons tx txs =>
      obtain ⟨seq, ops⟩ := tx
      obtain ⟨rest, fuel', hfuel, hleads, rfl⟩ := acceptedTxs_cons haccepted
      rw [← Nat.succ.inj hfuel]
      exact .cons hleads (standing_acceptedTxs committed fuel rest)

/-- The parser accepts all of them. -/
theorem Standing.accepted {committed : ℕ} (hcommitted : committed < 2 ^ 64) {area : Bytes} {txs : List (ℕ × List Op)}
    (h : Standing committed area txs) : ∀ {fuel : ℕ}, area.length < fuel → txs <+: acceptedTxs committed fuel area := by
  induction h with
  | nil => exact fun _ ↦ List.nil_prefix
  | @cons area rest seq ops txs h _ ih =>
    intro fuel hfuel
    have hlen : area.length = (encodeOps ops).length + 32 + rest.length := by
      rw [h.2.2, List.length_append, encodeTx_length]
    obtain ⟨more, rfl⟩ := Nat.exists_eq_add_of_le' (by omega : 1 ≤ fuel)
    rw [acceptedTxs_encode (h.1.2.trans_lt hcommitted) h, List.cons_prefix_cons]
    exact ⟨rfl, ih (by omega)⟩

/-- The numbers of the committed transactions that stand one behind the other at the start of the bytes, if any do,
increase from `n` on. -/
def Climbs (committed n : ℕ) (area : Bytes) : Prop :=
  ∀ txs, Standing committed area txs → (n :: txs.map Prod.fst).Pairwise (· < ·)

theorem climbs_iff {committed n fuel : ℕ} {area : Bytes} (hcommitted : committed < 2 ^ 64) (hfuel : area.length < fuel) :
    Climbs committed n area ↔ (n :: (acceptedTxs committed fuel area).map Prod.fst).Pairwise (· < ·) := by
  refine ⟨fun h ↦ h _ (standing_acceptedTxs committed fuel area), fun h txs htxs ↦ ?_⟩
  have hmap := (htxs.accepted hcommitted hfuel).map Prod.fst
  exact h.sublist (hmap.sublist.cons_cons n)

theorem climbs_zeros (committed n m : ℕ) : Climbs committed n (List.replicate m 0) := by
  intro txs htxs
  cases htxs with
  | nil => exact List.pairwise_singleton _ _
  | cons h _ => exact absurd ⟨_, _, _, h⟩ (not_stands_zeros committed m)

/-! ## Transactions one after another -/

/-- A record's key is a 64-bit number. -/
def Op.Keyed : Op → Prop
  | .inode ino _ => ino < 2 ^ 64
  | .block b _ => b < 2 ^ 64

/-- The length of a transaction with these records. -/
def txLength (ops : List Op) : ℕ := (encodeOps ops).length + 32

/-- Where its commit would put it. -/
def nextPlace (d : JournalImage) (ops : List Op) : ℕ := d.journal.nextHead (txLength ops + 8)

theorem fits_of_encodeOps {ops : List Op} (hkeyed : ∀ op ∈ ops, op.Keyed) (h : (encodeOps ops).length < 2 ^ 32) :
    ∀ op ∈ ops, op.Fits := by
  induction ops with
  | nil => exact List.forall_mem_nil _
  | cons op ops ih =>
    rw [encodeOps_cons, List.length_append] at h
    have hlen : op.encode.length = 16 + op.parts.2.2.length := by rw [op.encode_parts, record_length]
    have hop := hkeyed op List.mem_cons_self
    intro o ho
    rcases List.mem_cons.mp ho with rfl | ho
    · cases o with
      | inode ino data => exact ⟨hop, by change _ = 16 + data.length at hlen; omega⟩
      | block b data => exact ⟨hop, by change _ = 16 + data.length at hlen; omega⟩
    · exact ih (fun o ho ↦ hkeyed o (List.mem_cons_of_mem _ ho)) (by omega) o ho

/-- What the commit of the transaction with this number does to the journal. -/
structure TookTx (seq : ℕ) (ops : List Op) (d d' : JournalImage) : Prop where
  room : txLength ops + 8 ≤ d.journal.areaBytes
  wrote : Image.Wrote (d.journal.startBlock * blockSize + nextPlace d ops) (encodeTx seq ops) d.image d'.image
  journal : d'.journal = { d.journal with head := saturatingAdd32 (nextPlace d ops) (txLength ops % 2 ^ 32) }
  blocks : d'.sb.journalBlocks = d.sb.journalBlocks
  committed : d'.sb.journalCommitted = d.journal.seq

theorem sealed_eq (seq : ℕ) (ops : List Op) :
    (⟨seq, encodeBegin seq ++ encodeOps ops⟩ : Transaction).sealed = encodeTx seq ops := by
  unfold Transaction.sealed encodeTx encodeBody encodeEnd checksum
  simp only [List.append_assoc]

theorem commit_ok {sync : Bool} {seq : ℕ} {ops : List Op} {d d' : JournalImage}
    (h : commit ⟨seq, encodeBegin seq ++ encodeOps ops⟩ sync d = .ok () d') : TookTx seq ops d d' := by
  obtain ⟨hroom, hcommitted⟩ := (commit_spec _ sync _).of_ok h
  have hwrote := hcommitted.wrote
  have hjournal := hcommitted.journal
  rw [sealed_eq, encodeTx_length] at hroom hjournal
  rw [sealed_eq, encodeTx_length] at hwrote
  exact ⟨hroom, hwrote, hjournal, hcommitted.blocks, hcommitted.committed⟩

/-- The journal in which one more transaction is begun. -/
def afterBegin (d : JournalImage) : JournalImage :=
  { d with journal := { d.journal with seq := d.journal.seq + 1 } }

theorem beginTx_ok {d d' : JournalImage} {tx : Transaction} (h : beginTx d = .ok tx d') :
    d.journal.seq + 1 < maxSeq ∧ tx = ⟨d.journal.seq + 1, encodeBegin (d.journal.seq + 1)⟩ ∧
      d' = afterBegin d := by
  unfold beginTx at h
  rw [Exec.bind_apply, Exec.read_apply] at h
  dsimp only at h
  split_ifs at h with hcounter
  · cases h
  · cases h
    exact ⟨by omega, rfl, rfl⟩

/-- The log stands in front of the head. -/
structure Holding (log : List (ℕ × List Op)) (d : JournalImage) : Prop where
  start : d.journal.startBlock = Superblock.journalStart
  blocks : d.journal.blocks = d.sb.journalBlocks
  head : d.journal.head = (encodeLog log).length
  front : (areaOf d.image d.sb).take d.journal.head = encodeLog log
  acceptable : ∀ tx ∈ log, Acceptable d.sb.journalCommitted tx ∧ tx.1 ≤ d.journal.seq
  counter : d.journal.seq < maxSeq ∧ d.sb.journalCommitted < maxSeq

variable {log : List (ℕ × List Op)} {seq : ℕ} {ops : List Op} {d d' : JournalImage}

/-- Where a transaction of a journal goes: behind the log, or to the start of the area. -/
theorem nextPlace_eq (d : JournalImage) (ops : List Op) :
    nextPlace d ops = d.journal.head ∨ nextPlace d ops = 0 := by
  unfold nextPlace nextHead
  split_ifs
  · exact Or.inr rfl
  · exact Or.inl rfl

/-- The log a transaction leaves in front of the head. -/
def extended (log : List (ℕ × List Op)) (d : JournalImage) (seq : ℕ) (ops : List Op) : List (ℕ × List Op) :=
  (if nextPlace d ops = d.journal.head then log else []) ++ [(seq, ops)]

theorem Holding.took (h : Holding log d) (hkeyed : ∀ op ∈ ops, op.Keyed) (hpos : 0 < seq) (hle : seq ≤ d.journal.seq)
    (htx : TookTx seq ops d d') (hend : nextPlace d ops + txLength ops < 2 ^ 32) :
    Holding (extended log d seq ops) d' ∧ d'.journal.head = nextPlace d ops + txLength ops ∧
      (areaOf d'.image d'.sb).drop d'.journal.head = (areaOf d.image d.sb).drop d'.journal.head := by
  set place := nextPlace d ops with hplace
  have hlen : (encodeTx seq ops).length = txLength ops := encodeTx_length _ _
  have hinside : place + (encodeTx seq ops).length ≤ d.sb.journalBlocks * blockSize := by
    have hle := nextHead_le htx.room
    have harea : d.journal.areaBytes = d.sb.journalBlocks * blockSize := by
      unfold areaBytes
      rw [h.blocks]
    have hunfold : place = d.journal.nextHead (txLength ops + 8) := rfl
    omega
  have hhead : d'.journal.head = place + (encodeTx seq ops).length := by
    rw [htx.journal]
    change saturatingAdd32 place _ = _
    unfold saturatingAdd32
    omega
  have harea : areaOf d'.image d'.sb =
      (areaOf d.image d.sb).take place ++ encodeTx seq ops ++ (areaOf d.image d.sb).drop d'.journal.head := by
    have hwrote := htx.wrote
    rw [h.start] at hwrote
    rw [hhead, ← areaOf_wrote hwrote hinside]
    unfold areaOf
    rw [htx.blocks]
  -- what stands before the transaction: the log, or nothing
  have hbefore : (areaOf d.image d.sb).take place = encodeLog (if place = d.journal.head then log else []) := by
    split_ifs with hsame
    · rw [hsame]
      exact h.front
    · rw [hplace, (nextPlace_eq d ops).resolve_left hsame]
      rfl
  have hfront : (areaOf d.image d.sb).take place ++ encodeTx seq ops = encodeLog (extended log d seq ops) := by
    unfold extended
    rw [hbefore, encodeLog_append, encodeLog_singleton]
  have hplaceLen : ((areaOf d.image d.sb).take place).length = place := by
    rw [List.length_take, areaOf_length]
    omega
  have hlogLen : (encodeLog (extended log d seq ops)).length = d'.journal.head := by
    rw [← hfront, List.length_append, hplaceLen, hhead]
  have hold : ∀ tx ∈ (if place = d.journal.head then log else []),
      Acceptable d.sb.journalCommitted tx ∧ tx.1 ≤ d.journal.seq := by
    split_ifs
    · exact h.acceptable
    · exact List.forall_mem_nil _
  refine ⟨⟨?_, ?_, hlogLen.symm, ?_, ?_, ?_⟩, by rw [hhead, hlen], ?_⟩
  · rw [htx.journal]
    exact h.start
  · rw [htx.journal, htx.blocks]
    exact h.blocks
  · rw [harea, hfront]
    exact List.take_left' hlogLen
  · rw [htx.committed, htx.journal]
    intro tx hmem
    rcases List.mem_append.mp hmem with hmem | hmem
    · obtain ⟨hacceptable, hle⟩ := hold tx hmem
      exact ⟨⟨⟨hacceptable.1.1, hle⟩, hacceptable.2⟩, hle⟩
    · rw [List.mem_singleton.mp hmem]
      have hshort : (encodeOps ops).length < 2 ^ 32 := by
        unfold txLength at hend
        omega
      exact ⟨⟨⟨hpos, hle⟩, fits_of_encodeOps hkeyed hshort⟩, hle⟩
  · rw [htx.committed, htx.journal]
    exact ⟨h.counter.1, h.counter.1⟩
  · rw [harea, hfront, List.drop_left' hlogLen]

/-- A transaction that is begun uses up a number. -/
theorem Holding.begun (h : Holding log d) (hcounter : d.journal.seq + 1 < maxSeq) : Holding log (afterBegin d) :=
  ⟨h.start, h.blocks, h.head, h.front, fun tx hmem ↦ ⟨(h.acceptable tx hmem).1,
    (h.acceptable tx hmem).2.trans (Nat.le_succ _)⟩, hcounter, h.counter.2⟩

/-- What replay accepts: the log, and then what stands behind the head. -/
theorem Holding.accepted (h : Holding log d) {committed : ℕ} (hle : ∀ tx ∈ log, tx.1 ≤ committed)
    (hcommitted : committed < 2 ^ 64) : ∃ fuel, ((areaOf d.image d.sb).drop d.journal.head).length < fuel ∧
      acceptedTxs committed (d.sb.journalBlocks * blockSize + 1) (areaOf d.image d.sb) =
        log ++ acceptedTxs committed fuel ((areaOf d.image d.sb).drop d.journal.head) := by
  have hsplit : areaOf d.image d.sb = encodeLog log ++ (areaOf d.image d.sb).drop d.journal.head := by
    rw [← h.front, List.take_append_drop]
  have hlog := length_le_encodeLog log
  have hlen : (encodeLog log).length + ((areaOf d.image d.sb).drop d.journal.head).length =
      d.sb.journalBlocks * blockSize := by
    rw [← List.length_append, ← hsplit, areaOf_length]
  obtain ⟨fuel, hfuel⟩ := Nat.exists_eq_add_of_le (by omega : log.length ≤ d.sb.journalBlocks * blockSize)
  refine ⟨fuel + 1, by omega, ?_⟩
  conv_lhs => rw [hsplit]
  rw [hfuel, Nat.add_assoc]
  apply acceptedTxs_log hcommitted
  intro tx hmem
  have hacceptable := (h.acceptable tx hmem).1
  exact ⟨⟨hacceptable.1.1, hle tx hmem⟩, hacceptable.2⟩

/-- A journal that has taken no transaction. -/
structure Fresh (d : JournalImage) : Prop where
  start : d.journal.startBlock = Superblock.journalStart
  blocks : d.journal.blocks = d.sb.journalBlocks
  head : d.journal.head = 0
  zeroed : areaOf d.image d.sb = List.replicate (d.sb.journalBlocks * blockSize) 0
  counter : d.journal.seq < maxSeq ∧ d.sb.journalCommitted < maxSeq

theorem Fresh.holding (h : Fresh d) : Holding [] d where
  start := h.start
  blocks := h.blocks
  head := h.head
  front := by rw [h.head]; rfl
  acceptable := List.forall_mem_nil _
  counter := h.counter

/-! ## A host that refuses nothing -/

/-- The journal's image with all its answers to come, the area inside the file. -/
structure Served (d : JournalImage) : Prop where
  faults : d.image.faults = []
  writable : d.image.hostWritable = true
  inside : (d.journal.startBlock + d.journal.blocks) * blockSize ≤ d.image.len

end Journal

namespace Journal

/-- What the commit of the transaction with this number leaves when the host answers. -/
def afterCommit (d : JournalImage) (seq : ℕ) (ops : List Op) : JournalImage :=
  let head := saturatingAdd32 (nextPlace d ops) (txLength ops % 2 ^ 32)
  { journal := { d.journal with head := head }
    sb := { d.sb with
      journalSeq := d.journal.seq
      journalHead := head
      journalTail := head
      journalCommitted := d.journal.seq }
    image := d.image.writeBytes (d.journal.startBlock * blockSize + nextPlace d ops) (encodeTx seq ops) }

theorem beginTx_answers (hcounter : d.journal.seq + 1 < maxSeq) :
    beginTx d = .ok ⟨d.journal.seq + 1, encodeBegin (d.journal.seq + 1)⟩ (afterBegin d) := by
  unfold beginTx
  rw [Exec.bind_apply, Exec.read_apply]
  dsimp only
  rw [if_neg (by omega)]
  rfl

theorem commit_answers (h : Served d) (sync : Bool) (seq : ℕ) (hroom : txLength ops + 8 ≤ d.journal.areaBytes) :
    commit ⟨seq, encodeBegin seq ++ encodeOps ops⟩ sync d = .ok () (afterCommit d seq ops) ∧
      Served (afterCommit d seq ops) := by
  have hlength : (encodeTx seq ops).length = txLength ops := encodeTx_length _ _
  have hplace : nextPlace d ops + txLength ops ≤ d.journal.areaBytes := by
    have hle := nextHead_le hroom
    have hunfold : nextPlace d ops = d.journal.nextHead (txLength ops + 8) := rfl
    omega
  have hinside : d.journal.startBlock * blockSize + nextPlace d ops + (encodeTx seq ops).length ≤ d.image.len := by
    have hlen := h.inside
    have harea : (d.journal.startBlock + d.journal.blocks) * blockSize =
        d.journal.startBlock * blockSize + d.journal.areaBytes := Nat.add_mul _ _ _
    omega
  have hwrite := Image.writeAllAt_answers h.faults h.writable hinside
  refine ⟨?_, h.faults, h.writable, h.inside⟩
  unfold commit
  dsimp only
  rw [sealed_eq, hlength, Exec.bind_apply, Exec.read_apply]
  dsimp only
  rw [if_neg (by omega), Exec.bind_apply, Exec.modify_apply]
  dsimp only
  have hwritten : ∀ journal sb, onImage (Image.writeAllAt (encodeTx seq ops)
      (d.journal.startBlock * blockSize + nextPlace d ops)) ⟨journal, sb, d.image⟩ = .ok () ⟨journal, sb,
        d.image.writeBytes (d.journal.startBlock * blockSize + nextPlace d ops) (encodeTx seq ops)⟩ := by
    intro journal sb
    unfold onImage Exec.zoom
    dsimp only
    rw [hwrite]
  have hsync : ∀ journal sb off data,
      Exec.when (sync = true) (onImage Image.syncData) ⟨journal, sb, d.image.writeBytes off data⟩ =
        .ok () ⟨journal, sb, d.image.writeBytes off data⟩ := by
    intro journal sb off data
    have himage : (d.image.writeBytes off data).faults = [] := h.faults
    cases sync with
    | false => rfl
    | true =>
      change onImage Image.hostCall _ = _
      unfold onImage Exec.zoom
      dsimp only
      rw [Image.hostCall_answers himage]
  apply (Exec.bind_eq_of_ok (hwritten _ _)).trans
  apply (Exec.bind_eq_of_ok (hsync _ _ _ _)).trans
  rfl

end Journal

end LinuxFile
