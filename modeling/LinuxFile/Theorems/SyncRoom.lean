import LinuxFile.Library.Settled
import LinuxFile.Spec.JournalLog
import LinuxFile.Spec.Pending
import LinuxFile.Spec.Returns
import LinuxFile.Spec.TidyRuns
import LinuxFile.Theorems.DataOrder

/-!
# How much a flush can take

All inodes that wait to be persisted go into one transaction, and the transaction has to fit into the journal area as a
whole. A flush to a host that answers fails exactly when it does not. The number of waiting inodes is bounded by
nothing, and a flush that failed leaves them all waiting.
-/

namespace LinuxFile

namespace Inner

variable {s t u : Inner} {i : Inode} {ino n : ℕ}

/-! ## Nothing else ends a flush early -/

/-- The table has `n` slots, and every inode in memory is under its own number and has a slot. -/
structure Slotted (n : ℕ) (s : Inner) : Prop where
  capacity : inodeTableCapacity s.sb = n
  slots : ∀ k i, s.inodes.find? k = some i → i.ino = k ∧ k < n

theorem Sound.slotted (h : s.Sound) : Slotted (inodeTableCapacity s.sb) s where
  capacity := rfl
  slots k i hk := by
    obtain ⟨-, hlt, hino⟩ := h.inv.numbered.keys k i hk
    exact ⟨hino, hlt.trans_le h.inv.geometry.next.2⟩

theorem Slotted.congr (h : Slotted n s) (hinodes : t.inodes = s.inodes) (hsb : t.sb = s.sb) : Slotted n t where
  capacity := by rw [hsb, h.capacity]
  slots := by
    rw [hinodes]
    exact h.slots

theorem modifyInode_slotted (ino : ℕ) {f : Inode → Inode} (hf : ∀ i, (f i).ino = i.ino) :
    (modifyInode ino f).Respects (Exec.Preserves (Slotted n)) := by
  apply Exec.Respects.modify
  intro s h
  cases hmem : s.inodes.find? ino with
  | none => exact h
  | some i =>
    refine ⟨h.capacity, fun k j hj ↦ ?_⟩
    change (s.inodes.insert ino (f i)).find? k = some j at hj
    rw [KeyMap.find?_insert] at hj
    split_ifs at hj with hk
    · cases hj
      rw [hf, hk]
      exact h.slots ino i hmem
    · exact h.slots k j hj

theorem onAlloc_slotted {α : Type} (x : Exec Error AllocImage α) : (onAlloc x).Respects (Exec.Preserves (Slotted n)) :=
  .zoom fun _ _ h ↦ h.congr rfl rfl

theorem onCache_slotted {α : Type} (x : Exec Error CachedImage α) : (onCache x).Respects (Exec.Preserves (Slotted n)) :=
  .zoom fun _ _ h ↦ h.congr rfl rfl

theorem freeBlocks_slotted (start len : ℕ) : (freeBlocks start len).Respects (Exec.Preserves (Slotted n)) :=
  .modify fun _ h ↦ h.congr rfl rfl

theorem storeXattrs_slotted (i : Inode) : (storeXattrs i).Respects (Exec.Preserves (Slotted n)) := by
  unfold storeXattrs
  refine .ite (.ite (.bind (freeBlocks_slotted _ _) fun _ ↦ modifyInode_slotted _ fun _ ↦ rfl) (.pure ())) ?_
  refine .ite (.throw _) (.ite ?_ (.bind (.pure _) fun _ ↦ onCache_slotted _))
  exact .bind (onAlloc_slotted _) fun xb ↦ .bind (modifyInode_slotted _ fun _ ↦ rfl) fun _ ↦
    .bind (.pure _) fun _ ↦ onCache_slotted _

theorem storeTreeBlocks_slotted (extents : List Extent) (tree nblocks count : ℕ) : ∀ (b : ℕ) (rest : List Extent),
    (storeTreeBlocks extents tree nblocks count b rest).Respects (Exec.Preserves (Slotted n)) := by
  induction count with
  | zero => exact fun b rest ↦ .pure ()
  | succ count ih => exact fun b rest ↦ .bind (onCache_slotted _) fun _ ↦ ih _ _

theorem storeExtentTree_slotted (i : Inode) : (storeExtentTree i).Respects (Exec.Preserves (Slotted n)) := by
  unfold storeExtentTree
  refine .ite (.ite (.bind (freeBlocks_slotted _ _) fun _ ↦ modifyInode_slotted _ fun _ ↦ rfl) (.pure ())) ?_
  exact .bind (.when fun _ ↦ freeBlocks_slotted _ _) fun _ ↦ .bind (onAlloc_slotted _) fun _ ↦
    .bind (storeTreeBlocks_slotted _ _ _ _ _ _) fun _ ↦ modifyInode_slotted _ fun _ ↦ rfl

theorem storeXattrs_returns (i : Inode) : (storeXattrs i).Returns := by
  unfold storeXattrs
  have store : ∀ xb, (onCache (BlockCache.insertDirty xb (Buf.ofBytes blockSize (encodeXattrs i.xattr)))).Returns :=
    fun xb ↦ .zoom (BlockCache.insertDirty_returns _ _)
  refine .ite (.ite (.bind (.modify _) fun _ ↦ .modify _) (.pure ())) (.ite (.throw _) ?_)
  refine .ite ?_ (.bind (.pure _) fun _ ↦ store _)
  exact .bind (.zoom (Allocator.allocate_returns 1)) fun _ ↦ .bind (.modify _) fun _ ↦ .bind (.pure _) fun _ ↦ store _

theorem storeTreeBlocks_returns (extents : List Extent) (tree nblocks count : ℕ) : ∀ (b : ℕ) (rest : List Extent),
    (storeTreeBlocks extents tree nblocks count b rest).Returns := by
  induction count with
  | zero => exact fun b rest ↦ .pure ()
  | succ count ih => exact fun b rest ↦ .bind (.zoom (BlockCache.insertDirty_returns _ _)) fun _ ↦ ih _ _

theorem storeExtentTree_returns (i : Inode) : (storeExtentTree i).Returns := by
  unfold storeExtentTree
  refine .ite (.ite (.bind (.modify _) fun _ ↦ .modify _) (.pure ())) ?_
  exact .bind (.when (.modify _)) fun _ ↦ .bind (.zoom (Allocator.allocate_returns _)) fun _ ↦
    .bind (storeTreeBlocks_returns _ _ _ _ _ _) fun _ ↦ .modify _

theorem writeInodeToTable_slotted (h : Slotted n s) (hslot : i.ino < n) :
    writeInodeToTable i s ≠ .panic ∧ (writeInodeToTable i).Holds s (fun _ t ↦ Slotted n t) (fun _ _ ↦ True) := by
  have hrest : ∀ place : ℕ × ℕ, (onCache (BlockCache.getMut place.1
      (fun block ↦ block.put place.2 (i.encode.slice 0 inodeSize)))).Returns := fun place ↦
    .zoom (BlockCache.getMut_returns _ _)
  rw [← h.capacity] at hslot
  unfold writeInodeToTable
  rw [Exec.holds_bind_of_ok (growUntil_eq hslot _), Exec.bind_eq_of_ok (growUntil_eq hslot _)]
  constructor
  · exact Exec.Returns.bind (.read _) (fun sb ↦ .bind (.ofExcept _) hrest) s
  · have hkeeps : (Exec.read (·.sb) >>= fun sb ↦ Exec.ofExcept (mapInodeSlot sb i.ino) >>= fun slot ↦
        onCache (BlockCache.getMut slot.1 (fun block ↦ block.put slot.2 (i.encode.slice 0 inodeSize))) :
        Fs Unit).Respects (Exec.Preserves (Slotted n)) :=
      .bind (.read _) fun sb ↦ .bind (.ofExcept _) fun slot ↦ onCache_slotted _
    exact (hkeeps s).mono (fun _ _ ht ↦ ht h) (fun _ _ _ ↦ trivial)

theorem Slotted.getD_lt (h : Slotted n s) (ht : Slotted n t) (hmem : s.inodes.find? ino = some i) :
    ((t.inodes.find? ino).getD i).ino < n := by
  cases hfind : t.inodes.find? ino with
  | none =>
    obtain ⟨hino, hlt⟩ := h.slots ino i hmem
    rw [Option.getD_none, hino]
    exact hlt
  | some j =>
    obtain ⟨hino, hlt⟩ := ht.slots ino j hfind
    rw [Option.getD_some, hino]
    exact hlt

theorem persistInode_slotted (h : Slotted n s) (ino : ℕ) :
    persistInode ino s ≠ .panic ∧ (persistInode ino).Holds s (fun _ t ↦ Slotted n t) (fun _ _ ↦ True) := by
  unfold persistInode
  rw [Exec.holds_bind, Exec.holds_read, Exec.bind_apply, Exec.read_apply]
  cases hmem : s.inodes.find? ino with
  | none => exact ⟨Exec.Returns.pure () s, h⟩
  | some i =>
    dsimp only
    have hxattrs : (storeXattrs i).Holds s (fun _ t ↦ Slotted n t) (fun _ _ ↦ True) :=
      (storeXattrs_slotted i s).mono (fun _ _ ht ↦ ht h) (fun _ _ _ ↦ trivial)
    have htree : ∀ t, Slotted n t → (storeExtentTree i).Holds t (fun _ u ↦ Slotted n u) (fun _ _ ↦ True) :=
      fun t ht ↦ (storeExtentTree_slotted i t).mono (fun _ _ hu ↦ hu ht) (fun _ _ _ ↦ trivial)
    constructor
    · apply Exec.bind_ne_panic_of_holds (storeXattrs_returns i s) hxattrs
      intro _ t ht
      apply Exec.bind_ne_panic_of_holds (storeExtentTree_returns i t) (htree t ht)
      intro _ u hu
      rw [Exec.bind_apply, Exec.read_apply]
      exact (writeInodeToTable_slotted hu (h.getD_lt hu hmem)).1
    · apply hxattrs.bind _ (fun _ _ he ↦ he)
      intro _ t ht
      apply (htree t ht).bind _ (fun _ _ he ↦ he)
      intro _ u hu
      rw [Exec.holds_bind, Exec.holds_read]
      exact (writeInodeToTable_slotted hu (h.getD_lt hu hmem)).2

theorem persistAll_slotted (items : List ℕ) : ∀ {s : Inner}, Slotted n s →
    Exec.forEach persistInode items s ≠ .panic := by
  induction items with
  | nil => exact fun _ ↦ Exec.Returns.pure () _
  | cons k rest ih =>
    intro s h
    obtain ⟨hreturns, hkeeps⟩ := persistInode_slotted h k
    exact Exec.bind_ne_panic_of_holds hreturns hkeeps fun _ t ht ↦ ih ht

theorem writeBack_ne_panic (h : Slotted n s) (order : FlushOrder) (items : List ℕ) :
    writeBack order items s ≠ .panic := by
  have alloc : writeAllocator.Returns :=
    .bind (.read _) fun _ ↦ .bind (.modify _) fun _ ↦ .bind (.read _) fun _ ↦
      .bind (.zoom (Allocator.writeAllocBlocks_returns _)) fun _ ↦ .modify _
  have superblock : writeSuperblock.Returns :=
    .bind (.read _) fun _ ↦ .bind (.zoom (Image.writeAllAt_returns _ _)) fun _ ↦ .zoom (Image.writeBlock_returns _ _)
  have shrink : shrinkImage.Returns := .bind (.zoom Allocator.maybeShrink_returns) fun _ ↦ .modify _
  have rest : (do
      Exec.modify (fun s ↦ { s with dirtyInodes := KeyMap.empty })
      onCache (BlockCache.flush order.blocks)
      writeAllocator
      writeSuperblock
      shrinkImage
      let mode ← Exec.read (·.syncMode)
      Exec.when (mode = .full) (onImage Image.sync) : Fs Unit).Returns :=
    .bind (.modify _) fun _ ↦ .bind (.zoom (BlockCache.flush_returns _)) fun _ ↦ .bind alloc fun _ ↦
      .bind superblock fun _ ↦ .bind shrink fun _ ↦ .bind (.read _) fun _ ↦ .when (.zoom Image.hostCall_returns)
  exact Exec.bind_ne_panic (persistAll_slotted items h) fun _ t _ ↦ rest t

/-! ## The transaction -/

/-- The bytes of a transaction with `n` inodes, and the 8 bytes that `commit` keeps free behind it. -/
def transactionRoom (n : ℕ) : ℕ := 40 + (16 + inodeSize) * n

theorem dirtyTransaction_length (inodes : KeyMap Inode) (dirty : List ℕ) : ∀ (tx : Transaction),
    (∀ k ∈ dirty, ∃ i, inodes.find? k = some i) →
    (dirtyTransaction inodes tx dirty).buf.length = tx.buf.length + (16 + inodeSize) * dirty.length := by
  induction dirty with
  | nil => exact fun _ _ ↦ rfl
  | cons k rest ih =>
    intro tx hmem
    obtain ⟨i, hi⟩ := hmem k List.mem_cons_self
    have hstep : dirtyTransaction inodes tx (k :: rest) =
        dirtyTransaction inodes (tx.writeInode k (i.encode.slice 0 inodeSize)) rest := by
      unfold dirtyTransaction
      rw [List.foldl_cons, hi]
    have hbuf : (tx.writeInode k (i.encode.slice 0 inodeSize)).buf.length = tx.buf.length + (16 + inodeSize) := by
      unfold Transaction.writeInode
      rw [List.length_append, Journal.record_length, Buf.slice_length]
    rw [hstep, ih _ fun k hk ↦ hmem k (List.mem_cons_of_mem _ hk), hbuf, List.length_cons, Nat.mul_succ]
    omega

/-- The transaction of `dirty` in the state `s`. -/
def pendingTx (s : Inner) (dirty : List ℕ) : Transaction :=
  dirtyTransaction s.inodes ⟨s.journal.seq + 1, journalMagic ++ leBytes 4 opBegin ++ leBytes 8 (s.journal.seq + 1)⟩ dirty

theorem pendingTx_length {dirty : List ℕ} (hmem : ∀ k ∈ dirty, ∃ i, s.inodes.find? k = some i) :
    (pendingTx s dirty).sealed.length + 8 = transactionRoom dirty.length := by
  unfold pendingTx Transaction.sealed transactionRoom
  rw [List.length_append, List.length_append, List.length_append, dirtyTransaction_length _ _ _ hmem,
    leBytes_length, leBytes_length, leBytes_length]
  simp only [List.length_append, leBytes_length, journalMagic, List.length_cons, List.length_nil]
  omega

/-- `commit` returns if the transaction fits, unless the host fails. -/
theorem commit_fits (tx : Transaction) (sync : Bool) (d : JournalImage) : (Journal.commit tx sync).Holds d
    (fun _ _ ↦ tx.sealed.length + 8 ≤ d.journal.areaBytes)
    (fun e _ ↦ e.IsHost ∨ d.journal.areaBytes < tx.sealed.length + 8) := by
  unfold Journal.commit
  dsimp only
  rw [Exec.holds_bind, Exec.holds_read]
  split_ifs with hlarge
  · exact Or.inr hlarge
  · have hfits : tx.sealed.length + 8 ≤ d.journal.areaBytes := by omega
    rw [Exec.holds_bind, Exec.holds_modify, Exec.holds_bind, Journal.onImage, Exec.holds_zoom]
    refine (Image.writeAllAt_spec d.image _ _).mono (fun _ img _ ↦ ?_) (fun _ _ he ↦ Or.inl he.1)
    rw [Exec.holds_bind, Exec.holds_when]
    refine ⟨fun _ ↦ ?_, fun _ ↦ hfits⟩
    rw [Journal.onImage, Exec.holds_zoom]
    exact (Image.hostCall_spec _).mono (fun _ _ _ ↦ hfits) (fun _ _ he ↦ Or.inl he.1)

theorem commit_returns (tx : Transaction) (sync : Bool) : (Journal.commit tx sync).Returns :=
  .bind (.read _) fun _ ↦ .ite (.throw _) (.bind (.modify _) fun _ ↦ .bind (.zoom (Image.writeAllAt_returns _ _)) fun _ ↦
    .bind (.when (.zoom Image.hostCall_returns)) fun _ ↦ .modify _)

theorem journalDirty_overflows {dirty : List ℕ} (hmode : s.syncMode ≠ .none)
    (hseq : ¬s.journal.seq + 1 < Journal.maxSeq) : journalDirty dirty s = .panic := by
  unfold journalDirty
  rw [Exec.bind_apply, Exec.read_apply]
  dsimp only
  unfold Exec.when
  rw [if_pos hmode, Exec.bind_apply, onJournal, Exec.zoom]
  unfold Journal.beginTx
  rw [Exec.bind_apply, Exec.read_apply]
  dsimp only
  rw [if_pos (Nat.le_of_not_lt hseq)]
  rfl

theorem journalDirty_eq {dirty : List ℕ} (hmode : s.syncMode ≠ .none) (hseq : s.journal.seq + 1 < Journal.maxSeq) :
    journalDirty dirty s = onJournal (Journal.commit (pendingTx s dirty) (s.syncMode == .full))
      { s with journal := { s.journal with seq := s.journal.seq + 1 } } := by
  unfold journalDirty
  rw [Exec.bind_apply, Exec.read_apply]
  dsimp only
  unfold Exec.when
  rw [if_pos hmode, Exec.bind_apply, onJournal, Exec.zoom]
  unfold Journal.beginTx
  rw [Exec.bind_apply, Exec.read_apply]
  dsimp only
  rw [if_neg (by omega)]
  rfl

theorem journalDirty_none {dirty : List ℕ} (hmode : s.syncMode = .none) : journalDirty dirty s = .ok () s := by
  unfold journalDirty
  rw [Exec.bind_apply, Exec.read_apply]
  dsimp only
  unfold Exec.when
  rw [if_neg (not_not.mpr hmode)]
  rfl

/-- The journal takes the inodes if their transaction fits, unless the host fails. -/
theorem journalDirty_fits {dirty : List ℕ} (hmode : s.syncMode ≠ .none) (hseq : s.journal.seq + 1 < Journal.maxSeq)
    (hmem : ∀ k ∈ dirty, ∃ i, s.inodes.find? k = some i) : (journalDirty dirty).Holds s
      (fun _ _ ↦ transactionRoom dirty.length ≤ s.journal.areaBytes)
      (fun e _ ↦ e.IsHost ∨ s.journal.areaBytes < transactionRoom dirty.length) := by
  unfold Exec.Holds
  rw [journalDirty_eq hmode hseq, ← pendingTx_length hmem]
  have hcommit := commit_fits (pendingTx s dirty) (s.syncMode == .full)
    ⟨{ s.journal with seq := s.journal.seq + 1 }, s.sb, s.image⟩
  exact Exec.holds_zoom.mpr hcommit

/-- A transaction that is too large is refused before anything is written. -/
theorem journalDirty_full {dirty : List ℕ} (hmode : s.syncMode ≠ .none) (hseq : s.journal.seq + 1 < Journal.maxSeq)
    (hmem : ∀ k ∈ dirty, ∃ i, s.inodes.find? k = some i)
    (hfull : s.journal.areaBytes < transactionRoom dirty.length) :
    ∃ t, journalDirty dirty s = .err (Error.eio "journal transaction too large") t := by
  rw [journalDirty_eq hmode hseq]
  unfold onJournal Exec.zoom Journal.commit
  dsimp only
  rw [Exec.bind_apply, Exec.read_apply]
  dsimp only
  have hlarge : ({ s.journal with seq := s.journal.seq + 1 } : Journal).areaBytes <
      (pendingTx s dirty).sealed.length + 8 := by
    rw [pendingTx_length hmem]
    exact hfull
  rw [if_pos hlarge]
  exact ⟨_, rfl⟩

theorem journalDirty_ne_panic {dirty : List ℕ} (hmode : s.syncMode ≠ .none)
    (hseq : s.journal.seq + 1 < Journal.maxSeq) : journalDirty dirty s ≠ .panic := by
  rw [journalDirty_eq hmode hseq]
  exact Exec.Returns.zoom (commit_returns _ _) _

/-! ## The inodes that wait -/

theorem recordFits_of_none (h : s.recordCache = none) : s.RecordFits := by
  intro c i hc
  rw [h] at hc
  cases hc

/-- What the journal finds after the held record has been stored. -/
structure Readied (s t : Inner) : Prop where
  sound : t.Sound
  journal : t.journal = s.journal
  mode : t.syncMode = s.syncMode
  dirty : t.dirtyInodes = s.pending

theorem flushRecordCache_readies (h : s.Sound) (hflush : flushRecordCache s = .ok () t) : Readied s t := by
  have hcalm := flushRecordCache_calm.of_ok hflush
  have hempty := (flushRecordCache_flushes h).of_ok hflush
  exact ⟨hempty.sound, hcalm.journal, hcalm.syncMode, (flushRecordCache_pending h).of_ok hflush⟩

theorem Readied.mem (h : Readied s t) (order : FlushOrder) :
    ∀ k ∈ order.inodes.arrange t.dirtyInodes.keys, ∃ i, t.inodes.find? k = some i := by
  intro k hk
  rw [IterOrder.mem_arrange, KeyMap.mem_keys_iff] at hk
  exact h.sound.inv.numbered.dirty k hk

theorem Readied.length (h : Readied s t) (order : FlushOrder) :
    (order.inodes.arrange t.dirtyInodes.keys).length = s.pending.size := by
  rw [(order.inodes.perm _).length_eq, h.dirty]
  exact List.length_map _

/-- If transactions are written at all, the journal has room for that of all waiting inodes and a number for it. -/
def JournalRoom (s : Inner) : Prop :=
  s.syncMode ≠ .none → transactionRoom s.pending.size ≤ s.journal.areaBytes ∧ s.journal.seq + 1 < Journal.maxSeq

/-- The first half of a flush succeeds only when the transaction of all waiting inodes has room. -/
theorem commitDirty_needs {order : FlushOrder} {items : List ℕ} (h : s.Sound)
    (hcommit : commitDirty order s = .ok items u) : s.JournalRoom ∧ s.RecordFits := by
  unfold commitDirty at hcommit
  obtain ⟨_, t, hflush, hcommit⟩ := Exec.bind_ok_iff.mp hcommit
  rw [Exec.bind_apply, Exec.read_apply] at hcommit
  obtain ⟨_, v, hjournal, -⟩ := Exec.bind_ok_iff.mp hcommit
  have hready := flushRecordCache_readies h hflush
  refine ⟨fun hmode ↦ ?_, flushRecordCache_fits h hflush⟩
  have hmode' : t.syncMode ≠ .none := by
    rw [hready.mode]
    exact hmode
  have hseq : t.journal.seq + 1 < Journal.maxSeq := by
    by_contra hover
    rw [journalDirty_overflows hmode' hover] at hjournal
    cases hjournal
  have hroom := (journalDirty_fits hmode' hseq (hready.mem order)).of_ok hjournal
  rw [hready.length, hready.journal] at hroom
  rw [hready.journal] at hseq
  exact ⟨hroom, hseq⟩

/-- With room for the transaction the journal fails only when the host does. -/
theorem Readied.journalDirty_returns (h : Readied s t) (order : FlushOrder) (hroom : s.JournalRoom) :
    journalDirty (order.inodes.arrange t.dirtyInodes.keys) t ≠ .panic ∧
      (journalDirty (order.inodes.arrange t.dirtyInodes.keys)).Holds t (fun _ _ ↦ True) (fun e _ ↦ e.IsHost) := by
  by_cases hmode : t.syncMode = .none
  · rw [journalDirty_none hmode, Exec.holds_iff_of_ok (journalDirty_none hmode)]
    exact ⟨Exec.Returns.pure () t, trivial⟩
  · obtain ⟨hroom, hseq⟩ := hroom (by rw [← h.mode]; exact hmode)
    rw [← h.journal] at hseq
    refine ⟨journalDirty_ne_panic hmode hseq, ?_⟩
    refine (journalDirty_fits hmode hseq (h.mem order)).mono (fun _ _ _ ↦ trivial) (fun e _ he ↦ ?_)
    rw [h.length, h.journal] at he
    exact he.resolve_right (not_lt.mpr hroom)

/-- With room for the transaction the first half of a flush fails only when the host does. -/
theorem commitDirty_fits (h : s.Sound) (order : FlushOrder) (hroom : s.JournalRoom) (hrecord : s.RecordFits) :
    commitDirty order s ≠ .panic ∧ (commitDirty order).Holds s (fun _ _ ↦ True) (fun e _ ↦ e.IsHost) := by
  unfold commitDirty
  constructor
  · apply Exec.bind_ne_panic (flushRecordCache_ne_panic h hrecord)
    intro _ t hflush
    rw [Exec.bind_apply, Exec.read_apply]
    exact Exec.bind_ne_panic ((flushRecordCache_readies h hflush).journalDirty_returns order hroom).1
      fun _ v _ ↦ Exec.Returns.pure _ v
  · rw [Exec.holds_bind]
    refine Exec.holds_of_forall (fun _ t hflush ↦ ?_) (fun _ _ herr ↦ (flushRecordCache_flushes h).of_err herr)
    rw [Exec.holds_bind, Exec.holds_read]
    exact ((flushRecordCache_readies h hflush).journalDirty_returns order hroom).2.bind (fun _ _ _ ↦ trivial)
      (fun _ _ he ↦ he)

/-- A flush that succeeds had the room. -/
theorem flushAll_needs {order : FlushOrder} (h : s.Sound) (hwritable : s.writable = true)
    (hflush : flushAll order s = .ok () t) : s.JournalRoom ∧ s.RecordFits := by
  rw [flushAll_eq hwritable] at hflush
  obtain ⟨items, u, hcommit, -⟩ := Exec.bind_ok_iff.mp hflush
  exact commitDirty_needs h hcommit

/-- With the room, and attributes that fit their block, a flush to a host that answers succeeds. -/
theorem flushAll_succeeds {order : FlushOrder} (h : s.Sound) (hwritable : s.writable = true) (hroom : s.JournalRoom)
    (hrecord : s.RecordFits) (hhost : ∀ e t, flushAll order s = .err e t → ¬e.IsHost)
    (hxattrs : ∀ k n, s.node k = some n → (encodeXattrs n.xattr).length ≤ blockSize) :
    ∃ t, flushAll order s = .ok () t := by
  obtain ⟨hreturns, hfails⟩ := commitDirty_fits h order hroom hrecord
  have hpanic : flushAll order s ≠ .panic := by
    rw [flushAll_eq hwritable]
    apply Exec.bind_ne_panic hreturns
    intro items u hcommit
    obtain ⟨t, hcommits⟩ := (commitDirty_commits h order).of_ok hcommit
    exact writeBack_ne_panic (hcommits.rests.sound hcommits.emptied.sound).slotted order items
  have herror : ∀ e t, flushAll order s ≠ .err e t := by
    intro e t herr
    have hnot := hhost e t herr
    rw [flushAll_eq hwritable] at herr
    have hlast : (commitDirty order >>= writeBack order).Holds s (fun _ _ ↦ True) (fun e _ ↦ e.IsHost) := by
      rw [Exec.holds_bind]
      refine Exec.holds_of_forall (fun items u hcommit ↦ ?_) (fun _ _ herr ↦ hfails.of_err herr)
      obtain ⟨t, hcommits⟩ := (commitDirty_commits h order).of_ok hcommit
      refine (writeBack_syncs hcommits order).mono (fun _ _ _ ↦ trivial) fun _ _ he ↦ ?_
      exact he.resolve_right fun hlarge ↦ hcommits.xattrs_fit hxattrs hlarge.1
    exact hnot (hlast.of_err herr)
  cases hflush : flushAll order s with
  | ok value t => exact ⟨t, rfl⟩
  | err e t => exact absurd hflush (herror e t)
  | panic => exact absurd hflush hpanic

/-- `flush_all` to a host that answers, with attributes that fit their block, succeeds exactly when the transaction of
all waiting inodes has room in the journal and no counter overflows. -/
theorem flush_succeeds_iff {order : FlushOrder} (hs : s.Reached) (hmode : s.syncMode ≠ .none)
    (hhost : ∀ e t, flushAll order s = .err e t → ¬e.IsHost)
    (hxattrs : ∀ k n, s.node k = some n → (encodeXattrs n.xattr).length ≤ blockSize) :
    (∃ t, flushAll order s = .ok () t ∧ t.dirtyInodes = KeyMap.empty) ↔
      transactionRoom s.pending.size ≤ s.journal.areaBytes ∧ s.journal.seq + 1 < Journal.maxSeq ∧ s.RecordFits := by
  have hsound := hs.tidy.sound
  have hwritable := hs.tidy.writable
  constructor
  · rintro ⟨t, hflush, -⟩
    obtain ⟨hroom, hrecord⟩ := flushAll_needs hsound hwritable hflush
    exact ⟨(hroom hmode).1, (hroom hmode).2, hrecord⟩
  · rintro ⟨hroom, hseq, hrecord⟩
    obtain ⟨t, hflush⟩ := flushAll_succeeds hsound hwritable (fun _ ↦ ⟨hroom, hseq⟩) hrecord hhost hxattrs
    exact ⟨t, hflush, ((flushAll_syncs hsound hwritable order).of_ok hflush).2.1⟩

/-! ## Concrete runs -/

/-- Regular calls in the ordered filesystem, and a test of the state they lead to. -/
def orderedTest (ops : List Operation) (test : Inner → Bool) : Bool :=
  orderedImage.okAnd fun _ first ↦ (Exec.play Operation.exec ops first).okAnd fun calls s ↦
    (calls.all fun call ↦ call.2.regular call.1) && test s

theorem orderedTest_reached {ops : List Operation} {test : Inner → Bool} (h : orderedTest ops test = true) :
    ∃ first calls s, orderedImage = .ok () first ∧ Exec.Runs Operation.exec first calls s ∧
      calls.map Prod.snd = ops ∧ s.Reached ∧ test s = true := by
  obtain ⟨_, first, himage, hplay⟩ := Outcome.exists_of_okAnd h
  obtain ⟨calls, s, hplay, htest⟩ := Outcome.exists_of_okAnd hplay
  rw [Bool.and_eq_true] at htest
  obtain ⟨hrun, hops⟩ := Exec.runs_of_play hplay
  have hreached : s.Reached := by
    refine Reached.runs (.created himage) hrun fun call hcall ↦ ⟨?_, ?_⟩
    · exact .of_test (List.all_eq_true.mp htest.1 call hcall)
    · exact .of_returns (Exec.returns_of_play hplay call hcall)
  exact ⟨first, calls, s, himage, hrun, hops, hreached, htest.2⟩

/-- Nothing is held, no inode has attributes, and the next transaction has a number. -/
def bareState (s : Inner) : Bool :=
  decide (s.syncMode ≠ .none) && s.recordCache.isNone && decide (s.journal.seq + 1 < Journal.maxSeq) &&
    s.inodes.entries.all fun e ↦ e.2.xattr.isEmpty

structure Bare (s : Inner) : Prop where
  mode : s.syncMode ≠ .none
  record : s.recordCache = none
  seq : s.journal.seq + 1 < Journal.maxSeq
  xattrs : ∀ k n, s.node k = some n → (encodeXattrs n.xattr).length ≤ blockSize

theorem Bare.of_test (h : bareState s = true) : Bare s := by
  unfold bareState at h
  rw [Bool.and_eq_true, Bool.and_eq_true, Bool.and_eq_true, decide_eq_true_eq, decide_eq_true_eq] at h
  obtain ⟨⟨⟨hmode, hrecord⟩, hseq⟩, hxattrs⟩ := h
  refine ⟨hmode, Option.isNone_iff_eq_none.mp hrecord, hseq, fun k n hn ↦ ?_⟩
  obtain ⟨i, hi, rfl⟩ := mem_of_node hn
  have hempty := List.all_eq_true.mp hxattrs (k, i) (KeyMap.find?_eq_some_iff.mp hi)
  have hnil : i.xattr = [] := List.isEmpty_iff.mp hempty
  change (encodeXattrs i.xattr).length ≤ blockSize
  rw [hnil]
  decide

theorem Bare.pending (h : Bare s) : s.pending = s.dirtyInodes := pending_of_none h.record

theorem Bare.flushed (h : Bare s) : flushRecordCache s = .ok () s := by
  unfold flushRecordCache
  rw [Exec.bind_apply, Exec.read_apply, h.record]
  rfl

/-- A file that was just written is flushed. -/
theorem flush_succeeds_written : ∃ s t, s.Reached ∧ s.syncMode = .ordered ∧
    flushAll FlushOrder.inOrder s = .ok () t ∧ t.dirtyInodes = KeyMap.empty := by
  have htest : orderedTest writeFile (fun s ↦ bareState s && decide (s.syncMode = .ordered) &&
      decide (transactionRoom s.dirtyInodes.size ≤ s.journal.areaBytes) &&
      answered (flushAll FlushOrder.inOrder s)) = true := by
    decide +kernel
  obtain ⟨-, -, s, -, -, -, hs, htest⟩ := orderedTest_reached htest
  rw [Bool.and_eq_true, Bool.and_eq_true, Bool.and_eq_true, decide_eq_true_eq, decide_eq_true_eq] at htest
  obtain ⟨⟨⟨hbare, hmode⟩, hroom⟩, hanswers⟩ := htest
  have hbare := Bare.of_test hbare
  rw [← hbare.pending] at hroom
  have hhost : ∀ e t, flushAll FlushOrder.inOrder s = .err e t → ¬e.IsHost := by
    intro e t herr
    rcases Answers.of_test hanswers with ⟨_, u, hok⟩ | ⟨e', u, herr', hnot⟩
    · rw [hok] at herr
      cases herr
    · rw [herr'] at herr
      cases herr
      exact hnot
  obtain ⟨t, hflush, hclean⟩ := (flush_succeeds_iff hs hbare.mode hhost hbare.xattrs).mpr
    ⟨hroom, hbare.seq, recordFits_of_none hbare.record⟩
  exact ⟨s, t, hs, hmode, hflush, hclean⟩

/-- Directories in one another. -/
def nestedDirs (n : ℕ) : List Operation :=
  (List.range n).map fun k ↦ .createChild (k + 1) [0x61] (sIfdir ||| 0o755) 0 0 0 Creds.root

/-- Directories in one another, and two files in each of the first 40 directories. -/
def nestedFiles : List Operation :=
  nestedDirs 40 ++ (List.range 80).map fun k ↦
    .createChild (k / 2 + 1) [UInt8.ofNat (0x62 + k % 2)] (sIfreg ||| 0o644) 0 0 0 Creds.root

/-- More inodes wait than the journal has room for. -/
def crowded (s : Inner) : Bool :=
  bareState s && decide (s.sb.journalBlocks = 8) && decide (s.journal.areaBytes < transactionRoom s.dirtyInodes.size)

/-- Calls that leave too many inodes waiting. -/
def crowdedRun : {ops : List Operation // orderedTest ops crowded = true} := ⟨nestedFiles, by decide +kernel⟩

/-- With the smallest journal, 120 new files and directories are too many for a flush. -/
theorem flush_fails_nested : ∃ first calls s, orderedImage = .ok () first ∧
    Exec.Runs Operation.exec first calls s ∧ calls.map Prod.snd = nestedFiles ∧ s.Reached ∧
    s.syncMode ≠ .none ∧ s.sb.journalBlocks = 8 ∧
    (∀ e t, flushAll FlushOrder.inOrder s = .err e t → ¬e.IsHost) ∧
    (∀ k n, s.node k = some n → (encodeXattrs n.xattr).length ≤ blockSize) ∧
    ¬∃ t, flushAll FlushOrder.inOrder s = .ok () t := by
  obtain ⟨first, calls, s, himage, hrun, hops, hs, htest⟩ := orderedTest_reached crowdedRun.2
  unfold crowded at htest
  rw [Bool.and_eq_true, Bool.and_eq_true, decide_eq_true_eq, decide_eq_true_eq] at htest
  obtain ⟨⟨hbare, hblocks⟩, hfull⟩ := htest
  have hbare := Bare.of_test hbare
  have hready := flushRecordCache_readies hs.tidy.sound hbare.flushed
  obtain ⟨t, hjournal⟩ : ∃ t, journalDirty (FlushOrder.inOrder.inodes.arrange s.dirtyInodes.keys) s =
      .err (Error.eio "journal transaction too large") t := by
    apply journalDirty_full hbare.mode hbare.seq (hready.mem _)
    rw [hready.length, hbare.pending]
    exact hfull
  have hflush : flushAll FlushOrder.inOrder s = .err (Error.eio "journal transaction too large") t := by
    rw [flushAll_eq hs.tidy.writable, Exec.bind_apply]
    unfold commitDirty
    rw [Exec.bind_eq_of_ok hbare.flushed, Exec.bind_apply, Exec.read_apply]
    dsimp only
    rw [Exec.bind_apply, hjournal]
  refine ⟨first, calls, s, himage, hrun, hops, hs, hbare.mode, hblocks, fun e u herr ↦ ?_, hbare.xattrs, ?_⟩
  · rw [hflush] at herr
    cases herr
    exact not_false
  · rintro ⟨u, hok⟩
    rw [hflush] at hok
    cases hok

end Inner

end LinuxFile
