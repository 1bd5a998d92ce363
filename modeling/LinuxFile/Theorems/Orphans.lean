import LinuxFile.Spec.Remount
import LinuxFile.Theorems.Ownership

/-!
# Files without a name that were open when the image was closed

The set of inodes that are kept only for their open files is not stored. Such an inode is written to its slot like
any other, and the scan of the next mount takes every slot that decodes for an inode in use.
-/

namespace LinuxFile

open Ledger

namespace Inner

variable {s t m : Inner} {k : ℕ} {i j : Inode}

/-- The opened filesystem `m` has given back what the inode held in `t`. -/
structure Reclaimed (t m : Inner) (k : ℕ) : Prop where
  slots : ∀ ino phys off i, mapInodeSlot m.sb ino = .ok (phys, off) →
    Inode.decode ino ((m.disk.view phys).sub off inodeSize) = .ok i → i.nlink ≠ 0
  number : k ∈ m.freeInodes
  blocks : ∀ order u, flushAll order m = .ok () u → ∀ i, t.inodes.find? k = some i →
    ∀ b, 0 < cover (extentRanges i.extents) b → u.alloc.totalBlocks ≤ b ∨ 0 < cover u.alloc.free.entries b

theorem regular_mode_ne_zero {mode : UInt16} (h : mode &&& sIfmt = sIfreg) : mode ≠ 0 := by
  rintro rfl
  revert h
  decide

/-- A flush keeps the mode and the links of an inode. -/
theorem syncs_inode (h : Syncs s t) (hi : s.inodes.find? k = some i) :
    ∃ j, t.inodes.find? k = some j ∧ j.mode = i.mode ∧ j.nlink = i.nlink := by
  obtain ⟨bytes, hnode, -⟩ := h.some k i hi
  obtain ⟨j, hj, hsame⟩ := mem_of_node hnode
  exact ⟨j, hj, (congrArg Node.mode hsame).symm, (congrArg Node.nlink hsame).symm⟩

/-- An inode without links is found in its slot, or its slot is not found. -/
theorem Flat.not_reclaimed (h : t.Flat) {img rest : Image} (himage : Image.SameFile t.image img) {writable : Bool}
    {cacheBlocks : ℕ} {sync : SyncMode} {env : Env}
    (hopen : openImage writable cacheBlocks sync env img = .ok m rest) (hi : t.inodes.find? k = some i)
    (hmode : i.mode ≠ 0) (hlinks : i.nlink = 0) : ¬Reclaimed t m k := by
  intro hrec
  obtain ⟨base, hm, htable, -⟩ := h.reopened himage hopen
  have hcapacity := (mem_scannedNumbers.mp (hm.free k hrec.number)).2.2
  obtain ⟨phys, off, hplace, hslot⟩ := h.slot himage hm htable hi hcapacity
  have hino : i.ino = k := (h.tidy.sound.inv.numbered.keys k i hi).2.2
  have hdecode : Inode.decode k i.encode = .ok i.stored := hino ▸ Inode.decode_encode hmode
  apply hrec.slots k phys off i.stored hplace (by rw [hslot, hdecode])
  change i.nlink % 2 ^ 32 = 0
  rw [hlinks, Nat.zero_mod]

/-- A regular file in use that has no name when the filesystem is flushed, so one that is open, is never reclaimed
by opening the image again. -/
theorem nameless_open_file_stays {order : FlushOrder} {img rest : Image} {writable : Bool} {cacheBlocks : ℕ}
    {sync : SyncMode} {env : Env} (hs : s.Reached) (hi : s.inodes.find? k = some i)
    (hfile : i.mode &&& sIfmt = sIfreg) (hlinks : i.nlink = 0)
    (hflush : flushAll order s = .ok () t) (hjournal : Journal.Inert t.image t.sb)
    (himage : Image.SameFile t.image img) (hopen : openImage writable cacheBlocks sync env img = .ok m rest) :
    ¬Reclaimed t m k := by
  obtain ⟨hsync, -⟩ := (flushAll_syncs hs.tidy.sound hs.tidy.writable order).of_ok hflush
  obtain ⟨j, hj, hmode, hnlink⟩ := syncs_inode hsync hi
  apply (hs.tidy.flat hflush hjournal).not_reclaimed himage hopen hj
  · rw [hmode]
    exact regular_mode_ne_zero hfile
  · rw [hnlink]
    exact hlinks

/-- A file is written, opened, and its only name removed. -/
def unlinkOpen : List Operation :=
  [.createChild rootIno [0x61] (sIfreg ||| 0o644) 0 0 0 Creds.root, .writeData 2 200 [1, 2, 3], .incOpen 2,
    .unlinkName rootIno [0x61] false Creds.root]

/-- A filesystem whose flushed image can be opened again; the flushed filesystem passes a test. -/
def reopenSample (s : Inner) (test : Inner → Bool) : Bool :=
  (flushAll FlushOrder.inOrder s).okAnd fun _ t ↦
    t.image.faults.isEmpty && t.image.hostWritable && decide (superblockSize ≤ t.image.len) &&
      t.image.bytes (Superblock.journalStart * blockSize) != 0x4A &&
      (mountWith true 8 .none sampleEnv (Superblock.decodeBody (t.image.block 0)) t.image).okAnd
        (fun base _ ↦ base.image.faults.isEmpty) && test t

/-- The flushed image is opened; the mount has come as far as `base` when the table is scanned. -/
structure Reopens (s t base m : Inner) : Prop where
  flush : flushAll FlushOrder.inOrder s = .ok () t
  journal : Journal.Inert t.image t.sb
  load : ∃ img, loadMount true 8 .none sampleEnv t.image = .ok base img
  faults : base.image.faults = []
  opens : ∃ rest, openImage true 8 .none sampleEnv t.image = .ok m rest

theorem openFile_answers {img : Image} (h : img.faults = []) (writable : Bool) :
    Image.openFile writable img = .ok () { img with hostWritable := writable } := by
  have hcall := Image.hostCall_answers h
  unfold Image.openFile
  rw [Exec.bind_eq_of_ok hcall, Exec.bind_eq_of_ok hcall, Exec.modify_apply]

theorem reopenSample_runs {test : Inner → Bool} (hs : s.Tidy) (h : reopenSample s test = true) :
    ∃ t base m, Reopens s t base m ∧ test t = true := by
  obtain ⟨_, t, hflush, ht⟩ := Outcome.exists_of_okAnd h
  rw [Bool.and_eq_true, Bool.and_eq_true, Bool.and_eq_true, Bool.and_eq_true, Bool.and_eq_true, bne_iff_ne] at ht
  obtain ⟨⟨⟨⟨⟨hfaults, hwritable⟩, hlen⟩, hjournal⟩, hmount⟩, htest⟩ := ht
  obtain ⟨base, img, hmount, hbase⟩ := Outcome.exists_of_okAnd hmount
  obtain ⟨m, hscan⟩ := rebuildFreeInodes_returns base
  have hinert : Journal.Inert t.image t.sb := Journal.inert_of_byte hjournal
  have hno : t.image.faults = [] := List.isEmpty_iff.mp hfaults
  have hread := readSuperblock_decodes hno (of_decide_eq_true hlen) (hs.flat hflush hinert).decodes
  have hfile : Image.openFile true t.image = .ok () t.image := by
    rw [openFile_answers hno, ← hwritable]
  refine ⟨t, base, m, ⟨hflush, hinert, ⟨img, ?_⟩, List.isEmpty_iff.mp hbase, ⟨m.image, ?_⟩⟩, htest⟩
  · rw [loadMount_eq, Exec.bind_eq_of_ok hfile, Exec.bind_eq_of_ok hread]
    exact hmount
  · rw [openImage_of_superblock hfile hread, Exec.bind_eq_of_ok hmount]
    exact scanMounted_ok.mpr ⟨hscan, rfl⟩

/-- Regular calls in the sample filesystem lead to a reached state. -/
theorem sampleCalls_reached {ops : List Operation} {test : Inner → Bool}
    (h : (sampleCalls ops).okAnd (fun calls s ↦ (calls.all fun call ↦ call.2.regular call.1) && test s) = true) :
    ∃ first calls s, sampleImage = .ok () first ∧ Exec.Runs Operation.exec first calls s ∧
      calls.map Prod.snd = ops ∧ s.Reached ∧ test s = true := by
  obtain ⟨first, calls, s, himage, hrun, hops, hreturns, htest⟩ := sampleCalls_runs h
  rw [Bool.and_eq_true] at htest
  refine ⟨first, calls, s, himage, hrun, hops, Reached.runs (.created himage) hrun fun call hcall ↦ ?_, htest.2⟩
  exact ⟨.of_test (List.all_eq_true.mp htest.1 call hcall), .of_returns (hreturns call hcall)⟩

/-- The file is a regular one without links, and the flushed image can be opened. -/
def nameless (s : Inner) : Bool :=
  (s.inodes.find? 2).any (fun i ↦ i.mode &&& sIfmt == sIfreg && i.nlink == 0) && decide (0 < s.opens 2) &&
    reopenSample s fun _ ↦ true

theorem unlinkOpen_nameless : (sampleCalls unlinkOpen).okAnd (fun calls s ↦
    (calls.all fun call ↦ call.2.regular call.1) && nameless s) = true := by
  decide +kernel

theorem nameless_open_file_stays_sample : ∃ s t m rest, s.Reached ∧ flushAll FlushOrder.inOrder s = .ok () t ∧
    openImage true 8 .none sampleEnv t.image = .ok m rest ∧ ¬Reclaimed t m 2 := by
  obtain ⟨-, -, s, -, -, -, hs, htest⟩ := sampleCalls_reached unlinkOpen_nameless
  unfold nameless at htest
  rw [Bool.and_eq_true, Bool.and_eq_true] at htest
  obtain ⟨i, hi, hfile⟩ := (Option.any_eq_true ..).mp htest.1.1
  rw [Bool.and_eq_true, beq_iff_eq, beq_iff_eq] at hfile
  obtain ⟨t, base, m, hreopens, -⟩ := reopenSample_runs hs.tidy htest.2
  obtain ⟨hflush, hjournal, -, -, rest, hopen⟩ := hreopens
  exact ⟨s, t, m, rest, hs, hflush, hopen, nameless_open_file_stays hs hi hfile.1 hfile.2 hflush hjournal
    (refl_of Image.SameFile t.image) hopen⟩

/-- The number of a file that was unlinked while it was open is not free after the image is opened again. -/
theorem unlinked_open_file_not_reclaimed : ∃ first calls s t m rest, sampleImage = .ok () first ∧
    Exec.Runs Operation.exec first calls s ∧ calls.map Prod.snd = unlinkOpen ∧ 0 < s.opens 2 ∧
    flushAll FlushOrder.inOrder s = .ok () t ∧ openImage true 8 .none sampleEnv t.image = .ok m rest ∧
    ¬Reclaimed t m 2 := by
  obtain ⟨first, calls, s, himage, hrun, hops, hs, htest⟩ := sampleCalls_reached unlinkOpen_nameless
  unfold nameless at htest
  rw [Bool.and_eq_true, Bool.and_eq_true] at htest
  obtain ⟨i, hi, hfile⟩ := (Option.any_eq_true ..).mp htest.1.1
  rw [Bool.and_eq_true, beq_iff_eq, beq_iff_eq] at hfile
  obtain ⟨t, base, m, hreopens, -⟩ := reopenSample_runs hs.tidy htest.2
  obtain ⟨hflush, hjournal, -, -, rest, hopen⟩ := hreopens
  obtain ⟨hsync, -⟩ := (flushAll_syncs hs.tidy.sound hs.tidy.writable _).of_ok hflush
  obtain ⟨j, hj, hmode, hnlink⟩ := syncs_inode hsync hi
  refine ⟨first, calls, s, t, m, rest, himage, hrun, hops, of_decide_eq_true htest.1.2, hflush, hopen, ?_⟩
  apply (hs.tidy.flat hflush hjournal).not_reclaimed (refl_of Image.SameFile t.image) hopen hj
  · rw [hmode]
    exact regular_mode_ne_zero hfile.1
  · rw [hnlink]
    exact hfile.2

end Inner

end LinuxFile
