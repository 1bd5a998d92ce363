import LinuxFile.Library.Settled
import LinuxFile.Spec.Calm

/-!
# Files that do not compress stay so

Only `set_inode_compression` and storing a compressed record make an inode one that compresses, and no record of a
file that does not compress is stored compressed.
-/

namespace LinuxFile.Inner

variable {s t : Inner} {i : Inode} {ino k : ℕ}

/-- The file is in memory and does not compress. -/
def RawFile (k : ℕ) (s : Inner) : Prop := ∃ i, s.inodes.find? k = some i ∧ i.usesCompression = false

/-- The call keeps file `k` one that does not compress. -/
def KeepsRaw {α : Type} (k : ℕ) (x : Fs α) : Prop := x.Respects (Exec.Preserves (RawFile k))

theorem RawFile.congr (h : RawFile k s) (hinodes : t.inodes = s.inodes) : RawFile k t := by
  unfold RawFile
  rw [hinodes]
  exact h

theorem OnlyCache.rawFile (h : OnlyCache s t) (hs : RawFile k s) : RawFile k t := by
  unfold OnlyCache at h
  rw [h]
  exact hs.congr rfl

theorem RawFile.insert (h : RawFile k s) (hnew : k = ino → i.usesCompression = false)
    (hinodes : t.inodes = s.inodes.insert ino i) : RawFile k t := by
  obtain ⟨j, hj, hraw⟩ := h
  unfold RawFile
  rw [hinodes]
  by_cases hk : k = ino
  · rw [hk, KeyMap.find?_insert_self]
    exact ⟨i, rfl, hnew hk⟩
  · rw [KeyMap.find?_insert_of_ne hk]
    exact ⟨j, hj, hraw⟩

theorem keepsRaw_of_onlyCache {α : Type} {x : Fs α} (h : x.Respects OnlyCache) : KeepsRaw k x :=
  h.mono fun _ _ hst hs ↦ hst.rawFile hs

theorem modify_keepsRaw {g : Inner → Inner} (h : ∀ s, (g s).inodes = s.inodes) :
    KeepsRaw k (Exec.modify g : Fs Unit) :=
  .modify fun s hs ↦ hs.congr (h s)

theorem onCache_keepsRaw {α : Type} (x : Exec Error CachedImage α) : KeepsRaw k (onCache x) :=
  keepsRaw_of_onlyCache (onCache_onlyCache x)

theorem onAlloc_keepsRaw {α : Type} (x : Exec Error AllocImage α) : KeepsRaw k (onAlloc x) :=
  .zoom fun _ _ hs ↦ hs.congr rfl

theorem getInode_keepsRaw (ino : ℕ) : KeepsRaw k (getInode ino) := by
  intro s
  unfold getInode
  rw [Exec.holds_bind, Exec.holds_read]
  cases hhit : s.inodes.find? ino with
  | some i => exact fun hs ↦ hs
  | none =>
    unfold loadInode
    refine (readInodeRaw_onlyCache ino s).bind (fun loaded t ht ↦ ?_) fun e t ht hs ↦ ht.rawFile hs
    rw [Exec.holds_bind, Exec.holds_ofOption]
    refine ⟨fun inode _ ↦ ?_, fun _ hs ↦ ht.rawFile hs⟩
    rw [Exec.holds_bind, putInode, Exec.holds_modify, Exec.holds_pure]
    intro hs
    apply (ht.rawFile hs).insert (fun hk ↦ ?_) rfl
    obtain ⟨j, hj, -⟩ := hs
    rw [hk, hhit] at hj
    cases hj

theorem getInodeMut_keepsRaw (ino : ℕ) {change : Inode → Inode}
    (h : k = ino → ∀ i : Inode, i.usesCompression = false → (change i).usesCompression = false) :
    KeepsRaw k (getInodeMut ino change) := by
  unfold getInodeMut
  refine Exec.Respects.bind_of (getInode_keepsRaw ino) (getInode_found ino) fun i t hi ↦ ?_
  rw [Exec.holds_bind, markDirty, Exec.holds_modify, putInode, Exec.holds_modify]
  intro ht
  apply ht.insert (fun hk ↦ h hk i ?_) rfl
  obtain ⟨j, hj, hraw⟩ := ht
  rw [hk, hi] at hj
  cases hj
  exact hraw

/-- Changes that leave the compression and the flags alone. -/
theorem getInodeMut_keepsRaw_of_flags (ino : ℕ) {change : Inode → Inode}
    (h : ∀ i : Inode, (change i).compression = i.compression ∧ (change i).flags = i.flags) :
    KeepsRaw k (getInodeMut ino change) := by
  apply getInodeMut_keepsRaw
  intro _ i hi
  unfold Inode.usesCompression
  rw [(h i).1, (h i).2]
  exact hi

theorem addExtent_keepsRaw (ino : ℕ) (ext : Extent) : KeepsRaw k (addExtent ino ext) := by
  unfold addExtent
  refine .bind (getInode_keepsRaw ino) fun inode ↦ .bind (appendExtent_respects _ _) fun extents ↦ ?_
  exact getInodeMut_keepsRaw_of_flags ino fun i ↦ ⟨rfl, rfl⟩

theorem writePhysicalBytes_keepsRaw (phys : ℕ) (data : Bytes) : KeepsRaw k (writePhysicalBytes phys data) :=
  .forEach (fun _ ↦ onCache_keepsRaw _) _

theorem promoteInline_keepsRaw (ino : ℕ) : KeepsRaw k (promoteInline ino) := by
  unfold promoteInline
  refine .bind (getInode_keepsRaw ino) fun inode ↦ .ite (.pure _) (.ite ?_ ?_)
  · exact getInodeMut_keepsRaw_of_flags ino fun i ↦ ⟨rfl, rfl⟩
  · refine .bind (onAlloc_keepsRaw _) fun phys ↦ .bind (writePhysicalBytes_keepsRaw _ _) fun _ ↦ ?_
    exact .bind (getInodeMut_keepsRaw_of_flags ino fun i ↦ ⟨rfl, rfl⟩) fun _ ↦ addExtent_keepsRaw _ _

theorem allocateLogical_keepsRaw (ino logical : ℕ) : KeepsRaw k (allocateLogical ino logical) := by
  unfold allocateLogical
  refine .bind (getInode_keepsRaw ino) fun inode ↦ ?_
  cases mapFileBlock inode logical with
  | some phys => exact .pure _
  | none =>
    refine .bind (.when fun _ ↦ promoteInline_keepsRaw ino) fun _ ↦ .bind (onAlloc_keepsRaw _) fun phys ↦ ?_
    refine .bind (addExtent_keepsRaw _ _) fun _ ↦ .bind ?_ fun _ ↦ .pure _
    exact getInodeMut_keepsRaw_of_flags ino fun i ↦ ⟨rfl, rfl⟩

theorem freeRanges_keepsRaw (ranges : List (ℕ × ℕ)) : KeepsRaw k (freeRanges ranges) :=
  modify_keepsRaw fun _ ↦ rfl

theorem punchLogicalRange_keepsRaw (ino start stop : ℕ) : KeepsRaw k (punchLogicalRange ino start stop) := by
  unfold punchLogicalRange
  refine .ite (.pure _) (.bind (getInode_keepsRaw ino) fun inode ↦ .bind (freeRanges_keepsRaw _) fun _ ↦ ?_)
  exact getInodeMut_keepsRaw_of_flags ino fun i ↦ ⟨rfl, rfl⟩

theorem compression_eq_zero (h : i.usesCompression = false) : i.compression = 0 := by
  unfold Inode.usesCompression at h
  rw [Bool.or_eq_false_iff, bne_eq_false_iff_eq] at h
  exact h.1

/-- Nothing is packed for a file that does not compress. -/
theorem tryCompress_isOff (lz : Lz4) (h : i.usesCompression = false) (data : Bytes) :
    (tryCompress lz (Compression.fromU8 i.compression) data).1.isOff = true := by
  rw [compression_eq_zero h]
  rfl

/-- A record stored for another file, or raw for this one. -/
theorem storeRecord_keepsRaw (ino record : ℕ) (data : Bytes) : KeepsRaw k (storeRecord ino record data) := by
  have sectors : KeepsRaw k (getInodeMut ino (fun i ↦ { i with blocks := sectorsOf i.extents })) :=
    getInodeMut_keepsRaw_of_flags ino fun i ↦ ⟨rfl, rfl⟩
  unfold storeRecord
  refine .bind (.read _) fun recBlocks ↦ .ite (punchLogicalRange_keepsRaw _ _ _) ?_
  refine Exec.Respects.bind_of (getInode_keepsRaw ino) (getInode_found ino) fun inode t hinode ↦ ?_
  rw [Exec.holds_bind, Exec.holds_read]
  dsimp only
  split_ifs with hoff
  · exact Exec.Respects.bind (onAlloc_keepsRaw _) (fun phys ↦ .bind (writePhysicalBytes_keepsRaw _ _) fun _ ↦
      .bind (punchLogicalRange_keepsRaw _ _ _) fun _ ↦ .bind (addExtent_keepsRaw _ _) fun _ ↦ sectors) t
  · by_cases hk : k = ino
    · have hpacked : ¬RawFile k t := by
        rintro ⟨j, hj, hraw⟩
        rw [hk, hinode] at hj
        cases hj
        exact hoff (tryCompress_isOff _ hraw data)
      exact Exec.holds_of_forall (fun _ _ _ ht ↦ absurd ht hpacked) (fun _ _ _ ht ↦ absurd ht hpacked)
    · have flag : KeepsRaw k (getInodeMut ino (fun i ↦ { i with flags := i.flags ||| flagCompressed })) :=
        getInodeMut_keepsRaw ino fun h ↦ absurd h hk
      exact Exec.Respects.bind (onAlloc_keepsRaw _) (fun phys ↦ .bind (writePhysicalBytes_keepsRaw _ _) fun _ ↦
        .bind (punchLogicalRange_keepsRaw _ _ _) fun _ ↦ .bind (addExtent_keepsRaw _ _) fun _ ↦
        .bind flag fun _ ↦ sectors) t

theorem flushRecordCache_keepsRaw : KeepsRaw k flushRecordCache := by
  unfold flushRecordCache
  refine .bind (.read _) fun held ↦ ?_
  cases held with
  | none => exact .pure _
  | some c => exact .bind (modify_keepsRaw fun _ ↦ rfl) fun _ ↦ .ite (storeRecord_keepsRaw _ _ _) (.pure _)

theorem rawReads_keepRaw : RawReads (Exec.Preserves (RawFile k)) where
  block _ := onCache_keepsRaw _
  inode := getInode_keepsRaw

theorem cachedRecord_keepsRaw (ino record : ℕ) : KeepsRaw k (cachedRecord ino record) := by
  unfold cachedRecord
  refine .bind (.read _) fun held ↦ ?_
  cases held.filter (fun c ↦ c.ino == ino && c.record == record) with
  | some c => exact .pure _
  | none =>
    exact .bind flushRecordCache_keepsRaw fun _ ↦ .bind (rawReads_keepRaw.loadRecord _ _) fun data ↦
      .bind (modify_keepsRaw fun _ ↦ rfl) fun _ ↦ .pure _

theorem reads_keepRaw : Reads (Exec.Preserves (RawFile k)) where
  toRawReads := rawReads_keepRaw
  record := cachedRecord_keepsRaw

theorem requireWrite_keepsRaw : KeepsRaw k requireWrite := by
  unfold requireWrite
  exact .bind (.read _) fun writable ↦ .ite (.pure _) (.throw _)

theorem writeDataRaw_keepsRaw (ino offset : ℕ) (buf : Bytes) : KeepsRaw k (writeDataRaw ino offset buf) := by
  unfold writeDataRaw
  refine .ite (.pure _) (.bind (getInode_keepsRaw ino) fun inode ↦ ?_)
  refine .bind (.when fun _ ↦ promoteInline_keepsRaw ino) fun _ ↦ .forEach (fun c ↦ ?_) _
  exact .bind (allocateLogical_keepsRaw _ _) fun _ ↦ onCache_keepsRaw _

theorem writeDataCompressed_keepsRaw (ino offset : ℕ) (buf : Bytes) :
    KeepsRaw k (writeDataCompressed ino offset buf) := by
  unfold writeDataCompressed
  refine .bind (.read _) fun recBytes ↦ .forEach (fun c ↦ ?_) _
  exact .bind (cachedRecord_keepsRaw _ _) fun data ↦ modify_keepsRaw fun _ ↦ rfl

theorem writeData_keepsRaw (ino offset : ℕ) (buf : Bytes) : KeepsRaw k (writeData ino offset buf) := by
  have grow : ∀ (now : Timespec) (stop : ℕ), KeepsRaw k (getInodeMut ino (extendSize now stop)) :=
    fun now stop ↦ getInodeMut_keepsRaw_of_flags ino fun i ↦ ⟨rfl, rfl⟩
  have small : ∀ now : Timespec, KeepsRaw k (getInodeMut ino (writeInline now offset buf)) :=
    fun now ↦ getInodeMut_keepsRaw_of_flags ino fun i ↦ ⟨rfl, rfl⟩
  unfold writeData
  refine .bind requireWrite_keepsRaw fun _ ↦ .ite (.pure _) (.ite (.throw _) ?_)
  refine .bind (getInode_keepsRaw ino) fun inode ↦ .bind (.read _) fun now ↦ ?_
  dsimp only
  split_ifs
  · exact .bind (small now) fun _ ↦ .pure _
  · unfold spillInline
    refine .bind (.bind .get fun s ↦ .bind ?_ fun _ ↦ .forEach (fun c ↦ storeRecord_keepsRaw _ _ _) _) fun _ ↦ .pure _
    exact getInodeMut_keepsRaw_of_flags ino fun i ↦ ⟨rfl, rfl⟩
  · exact .bind (writeDataCompressed_keepsRaw _ _ _) fun _ ↦ .bind (grow _ _) fun _ ↦ .pure _
  · exact .bind (.when fun _ ↦ promoteInline_keepsRaw ino) fun _ ↦ .bind (writeDataRaw_keepsRaw _ _ _) fun _ ↦
      .bind (grow _ _) fun _ ↦ .pure _

theorem demoteInline_keepsRaw (ino newSize : ℕ) (now : Timespec) : KeepsRaw k (demoteInline ino newSize now) := by
  unfold demoteInline
  refine .bind (getInode_keepsRaw ino) fun inode ↦ .ite ?_ (.pure _)
  refine .bind (reads_keepRaw.readData _ _ _) fun data ↦ .bind flushRecordCache_keepsRaw fun _ ↦ ?_
  refine .bind (getInode_keepsRaw ino) fun inode ↦ .bind (freeRanges_keepsRaw _) fun _ ↦ ?_
  exact getInodeMut_keepsRaw_of_flags ino fun i ↦ ⟨rfl, rfl⟩

theorem truncateData_keepsRaw (ino newSize : ℕ) : KeepsRaw k (truncateData ino newSize) := by
  unfold truncateData
  refine .bind requireWrite_keepsRaw fun _ ↦ .ite (.throw _) ?_
  refine .bind flushRecordCache_keepsRaw fun _ ↦ .bind (getInode_keepsRaw ino) fun inode ↦ ?_
  refine .bind (.read _) fun now ↦ .ite (.pure _) (.ite ?_ (.ite (.ite (.ite ?_ ?_) ?_) ?_))
  · exact getInodeMut_keepsRaw_of_flags ino fun i ↦ ⟨rfl, rfl⟩
  · exact .bind (freeRanges_keepsRaw _) fun _ ↦ getInodeMut_keepsRaw_of_flags ino fun i ↦ ⟨rfl, rfl⟩
  · unfold shrinkCompressed
    refine .bind (.bind .get fun s ↦ .bind (rawReads_keepRaw.loadRecord _ _) fun data ↦ ?_)
      fun _ ↦ demoteInline_keepsRaw _ _ _
    refine .bind (storeRecord_keepsRaw _ _ _) fun _ ↦ .bind (punchLogicalRange_keepsRaw _ _ _) fun _ ↦ ?_
    exact getInodeMut_keepsRaw_of_flags ino fun i ↦ ⟨rfl, rfl⟩
  · unfold shrinkRaw
    refine .bind (.bind (freeRanges_keepsRaw _) fun _ ↦ ?_) fun _ ↦ demoteInline_keepsRaw _ _ _
    exact getInodeMut_keepsRaw_of_flags ino fun i ↦ ⟨rfl, rfl⟩
  · exact getInodeMut_keepsRaw_of_flags ino fun i ↦ ⟨rfl, rfl⟩

end LinuxFile.Inner
