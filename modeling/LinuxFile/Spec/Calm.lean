import LinuxFile.Library.Made
import LinuxFile.Spec.Readers

/-!
# What reads and writes leave alone

Reading and changing the contents of files and directories moves blocks and rewrites inodes, but the
tables of open files, orphans and free inode numbers, the settings of the mount and the superblock stay
as they are, and an inode in memory stays in memory with the same type, permissions, owner and links.
-/

namespace LinuxFile

/-- The same file with other contents. -/
structure Inode.SameFile (i j : Inode) : Prop where
  ino : j.ino = i.ino
  mode : j.mode = i.mode
  nlink : j.nlink = i.nlink
  uid : j.uid = i.uid
  gid : j.gid = i.gid
  compression : j.compression = i.compression
  xattr : j.xattr = i.xattr
  xattrBlock : j.xattrBlock = i.xattrBlock
  extentTree : j.extentTree = i.extentTree
  extentTreeBlocks : j.extentTreeBlocks = i.extentTreeBlocks

theorem Inode.SameFile.refl (i : Inode) : i.SameFile i :=
  ⟨rfl, rfl, rfl, rfl, rfl, rfl, rfl, rfl, rfl, rfl⟩

theorem Inode.SameFile.trans {i j k : Inode} (h : i.SameFile j) (h' : j.SameFile k) : i.SameFile k :=
  ⟨h'.ino.trans h.ino, h'.mode.trans h.mode, h'.nlink.trans h.nlink, h'.uid.trans h.uid,
    h'.gid.trans h.gid, h'.compression.trans h.compression, h'.xattr.trans h.xattr,
    h'.xattrBlock.trans h.xattrBlock, h'.extentTree.trans h.extentTree,
    h'.extentTreeBlocks.trans h.extentTreeBlocks⟩

namespace Inner

/-- Only the block cache and the image differ. -/
def OnlyCache (s t : Inner) : Prop := t = { s with cache := t.cache, image := t.image }

instance : IsPreorder Inner OnlyCache where
  refl _ := rfl
  trans s t u hst htu := by
    unfold OnlyCache at *
    rw [htu, hst]

/-- The inode of a record held in memory is in memory. -/
def HeldIn (s : Inner) : Prop := ∀ c, s.recordCache = some c → ∃ i, s.inodes.find? c.ino = some i

/-- Contents may differ, but not the files they belong to. -/
structure Calm (s t : Inner) : Prop where
  sb : t.sb = s.sb
  journal : t.journal = s.journal
  freeInodes : t.freeInodes = s.freeInodes
  openCount : t.openCount = s.openCount
  orphans : t.orphans = s.orphans
  writable : t.writable = s.writable
  syncMode : t.syncMode = s.syncMode
  checkPerm : t.checkPerm = s.checkPerm
  defaultCompression : t.defaultCompression = s.defaultCompression
  recordBlocks : t.recordBlocks = s.recordBlocks
  env : t.env = s.env
  inodes : ∀ ino i, s.inodes.find? ino = some i →
    ∃ j, t.inodes.find? ino = some j ∧ i.SameFile j
  held : s.HeldIn → t.HeldIn

theorem Calm.of_inodes {s t : Inner} (h : t = { s with
      image := t.image, cache := t.cache, alloc := t.alloc, inodes := t.inodes,
      dirtyInodes := t.dirtyInodes, recordCache := t.recordCache })
    (hinodes : ∀ ino i, s.inodes.find? ino = some i → ∃ j, t.inodes.find? ino = some j ∧ i.SameFile j)
    (hheld : ∀ c, t.recordCache = some c → s.recordCache = some c ∨ ∃ i, t.inodes.find? c.ino = some i) :
    Calm s t := by
  refine ⟨?_, ?_, ?_, ?_, ?_, ?_, ?_, ?_, ?_, ?_, ?_, hinodes, fun hs c hc ↦ ?_⟩
  iterate 11 rw [h]
  rcases hheld c hc with hold | hfound
  · obtain ⟨i, hi⟩ := hs c hold
    obtain ⟨j, hj, -⟩ := hinodes c.ino i hi
    exact ⟨j, hj⟩
  · exact hfound

theorem Calm.of_rest {s t : Inner} (h : t = { s with
      image := t.image, cache := t.cache, alloc := t.alloc, dirtyInodes := t.dirtyInodes }) :
    Calm s t := by
  apply Calm.of_inodes
  · conv_lhs => rw [h]
    rw [h]
  · intro ino i hi
    refine ⟨i, ?_, Inode.SameFile.refl i⟩
    rw [h]
    exact hi
  · intro c hc
    rw [h] at hc
    exact Or.inl hc

instance : IsPreorder Inner Calm where
  refl s := Calm.of_rest rfl
  trans s t u hst htu :=
    ⟨htu.sb.trans hst.sb, htu.journal.trans hst.journal, htu.freeInodes.trans hst.freeInodes,
      htu.openCount.trans hst.openCount, htu.orphans.trans hst.orphans, htu.writable.trans hst.writable,
      htu.syncMode.trans hst.syncMode, htu.checkPerm.trans hst.checkPerm,
      htu.defaultCompression.trans hst.defaultCompression, htu.recordBlocks.trans hst.recordBlocks,
      htu.env.trans hst.env, fun ino i hi ↦ by
        obtain ⟨j, hj, hij⟩ := hst.inodes ino i hi
        obtain ⟨k, hk, hjk⟩ := htu.inodes ino j hj
        exact ⟨k, hk, hij.trans hjk⟩, fun hs ↦ htu.held (hst.held hs)⟩

theorem OnlyCache.calm {s t : Inner} (h : OnlyCache s t) : Calm s t := by
  apply Calm.of_rest
  unfold OnlyCache at h
  rw [h]

/-! ## Primitive updates -/

theorem onCache_onlyCache {α : Type} (x : Exec Error CachedImage α) :
    (onCache x).Respects OnlyCache := Exec.Respects.zoom fun _ _ ↦ rfl

theorem onCache_calm {α : Type} (x : Exec Error CachedImage α) : (onCache x).Respects Calm :=
  (onCache_onlyCache x).mono fun _ _ h ↦ h.calm

theorem onAlloc_calm {α : Type} (x : Exec Error AllocImage α) : (onAlloc x).Respects Calm :=
  Exec.Respects.zoom fun _ _ ↦ Calm.of_rest rfl

theorem freeBlocks_calm (start len : ℕ) : (freeBlocks start len).Respects Calm :=
  Exec.Respects.modify fun _ ↦ Calm.of_rest rfl

theorem freeRanges_calm (ranges : List (ℕ × ℕ)) : (freeRanges ranges).Respects Calm :=
  Exec.Respects.modify fun _ ↦ Calm.of_rest rfl

theorem markDirty_calm (ino : ℕ) : (markDirty ino).Respects Calm :=
  Exec.Respects.modify fun _ ↦ Calm.of_rest rfl

/-- Another record is held, of an inode in memory. -/
theorem holdRecord_calm {s : Inner} {held : Option RecordCache}
    (h : ∀ c, held = some c → s.recordCache = some c ∨ ∃ i, s.inodes.find? c.ino = some i) :
    Calm s { s with recordCache := held } :=
  Calm.of_inodes rfl (fun _ i hi ↦ ⟨i, hi, Inode.SameFile.refl i⟩) h

theorem dropRecord_calm :
    (Exec.modify (fun s : Inner ↦ { s with recordCache := none }) : Fs Unit).Respects Calm :=
  Exec.Respects.modify fun _ ↦ holdRecord_calm fun _ hc ↦ by cases hc

/-- Replacing an inode in memory by another state of the same file, or adding one. -/
theorem putInode_calm {s : Inner} {ino : ℕ} {i : Inode}
    (h : ∀ old, s.inodes.find? ino = some old → old.SameFile i) :
    Calm s { s with inodes := s.inodes.insert ino i } := by
  refine Calm.of_inodes rfl (fun k old hold ↦ ?_) (fun c hc ↦ Or.inl hc)
  by_cases hk : k = ino
  · subst hk
    exact ⟨i, KeyMap.find?_insert_self _ _ _, h old hold⟩
  · exact ⟨old, by rw [KeyMap.find?_insert_of_ne hk]; exact hold, Inode.SameFile.refl old⟩

theorem requireWrite_calm : requireWrite.Respects Calm := by
  unfold requireWrite
  refine .bind (.read _) fun writable ↦ ?_
  exact .ite (.pure ()) (.throw _)

theorem addU32_respects {R : Inner → Inner → Prop} [IsPreorder Inner R] (a b : ℕ) :
    (addU32 a b : Fs ℕ).Respects R := .ite .abort (.pure _)

theorem addU64_calm (a b : ℕ) : (addU64 a b : Fs ℕ).Respects Calm := .ite .abort (.pure _)

/-! ## Loading inodes -/

/-- Reading a block through the cache. -/
def BlockRead (x : Fs Block) : Prop := ∃ b, x = onCache (BlockCache.get b)

theorem made_get (b : ℕ) : (onCache (BlockCache.get b)).Made BlockRead := .call ⟨b, rfl⟩

theorem loadXattrs_made (inode : Inode) : (loadXattrs inode).Made BlockRead := by
  unfold loadXattrs
  exact .ite (.pure _) (.bind (made_get _) fun _ ↦ .pure _)

theorem loadTreeBlocks_made (tree : ℕ) (first : Block) (count b remaining : ℕ) :
    (loadTreeBlocks tree first count b remaining).Made BlockRead := by
  induction count generalizing b remaining with
  | zero => exact .pure _
  | succ count ih =>
    unfold loadTreeBlocks
    split_ifs
    · exact .bind (.pure _) fun _ ↦ .bind (ih _ _) fun _ ↦ .pure _
    · exact .bind (made_get _) fun _ ↦ .bind (ih _ _) fun _ ↦ .pure _

theorem loadExtentTree_made (inode : Inode) : (loadExtentTree inode).Made BlockRead := by
  unfold loadExtentTree
  refine .ite (.pure _) (.bind (made_get _) fun first ↦ ?_)
  exact .ite (.bind (loadTreeBlocks_made _ _ _ _ _) fun _ ↦ .pure _) (.pure _)

theorem resolveExtent_made (ext : Extent) : (resolveExtent ext).Made BlockRead := by
  unfold resolveExtent
  refine .ite (.pure _) (.bind (made_get _) fun block ↦ ?_)
  cases RecordHeader.parse block <;> exact .pure _

theorem resolveExtents_made (extents : List Extent) : (resolveExtents extents).Made BlockRead := by
  induction extents with
  | nil => exact .pure _
  | cons ext rest ih => exact .bind (resolveExtent_made ext) fun _ ↦ .bind ih fun _ ↦ .pure _

theorem completeInode_made (inode : Inode) : (completeInode inode).Made BlockRead := by
  have resolve : ∀ i : Inode,
      (if i.usesCompression then resolveAllExtents i else pure i : Fs Inode).Made BlockRead :=
    fun i ↦ .ite (.bind (resolveExtents_made _) fun _ ↦ .pure _) (.pure _)
  unfold completeInode
  refine .bind (loadXattrs_made inode) fun i ↦ ?_
  split_ifs
  · exact .bind (loadExtentTree_made i) fun j ↦ resolve j
  · exact .bind (.pure _) fun j ↦ resolve j

/-- Loading an inode does nothing but read blocks. -/
theorem readInodeRaw_made (ino : ℕ) : (readInodeRaw ino).Made BlockRead := by
  unfold readInodeRaw
  refine .bind (.read _) fun sb ↦ .ite (.pure _) ?_
  refine .bind (.ofExcept _) fun slot ↦ .bind (made_get _) fun block ↦ ?_
  refine .ite (.pure _) ?_
  cases Inode.decode ino _ with
  | error e => exact .pure _
  | ok inode => exact .bind (completeInode_made inode) fun _ ↦ .pure _

theorem blockRead_onlyCache (x : Fs Block) (h : BlockRead x) : x.Respects OnlyCache := by
  obtain ⟨b, rfl⟩ := h
  exact onCache_onlyCache _

theorem readInodeRaw_onlyCache (ino : ℕ) : (readInodeRaw ino).Respects OnlyCache :=
  (readInodeRaw_made ino).respects blockRead_onlyCache

theorem loadInode_calm {ino : ℕ} {s : Inner} (hmiss : s.inodes.find? ino = none) :
    (loadInode ino).Holds s (fun _ t ↦ Calm s t) (fun _ t ↦ Calm s t) := by
  unfold loadInode
  refine (readInodeRaw_onlyCache ino s).bind ?_ (fun _ _ h ↦ h.calm)
  intro loaded t ht
  have hsame : t.inodes = s.inodes := by
    unfold OnlyCache at ht
    rw [ht]
  rw [Exec.holds_bind, Exec.holds_ofOption]
  refine ⟨fun inode _ ↦ ?_, fun _ ↦ ht.calm⟩
  rw [Exec.holds_bind, putInode, Exec.holds_modify, Exec.holds_pure]
  refine trans_of Calm ht.calm (putInode_calm ?_)
  intro old hold
  rw [hsame, hmiss] at hold
  cases hold

theorem getInode_calm (ino : ℕ) : (getInode ino).Respects Calm := by
  intro s
  unfold getInode
  rw [Exec.holds_bind, Exec.holds_read]
  cases hhit : s.inodes.find? ino with
  | some i => exact refl_of Calm s
  | none => exact loadInode_calm hhit

/-- A loaded inode is in memory. -/
theorem getInode_found (ino : ℕ) (s : Inner) :
    (getInode ino).Holds s (fun i t ↦ t.inodes.find? ino = some i) (fun _ _ ↦ True) := by
  unfold getInode
  rw [Exec.holds_bind, Exec.holds_read]
  cases hhit : s.inodes.find? ino with
  | some i => exact hhit
  | none =>
    unfold loadInode
    dsimp only
    rw [Exec.holds_bind]
    refine Exec.holds_of_forall (fun loaded t _ ↦ ?_) (fun _ _ _ ↦ trivial)
    rw [Exec.holds_bind, Exec.holds_ofOption]
    refine ⟨fun inode _ ↦ ?_, fun _ ↦ trivial⟩
    rw [Exec.holds_bind, putInode, Exec.holds_modify, Exec.holds_pure]
    exact KeyMap.find?_insert_self _ _ _

theorem getInodeMut_calm (ino : ℕ) {change : Inode → Inode} (h : ∀ i : Inode, i.SameFile (change i)) :
    (getInodeMut ino change).Respects Calm := by
  unfold getInodeMut
  refine Exec.Respects.bind_of (getInode_calm ino) (getInode_found ino) ?_
  intro i t hi
  rw [Exec.holds_bind, markDirty, Exec.holds_modify, putInode, Exec.holds_modify]
  refine trans_of Calm (Calm.of_rest rfl) (putInode_calm ?_)
  intro old hold
  have heq : some old = some i := hold.symm.trans hi
  cases heq
  exact h i

/-! ## Contents of files -/

/-- `append_extent` only computes. -/
theorem appendExtent_respects {R : Inner → Inner → Prop} [IsPreorder Inner R] (extents : List Extent) (ext : Extent) :
    (appendExtent extents ext).Respects R := by
  unfold appendExtent
  cases extents.getLast? with
  | none => exact .pure _
  | some last =>
    dsimp only
    refine .ite (.bind (addU32_respects _ _) fun length ↦ ?_) (.pure _)
    split_ifs
    · exact .bind (addU32_respects _ _) fun _ ↦ .pure _
    · exact .bind (.pure _) fun _ ↦ .pure _

theorem addExtent_calm (ino : ℕ) (ext : Extent) : (addExtent ino ext).Respects Calm := by
  unfold addExtent
  refine .bind (getInode_calm ino) fun inode ↦ .bind (appendExtent_respects _ _) fun extents ↦ ?_
  exact getInodeMut_calm ino fun i ↦ by constructor <;> rfl

theorem writePhysicalBytes_calm (phys : ℕ) (data : Bytes) :
    (writePhysicalBytes phys data).Respects Calm := .forEach (fun _ ↦ onCache_calm _) _

theorem promoteInline_calm (ino : ℕ) : (promoteInline ino).Respects Calm := by
  unfold promoteInline
  refine .bind (getInode_calm ino) fun inode ↦ .ite (.pure _) (.ite ?_ ?_)
  · exact getInodeMut_calm ino fun i ↦ by constructor <;> rfl
  · refine .bind (onAlloc_calm _) fun phys ↦ .bind (writePhysicalBytes_calm _ _) fun _ ↦ ?_
    exact .bind (getInodeMut_calm ino fun i ↦ by constructor <;> rfl) fun _ ↦ addExtent_calm _ _

theorem allocateLogical_calm (ino logical : ℕ) : (allocateLogical ino logical).Respects Calm := by
  unfold allocateLogical
  refine .bind (getInode_calm ino) fun inode ↦ ?_
  cases mapFileBlock inode logical with
  | some phys => exact .pure _
  | none =>
    refine .bind (.when fun _ ↦ promoteInline_calm ino) fun _ ↦ .bind (onAlloc_calm _) fun phys ↦ ?_
    refine .bind (addExtent_calm _ _) fun _ ↦ .bind ?_ fun _ ↦ .pure _
    exact getInodeMut_calm ino fun i ↦ by constructor <;> rfl

theorem punchLogicalRange_calm (ino start stop : ℕ) :
    (punchLogicalRange ino start stop).Respects Calm := by
  unfold punchLogicalRange
  refine .ite (.pure _) (.bind (getInode_calm ino) fun inode ↦ .bind (freeRanges_calm _) fun _ ↦ ?_)
  exact getInodeMut_calm ino fun i ↦ by constructor <;> rfl

theorem storeRecord_calm (ino record : ℕ) (data : Bytes) : (storeRecord ino record data).Respects Calm := by
  have sectors : (getInodeMut ino (fun i ↦ { i with blocks := sectorsOf i.extents })).Respects Calm :=
    getInodeMut_calm ino fun i ↦ by constructor <;> rfl
  have flag : (getInodeMut ino (fun i ↦ { i with flags := i.flags ||| flagCompressed })).Respects Calm :=
    getInodeMut_calm ino fun i ↦ by constructor <;> rfl
  unfold storeRecord
  refine .bind (.read _) fun recBlocks ↦ .ite (punchLogicalRange_calm _ _ _) ?_
  refine .bind (getInode_calm ino) fun inode ↦ .bind (.read _) fun env ↦ ?_
  dsimp only
  split_ifs
  · exact .bind (onAlloc_calm _) fun phys ↦ .bind (writePhysicalBytes_calm _ _) fun _ ↦
      .bind (punchLogicalRange_calm _ _ _) fun _ ↦ .bind (addExtent_calm _ _) fun _ ↦ sectors
  · exact .bind (onAlloc_calm _) fun phys ↦ .bind (writePhysicalBytes_calm _ _) fun _ ↦
      .bind (punchLogicalRange_calm _ _ _) fun _ ↦ .bind (addExtent_calm _ _) fun _ ↦
      .bind flag fun _ ↦ sectors

theorem flushRecordCache_calm : flushRecordCache.Respects Calm := by
  unfold flushRecordCache
  refine .bind (.read _) fun held ↦ ?_
  cases held with
  | none => exact .pure _
  | some c =>
    exact .bind dropRecord_calm fun _ ↦ .ite (storeRecord_calm _ _ _) (.pure _)

theorem rawReads_calm : RawReads Calm where
  block _ := onCache_calm _
  inode := getInode_calm

theorem writeDataRaw_calm (ino offset : ℕ) (buf : Bytes) : (writeDataRaw ino offset buf).Respects Calm := by
  unfold writeDataRaw
  refine .ite (.pure _) (.bind (getInode_calm ino) fun inode ↦ ?_)
  refine .bind (.when fun _ ↦ promoteInline_calm ino) fun _ ↦ .forEach (fun c ↦ ?_) _
  exact .bind (allocateLogical_calm _ _) fun _ ↦ onCache_calm _

/-- The inode of a loaded record is in memory. -/
theorem loadRecord_found (ino record : ℕ) (s : Inner) :
    (loadRecord ino record).Holds s (fun _ t ↦ ∃ i, t.inodes.find? ino = some i) (fun _ _ ↦ True) := by
  have blocks : ∀ (s t : Inner) (inode : Inode) (off : ℕ), (∃ i, t.inodes.find? ino = some i) →
      (if off < inode.size then do
          let data ← readDataRaw ino off (min (inode.size - off) s.recordBytes)
          pure (resizeBytes data s.recordBytes)
        else pure (List.replicate s.recordBytes 0) : Fs Bytes).Holds t
        (fun _ u ↦ ∃ i, u.inodes.find? ino = some i) (fun _ _ ↦ True) := by
    intro s t inode off hfound
    have hread : (if off < inode.size then do
          let data ← readDataRaw ino off (min (inode.size - off) s.recordBytes)
          pure (resizeBytes data s.recordBytes)
        else pure (List.replicate s.recordBytes 0) : Fs Bytes).Respects Calm :=
      .ite (.bind (rawReads_calm.readDataRaw _ _ _) fun _ ↦ .pure _) (.pure _)
    refine (hread t).mono (fun _ u hu ↦ ?_) (fun _ _ _ ↦ trivial)
    obtain ⟨i, hi⟩ := hfound
    obtain ⟨j, hj, -⟩ := hu.inodes ino i hi
    exact ⟨j, hj⟩
  unfold loadRecord
  rw [Exec.holds_bind, Exec.holds_get]
  refine (getInode_found ino s).bind ?_ (fun _ _ _ ↦ trivial)
  intro inode t hinode
  dsimp only
  cases inode.extents.find? (fun e ↦ e.containsLogical (record * s.recordBlocks)) with
  | none => exact blocks s t inode _ ⟨inode, hinode⟩
  | some ext =>
    dsimp only
    by_cases hpacked : ext.isCompressed = true
    · rw [if_pos hpacked]
      have hread : (do
          let data ← readCompressedExtent ext
          pure (resizeBytes data s.recordBytes) : Fs Bytes).Respects Calm :=
        .bind (rawReads_calm.readCompressedExtent _) fun _ ↦ .pure _
      refine (hread t).mono (fun _ u hu ↦ ?_) (fun _ _ _ ↦ trivial)
      obtain ⟨j, hj, -⟩ := hu.inodes ino inode hinode
      exact ⟨j, hj⟩
    · rw [if_neg hpacked]
      exact blocks s t inode _ ⟨inode, hinode⟩

theorem cachedRecord_calm (ino record : ℕ) : (cachedRecord ino record).Respects Calm := by
  unfold cachedRecord
  refine .bind (.read _) fun held ↦ ?_
  cases held.filter (fun c ↦ c.ino == ino && c.record == record) with
  | some c => exact .pure _
  | none =>
    refine .bind flushRecordCache_calm fun _ ↦
      Exec.Respects.bind_of (rawReads_calm.loadRecord _ _) (loadRecord_found ino record) ?_
    intro data t hfound
    rw [Exec.holds_bind, Exec.holds_modify, Exec.holds_pure]
    refine holdRecord_calm fun c hc ↦ Or.inr ?_
    cases hc
    exact hfound

theorem reads_calm : Reads Calm where
  toRawReads := rawReads_calm
  record := cachedRecord_calm

/-- The record asked for is the one held. -/
theorem cachedRecord_held (ino record : ℕ) (s : Inner) :
    (cachedRecord ino record).Holds s (fun _ t ↦ ∃ c, t.recordCache = some c ∧ c.ino = ino)
      (fun _ _ ↦ True) := by
  unfold cachedRecord
  rw [Exec.holds_bind, Exec.holds_read]
  cases hheld : s.recordCache.filter (fun c ↦ c.ino == ino && c.record == record) with
  | some c =>
    obtain ⟨hc, hmatch⟩ := Option.filter_eq_some_iff.mp hheld
    rw [Bool.and_eq_true, beq_iff_eq] at hmatch
    exact ⟨c, hc, hmatch.1⟩
  | none =>
    dsimp only
    rw [Exec.holds_bind]
    refine Exec.holds_of_forall (fun _ t _ ↦ ?_) (fun _ _ _ ↦ trivial)
    rw [Exec.holds_bind]
    refine Exec.holds_of_forall (fun data u _ ↦ ?_) (fun _ _ _ ↦ trivial)
    rw [Exec.holds_bind, Exec.holds_modify, Exec.holds_pure]
    exact ⟨_, rfl, rfl⟩

theorem writeDataCompressed_calm (ino offset : ℕ) (buf : Bytes) :
    (writeDataCompressed ino offset buf).Respects Calm := by
  unfold writeDataCompressed
  refine .bind (.read _) fun recBytes ↦ .forEach (fun c s ↦ ?_) _
  -- the record is already held under the same inode
  refine ((cachedRecord_calm ino c.index s).and (cachedRecord_held ino c.index s)).bind ?_ (fun _ _ h ↦ h.1)
  rintro data t ⟨hcalm, held, hheld, hino⟩
  rw [Exec.holds_modify]
  refine ⟨hcalm.sb, hcalm.journal, hcalm.freeInodes, hcalm.openCount, hcalm.orphans, hcalm.writable,
    hcalm.syncMode, hcalm.checkPerm, hcalm.defaultCompression, hcalm.recordBlocks, hcalm.env,
    hcalm.inodes, fun hs c' hc' ↦ ?_⟩
  obtain ⟨i, hi⟩ := hcalm.held hs held hheld
  have hc'' : c'.ino = ino := by
    cases hc'
    rfl
  rw [hc'', ← hino]
  exact ⟨i, hi⟩

theorem readData_calm (ino offset count : ℕ) : (readData ino offset count).Respects Calm :=
  reads_calm.readData ino offset count

theorem spillInline_calm (ino offset : ℕ) (buf : Bytes) (inode : Inode) :
    (spillInline ino offset buf inode).Respects Calm := by
  unfold spillInline
  refine .bind .get fun s ↦ .bind (getInodeMut_calm ino fun i ↦ by constructor <;> rfl) fun _ ↦ ?_
  exact .forEach (fun c ↦ storeRecord_calm _ _ _) _

theorem writeData_calm (ino offset : ℕ) (buf : Bytes) : (writeData ino offset buf).Respects Calm := by
  have grow : ∀ (now : Timespec) (stop : ℕ), (getInodeMut ino (extendSize now stop)).Respects Calm :=
    fun now stop ↦ getInodeMut_calm ino fun i ↦ by constructor <;> rfl
  have small : ∀ now : Timespec, (getInodeMut ino (writeInline now offset buf)).Respects Calm :=
    fun now ↦ getInodeMut_calm ino fun i ↦ by constructor <;> rfl
  unfold writeData
  refine .bind requireWrite_calm fun _ ↦ .ite (.pure _) (.ite (.throw _) ?_)
  refine .bind (getInode_calm ino) fun inode ↦ .bind (.read _) fun now ↦ ?_
  dsimp only
  split_ifs
  · exact .bind (small now) fun _ ↦ .pure _
  · exact .bind (spillInline_calm _ _ _ _) fun _ ↦ .pure _
  · exact .bind (writeDataCompressed_calm _ _ _) fun _ ↦ .bind (grow _ _) fun _ ↦ .pure _
  · exact .bind (.when fun _ ↦ promoteInline_calm ino) fun _ ↦ .bind (writeDataRaw_calm _ _ _) fun _ ↦
      .bind (grow _ _) fun _ ↦ .pure _

theorem shrinkCompressed_calm (ino newSize : ℕ) (now : Timespec) :
    (shrinkCompressed ino newSize now).Respects Calm := by
  unfold shrinkCompressed
  refine .bind .get fun s ↦ .bind (rawReads_calm.loadRecord _ _) fun data ↦ ?_
  refine .bind (storeRecord_calm _ _ _) fun _ ↦ .bind (punchLogicalRange_calm _ _ _) fun _ ↦ ?_
  exact getInodeMut_calm ino fun i ↦ by constructor <;> rfl

theorem shrinkRaw_calm (ino newSize : ℕ) (inode : Inode) (now : Timespec) :
    (shrinkRaw ino newSize inode now).Respects Calm := by
  unfold shrinkRaw
  exact .bind (freeRanges_calm _) fun _ ↦ getInodeMut_calm ino fun i ↦ by constructor <;> rfl

theorem demoteInline_calm (ino newSize : ℕ) (now : Timespec) :
    (demoteInline ino newSize now).Respects Calm := by
  unfold demoteInline
  refine .bind (getInode_calm ino) fun inode ↦ .ite ?_ (.pure _)
  refine .bind (readData_calm _ _ _) fun data ↦ .bind flushRecordCache_calm fun _ ↦ ?_
  refine .bind (getInode_calm ino) fun inode ↦ .bind (freeRanges_calm _) fun _ ↦ ?_
  exact getInodeMut_calm ino fun i ↦ by constructor <;> rfl

theorem truncateData_calm (ino newSize : ℕ) : (truncateData ino newSize).Respects Calm := by
  unfold truncateData
  refine .bind requireWrite_calm fun _ ↦ .ite (.throw _) ?_
  refine .bind flushRecordCache_calm fun _ ↦ .bind (getInode_calm ino) fun inode ↦ ?_
  refine .bind (.read _) fun now ↦ .ite (.pure _) (.ite ?_ (.ite (.ite (.ite ?_ ?_) ?_) ?_))
  · exact getInodeMut_calm ino fun i ↦ by constructor <;> rfl
  · exact .bind (freeRanges_calm _) fun _ ↦ getInodeMut_calm ino fun i ↦ by constructor <;> rfl
  · exact .bind (shrinkCompressed_calm _ _ _) fun _ ↦ demoteInline_calm _ _ _
  · exact .bind (shrinkRaw_calm _ _ _ _) fun _ ↦ demoteInline_calm _ _ _
  · exact getInodeMut_calm ino fun i ↦ by constructor <;> rfl

/-! ## Contents of directories -/

theorem parseDir_calm (ino : ℕ) : (parseDir ino).Respects Calm := reads_calm.parseDir ino

theorem dirLookup_calm (dir : ℕ) (name : Bytes) : (dirLookup dir name).Respects Calm :=
  reads_calm.dirLookup dir name

/-- The directory's inode, read and then given other entries. -/
theorem rewriteDir_calm (ino : ℕ) (entries : List DirEntry) :
    (do
      let inode ← getInode ino
      writeDirEntries ino inode entries : Fs Unit).Respects Calm := by
  refine Exec.Respects.bind_of (getInode_calm ino) (getInode_found ino) ?_
  intro inode t hinode
  have hput : Calm t { t with inodes := t.inodes.insert ino inode } := by
    apply putInode_calm
    intro old hold
    rw [hinode] at hold
    cases hold
    exact Inode.SameFile.refl _
  have hrest : (do
      markDirty ino
      truncateData ino 0
      let _ ← writeData ino 0 (encodeDir entries)
      pure () : Fs Unit).Respects Calm :=
    .bind (markDirty_calm ino) fun _ ↦ .bind (truncateData_calm _ _) fun _ ↦
      .bind (writeData_calm _ _ _) fun _ ↦ .pure _
  unfold writeDirEntries
  rw [Exec.holds_bind, putInode, Exec.holds_modify]
  exact (hrest _).mono (fun _ _ h ↦ trans_of Calm hput h) (fun _ _ h ↦ trans_of Calm hput h)

theorem touchDir_calm (ino : ℕ) : (touchDir ino).Respects Calm :=
  .bind (.read _) fun _ ↦ getInodeMut_calm ino fun i ↦ by constructor <;> rfl

theorem dirInsert_calm (dir : ℕ) (name : Bytes) (child : ℕ) (ft : FileType) :
    (dirInsert dir name child ft).Respects Calm := by
  unfold dirInsert
  refine .bind (.ofExcept _) fun _ ↦ .bind (parseDir_calm dir) fun entries ↦ .ite (.throw _) ?_
  have h := Exec.Respects.bind (rewriteDir_calm dir (entries ++ [⟨child, ft, name⟩])) fun _ ↦
    touchDir_calm dir
  rwa [bind_assoc] at h

theorem dirRemove_calm (dir : ℕ) (name : Bytes) : (dirRemove dir name).Respects Calm := by
  unfold dirRemove
  refine .bind (parseDir_calm dir) fun entries ↦ .bind (.ofOption _ _) fun entry ↦ ?_
  have h := Exec.Respects.bind (rewriteDir_calm dir (entries.eraseP (fun e ↦ e.name == name)))
    fun _ ↦ Exec.Respects.bind (touchDir_calm dir) fun _ ↦ .pure (entry.ino, entry.fileType)
  rwa [bind_assoc] at h

theorem climbs_calm (dir guard child : ℕ) : (climbs dir guard child).Respects Calm :=
  reads_calm.climbs dir guard child

theorem checkSticky_calm (parent : ℕ) (name : Bytes) (dir : Inode) (creds : Creds) :
    (checkSticky parent name dir creds).Respects Calm := reads_calm.checkSticky parent name dir creds

theorem checkRemovable_calm (rmdir : Bool) (ino : ℕ) (ft : FileType) :
    (checkRemovable rmdir ino ft).Respects Calm := reads_calm.checkRemovable rmdir ino ft

/-- A directory that is listed is in memory as one. -/
theorem parseDir_dir (ino : ℕ) (s : Inner) :
    (parseDir ino).Holds s (fun _ t ↦ ∃ i, t.inodes.find? ino = some i ∧ i.isDir = true)
      (fun _ _ ↦ True) := by
  unfold parseDir
  refine (getInode_found ino s).bind ?_ (fun _ _ _ ↦ trivial)
  intro inode t hinode
  by_cases hdir : inode.isDir = false
  · rw [if_pos hdir]
    trivial
  rw [if_neg hdir]
  have hrest : (do
      let raw ← if 0 < inode.size then readData ino 0 inode.size else pure []
      Exec.ofExcept (decodeDir (resizeBytes raw inode.size)) : Fs (List DirEntry)).Respects Calm := by
    split_ifs
    · exact .bind (readData_calm _ _ _) fun _ ↦ .ofExcept _
    · exact .bind (.pure _) fun _ ↦ .ofExcept _
  refine (hrest t).mono (fun _ u hu ↦ ?_) (fun _ _ _ ↦ trivial)
  obtain ⟨j, hj, hij⟩ := hu.inodes ino inode hinode
  refine ⟨j, hj, ?_⟩
  unfold Inode.isDir Inode.fileType at hdir ⊢
  rw [hij.mode]
  simpa using hdir

/-! ## Path walks -/

theorem walk_calm (args : WalkArgs) (depth start : ℕ) (path : UnixPath) :
    (walk args depth start path).Respects Calm := reads_calm.walk args depth start path

end Inner

end LinuxFile
