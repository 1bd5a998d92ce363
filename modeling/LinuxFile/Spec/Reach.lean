import LinuxFile.Operations
import LinuxFile.Spec.Rename

/-!
# The record held in memory

Whatever the operations do, the inode whose record is held in memory stays in memory itself: an inode
leaves the memory only when it is dropped, and then no record of it is held any more.
-/

namespace LinuxFile

namespace Inner

/-- The size of records stays, and so does the owner of a held record. -/
structure Holding (s t : Inner) : Prop where
  recordBlocks : t.recordBlocks = s.recordBlocks
  held : s.HeldIn → t.HeldIn

variable {s t : Inner}

instance : IsPreorder Inner Holding where
  refl _ := ⟨rfl, fun h ↦ h⟩
  trans _ _ _ hst htu := ⟨htu.recordBlocks.trans hst.recordBlocks, fun h ↦ htu.held (hst.held h)⟩

theorem Calm.holding (h : Calm s t) : Holding s t := ⟨h.recordBlocks, h.held⟩

theorem holding_of_calm {α : Type} {x : Fs α} (h : x.Respects Calm) : x.Respects Holding :=
  h.mono fun _ _ hst ↦ hst.holding

/-- The same record is held and no inode leaves the memory. -/
theorem Holding.of_memory (hblocks : t.recordBlocks = s.recordBlocks)
    (hrecord : t.recordCache = s.recordCache)
    (hmem : ∀ k i, s.inodes.find? k = some i → ∃ j, t.inodes.find? k = some j) : Holding s t where
  recordBlocks := hblocks
  held hs c hc := by
    rw [hrecord] at hc
    obtain ⟨i, hi⟩ := hs c hc
    exact hmem c.ino i hi

/-- Neither records nor inodes change. -/
theorem Holding.of_same (hblocks : t.recordBlocks = s.recordBlocks)
    (hrecord : t.recordCache = s.recordCache) (hinodes : t.inodes = s.inodes) : Holding s t :=
  .of_memory hblocks hrecord fun _ i hi ↦ ⟨i, by rw [hinodes]; exact hi⟩

theorem insert_memory (inodes : KeyMap Inode) (ino : ℕ) (new : Inode) (k : ℕ) (i : Inode)
    (h : inodes.find? k = some i) : ∃ j, (inodes.insert ino new).find? k = some j := by
  by_cases hk : k = ino
  · exact ⟨new, by rw [hk, KeyMap.find?_insert_self]⟩
  · exact ⟨i, by rw [KeyMap.find?_insert_of_ne hk]; exact h⟩

theorem putInode_holding (ino : ℕ) (i : Inode) : (putInode ino i).Respects Holding :=
  Exec.Respects.modify fun _ ↦ .of_memory rfl rfl (insert_memory _ ino i)

theorem getInodeMut_holding (ino : ℕ) (change : Inode → Inode) : (getInodeMut ino change).Respects Holding :=
  .bind (holding_of_calm (getInode_calm ino)) fun _ ↦
    .bind (holding_of_calm (markDirty_calm ino)) fun _ ↦ putInode_holding _ _

theorem modifyInode_holding (ino : ℕ) (change : Inode → Inode) :
    (modifyInode ino change).Respects Holding := by
  refine Exec.Respects.modify fun s ↦ ?_
  cases s.inodes.find? ino with
  | none => exact refl_of Holding s
  | some i => exact .of_memory rfl rfl (insert_memory _ ino _)

theorem dropLink_holding (ino : ℕ) (touch : Timespec → Inode → Inode) :
    (dropLink ino touch).Respects Holding := .bind (.read _) fun _ ↦ getInodeMut_holding _ _

theorem addLink_holding (ino : ℕ) (touch : Timespec → Inode → Inode) :
    (addLink ino touch).Respects Holding :=
  .bind (holding_of_calm (getInode_calm ino)) fun _ ↦ .bind (holding_of_calm (addU32_respects _ _)) fun _ ↦
    .bind (.read _) fun _ ↦ getInodeMut_holding _ _

/-! ## Dropping an inode -/

/-- The held record is kept or given up, but no other is taken. -/
def NoNewRecord (s t : Inner) : Prop := t.recordCache = s.recordCache ∨ t.recordCache = none

instance : IsPreorder Inner NoNewRecord where
  refl _ := Or.inl rfl
  trans s t u hst htu := by
    rcases htu with htu | htu
    · rcases hst with hst | hst
      · exact Or.inl (htu.trans hst)
      · exact Or.inr (htu.trans hst)
    · exact Or.inr htu

theorem NoNewRecord.none (h : NoNewRecord s t) (hs : s.recordCache = none) : t.recordCache = none := by
  rcases h with h | h
  · rw [h, hs]
  · exact h

theorem OnlyCache.noNewRecord (h : OnlyCache s t) : NoNewRecord s t := by
  unfold OnlyCache at h
  left
  rw [h]

theorem getInode_noNewRecord (ino : ℕ) : (getInode ino).Respects NoNewRecord := by
  refine .bind (.read _) fun hit ↦ ?_
  cases hit with
  | some i => exact .pure _
  | none =>
    refine .bind ((readInodeRaw_onlyCache ino).mono fun _ _ h ↦ h.noNewRecord) fun loaded ↦ ?_
    exact .bind (.ofOption _ _) fun _ ↦ .bind (Exec.Respects.modify fun _ ↦ Or.inl rfl) fun _ ↦ .pure _

theorem getInodeMut_noNewRecord (ino : ℕ) (change : Inode → Inode) :
    (getInodeMut ino change).Respects NoNewRecord :=
  .bind (getInode_noNewRecord ino) fun _ ↦ .bind (Exec.Respects.modify fun _ ↦ Or.inl rfl) fun _ ↦
    Exec.Respects.modify fun _ ↦ Or.inl rfl

theorem punchLogicalRange_noNewRecord (ino start stop : ℕ) :
    (punchLogicalRange ino start stop).Respects NoNewRecord := by
  unfold punchLogicalRange
  exact .ite (.pure _) (.bind (getInode_noNewRecord ino) fun _ ↦
    .bind (Exec.Respects.modify fun _ ↦ Or.inl rfl) fun _ ↦ getInodeMut_noNewRecord _ _)

theorem addExtent_noNewRecord (ino : ℕ) (ext : Extent) : (addExtent ino ext).Respects NoNewRecord :=
  .bind (getInode_noNewRecord ino) fun _ ↦ .bind (appendExtent_respects _ _) fun _ ↦ getInodeMut_noNewRecord _ _

theorem storeRecord_noNewRecord (ino record : ℕ) (data : Bytes) :
    (storeRecord ino record data).Respects NoNewRecord := by
  have alloc : ∀ want, (onAlloc (Allocator.allocate want)).Respects NoNewRecord :=
    fun want ↦ Exec.Respects.zoom fun _ _ ↦ Or.inl rfl
  have write : ∀ phys bytes, (writePhysicalBytes phys bytes).Respects NoNewRecord :=
    fun phys bytes ↦ .forEach (fun _ ↦ (onCache_onlyCache _).mono fun _ _ h ↦ h.noNewRecord) _
  unfold storeRecord
  refine .bind (.read _) fun recBlocks ↦ .ite (punchLogicalRange_noNewRecord _ _ _) ?_
  refine .bind (getInode_noNewRecord ino) fun inode ↦ .bind (.read _) fun env ↦ ?_
  dsimp only
  split_ifs
  · exact .bind (alloc _) fun phys ↦ .bind (write _ _) fun _ ↦
      .bind (punchLogicalRange_noNewRecord _ _ _) fun _ ↦ .bind (addExtent_noNewRecord _ _) fun _ ↦
      getInodeMut_noNewRecord _ _
  · exact .bind (alloc _) fun phys ↦ .bind (write _ _) fun _ ↦
      .bind (punchLogicalRange_noNewRecord _ _ _) fun _ ↦ .bind (addExtent_noNewRecord _ _) fun _ ↦
      .bind (getInodeMut_noNewRecord _ _) fun _ ↦ getInodeMut_noNewRecord _ _

theorem flushRecordCache_none (s : Inner) :
    flushRecordCache.Holds s (fun _ t ↦ t.recordCache = none) (fun _ _ ↦ True) := by
  unfold flushRecordCache
  rw [Exec.holds_bind, Exec.holds_read]
  cases hheld : s.recordCache with
  | none => exact hheld
  | some c =>
    rw [Exec.holds_bind, Exec.holds_modify]
    split_ifs
    · exact (storeRecord_noNewRecord _ _ _ _).mono (fun _ t ht ↦ ht.none rfl) (fun _ _ _ ↦ trivial)
    · rfl

theorem freeRanges_noNewRecord (ranges : List (ℕ × ℕ)) : (freeRanges ranges).Respects NoNewRecord :=
  Exec.Respects.modify fun _ ↦ Or.inl rfl

theorem demoteInline_none (ino newSize : ℕ) (now : Timespec) (hs : s.recordCache = none) :
    (demoteInline ino newSize now).Holds s (fun _ t ↦ t.recordCache = none) (fun _ _ ↦ True) := by
  unfold demoteInline
  refine (getInode_noNewRecord ino s).bind ?_ (fun _ _ _ ↦ trivial)
  intro inode t ht
  split_ifs
  · rw [Exec.holds_bind]
    refine Exec.holds_of_forall (fun data u _ ↦ ?_) (fun _ _ _ ↦ trivial)
    refine (flushRecordCache_none u).bind ?_ (fun _ _ _ ↦ trivial)
    intro _ v hv
    have hrest : ∀ x : Inode → Fs Unit, (∀ i, (x i).Respects NoNewRecord) →
        (do
          let inode ← getInode ino
          freeRanges (extentRanges inode.extents)
          x inode : Fs Unit).Respects NoNewRecord := fun x hx ↦
      .bind (getInode_noNewRecord ino) fun _ ↦ .bind (freeRanges_noNewRecord _) fun _ ↦ hx _
    exact (hrest _ (fun _ ↦ getInodeMut_noNewRecord _ _) v).mono (fun _ w hw ↦ hw.none hv) (fun _ _ _ ↦ trivial)
  · exact ht.none hs

/-- No record is held after a file has been emptied. -/
theorem truncateData_none (ino : ℕ) (s : Inner) :
    (truncateData ino 0).Holds s (fun _ t ↦ t.recordCache = none) (fun _ _ ↦ True) := by
  have keep : ∀ {x : Fs Unit} {t : Inner}, x.Respects NoNewRecord → t.recordCache = none →
      x.Holds t (fun _ u ↦ u.recordCache = none) (fun _ _ ↦ True) := by
    intro x t hx ht
    exact (hx t).mono (fun _ u hu ↦ hu.none ht) (fun _ _ _ ↦ trivial)
  unfold truncateData
  rw [Exec.holds_bind]
  refine Exec.holds_of_forall (fun _ t _ ↦ ?_) (fun _ _ _ ↦ trivial)
  rw [if_neg (Nat.not_lt_zero _)]
  refine (flushRecordCache_none t).bind ?_ (fun _ _ _ ↦ trivial)
  intro _ u hu
  refine (getInode_noNewRecord ino u).bind ?_ (fun _ _ _ ↦ trivial)
  intro inode v hv
  have hv' := hv.none hu
  have hshrink : (shrinkRaw ino 0 inode v.env.now).Respects NoNewRecord :=
    .bind (freeRanges_noNewRecord _) fun _ ↦ getInodeMut_noNewRecord _ _
  have hclear : (clearCompressed ino inode v.env.now).Respects NoNewRecord :=
    .bind (freeRanges_noNewRecord _) fun _ ↦ getInodeMut_noNewRecord _ _
  rw [Exec.holds_bind, Exec.holds_read]
  by_cases hsame : 0 = inode.size
  · rw [if_pos hsame]
    exact hv'
  rw [if_neg hsame]
  by_cases hinline : inode.dataKind = .inline
  · rw [if_pos hinline]
    exact keep (getInodeMut_noNewRecord _ _) hv'
  rw [if_neg hinline, if_pos (Nat.pos_of_ne_zero (Ne.symm hsame))]
  by_cases huses : inode.usesCompression = true
  · rw [if_pos huses, if_pos rfl]
    exact keep hclear hv'
  · rw [if_neg huses]
    refine (keep hshrink hv').bind ?_ (fun _ _ _ ↦ trivial)
    intro _ w hw
    exact demoteInline_none ino 0 _ hw

theorem dropInode_holding (ino : ℕ) : (dropInode ino).Respects Holding := by
  have hfree : ∀ start len, (freeBlocks start len).Respects Holding :=
    fun start len ↦ Exec.Respects.modify fun _ ↦ .of_same rfl rfl rfl
  have hfree' : ∀ start len, (freeBlocks start len).Respects NoNewRecord :=
    fun start len ↦ Exec.Respects.modify fun _ ↦ Or.inl rfl
  have hlast : (do
      zeroSlot ino
      Exec.when (firstUserIno ≤ ino) (Exec.modify (fun s : Inner ↦
        { s with
          freeInodes := s.freeInodes ++ [ino]
          sb := { s.sb with freeInodeCount := s.freeInodes.length + 1 } }))
      Exec.modify (fun s : Inner ↦
        { s with sb := { s.sb with inodeCount := s.sb.inodeCount - 1 } }) : Fs Unit).Respects Holding :=
    .bind (holding_of_calm (zeroSlot_calm ino)) fun _ ↦
      .bind (.when fun _ ↦ Exec.Respects.modify fun _ ↦ .of_same rfl rfl rfl) fun _ ↦
      Exec.Respects.modify fun _ ↦ .of_same rfl rfl rfl
  unfold dropInode
  refine .bind (holding_of_calm (invalidateRecordCache_calm ino)) fun _ ↦
    .bind (holding_of_calm (getInode_calm ino)) fun inode ↦ ?_
  refine Exec.Respects.bind_of (holding_of_calm (truncateData_calm ino 0)) (truncateData_none ino) ?_
  intro _ t ht
  -- no record is held when the inode leaves the memory
  have hblocks : ∀ c : Prop, [Decidable c] → ∀ start len,
      (Exec.when c (freeBlocks start len) : Fs Unit).Respects (fun s t ↦ Holding s t ∧ NoNewRecord s t) := by
    intro c _ start len s
    rw [Exec.holds_when]
    refine ⟨fun _ ↦ ⟨.of_same rfl rfl rfl, Or.inl rfl⟩, fun _ ↦ ⟨refl_of _ s, refl_of _ s⟩⟩
  refine (hblocks _ _ _ t).bind ?_ (fun _ _ h ↦ h.1)
  intro _ u hu
  refine (hblocks _ _ _ u).bind ?_ (fun _ _ h ↦ trans_of _ hu.1 h.1)
  intro _ v hv
  have hnone : v.recordCache = none := hv.2.none (hu.2.none ht)
  rw [Exec.holds_bind, Exec.holds_modify]
  have herase : Holding v { v with inodes := v.inodes.erase ino, dirtyInodes := v.dirtyInodes.erase ino } := by
    refine ⟨rfl, fun _ c hc ↦ ?_⟩
    have hc' : v.recordCache = some c := hc
    rw [hnone] at hc'
    cases hc'
  have hall : Holding t { v with inodes := v.inodes.erase ino, dirtyInodes := v.dirtyInodes.erase ino } :=
    trans_of _ hu.1 (trans_of _ hv.1 herase)
  exact (hlast _).mono (fun _ w hw ↦ trans_of _ hall hw) (fun _ w hw ↦ trans_of _ hall hw)

/-! ## The other operations -/

theorem unlinkEntry_holding (parent : ℕ) (name : Bytes) (entry : ℕ × FileType) :
    (unlinkEntry parent name entry).Respects Holding := by
  unfold unlinkEntry releaseIfUnlinked
  refine .bind (holding_of_calm (dirRemove_calm _ _)) fun _ ↦ .bind (.when fun _ ↦ dropLink_holding _ _) fun _ ↦ ?_
  refine .bind (dropLink_holding _ _) fun _ ↦ .bind (holding_of_calm (getInode_calm _)) fun child ↦ ?_
  refine .bind (.read _) fun opens ↦ .ite (.ite (dropInode_holding _) ?_) (.pure _)
  exact Exec.Respects.modify fun _ ↦ .of_same rfl rfl rfl

theorem unlinkName_holding (parent : ℕ) (name : Bytes) (rmdir : Bool) (creds : Creds) :
    (unlinkName parent name rmdir creds).Respects Holding := by
  rw [unlinkName_eq]
  exact .bind (holding_of_calm (unlinkFind_calm _ _ _ _)) fun _ ↦ unlinkEntry_holding _ _ _

theorem growInodeTable_holding : growInodeTable.Respects Holding :=
  .bind (holding_of_calm (onAlloc_calm _)) fun _ ↦ .bind (.read _) fun _ ↦
    .bind (holding_of_calm (appendTable_calm _ _ _)) fun _ ↦ Exec.Respects.modify fun _ ↦ .of_same rfl rfl rfl

theorem takeInodeNumber_holding : takeInodeNumber.Respects Holding := by
  unfold takeInodeNumber
  refine .bind (.read _) fun free ↦ ?_
  cases free.getLast? with
  | some ino => exact .bind (Exec.Respects.modify fun _ ↦ .of_same rfl rfl rfl) fun _ ↦ .pure _
  | none =>
    refine .bind (.read _) fun sb ↦ .bind (.when fun _ ↦ growInodeTable_holding) fun _ ↦ ?_
    exact .bind (holding_of_calm (addU64_calm _ _)) fun _ ↦
      .bind (Exec.Respects.modify fun _ ↦ .of_same rfl rfl rfl) fun _ ↦ .pure _

theorem createChild_holding (parent : ℕ) (name : Bytes) (mode : UInt16) (uid gid : UInt32) (rdev : UInt64)
    (creds : Creds) : (createChild parent name mode uid gid rdev creds).Respects Holding := by
  have halloc : (allocInode mode uid gid).Respects Holding :=
    .bind (holding_of_calm requireWrite_calm) fun _ ↦ .bind takeInodeNumber_holding fun _ ↦ .bind .get fun _ ↦
      .bind (putInode_holding _ _) fun _ ↦ .bind (holding_of_calm (markDirty_calm _)) fun _ ↦
      .bind (holding_of_calm (addU64_calm _ _)) fun _ ↦
      .bind (Exec.Respects.modify fun _ ↦ .of_same rfl rfl rfl) fun _ ↦ .pure _
  have hdots : ∀ ino, (do
      let child ← getInode ino
      writeDirEntries ino child [⟨ino, .directory, dotName⟩, ⟨parent, .directory, dotdotName⟩]
      addLink parent (fun now i ↦ i.touchMtime now) : Fs Unit).Respects Holding := by
    intro ino
    have h := Exec.Respects.bind (holding_of_calm
      (rewriteDir_calm ino [⟨ino, .directory, dotName⟩, ⟨parent, .directory, dotdotName⟩])) fun _ ↦
      addLink_holding parent (fun now i ↦ i.touchMtime now)
    rwa [bind_assoc] at h
  rw [createChild_eq]
  refine .bind (holding_of_calm (createFind_calm _ _ _)) fun _ ↦ .bind halloc fun ino ↦ ?_
  refine .bind (getInodeMut_holding _ _) fun _ ↦ .bind (.when fun _ ↦ hdots ino) fun _ ↦ ?_
  exact .bind (holding_of_calm (dirInsert_calm _ _ _ _)) fun _ ↦ .pure _

theorem linkInto_holding (target parent : ℕ) (name : Bytes) (creds : Creds) :
    (linkInto target parent name creds).Respects Holding := by
  unfold linkInto
  refine .bind (holding_of_calm requireWrite_calm) fun _ ↦ .bind (.ofExcept _) fun _ ↦ ?_
  refine .bind (holding_of_calm (getInode_calm _)) fun t ↦ .ite (.throw _) ?_
  refine .bind (holding_of_calm (getInode_calm _)) fun dir ↦ ?_
  refine .bind (holding_of_calm (accessOk_respects _ _ _)) fun _ ↦ ?_
  refine .bind (holding_of_calm (dirLookup_calm _ _)) fun found ↦ .ite (.throw _) ?_
  exact .bind (holding_of_calm (dirInsert_calm _ _ _ _)) fun _ ↦ addLink_holding _ _

theorem rename_holding (oldParent : ℕ) (oldName : Bytes) (newParent : ℕ) (newName : Bytes) (creds : Creds) :
    (rename oldParent oldName newParent newName creds).Respects Holding := by
  rw [rename_eq]
  refine .bind (holding_of_calm (renameFind_calm _ _ _ _ _)) fun plan ↦ ?_
  cases plan with
  | nothing => exact .pure _
  | move src replaced =>
    have hremove : (removeTarget newParent newName replaced).Respects Holding := by
      cases replaced with
      | none => exact .pure _
      | some entry => exact unlinkEntry_holding _ _ _
    have hdots : (moveDotdot src.1 oldParent newParent).Respects Holding := by
      unfold moveDotdot
      refine .bind (holding_of_calm (parseDir_calm _)) fun entries ↦ ?_
      have h := Exec.Respects.bind (holding_of_calm (rewriteDir_calm src.1
        (entries.map fun e ↦ if e.name = dotdotName then { e with ino := newParent } else e))) fun _ ↦
        Exec.Respects.bind (dropLink_holding oldParent (fun _ i ↦ i)) fun _ ↦
          addLink_holding newParent (fun _ i ↦ i)
      rwa [bind_assoc] at h
    refine .bind hremove fun _ ↦ .bind (holding_of_calm (dirRemove_calm _ _)) fun _ ↦ ?_
    exact .bind (holding_of_calm (dirInsert_calm _ _ _ _)) fun _ ↦ .when fun _ ↦ hdots

theorem decOpen_holding (ino : ℕ) : (decOpen ino).Respects Holding := by
  unfold decOpen
  refine .bind .get fun s ↦ ?_
  cases s.openCount.find? ino with
  | none => exact .pure _
  | some count =>
    refine .ite (Exec.Respects.modify fun _ ↦ .of_same rfl rfl rfl) ?_
    refine .bind (Exec.Respects.modify fun _ ↦ .of_same rfl rfl rfl) fun _ ↦ .ite ?_ (.pure _)
    refine .bind (Exec.Respects.modify fun _ ↦ .of_same rfl rfl rfl) fun _ ↦ ?_
    refine .bind (.attempt (holding_of_calm (getInode_calm ino))) fun found ↦ ?_
    exact .ite (dropInode_holding ino) (.pure _)

theorem writeInodeToTable_holding (inode : Inode) : (writeInodeToTable inode).Respects Holding := by
  have hgrow : ∀ fuel, (growUntil inode.ino fuel).Respects Holding := by
    intro fuel
    induction fuel with
    | zero => exact .pure _
    | succ fuel ih =>
      exact .bind (.read _) fun _ ↦ .ite (.pure _) (.bind growInodeTable_holding fun _ ↦ ih)
  exact .bind (hgrow _) fun _ ↦ .bind (.read _) fun _ ↦ .bind (.ofExcept _) fun _ ↦
    holding_of_calm (onCache_calm _)

theorem storeTreeBlocks_calm (extents : List Extent) (tree nblocks count b : ℕ) (remaining : List Extent) :
    (storeTreeBlocks extents tree nblocks count b remaining).Respects Calm := by
  induction count generalizing b remaining with
  | zero => exact .pure _
  | succ count ih => exact .bind (onCache_calm _) fun _ ↦ ih _ _

theorem persistInode_holding (ino : ℕ) : (persistInode ino).Respects Holding := by
  have hxattrs : ∀ inode, (storeXattrs inode).Respects Holding := by
    intro inode
    unfold storeXattrs
    refine .ite (.ite ?_ (.pure _)) (.ite (.throw _) ?_)
    · exact .bind (holding_of_calm (freeBlocks_calm _ _)) fun _ ↦ modifyInode_holding _ _
    · dsimp only
      split_ifs
      · exact .bind (holding_of_calm (onAlloc_calm _)) fun _ ↦ .bind (modifyInode_holding _ _) fun _ ↦
          .bind (.pure _) fun _ ↦ holding_of_calm (onCache_calm _)
      · exact .bind (.pure _) fun _ ↦ holding_of_calm (onCache_calm _)
  have htree : ∀ inode, (storeExtentTree inode).Respects Holding := by
    intro inode
    unfold storeExtentTree
    refine .ite (.ite ?_ (.pure _)) ?_
    · exact .bind (holding_of_calm (freeBlocks_calm _ _)) fun _ ↦ modifyInode_holding _ _
    · exact .bind (.when fun _ ↦ holding_of_calm (freeBlocks_calm _ _)) fun _ ↦
        .bind (holding_of_calm (onAlloc_calm _)) fun _ ↦
        .bind (holding_of_calm (storeTreeBlocks_calm _ _ _ _ _ _)) fun _ ↦ modifyInode_holding _ _
  unfold persistInode
  refine .bind (.read _) fun found ↦ ?_
  cases found with
  | none => exact .pure _
  | some inode =>
    exact .bind (hxattrs _) fun _ ↦ .bind (htree _) fun _ ↦ .bind (.read _) fun _ ↦
      writeInodeToTable_holding _

theorem onImage_holding {α : Type} (x : Exec Error Image α) : (onImage x).Respects Holding :=
  Exec.Respects.zoom fun _ _ ↦ .of_same rfl rfl rfl

theorem flushCache_holding (order : IterOrder) : (flushCache order).Respects Holding :=
  .bind (holding_of_calm flushRecordCache_calm) fun _ ↦ holding_of_calm (onCache_calm _)

theorem flushAll_holding (order : FlushOrder) : (flushAll order).Respects Holding := by
  have hjournal : ∀ {α : Type} (x : Exec Error JournalImage α), (onJournal x).Respects Holding :=
    fun x ↦ Exec.Respects.zoom fun _ _ ↦ .of_same rfl rfl rfl
  have hmodify : ∀ {f : Inner → Inner}, (∀ s, (f s).recordBlocks = s.recordBlocks ∧
      (f s).recordCache = s.recordCache ∧ (f s).inodes = s.inodes) →
      (Exec.modify f : Fs Unit).Respects Holding :=
    fun h ↦ Exec.Respects.modify fun s ↦ .of_same (h s).1 (h s).2.1 (h s).2.2
  have hcommit : (commitDirty order).Respects Holding := by
    unfold commitDirty journalDirty
    refine .bind (holding_of_calm flushRecordCache_calm) fun _ ↦ .bind (.read _) fun _ ↦ .bind ?_ fun _ ↦ .pure _
    exact .bind (.read _) fun _ ↦ .when fun _ ↦ .bind (hjournal _) fun _ ↦ .bind (.read _) fun _ ↦ hjournal _
  have hback : ∀ dirty, (writeBack order dirty).Respects Holding := by
    intro dirty
    unfold writeBack writeAllocator writeSuperblock shrinkImage
    refine .bind (.forEach persistInode_holding _) fun _ ↦ .bind (hmodify fun _ ↦ ⟨rfl, rfl, rfl⟩) fun _ ↦ ?_
    refine .bind (holding_of_calm (onCache_calm _)) fun _ ↦ .bind ?_ fun _ ↦ .bind ?_ fun _ ↦ .bind ?_ fun _ ↦ ?_
    · exact .bind (.read _) fun _ ↦ .bind (hmodify fun _ ↦ ⟨rfl, rfl, rfl⟩) fun _ ↦ .bind (.read _) fun _ ↦
        .bind (holding_of_calm (onAlloc_calm _)) fun _ ↦ hmodify fun _ ↦ ⟨rfl, rfl, rfl⟩
    · exact .bind (.read _) fun _ ↦ .bind (onImage_holding _) fun _ ↦ onImage_holding _
    · exact .bind (holding_of_calm (onAlloc_calm _)) fun _ ↦ hmodify fun _ ↦ ⟨rfl, rfl, rfl⟩
    · exact .bind (.read _) fun _ ↦ .when fun _ ↦ onImage_holding _
  unfold flushAll
  exact .bind (.read _) fun _ ↦ .ite (.pure _) (.bind hcommit fun _ ↦ hback _)

end Inner

namespace Operation

open LinuxFile.Inner

theorem discard_holding {α : Type} {x : Fs α} (h : x.Respects Calm) : (discard x).Respects Holding :=
  .bind (holding_of_calm h) fun _ ↦ .pure _

theorem exec_holding (op : Operation) : op.exec.Respects Holding := by
  cases op with
  | readData ino offset count => exact discard_holding (readData_calm ino offset count)
  | writeData ino offset buf => exact discard_holding (writeData_calm ino offset buf)
  | truncateData ino newSize => exact holding_of_calm (truncateData_calm ino newSize)
  | setInodeCompression ino compression =>
    exact .bind (holding_of_calm requireWrite_calm) fun _ ↦ .bind (holding_of_calm flushRecordCache_calm) fun _ ↦
      .bind (.read _) fun _ ↦ getInodeMut_holding _ _
  | readDirEntries ino => exact discard_holding (parseDir_calm ino)
  | walk args depth cwd path => exact discard_holding (walk_calm args depth cwd path)
  | createChild parent name mode uid gid rdev creds =>
    exact .bind (createChild_holding parent name mode uid gid rdev creds) fun _ ↦ .pure _
  | unlinkName parent name rmdir creds => exact unlinkName_holding parent name rmdir creds
  | linkInto target parent name creds => exact linkInto_holding target parent name creds
  | rename oldParent oldName newParent newName creds =>
    exact rename_holding oldParent oldName newParent newName creds
  | chmod ino mode creds =>
    exact .bind (holding_of_calm requireWrite_calm) fun _ ↦ .bind (holding_of_calm (getInode_calm ino)) fun _ ↦
      .bind .get fun _ ↦ .ite (.throw _) (getInodeMut_holding _ _)
  | chown ino uid gid creds =>
    exact .bind (holding_of_calm requireWrite_calm) fun _ ↦ .bind (holding_of_calm (getInode_calm ino)) fun _ ↦
      .bind .get fun _ ↦ .ite (.throw _) (getInodeMut_holding _ _)
  | setTimes ino times =>
    exact .bind (holding_of_calm requireWrite_calm) fun _ ↦ .bind (.read _) fun _ ↦ getInodeMut_holding _ _
  | stat ino => exact discard_holding (.bind (getInode_calm ino) fun _ ↦ .pure _)
  | getxattr ino name => exact discard_holding (.bind (getInode_calm ino) fun _ ↦ .ofOption _ _)
  | listxattr ino => exact discard_holding (.bind (getInode_calm ino) fun _ ↦ .pure _)
  | setxattr ino name value flags =>
    exact .bind (holding_of_calm requireWrite_calm) fun _ ↦ .ite (.throw _)
      (.bind (holding_of_calm (getInode_calm ino)) fun _ ↦ .ite (.throw _) (.ite (.throw _)
        (.bind (.read _) fun _ ↦ getInodeMut_holding _ _)))
  | removexattr ino name =>
    exact .bind (holding_of_calm requireWrite_calm) fun _ ↦ .bind (holding_of_calm (getInode_calm ino)) fun _ ↦
      .bind (.read _) fun _ ↦ .ite (.bind (getInodeMut_holding _ _) fun _ ↦ .throw _) (getInodeMut_holding _ _)
  | incOpen ino =>
    exact .bind (.read _) fun _ ↦ .bind (holding_of_calm (addU32_respects _ _)) fun _ ↦
      Exec.Respects.modify fun _ ↦ .of_same rfl rfl rfl
  | decOpen ino => exact decOpen_holding ino
  | dropInode ino => exact dropInode_holding ino
  | flushCache order => exact flushCache_holding order
  | flushCacheData order => exact .bind (flushCache_holding order) fun _ ↦ onImage_holding _
  | flushAll order => exact flushAll_holding order
  | sync order => exact .bind (flushAll_holding order) fun _ ↦ onImage_holding _

end Operation

namespace Inner

/-- Records have blocks, and the inode of a held record is in memory. -/
structure RecordsOk (s : Inner) : Prop where
  pos : 0 < s.recordBlocks
  held : s.HeldIn

theorem normalizeRecordBlocks_pos (n : ℕ) : 0 < normalizeRecordBlocks n :=
  lt_of_lt_of_le Nat.zero_lt_two (le_max_right _ 2)

theorem Holding.recordsOk {s t : Inner} (h : Holding s t) (hs : s.RecordsOk) : t.RecordsOk :=
  ⟨by rw [h.recordBlocks]; exact hs.pos, h.held hs.held⟩

theorem format_holding (order : FlushOrder) : (format order).Respects Holding := by
  have hinit : initRoot.Respects Holding := by
    unfold initRoot
    refine .bind .get fun s ↦ .bind ?_ fun _ ↦ .bind (holding_of_calm (markDirty_calm _)) fun _ ↦
      Exec.Respects.modify fun _ ↦ .of_same rfl rfl rfl
    unfold writeDirEntries
    exact .bind (putInode_holding _ _) fun _ ↦ .bind (holding_of_calm (markDirty_calm _)) fun _ ↦
      .bind (holding_of_calm (truncateData_calm _ _)) fun _ ↦
      .bind (holding_of_calm (writeData_calm _ _ _)) fun _ ↦ .pure _
  have htable : initTable.Respects Holding :=
    .bind (holding_of_calm (onAlloc_calm _)) fun _ ↦ Exec.Respects.modify fun _ ↦ .of_same rfl rfl rfl
  have himage : ∀ {α : Type} (x : Exec Error Image α), (onImage x).Respects Holding :=
    fun x ↦ Exec.Respects.zoom fun _ _ ↦ .of_same rfl rfl rfl
  unfold format
  exact .bind (.read _) fun _ ↦ .ite .abort (.bind (himage _) fun _ ↦ .bind htable fun _ ↦
    .bind hinit fun _ ↦ flushAll_holding order)

theorem rebuildFreeInodes_holding : rebuildFreeInodes.Respects Holding := by
  have hscan : ∀ acc ino, (scanInode acc ino).Respects Holding := by
    intro acc ino
    unfold scanInode
    refine .bind (.attempt (holding_of_calm ((readInodeRaw_onlyCache ino).mono fun _ _ h ↦ h.calm))) fun found ↦ ?_
    split
    · exact .pure _
    · exact .pure _
  have hfold : ∀ items acc, (Exec.foldE scanInode acc items : Fs (ℕ × List ℕ)).Respects Holding := by
    intro items
    induction items with
    | nil => exact fun acc ↦ .pure acc
    | cons ino rest ih => exact fun acc ↦ .bind (hscan acc ino) fun next ↦ ih next
  exact .bind (.read _) fun _ ↦ .bind (hfold _ _) fun _ ↦ Exec.Respects.modify fun _ ↦ .of_same rfl rfl rfl

theorem Mounted.recordsOk {s : Inner} (h : Mounted s) : s.RecordsOk := by
  cases h with
  | @created opts env uuid faults order _ hcreate =>
    refine ((format_holding order).of_ok hcreate).recordsOk ⟨normalizeRecordBlocks_pos _, ?_⟩
    intro c hc
    cases hc
  | @opened writable cacheBlocks sync env image rest _ hopen =>
    obtain ⟨inner, img, hload, hrebuild⟩ := Exec.bind_ok_iff.mp hopen
    have hmounted : ∀ image sb alloc, (mounted image sb alloc writable cacheBlocks sync env).RecordsOk := by
      intro image sb alloc
      refine ⟨?_, fun c hc ↦ by cases hc⟩
      unfold mounted
      dsimp only
      split_ifs
      · decide
      · exact normalizeRecordBlocks_pos _
    have hinner : inner.RecordsOk := by
      obtain ⟨_, _, -, hload⟩ := Exec.bind_ok_iff.mp hload
      obtain ⟨sb, _, -, hload⟩ := Exec.bind_ok_iff.mp hload
      obtain ⟨_, _, -, hload⟩ := Exec.bind_ok_iff.mp hload
      dsimp only at hload
      split_ifs at hload
      · obtain ⟨alloc, _, -, hload⟩ := Exec.bind_ok_iff.mp hload
        cases hload
        exact hmounted _ _ _
      · cases hload
        exact hmounted _ _ _
    cases hfree : rebuildFreeInodes inner with
    | ok value t =>
      rw [hfree] at hrebuild
      cases hrebuild
      exact (rebuildFreeInodes_holding.of_ok hfree).recordsOk hinner
    | err e t =>
      rw [hfree] at hrebuild
      cases hrebuild
    | panic =>
      rw [hfree] at hrebuild
      cases hrebuild

theorem Reachable.recordsOk {s : Inner} (h : s.Reachable) : s.RecordsOk := by
  obtain ⟨first, calls, hfirst, hruns⟩ := h
  have hstep : ∀ s op, s.RecordsOk → True →
      (Operation.exec op).Holds s (fun _ t ↦ t.RecordsOk) (fun _ t ↦ t.RecordsOk) := by
    intro s op hs _
    exact (Operation.exec_holding op s).mono (fun _ _ h ↦ h.recordsOk hs) (fun _ _ h ↦ h.recordsOk hs)
  exact (hruns.invariant (I := RecordsOk) (C := fun _ ↦ True) hfirst.recordsOk (fun _ _ ↦ trivial) hstep).1

end Inner

end LinuxFile
