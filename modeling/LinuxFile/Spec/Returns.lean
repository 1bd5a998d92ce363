import LinuxFile.Inner.Mount
import LinuxFile.Library.Made
import LinuxFile.Spec.Calm
import LinuxFile.Spec.Records
import LinuxFile.Spec.Sound

/-!
# What cannot abort

The block cache, the allocator and the reading of inodes always have a result. A length of 32 bits overflows only
where an extent is added behind another one, and that takes an extent of almost all blocks that a file can have.
-/

namespace LinuxFile

namespace Image

theorem hostCall_returns : hostCall.Returns := by
  intro img
  unfold hostCall
  split <;> exact fun h ↦ nomatch h

theorem setLen_returns (n : ℕ) : (setLen n).Returns :=
  .bind (.read _) fun _ ↦ .ite (.throw _) (.bind hostCall_returns fun _ ↦ .modify _)

theorem growTo_returns (n : ℕ) : (growTo n).Returns :=
  .bind (.read _) fun _ ↦ .ite (.pure ()) (setLen_returns _)

theorem shrinkTo_returns (n : ℕ) : (shrinkTo n).Returns :=
  .bind (.read _) fun _ ↦ .ite (.pure ()) (setLen_returns _)

theorem readBlock_returns (b : ℕ) : (readBlock b).Returns :=
  .bind (.read _) fun _ ↦ .ite (.throw _) (.bind hostCall_returns fun _ ↦ .read _)

theorem writeAllAt_returns (data : Bytes) (off : ℕ) : (writeAllAt data off).Returns :=
  .bind (.read _) fun _ ↦ .bind (.when (growTo_returns _)) fun _ ↦ .bind (.read _) fun _ ↦
    .ite (.throw _) (.bind hostCall_returns fun _ ↦ .modify _)

theorem writeBlock_returns (b : ℕ) (data : Block) : (writeBlock b data).Returns := writeAllAt_returns _ _

end Image

namespace BlockCache

open Image

theorem evictFrom_returns (blocks : List ℕ) : (evictFrom blocks).Returns := by
  induction blocks with
  | nil => exact .modify _
  | cons old rest ih =>
    apply Exec.Returns.bind (.read _)
    intro entry
    cases entry with
    | none => exact ih
    | some entry => exact .bind (.modify _) fun _ ↦ .ite (.zoom (writeBlock_returns _ _)) (.pure ())

theorem makeRoom_returns : makeRoom.Returns :=
  .bind (.read _) fun _ ↦ .ite (.bind (.read _) fun lru ↦ evictFrom_returns lru) (.pure ())

theorem get_returns (b : ℕ) : (get b).Returns := by
  have fetch : (fetch b).Returns := .bind (.read _) fun _ ↦
    .ite (.zoom (readBlock_returns b)) (.bind (.zoom (growTo_returns _)) fun _ ↦ .pure _)
  apply Exec.Returns.bind (.read _)
  intro hit
  cases hit with
  | some entry => exact .bind (.modify _) fun _ ↦ .pure _
  | none => exact .bind makeRoom_returns fun _ ↦ .bind fetch fun _ ↦ .bind (.modify _) fun _ ↦ .pure _

theorem getMut_returns (b : ℕ) (change : Block → Block) : (getMut b change).Returns :=
  .bind (get_returns b) fun _ ↦ .modify _

theorem insertDirty_returns (b : ℕ) (data : Block) : (insertDirty b data).Returns :=
  .bind (.read _) fun _ ↦ .bind (.when makeRoom_returns) fun _ ↦ .modify _

theorem flush_returns (order : IterOrder) : (flush order).Returns := by
  have flushBlock : ∀ b, (flushBlock b).Returns := by
    intro b
    apply Exec.Returns.bind (.read _)
    intro entry
    cases entry with
    | none => exact .pure ()
    | some entry => exact .ite (.bind (.zoom (writeBlock_returns _ _)) fun _ ↦ .modify _) (.pure ())
  exact .bind (.read _) fun _ ↦ .forEach flushBlock _

end BlockCache

namespace Allocator

open Image

/-- The place of the next `n` blocks. -/
def place (a : Allocator) (n : ℕ) : ℕ := ((bestFit n a.free.entries none).map Prod.fst).getD a.totalBlocks

theorem allocate_place (n : ℕ) (d : AllocImage) :
    (allocate n).Holds d (fun start _ ↦ start = d.alloc.place n) (fun _ _ ↦ True) := by
  unfold allocate place
  split_ifs
  · trivial
  · rw [Exec.holds_bind, Exec.holds_read]
    cases bestFit n d.alloc.free.entries none with
    | some found => exact rfl
    | none =>
      dsimp only
      rw [Exec.holds_bind]
      exact Exec.holds_of_forall (fun _ _ _ ↦ rfl) (fun _ _ _ ↦ trivial)

theorem allocate_returns (want : ℕ) : (allocate want).Returns := by
  apply Exec.Returns.ite (.throw _)
  apply Exec.Returns.bind (.read _)
  intro a
  cases bestFit want a.free.entries none with
  | some found => exact .bind (.modify _) fun _ ↦ .pure _
  | none =>
    exact .bind (.zoom (growTo_returns _)) fun _ ↦ .bind (.read _) fun _ ↦ .bind (.modify _) fun _ ↦ .pure _

theorem releaseSnapshot_returns (existing : ℕ) : (releaseSnapshot existing).Returns := by
  apply Exec.Returns.ite (.pure ())
  apply Exec.Returns.bind (.read _)
  intro len
  apply Exec.Returns.ite _ (.pure ())
  apply Exec.Returns.bind (.zoom (readBlock_returns _))
  intro hdr
  exact .ite (.ite (.modify _) (.pure ())) (.pure ())

theorem writeAllocBlocks_returns (existing : ℕ) : (writeAllocBlocks existing).Returns :=
  .bind (releaseSnapshot_returns existing) fun _ ↦ .bind (.read _) fun _ ↦ .bind (allocate_returns _) fun _ ↦
    .bind (.read _) fun _ ↦ .bind (.forEach (fun _ ↦ .zoom (writeBlock_returns _ _)) _) fun _ ↦ .pure _

theorem maybeShrink_returns : maybeShrink.Returns := by
  apply Exec.Returns.bind (.read _)
  intro a
  cases a.free.last? with
  | none => exact .pure _
  | some last =>
    apply Exec.Returns.ite (.pure _)
    apply Exec.Returns.ite (.pure _)
    apply Exec.Returns.ite (.pure _)
    exact .bind (.zoom (shrinkTo_returns _)) fun _ ↦ .bind (.modify _) fun _ ↦ .pure _

end Allocator

namespace Inner

theorem getInode_returns (ino : ℕ) : (getInode ino).Returns := by
  have load : (readInodeRaw ino).Returns := (readInodeRaw_made ino).returns fun x hx ↦ by
    obtain ⟨b, rfl⟩ := hx
    exact .zoom (BlockCache.get_returns b)
  apply Exec.Returns.bind (.read _)
  intro hit
  cases hit with
  | some i => exact .pure i
  | none => exact .bind load fun _ ↦ .bind (.ofOption _ _) fun _ ↦ .bind (.modify _) fun _ ↦ .pure _

theorem getInodeMut_returns (ino : ℕ) (change : Inode → Inode) : (getInodeMut ino change).Returns :=
  .bind (getInode_returns ino) fun _ ↦ .bind (.modify _) fun _ ↦ .modify _

theorem punchLogicalRange_returns (ino start stop : ℕ) : (punchLogicalRange ino start stop).Returns :=
  .ite (.pure ()) (.bind (getInode_returns ino) fun _ ↦ .bind (.modify _) fun _ ↦ getInodeMut_returns _ _)

theorem writePhysicalBytes_returns (phys : ℕ) (data : Bytes) : (writePhysicalBytes phys data).Returns :=
  .forEach (fun _ ↦ .zoom (BlockCache.insertDirty_returns _ _)) _

/-! ## Adding an extent -/

variable {s t : Inner} {i j : Inode} {ino : ℕ}

/-- `ext` continues the last extent, and together they are too long for 32 bits. -/
def Overlong (extents : List Extent) (ext : Extent) : Prop :=
  ∃ last, extents.getLast? = some last ∧ continues last ext = true ∧ u32Limit ≤ last.length + ext.length

theorem addU32_panics_iff {a b : ℕ} : (addU32 a b : Fs ℕ) s = .panic ↔ u32Limit ≤ a + b := by
  unfold addU32
  constructor
  · intro h
    by_contra hlt
    rw [if_neg hlt] at h
    cases h
  · intro h
    rw [if_pos h]
    rfl

theorem appendExtent_panics_iff {extents : List Extent} {ext : Extent} (hwf : ∀ e ∈ extents, e.Wf i) :
    appendExtent extents ext s = .panic ↔ Overlong extents ext := by
  unfold appendExtent Overlong
  cases hlast : extents.getLast? with
  | none => simp [Exec.pure_apply]
  | some last =>
    dsimp only
    by_cases hcont : continues last ext = true
    · have hparts := hcont
      simp only [continues, Bool.and_eq_true, beq_iff_eq] at hparts
      obtain ⟨⟨⟨⟨-, hphys⟩, hraw⟩, -⟩, -⟩ := hparts
      have hlength := (hwf last (List.mem_of_getLast? hlast)).raw hraw
      rw [if_pos hcont]
      constructor
      · intro hpanic
        by_contra hfits
        have hlt : last.length + ext.length < u32Limit := by
          by_contra hover
          exact hfits ⟨last, rfl, hcont, Nat.le_of_not_lt hover⟩
        revert hpanic
        apply Exec.bind_ne_panic fun h ↦ absurd (addU32_panics_iff.mp h) (not_le.mpr hlt)
        intro length t _
        split_ifs
        · refine Exec.bind_ne_panic (fun h ↦ ?_) fun _ u _ ↦ Exec.Returns.pure _ u
          have hover := addU32_panics_iff.mp h
          omega
        · exact Exec.Returns.bind (.pure _) (fun _ ↦ .pure _) t
      · rintro ⟨other, hother, -, hover⟩
        cases hother
        rw [Exec.bind_apply, addU32_panics_iff.mpr hover]
    · rw [if_neg hcont]
      constructor
      · intro hpanic
        cases hpanic
      · rintro ⟨other, hother, hcont', -⟩
        cases hother
        exact absurd hcont' hcont

theorem addExtent_ne_panic (hmem : s.inodes.find? ino = some i) {ext : Extent} (hwf : ∀ e ∈ i.extents, e.Wf j)
    (hfits : ¬Overlong i.extents ext) : addExtent ino ext s ≠ .panic := by
  unfold addExtent
  rw [Exec.bind_eq_of_ok (getInode_mem hmem)]
  exact Exec.bind_ne_panic (fun h ↦ hfits ((appendExtent_panics_iff hwf).mp h)) fun _ t _ ↦ getInodeMut_returns _ _ t

theorem addExtent_fits (hmem : s.inodes.find? ino = some i) {ext : Extent} (hwf : ∀ e ∈ i.extents, e.Wf j)
    (h : addExtent ino ext s = .ok () t) : ¬Overlong i.extents ext := by
  unfold addExtent at h
  rw [Exec.bind_eq_of_ok (getInode_mem hmem)] at h
  obtain ⟨extents, u, happend, -⟩ := Exec.bind_ok_iff.mp h
  intro hover
  rw [(appendExtent_panics_iff hwf).mpr hover] at happend
  cases happend

/-! ## Storing a record -/

section replace

variable {α : Type} {start stop : ℕ}

/-- What the record is stored in has been allocated and filled, and what was there before has been cut out. -/
theorem replaceRange_reaches (hmem : s.inodes.find? ino = some i) (hlt : start < stop) (data : Bytes) (n : ℕ) :
    (do
      let phys ← onAlloc (Allocator.allocate n)
      writePhysicalBytes phys data
      punchLogicalRange ino start stop
      pure phys : Fs ℕ).Holds s
        (fun phys t ↦ phys = s.alloc.place n ∧ t.inodes.find? ino = some (punched start stop i) ∧
          t.dirtyInodes = s.dirtyInodes.insert ino ()) (fun _ _ ↦ True) := by
  have alloc : (onAlloc (Allocator.allocate n)).Holds s
      (fun phys t ↦ phys = s.alloc.place n ∧ t.inodes = s.inodes ∧ t.dirtyInodes = s.dirtyInodes) (fun _ _ ↦ True) := by
    rw [onAlloc, Exec.holds_zoom]
    exact (Allocator.allocate_place n ⟨s.alloc, s.image⟩).mono (fun _ _ h ↦ ⟨h, rfl, rfl⟩) (fun _ _ h ↦ h)
  have fill : ∀ phys (t : Inner), t.inodes = s.inodes ∧ t.dirtyInodes = s.dirtyInodes →
      (writePhysicalBytes phys data).Holds t (fun _ u ↦ u.inodes = s.inodes ∧ u.dirtyInodes = s.dirtyInodes)
        (fun _ _ ↦ True) := by
    intro phys t ht
    refine Exec.holds_forEach (fun _ (u : Inner) ↦ u.inodes = s.inodes ∧ u.dirtyInodes = s.dirtyInodes) ?_ _ ht
    intro b _ u hu
    rw [onCache, Exec.holds_zoom]
    exact Exec.holds_of_forall (fun _ _ _ ↦ hu) (fun _ _ _ ↦ trivial)
  apply alloc.bind _ (fun _ _ he ↦ he)
  rintro phys t ⟨hphys, ht⟩
  apply (fill phys t ht).bind _ (fun _ _ he ↦ he)
  rintro _ u ⟨hinodes, hdirty⟩
  rw [← hinodes] at hmem
  rw [Exec.holds_bind_of_ok (punch_eq hmem hlt), ← hdirty]
  exact ⟨hphys, KeyMap.find?_insert_self _ _ _, rfl⟩

theorem replaceRange_returns (data : Bytes) (n : ℕ) : (do
    let phys ← onAlloc (Allocator.allocate n)
    writePhysicalBytes phys data
    punchLogicalRange ino start stop
    pure phys : Fs ℕ).Returns :=
  .bind (.zoom (Allocator.allocate_returns n)) fun _ ↦ .bind (writePhysicalBytes_returns _ _) fun _ ↦
    .bind (punchLogicalRange_returns _ _ _) fun _ ↦ .pure _

theorem replaceRange_eq (data : Bytes) (n : ℕ) (f : ℕ → Fs α) : (do
    let phys ← onAlloc (Allocator.allocate n)
    writePhysicalBytes phys data
    punchLogicalRange ino start stop
    f phys : Fs α) = (do
    let phys ← onAlloc (Allocator.allocate n)
    writePhysicalBytes phys data
    punchLogicalRange ino start stop
    pure phys : Fs ℕ) >>= f := by
  simp only [bind_assoc, pure_bind]

end replace

/-- The record is stored raw, right behind an extent that is too long for it. -/
structure RecordOverlong (s : Inner) (i : Inode) (record : ℕ) (data : Bytes) : Prop where
  nonzero : ¬data.all (· == 0) = true
  raw : (tryCompress s.env.lz4 (Compression.fromU8 i.compression) data).1.isOff = true
  overlong : Overlong (punched (record * s.recordBlocks) (record * s.recordBlocks + s.recordBlocks) i).extents
    (Extent.withPhys (record * s.recordBlocks) (s.alloc.place (max (ceilBlocks data.length) 1))
      (max (ceilBlocks data.length) 1) (max (ceilBlocks data.length) 1) 0)

theorem not_overlong_of_packed {extents : List Extent} {ext : Extent} (h : ext.compress ≠ 0) :
    ¬Overlong extents ext := by
  rintro ⟨last, -, hcont, -⟩
  simp only [continues, Bool.and_eq_true, beq_iff_eq] at hcont
  exact h hcont.1.1.1.1

theorem asU8_ne_zero {c : Compression} (h : ¬c.isOff = true) : c.asU8 ≠ 0 := by
  cases c with
  | off => exact absurd rfl h
  | lz4 => decide

/-- Storing a record always has a result, except where a length leaves 32 bits. -/
theorem storeRecord_ne_panic (hmem : s.inodes.find? ino = some i) (hwf : i.Wf) (hpos : 0 < s.recordBlocks)
    {record : ℕ} {data : Bytes} (hfits : ¬s.RecordOverlong i record data) : storeRecord ino record data s ≠ .panic := by
  have hlt : record * s.recordBlocks < record * s.recordBlocks + s.recordBlocks := by omega
  have hkept := (punched_of_wf hwf hlt).sort.wf
  have finish : ∀ ino, (getInodeMut ino (fun i ↦ { i with blocks := sectorsOf i.extents })).Returns :=
    fun ino ↦ getInodeMut_returns ino _
  unfold storeRecord
  rw [Exec.bind_apply, Exec.read_apply]
  dsimp only
  by_cases hzero : data.all (· == 0) = true
  · rw [if_pos hzero]
    exact punchLogicalRange_returns _ _ _ s
  · rw [if_neg hzero, Exec.bind_eq_of_ok (getInode_mem hmem), Exec.bind_apply, Exec.read_apply]
    dsimp only
    by_cases hoff : (tryCompress s.env.lz4 (Compression.fromU8 i.compression) data).1.isOff = true
    · rw [if_pos hoff, replaceRange_eq]
      refine Exec.bind_ne_panic_of_holds (replaceRange_returns _ _ s) (replaceRange_reaches hmem hlt _ _) ?_
      rintro phys t ⟨rfl, ht, -⟩
      refine Exec.bind_ne_panic (addExtent_ne_panic ht hkept ?_) fun _ u _ ↦ finish _ u
      exact fun hover ↦ hfits ⟨hzero, hoff, hover⟩
    · rw [if_neg hoff, replaceRange_eq]
      refine Exec.bind_ne_panic_of_holds (replaceRange_returns _ _ s) (replaceRange_reaches hmem hlt _ _) ?_
      rintro phys t ⟨rfl, ht, -⟩
      refine Exec.bind_ne_panic (addExtent_ne_panic ht hkept (not_overlong_of_packed ?_)) fun _ u _ ↦
        Exec.Returns.bind (getInodeMut_returns _ _) (fun _ ↦ finish _) u
      exact asU8_ne_zero hoff

theorem storeRecord_fits (hmem : s.inodes.find? ino = some i) (hwf : i.Wf) (hpos : 0 < s.recordBlocks)
    {record : ℕ} {data : Bytes} (h : storeRecord ino record data s = .ok () t) : ¬s.RecordOverlong i record data := by
  rintro ⟨hnonzero, hraw, hover⟩
  have hlt : record * s.recordBlocks < record * s.recordBlocks + s.recordBlocks := by omega
  have hkept := (punched_of_wf hwf hlt).sort.wf
  unfold storeRecord at h
  rw [Exec.bind_apply, Exec.read_apply] at h
  dsimp only at h
  rw [if_neg hnonzero, Exec.bind_eq_of_ok (getInode_mem hmem), Exec.bind_apply, Exec.read_apply] at h
  dsimp only at h
  rw [if_pos hraw, replaceRange_eq] at h
  obtain ⟨phys, u, hreach, h⟩ := Exec.bind_ok_iff.mp h
  obtain ⟨rfl, hu, -⟩ := (replaceRange_reaches hmem hlt data _).of_ok hreach
  obtain ⟨_, v, hadd, -⟩ := Exec.bind_ok_iff.mp h
  exact addExtent_fits hu hkept hadd hover

/-- The held record can be stored. -/
def RecordFits (s : Inner) : Prop :=
  ∀ c i, s.recordCache = some c → c.dirty = true → s.inodes.find? c.ino = some i → ¬s.RecordOverlong i c.record c.data

theorem flushRecordCache_ne_panic (h : s.Sound) (hfits : s.RecordFits) : flushRecordCache s ≠ .panic := by
  unfold flushRecordCache
  rw [Exec.bind_apply, Exec.read_apply]
  cases hc : s.recordCache with
  | none => exact Exec.Returns.pure () s
  | some c =>
    dsimp only
    rw [Exec.bind_apply, Exec.modify_apply]
    dsimp only
    split_ifs with hdirty
    · obtain ⟨i, hi, -⟩ := (h.held c hc).owner
      exact storeRecord_ne_panic (s := { s with recordCache := none }) hi (h.wf hi) h.inv.geometry.records.1
        fun hover ↦ hfits c i hc hdirty hi ⟨hover.nonzero, hover.raw, hover.overlong⟩
    · exact Exec.Returns.pure () _

theorem flushRecordCache_fits (h : s.Sound) (hflush : flushRecordCache s = .ok () t) : s.RecordFits := by
  intro c i hc hdirty hi
  unfold flushRecordCache at hflush
  rw [Exec.bind_apply, Exec.read_apply] at hflush
  dsimp only at hflush
  rw [hc] at hflush
  dsimp only at hflush
  rw [Exec.bind_apply, Exec.modify_apply] at hflush
  dsimp only at hflush
  rw [if_pos hdirty] at hflush
  rintro ⟨hnonzero, hraw, hover⟩
  exact storeRecord_fits (s := { s with recordCache := none }) hi (h.wf hi) h.inv.geometry.records.1 hflush
    ⟨hnonzero, hraw, hover⟩

end Inner

end LinuxFile
