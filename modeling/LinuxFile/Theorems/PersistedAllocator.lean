import LinuxFile.Spec.Snapshot
import LinuxFile.Spec.Space
import LinuxFile.Theorems.Orphans

/-!
# The allocator on the image

`flush_all` stores the allocator and the superblock and only then cuts free blocks off the end of the image. What the
image says is the allocator in memory exactly when there is nothing to cut off and the encoding fits its length field.
-/

namespace LinuxFile

open Ledger

namespace Inner

variable {s t u : Inner} {live : KeyMap Inode}

/-- The superblock and the snapshot on the image are those of the allocator in memory, and the image is long enough. A
host that answers is assumed for reading. -/
def AllocPersisted (t : Inner) : Prop :=
  ∃ sb img, Superblock.decode (t.image.block 0) = .ok sb ∧ sb.totalBlocks = t.alloc.totalBlocks ∧
    Allocator.readAllocBlocks sb.allocBlock { t.image with faults := [] } = .ok t.alloc img ∧
    t.alloc.totalBlocks * blockSize ≤ t.image.len

/-- `flush_all` up to the step that cuts off trailing free blocks. -/
def flushUnshrunk (order : FlushOrder) : Fs Unit := do
  let dirty ← commitDirty order
  Exec.forEach persistInode dirty
  Exec.modify (fun s ↦ { s with dirtyInodes := KeyMap.empty })
  onCache (BlockCache.flush order.blocks)
  writeAllocator
  writeSuperblock

/-- The state `flush_all` shrinks: allocator and superblock have just been stored. -/
structure Unshrunk (u : Inner) (n : ℕ) : Prop where
  inv : ∃ live, u.Inv live []
  clean : ∀ b, ¬u.disk.DirtyAt b
  recorded : u.image.block 0 = u.sb.encode
  total : u.sb.totalBlocks = u.alloc.totalBlocks
  placed : u.sb.allocBlock ≠ 0
  positive : 0 < n
  blocks : ∀ i, i < n → u.image.block (u.sb.allocBlock + i) = Allocator.snapshotBlock u.alloc.encode n i
  room : u.alloc.encode.length ≤ n * Allocator.perBlock
  small : n * Allocator.perBlock ≤ u.alloc.encode.length + 80 + Allocator.perBlock

theorem writeAllocator_stores (s : Inner) : writeAllocator.Holds s
    (fun _ t ↦ ∃ n, 0 < n ∧
      (∀ i, i < n → t.image.block (t.sb.allocBlock + i) = Allocator.snapshotBlock t.alloc.encode n i) ∧
      t.alloc.encode.length ≤ n * Allocator.perBlock ∧
      n * Allocator.perBlock ≤ t.alloc.encode.length + 80 + Allocator.perBlock) (fun _ _ ↦ True) := by
  unfold writeAllocator
  rw [Exec.holds_bind, Exec.holds_read, Exec.holds_bind, Exec.holds_modify, Exec.holds_bind, Exec.holds_read,
    Exec.holds_bind, onAlloc, Exec.holds_zoom]
  exact Allocator.writeAllocBlocks_stores s.sb.allocBlock ⟨s.alloc, s.image⟩

theorem writeSuperblock_others (s : Inner) : writeSuperblock.Holds s
    (fun _ t ↦ ∀ b, b ≠ 0 → b ≠ s.sb.backupBlock → t.image.block b = s.image.block b) (fun _ _ ↦ True) := by
  unfold writeSuperblock
  rw [Exec.holds_bind, Exec.holds_read, Exec.holds_bind, writeSuperblock_eq, onImage, Exec.holds_zoom]
  refine (Image.writeBlock_spec s.image 0 _).mono ?_ (fun _ _ _ ↦ trivial)
  intro _ img hfirst
  rw [onImage, Exec.holds_zoom]
  refine (Image.writeBlock_spec img s.sb.backupBlock _).mono ?_ (fun _ _ _ ↦ trivial)
  intro _ img' hsecond b hzero hbackup
  exact (hsecond.2.2 b hbackup).trans (hfirst.2.2 b hzero)

/-- What the flush has stored when it comes to shrinking, and the space that is left then. -/
theorem flushUnshrunk_spec (h : s.Sound) (order : FlushOrder) :
    (flushUnshrunk order).Holds s (fun _ u ↦ (∃ n, Unshrunk u n) ∧ u.space = s.flushSpace order) (fun _ _ ↦ True) := by
  unfold flushUnshrunk
  refine ((commitDirty_spec h.inv order).and (commitDirty_space h order)).bind ?_ (fun _ _ _ ↦ trivial)
  rintro items t ⟨⟨live₁, hcommitted⟩, hitems, hspace, hold, hinodes⟩
  refine ((persistAll_spec hcommitted.inv items hcommitted.nodup hcommitted.items).and
    (persistAll_space hcommitted.inv items hcommitted.nodup hcommitted.items)).bind ?_ (fun _ _ _ ↦ trivial)
  rintro _ t₁ ⟨⟨-, ⟨live₂, dirty, hinv₁, -, -, hdirty⟩, -, -, -⟩, hspace₁, hold₁⟩
  have hempty : dirty = KeyMap.empty := by
    apply KeyMap.eq_of_find?_eq
    intro k
    cases hk : dirty.find? k with
    | none => rfl
    | some v => exact absurd ((hdirty k).mp (KeyMap.contains_iff.mpr ⟨v, hk⟩)) (by simp)
  rw [hempty] at hinv₁
  rw [Exec.holds_bind, Exec.holds_modify, Exec.holds_bind, onCache, Exec.holds_zoom]
  have hinv₂ : ({ t₁ with dirtyInodes := KeyMap.empty } : Inner).Inv live₂ [] := hinv₁
  refine ((BlockCache.flush_spec order.blocks t₁.disk).and
    (BlockCache.flush_len order.blocks hinv₂.geometry.waiting)).mono ?_ (fun _ _ _ ↦ trivial)
  rintro _ d ⟨⟨hquiet, hclean⟩, hlen⟩
  have hinv₃ := hinv₂.quiet hquiet
  have hspace₃ : (withDisk { t₁ with dirtyInodes := KeyMap.empty } d).space = t₁.space := congrArg (Space.mk t₁.alloc) hlen
  have hold₃ : (withDisk { t₁ with dirtyInodes := KeyMap.empty } d).oldSnapshot = s.oldSnapshot :=
    Eq.trans (oldSnapshot_of_step hinv₂ rfl hquiet fun _ hw ↦ hw) (hold₁.trans hold)
  refine (((writeAllocator_spec hinv₃ hclean).and (writeAllocator_stores _)).and (writeAllocator_space hinv₃)).bind ?_
    (fun _ _ _ ↦ trivial)
  rintro _ t₄ ⟨⟨⟨-, hinv₄, -, hclean₄, -, hplaced, hsame₄⟩, n, hpos, hblocks, hroom, hsmall⟩, hspace₄⟩
  have htotal : t₄.sb.totalBlocks = t₄.alloc.totalBlocks := by rw [hsame₄]
  refine (((writeSuperblock_spec hinv₄).and (writeSuperblock_others _)).and (writeSuperblock_space hinv₄)).mono ?_
    (fun _ _ _ ↦ trivial)
  rintro _ u ⟨⟨⟨hinv, -, hdirty, hrecorded, -, hsame⟩, hothers⟩, hspace₅⟩
  have hend : u.space = s.flushSpace order := by
    unfold flushSpace
    rw [hspace₅, hspace₄, hspace₃, hold₃, hspace₁, hspace, hitems, hinodes]
  have hsb : u.sb = t₄.sb := by rw [hsame]
  have halloc : u.alloc = t₄.alloc := by rw [hsame]
  refine ⟨⟨n, ⟨live₂, hinv⟩, fun b hb ↦ hclean₄ b (hdirty b hb), by rw [hsb, hrecorded], by rw [hsb, halloc, htotal],
    by rwa [hsb], hpos, fun i hi ↦ ?_, by rwa [halloc], by rwa [halloc]⟩, hend⟩
  -- the superblock and its copy are written below the data area
  have hin := hinv₄.lt_total (b := t₄.sb.allocBlock) (by
    have hself := cover_mapRanges_self hplaced
    unfold load
    omega)
  have hfirst := hinv₄.geometry.first
  have hdata := hinv₄.geometry.data
  have hbackup : t₄.sb.backupBlock = 1 + t₄.sb.journalBlocks := rfl
  rw [hsb, halloc, hothers _ (by omega) (by omega)]
  exact hblocks i hi

/-! ## Shrinking -/

theorem flushAll_splits {order : FlushOrder} (hwritable : s.writable = true) (h : flushAll order s = .ok () t) :
    ∃ u v faults, flushUnshrunk order s = .ok () u ∧ shrinkImage u = .ok () v ∧
      t = { v with image := { v.image with faults := faults } } := by
  have hsplit : commitDirty order >>= writeBack order = flushUnshrunk order >>= fun _ ↦ shrinkImage >>= fun _ ↦
      (do
        let mode ← Exec.read (·.syncMode)
        Exec.when (mode = .full) (onImage Image.sync)) := by
    unfold flushUnshrunk writeBack
    simp only [bind_assoc]
  rw [flushAll_eq hwritable, hsplit] at h
  obtain ⟨_, u, hu, h⟩ := Exec.bind_ok_iff.mp h
  obtain ⟨_, v, hv, h⟩ := Exec.bind_ok_iff.mp h
  rw [Exec.bind_eq_of_ok (Exec.read_apply _ v)] at h
  obtain ⟨faults, ht⟩ := (sync_spec v v.syncMode).of_ok h
  exact ⟨u, v, faults, hu, hv, ht⟩

theorem shrinkImage_keeps (hkeep : ¬u.alloc.Truncates) (h : shrinkImage u = .ok () t) :
    t.image = u.image ∧ t.alloc = u.alloc ∧ t.sb.totalBlocks = u.alloc.totalBlocks := by
  have hstep : onAlloc Allocator.maybeShrink u = .ok false u := by
    have hnot : ¬(AllocImage.mk u.alloc u.image).alloc.Truncates := hkeep
    unfold onAlloc Exec.zoom
    rw [Allocator.maybeShrink_keeps hnot]
  unfold shrinkImage at h
  rw [Exec.bind_eq_of_ok hstep, Exec.modify_apply] at h
  cases h
  exact ⟨rfl, rfl, rfl⟩

theorem shrinkImage_truncates (htruncates : u.alloc.Truncates) (h : shrinkImage u = .ok () t) :
    t.alloc.totalBlocks < u.alloc.totalBlocks := by
  have hshrink : shrinkImage.Holds u (fun _ t ↦ t.alloc.totalBlocks < u.alloc.totalBlocks) (fun _ _ ↦ True) := by
    unfold shrinkImage
    rw [Exec.holds_bind, onAlloc, Exec.holds_zoom]
    exact (Allocator.maybeShrink_truncates (d := ⟨u.alloc, u.image⟩) htruncates).mono (fun _ _ hd ↦ hd)
      (fun _ _ _ ↦ trivial)
  exact hshrink.of_ok h

/-- A snapshot whose count fits its field lies inside the data area. -/
theorem Inv.snapshotAt (h : t.Inv live []) {n : ℕ} {bytes : Bytes} (hplaced : t.sb.allocBlock ≠ 0) (hpos : 0 < n)
    (hcount : n < u32Limit) (hroom : bytes.length ≤ n * Allocator.perBlock)
    (hblocks : ∀ i, i < n → t.sb.allocBlock + i < t.alloc.totalBlocks →
      t.image.block (t.sb.allocBlock + i) = Allocator.snapshotBlock bytes n i) :
    Allocator.SnapshotAt t.sb.allocBlock n bytes t.image := by
  have hstart := h.lt_total (b := t.sb.allocBlock) (by
    have hself := cover_mapRanges_self hplaced
    unfold load
    omega)
  have hheader : (t.image.block t.sb.allocBlock).getU32 4 = n := by
    have hfirst := hblocks 0 hpos hstart.2
    rw [Nat.add_zero] at hfirst
    rw [hfirst, Allocator.snapshotBlock_count]
    exact Nat.mod_eq_of_lt hcount
  have hmap : t.mapRanges = [(t.sb.allocBlock, n)] := by
    rw [mapRanges, if_neg hplaced, hheader, Nat.max_eq_left hpos]
  have hlast : 0 < cover t.mapRanges (t.sb.allocBlock + (n - 1)) := by
    rw [hmap, cover_cons, cover_nil, span_eq_one (by omega)]
    omega
  have hin := h.lt_total (b := t.sb.allocBlock + (n - 1)) (by
    unfold load
    omega)
  refine ⟨fun i hi ↦ hblocks i hi (by omega), ?_, hroom⟩
  calc (t.sb.allocBlock + n) * blockSize ≤ t.alloc.totalBlocks * blockSize := Nat.mul_le_mul_right _ (by omega)
    _ ≤ t.image.len := h.geometry.backed

namespace Unshrunk

variable {n : ℕ}

/-- The superblock that is read is the one in memory, with the blocks counted before shrinking. -/
theorem decodes (h : Unshrunk u n) (hrange : u.sb.InRange) (hblock : t.image.block 0 = u.image.block 0) :
    Superblock.decode (t.image.block 0) = .ok u.sb.truncated := by
  rw [hblock, h.recorded]
  exact Superblock.decode_encode_truncated u.sb hrange

/-- A superblock that counts blocks which are gone. -/
theorem not_persisted (h : Unshrunk u n) (hrange : u.sb.InRange) (hblock : t.image.block 0 = u.image.block 0)
    (hless : t.alloc.totalBlocks < u.alloc.totalBlocks) : ¬t.AllocPersisted := by
  rintro ⟨sb, img, hdecode, htotal, -⟩
  rw [h.decodes hrange hblock] at hdecode
  cases hdecode
  have hold : u.sb.truncated.totalBlocks = u.alloc.totalBlocks := h.total
  omega

end Unshrunk

/-- What a completed flush went through: the state before shrinking, and the end. -/
structure Shrinks (order : FlushOrder) (s u t : Inner) : Prop where
  unshrunk : flushUnshrunk order s = .ok () u
  stored : ∃ n, Unshrunk u n
  space : u.space = s.flushSpace order
  inRange : u.sb.InRange
  inv : ∃ live, t.Inv live []
  sb : t.sb.allocBlock = u.sb.allocBlock
  blocks : ∀ b, b < t.alloc.totalBlocks → t.image.block b = u.image.block b
  kept : ¬u.alloc.Truncates → Image.SameFile u.image t.image ∧ t.alloc = u.alloc
  truncated : u.alloc.Truncates → t.alloc.totalBlocks < u.alloc.totalBlocks

theorem Reached.shrinks {order : FlushOrder} (hs : s.Reached) (hflush : flushAll order s = .ok () t) :
    ∃ u, Shrinks order s u t := by
  have htidy := hs.tidy
  have hend := ((flushAll_stays htidy order).of_ok hflush).1.1
  obtain ⟨u, v, faults, hu, hv, rfl⟩ := flushAll_splits htidy.writable hflush
  obtain ⟨⟨n, hstored⟩, hspace⟩ := (flushUnshrunk_spec htidy.sound order).of_ok hu
  obtain ⟨live, hinv⟩ := hstored.inv
  obtain ⟨hinv', -, -, -, hkept, -, hsame⟩ := (shrinkImage_spec hinv hstored.clean).of_ok hv
  have hsb : u.sb = { v.sb with totalBlocks := u.alloc.totalBlocks } := by
    rw [hsame, ← hstored.total]
  have hplace : v.sb.allocBlock = u.sb.allocBlock := by rw [hsame]
  have hless : u.alloc.Truncates → v.alloc.totalBlocks < u.alloc.totalBlocks := fun htruncates ↦
    shrinkImage_truncates htruncates hv
  refine ⟨u, hu, ⟨n, hstored⟩, hspace, ?_, ⟨_, hend.sound.inv⟩, hplace, hkept, fun hkeep ↦ ?_, hless⟩
  · rw [hsb]
    exact { hend.inRange with totalBlocks := hinv.geometry.total }
  · obtain ⟨himage, halloc, -⟩ := shrinkImage_keeps hkeep hv
    refine ⟨?_, halloc⟩
    rw [← himage]
    exact ⟨rfl, rfl⟩

namespace Shrinks

variable {order : FlushOrder}

theorem first (h : Shrinks order s u t) : t.image.block 0 = u.image.block 0 := by
  obtain ⟨live, hinv⟩ := h.inv
  have hlow := hinv.owned.alloc.first_le
  have hdata := hinv.geometry.data
  have hbase := hinv.geometry.first
  exact h.blocks 0 (by omega)

theorem placed (h : Shrinks order s u t) : t.sb.allocBlock ≠ 0 := by
  obtain ⟨n, hstored⟩ := h.stored
  rw [h.sb]
  exact hstored.placed

/-- What is read from the image is the allocator before shrinking: the blocks that are cut off hold nothing of it. -/
theorem reads (h : Shrinks order s u t) (hlength : u.alloc.encode.length < u32Limit) {img : Image}
    (himage : Image.SameFile t.image img) (hfaults : img.faults = []) :
    Allocator.readAllocBlocks t.sb.allocBlock img = .ok u.alloc img := by
  obtain ⟨live, hinv⟩ := h.inv
  obtain ⟨n, hstored⟩ := h.stored
  obtain ⟨_, hbefore⟩ := hstored.inv
  have hper : Allocator.perBlock = 4080 := rfl
  have hlimit : u32Limit = 2 ^ 32 := rfl
  have hcount : n < u32Limit := by
    have hsmall := hstored.small
    rw [hper] at hsmall
    omega
  have hsize : u.alloc.free.size < u32Limit := by
    have hencode := u.alloc.encode_length
    omega
  have hblocks : ∀ i, i < n → t.sb.allocBlock + i < t.alloc.totalBlocks →
      t.image.block (t.sb.allocBlock + i) = Allocator.snapshotBlock u.alloc.encode n i := by
    intro i hi hlt
    rw [h.blocks _ hlt, h.sb]
    exact hstored.blocks i hi
  obtain ⟨hat, hinside, hroom⟩ := hinv.snapshotAt h.placed hstored.positive hcount hstored.room hblocks
  have hsnapshot : Allocator.SnapshotAt t.sb.allocBlock n u.alloc.encode img :=
    ⟨fun i hi ↦ (himage.block _).trans (hat i hi), hinside.trans himage.len.ge, hroom⟩
  exact Allocator.readAllocBlocks_reads hsnapshot hfaults h.placed hstored.positive hcount hlength
    (hbefore.owned.alloc.inRange hbefore.geometry.total hsize)

theorem persisted (h : Shrinks order s u t) (hkeep : ¬u.alloc.Truncates)
    (hlength : u.alloc.encode.length < u32Limit) : t.AllocPersisted := by
  obtain ⟨live, hinv⟩ := h.inv
  obtain ⟨n, hstored⟩ := h.stored
  have halloc := (h.kept hkeep).2
  have hsame : Image.SameFile t.image { t.image with faults := [] } := ⟨rfl, rfl⟩
  have hread := h.reads hlength hsame rfl
  refine ⟨u.sb.truncated, { t.image with faults := [] }, hstored.decodes h.inRange h.first, ?_, ?_,
    hinv.geometry.backed⟩
  · rw [halloc]
    exact hstored.total
  · rw [halloc]
    rwa [h.sb] at hread

end Shrinks

/-- After `flush_all` the image has the allocator in memory exactly when the blocks that the flush asked for and gave
back have left nothing to cut off, and the encoded allocator fits its length field. -/
theorem persisted_allocator_iff {order : FlushOrder} (hs : s.Reached) (hflush : flushAll order s = .ok () t) :
    t.AllocPersisted ↔
      ¬(s.flushSpace order).alloc.Truncates ∧ (s.flushSpace order).alloc.encode.length < u32Limit := by
  obtain ⟨u, h⟩ := hs.shrinks hflush
  obtain ⟨n, hstored⟩ := h.stored
  have halloc : (s.flushSpace order).alloc = u.alloc := congrArg Space.alloc h.space.symm
  rw [halloc]
  refine ⟨fun hpersisted ↦ ?_, fun hfits ↦ ?_⟩
  · have hkeep : ¬u.alloc.Truncates := fun htruncates ↦
      hstored.not_persisted h.inRange h.first (h.truncated htruncates) hpersisted
    obtain ⟨sb, img, -, -, hread, -⟩ := hpersisted
    rw [(h.kept hkeep).2] at hread
    exact ⟨hkeep, Allocator.readAllocBlocks_length hread⟩
  · exact h.persisted hfits.1 hfits.2

/-- A file with bytes in as many of its blocks. -/
def scattered (n : ℕ) : List Operation :=
  .createChild rootIno [0x61] (sIfreg ||| 0o644) 0 0 0 Creds.root ::
    (List.range n).map fun k ↦ .writeData 2 ((k + 1) * blockSize) [1]

/-- The state is flushed, and the allocator that the flush comes to shrink passes the test. -/
def flushTest (s : Inner) (test : Allocator → Bool) : Bool :=
  (flushAll FlushOrder.inOrder s).okAnd (fun _ _ ↦ true) && test (s.flushSpace FlushOrder.inOrder).alloc

theorem flushTest_runs {test : Allocator → Bool} (h : flushTest s test = true) :
    (∃ t, flushAll FlushOrder.inOrder s = .ok () t) ∧ test (s.flushSpace FlushOrder.inOrder).alloc = true := by
  unfold flushTest at h
  rw [Bool.and_eq_true] at h
  obtain ⟨_, t, ht, -⟩ := Outcome.exists_of_okAnd h.1
  exact ⟨⟨t, ht⟩, h.2⟩

/-- A byte and an attribute fit in the blocks of a new image. -/
theorem persisted_allocator_sample : ∃ s t, s.Reached ∧ flushAll FlushOrder.inOrder s = .ok () t ∧
    t.AllocPersisted := by
  have hplay : (sampleCalls (scattered 1 ++ [.setxattr 2 [0x62] [7] 0])).okAnd (fun calls s ↦
      (calls.all fun call ↦ call.2.regular call.1) && flushTest s fun a ↦
        decide (¬a.Truncates) && decide (a.encode.length < u32Limit)) = true := by
    decide +kernel
  obtain ⟨-, -, s, -, -, -, hs, htest⟩ := sampleCalls_reached hplay
  obtain ⟨⟨t, hflush⟩, htest⟩ := flushTest_runs htest
  rw [Bool.and_eq_true] at htest
  exact ⟨s, t, hs, hflush, (persisted_allocator_iff hs hflush).mpr
    ⟨of_decide_eq_true htest.1, of_decide_eq_true htest.2⟩⟩

/-- Six bytes in six blocks make the image grow by a whole MiB, and the flush cuts it again. -/
theorem shrunk_allocator_not_persisted : ∃ first calls s t, sampleImage = .ok () first ∧
    Exec.Runs Operation.exec first calls s ∧ calls.map Prod.snd = scattered 6 ∧ s.Reached ∧
    flushAll FlushOrder.inOrder s = .ok () t ∧ ¬t.AllocPersisted := by
  have hplay : (sampleCalls (scattered 6)).okAnd (fun calls s ↦
      (calls.all fun call ↦ call.2.regular call.1) && flushTest s fun a ↦ decide a.Truncates) = true := by
    decide +kernel
  obtain ⟨first, calls, s, himage, hrun, hops, hs, htest⟩ := sampleCalls_reached hplay
  obtain ⟨⟨t, hflush⟩, htruncates⟩ := flushTest_runs htest
  obtain ⟨u, h⟩ := hs.shrinks hflush
  have halloc : (s.flushSpace FlushOrder.inOrder).alloc = u.alloc := congrArg Space.alloc h.space.symm
  rw [halloc] at htruncates
  obtain ⟨n, hstored⟩ := h.stored
  exact ⟨first, calls, s, t, himage, hrun, hops, hs, hflush,
    hstored.not_persisted h.inRange h.first (h.truncated (of_decide_eq_true htruncates))⟩

end Inner

end LinuxFile
