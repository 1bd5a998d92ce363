import LinuxFile.Inner.Mount
import LinuxFile.Spec.Codec
import LinuxFile.Spec.Persist

/-!
# Writing everything back

The parts of `flush_all` after the journal: the allocator snapshot, the superblock and the shrinking
of the image. The superblock and the journal lie outside the data area, so writing them touches no
owner; the snapshot is written past the cache, into blocks taken for it, when nothing is dirty.
-/

namespace LinuxFile

open Ledger

/-- An image in which only the blocks in `W` differ. -/
theorem CachedImage.Step.of_image {d : CachedImage} {img : Image} {W : ℕ → Prop}
    (hblock : ∀ b, ¬W b → img.block b = d.image.block b) (hlen : d.image.len ≤ img.len)
    (hok : d.image.Ok → img.Ok) (hhost : img.hostWritable = d.image.hostWritable) :
    CachedImage.Step W d { d with image := img } where
  copies b hb P hc := ⟨hc.1, fun hclean ↦ by rw [hblock b hb]; exact hc.2 hclean⟩
  dirty _ hb := Or.inl hb
  image b _ hb := hblock b hb
  len_le := hlen
  ok := hok
  host := hhost

/-- The superblocks place the same things. -/
structure SameLayout (a b : Superblock) : Prop where
  table : b.inodeTableExtents = a.inodeTableExtents
  first : b.firstDataBlock = a.firstDataBlock
  journal : b.journalBlocks = a.journalBlocks
  next : b.nextInode = a.nextInode

theorem SameLayout.slot {a b : Superblock} (h : SameLayout a b) (ino : ℕ) :
    mapInodeSlot b ino = mapInodeSlot a ino := by
  unfold mapInodeSlot
  rw [h.table]

theorem SameLayout.capacity {a b : Superblock} (h : SameLayout a b) :
    inodeTableCapacity b = inodeTableCapacity a := by
  unfold inodeTableCapacity
  rw [h.table]

theorem SameLayout.ranges {a b : Superblock} (h : SameLayout a b) : tableRanges b = tableRanges a := by
  unfold tableRanges
  rw [h.table]

namespace Inner

variable {s t : Inner} {live : KeyMap Inode} {hand : List (ℕ × ℕ)}

/-- Fields of the superblock that place nothing may change. -/
theorem OnDisk.relabel (h : s.OnDisk live) (hlayout : SameLayout s.sb t.sb) (hdisk : t.disk = s.disk)
    (hdirty : t.dirtyInodes = s.dirtyInodes) (hmem : t.inodes = s.inodes) (hmap : t.MapStored) :
    t.OnDisk live := by
  have hslot : ∀ ino raw, s.SlotIs ino raw → t.SlotIs ino raw := by
    intro ino raw hs
    unfold SlotIs SlotAll at *
    rw [hlayout.slot, hdisk]
    exact hs
  have hblocks : ∀ ranges, KeepsBlocks ranges s t := by
    intro ranges b _ P hP
    rw [hdisk]
    exact hP
  refine ⟨fun k i hk hclean ↦ ?_, fun k i hk hnone ↦ ?_, fun k hpos hnext hk ↦ ?_, ?_, hmap⟩
  · rw [hdirty] at hclean
    exact (h.stored k i hk hclean).keep (hslot k) (hblocks _) (hblocks _)
  · rw [hmem] at hnone
    exact (h.parked k i hk hnone).keep (hslot k) (hblocks _)
  · rw [hlayout.next] at hnext
    exact hslot k _ (h.dead k hpos hnext hk)
  · intro k i hk e he hpacked
    unfold HeaderAt
    rw [hdisk]
    exact h.headers k i hk e he hpacked

theorem Geometry.relabel (h : s.Geometry) {sb : Superblock} {journal : Journal}
    (hlayout : SameLayout s.sb sb) (hstart : journal.startBlock = s.journal.startBlock)
    (hblocks : journal.blocks = s.journal.blocks) :
    Geometry { s with sb := sb, journal := journal } := by
  refine ⟨h.image, h.first.trans hlayout.first.symm, ?_, ?_, h.backed, ⟨hstart.trans h.journal.1, ?_⟩, h.total, ?_,
    ?_, h.records, h.waiting⟩
  · change sb.firstDataBlock = 2 + sb.journalBlocks
    rw [hlayout.first, hlayout.journal]
    exact h.data
  · change sb.firstDataBlock * blockSize ≤ _
    rw [hlayout.first]
    exact h.inside
  · change journal.blocks = sb.journalBlocks
    rw [hblocks, hlayout.journal]
    exact h.journal.2
  · change Contiguous 0 sb.inodeTableExtents
    rw [hlayout.table]
    exact h.table
  · change firstUserIno ≤ sb.nextInode ∧ sb.nextInode ≤ inodeTableCapacity sb
    rw [hlayout.next, hlayout.capacity]
    exact h.next

theorem Numbered.relabel (h : s.Numbered live) {sb : Superblock} (journal : Journal)
    (hlayout : SameLayout s.sb sb) : Numbered { s with sb := sb, journal := journal } live := by
  refine { h with
    keys := fun k i hk ↦ ?_
    free := fun k hk ↦ ?_
    record := fun c hc ↦ ⟨(h.record c hc).length_le, (h.record c hc).index_le, (h.record c hc).owner⟩ }
  · obtain ⟨h1, h2, h3⟩ := h.keys k i hk
    exact ⟨h1, by rw [hlayout.next]; exact h2, h3⟩
  · obtain ⟨h1, h2, h3⟩ := h.free k hk
    exact ⟨h1, by rw [hlayout.next]; exact h2, h3⟩

/-- Journal and superblock may change as long as they place the same things. -/
theorem Inv.relabel (h : s.Inv live hand) {sb : Superblock} {journal : Journal}
    (hlayout : SameLayout s.sb sb) (hmap : sb.allocBlock = s.sb.allocBlock)
    (hstart : journal.startBlock = s.journal.startBlock) (hblocks : journal.blocks = s.journal.blocks) :
    Inv { s with sb := sb, journal := journal } live hand := by
  have hranges : ({ s with sb := sb, journal := journal } : Inner).mapRanges = s.mapRanges := by
    unfold mapRanges
    change (if sb.allocBlock = 0 then [] else _) = _
    rw [hmap]
  refine ⟨h.geometry.relabel hlayout hstart hblocks, ⟨h.owned.alloc, fun b ↦ ?_⟩,
    h.numbered.relabel journal hlayout, h.onDisk.relabel hlayout rfl rfl rfl ?_⟩
  · have := h.owned.fits b
    unfold load at this ⊢
    rw [hranges]
    change _ + cover (tableRanges sb) b + _ + _ + _ ≤ _
    rw [hlayout.ranges]
    exact this
  · intro b hb
    rw [hranges] at hb
    exact h.onDisk.map b hb

/-- Nothing is owned below the data area. -/
theorem Inv.outside (h : s.Inv live hand) {b : ℕ} (hb : b < s.sb.firstDataBlock) : s.Apart live b := by
  apply h.apart_of_zero
  have h1 := h.owned.fits b
  have h2 : s.alloc.area b = 0 := by
    unfold Allocator.area
    rw [h.geometry.first, span_eq_zero (by omega)]
  omega

/-- Writing below the data area. -/
theorem Inv.write_outside (h : s.Inv live hand) {img : Image} {off : ℕ} {data : Bytes}
    (hwrote : Image.Wrote off data s.image img)
    (hbelow : off + data.length ≤ s.sb.firstDataBlock * blockSize) :
    Inv { s with image := img } live hand ∧
      CachedImage.Step (· < s.sb.firstDataBlock) s.disk ⟨s.cache, img⟩ := by
  have hstep : CachedImage.Step (· < s.sb.firstDataBlock) s.disk ⟨s.cache, img⟩ := by
    refine CachedImage.Step.of_image (fun b hb ↦ ?_) hwrote.len_le hwrote.ok hwrote.host
    refine hwrote.block_of_disjoint (Or.inr (hbelow.trans ?_))
    exact Nat.mul_le_mul_right _ (not_lt.mp hb)
  exact ⟨h.write_apart hstep (fun b _ hb ↦ (h.geometry.waiting b hb).trans hstep.len_le) fun b hb ↦ h.outside hb, hstep⟩

/-- Steps outside the data area keep the data of all files. -/
theorem Inv.keepsData_outside (h : s.Inv live hand) {img : Image}
    (hstep : CachedImage.Step (· < s.sb.firstDataBlock) s.disk ⟨s.cache, img⟩) :
    KeepsData live s { s with image := img } := by
  intro k i hk
  refine KeepsBlocks.step (t := { s with image := img }) hstep fun b hb ↦ ?_
  have h1 := h.owned.fits b
  have h2 : s.alloc.area b = 0 := by
    unfold Allocator.area
    rw [h.geometry.first, span_eq_zero (by omega)]
  have h3 := cover_le_load (s := s) hk b
  rw [cover_ranges] at h3
  omega

/-! ## Superblock -/

theorem writeSuperblock_eq (sb : Superblock) :
    Image.writeAllAt (sb.encode.slice 0 superblockSize) 0 = Image.writeBlock 0 sb.encode := by
  unfold Image.writeBlock
  rw [Nat.zero_mul]
  rfl

theorem writeSuperblock_spec (h : s.Inv live []) :
    writeSuperblock.Holds s
      (fun _ t ↦ t.Inv live [] ∧ KeepsData live s t ∧ (∀ b, t.disk.DirtyAt b → s.disk.DirtyAt b) ∧
        t.image.block 0 = s.sb.encode ∧ t.image.block s.sb.backupBlock = s.sb.encode ∧
        t = { s with image := t.image })
      (fun e _ ↦ e.IsHost) := by
  have hdata := h.geometry.data
  unfold writeSuperblock
  rw [Exec.holds_bind, Exec.holds_read, Exec.holds_bind, onImage, Exec.holds_zoom, writeSuperblock_eq]
  refine (Image.writeBlock_spec s.image 0 _).mono ?_ (fun _ _ he ↦ he.1)
  rintro _ img₁ ⟨hwrote₁, hblock₁, -⟩
  have hlen : (s.sb.encode.slice 0 blockSize).length = blockSize := Buf.slice_length _ _ _
  have hprimary : 0 * blockSize + (s.sb.encode.slice 0 blockSize).length ≤ s.sb.firstDataBlock * blockSize := by
    rw [hlen, hdata]
    unfold blockSize
    omega
  obtain ⟨hinv₁, hstep₁⟩ := h.write_outside hwrote₁ hprimary
  rw [onImage, Exec.holds_zoom]
  refine (Image.writeBlock_spec img₁ s.sb.backupBlock _).mono ?_ (fun _ _ he ↦ he.1)
  rintro _ img ⟨hwrote₂, hblock₂, hother⟩
  have hbackup : s.sb.backupBlock * blockSize + (s.sb.encode.slice 0 blockSize).length ≤
      s.sb.firstDataBlock * blockSize := by
    rw [hlen, hdata]
    unfold Superblock.backupBlock blockSize
    omega
  obtain ⟨hinv₂, hstep₂⟩ := hinv₁.write_outside hwrote₂ hbackup
  have hne : 0 ≠ s.sb.backupBlock := by
    unfold Superblock.backupBlock
    omega
  refine ⟨hinv₂, ?_, fun b hb ↦ hb, (hother 0 hne).trans hblock₁, hblock₂, rfl⟩
  exact (h.keepsData_outside hstep₁).trans (hinv₁.keepsData_outside hstep₂)

/-! ## Allocator snapshot -/

/-- The snapshot's blocks are taken in hand. -/
theorem Inv.takeMap (h : s.Inv live hand) :
    Inv { s with sb := { s.sb with allocBlock := 0 } } live (s.mapRanges ++ hand) := by
  have hlayout : SameLayout s.sb { s.sb with allocBlock := 0 } := ⟨rfl, rfl, rfl, rfl⟩
  refine ⟨h.geometry.relabel hlayout rfl rfl, ⟨h.owned.alloc, fun b ↦ ?_⟩,
    h.numbered.relabel s.journal hlayout,
    h.onDisk.relabel hlayout rfl rfl rfl fun b hb ↦ absurd hb (by simp [mapRanges])⟩
  have h1 := h.owned.fits b
  unfold load at h1 ⊢
  rw [cover_append]
  change cover s.alloc.free.entries b + cover (tableRanges s.sb) b + 0 + _ + _ ≤ s.alloc.area b
  omega

/-- Blocks in hand become the snapshot. -/
theorem Inv.putMap {start n : ℕ} (h : s.Inv live [(start, n)]) (hzero : s.sb.allocBlock = 0)
    (hstart : start ≠ 0) (hcount : max ((s.image.block start).getU32 4) 1 ≤ n)
    (hclean : ∀ b, ¬s.disk.DirtyAt b) :
    Inv { s with sb := { s.sb with allocBlock := start } } live [] := by
  have hlayout : SameLayout s.sb { s.sb with allocBlock := start } := ⟨rfl, rfl, rfl, rfl⟩
  refine ⟨h.geometry.relabel hlayout rfl rfl, ⟨h.owned.alloc, fun b ↦ ?_⟩,
    h.numbered.relabel s.journal hlayout,
    h.onDisk.relabel hlayout rfl rfl rfl fun b _ ↦ hclean b⟩
  have h1 := h.owned.fits b
  have hold : s.mapRanges = [] := by rw [mapRanges, if_pos hzero]
  have hnew : ({ s with sb := { s.sb with allocBlock := start } } : Inner).mapRanges =
      [(start, max ((s.image.block start).getU32 4) 1)] := by rw [mapRanges, if_neg hstart]
  have hspan := span_add start (max ((s.image.block start).getU32 4) 1)
    (n - max ((s.image.block start).getU32 4) 1) b
  rw [show max ((s.image.block start).getU32 4) 1 + (n - max ((s.image.block start).getU32 4) 1) = n by
    omega] at hspan
  unfold load at h1 ⊢
  rw [hold, cover_cons, cover_nil] at h1
  rw [hnew, cover_cons, cover_nil]
  change cover s.alloc.free.entries b + cover (tableRanges s.sb) b + _ + _ + _ ≤ s.alloc.area b
  dsimp only at h1 ⊢
  omega

/-- The invariant without the old snapshot, once its blocks are given back. -/
theorem Inv.released (h : s.Inv live []) {a : Allocator} (ha : Allocator.Released s.sb.allocBlock ⟨s.alloc, s.image⟩ a) :
    Inv { s with sb := { s.sb with allocBlock := 0 }, alloc := a } live [] := by
  have htaken := h.takeMap
  rw [List.append_nil] at htaken
  rcases ha with rfl | ⟨hne, rfl⟩
  · exact htaken.forget
  · refine htaken.release [(s.sb.allocBlock, (s.image.block s.sb.allocBlock).getU32 4)] [] fun b ↦ ?_
    rw [mapRanges, if_neg hne, cover_cons, cover_cons, cover_nil]
    have hspan := span_add s.sb.allocBlock ((s.image.block s.sb.allocBlock).getU32 4)
      (max ((s.image.block s.sb.allocBlock).getU32 4) 1 - (s.image.block s.sb.allocBlock).getU32 4) b
    rw [show (s.image.block s.sb.allocBlock).getU32 4 +
      (max ((s.image.block s.sb.allocBlock).getU32 4) 1 - (s.image.block s.sb.allocBlock).getU32 4) =
        max ((s.image.block s.sb.allocBlock).getU32 4) 1 by omega] at hspan
    dsimp only
    omega

theorem writeAllocator_spec (h : s.Inv live []) (hclean : ∀ b, ¬s.disk.DirtyAt b) :
    writeAllocator.Holds s
      (fun _ t ↦ ∃ n, t.Inv live [] ∧ KeepsData live s t ∧ (∀ b, ¬t.disk.DirtyAt b) ∧
        Allocator.Snapshot s.sb.allocBlock t.sb.allocBlock n ⟨s.alloc, s.image⟩ ⟨t.alloc, t.image⟩ ∧
        t.sb.allocBlock ≠ 0 ∧
        t = { s with
          alloc := t.alloc
          image := t.image
          sb := { s.sb with
            mtime := s.env.now
            totalBlocks := t.alloc.totalBlocks
            allocBlock := t.sb.allocBlock } })
      (fun e _ ↦ e.IsHost) := by
  unfold writeAllocator
  rw [Exec.holds_bind, Exec.holds_read, Exec.holds_bind, Exec.holds_modify, Exec.holds_bind,
    Exec.holds_read, Exec.holds_bind, onAlloc, Exec.holds_zoom]
  dsimp only
  refine (Allocator.writeAllocBlocks_spec s.sb.allocBlock ⟨s.alloc, s.image⟩
    fun a ha ↦ (h.released ha).owned.alloc).mono ?_ (fun _ _ he ↦ he)
  rintro start d ⟨n, hsnap⟩
  rw [Exec.holds_modify]
  obtain ⟨a, ha, htook⟩ := hsnap.released
  have hbase := h.released ha
  -- taking the new blocks; of the image only the length is changed with them
  let longer : Image :=
    { s.image with
      len := d.image.len
      zero_of_le := fun k hk ↦ s.image.zero_of_le k (hsnap.image.len_le.trans hk) }
  have hlonger : Image.Grown s.image longer :=
    ⟨rfl, hsnap.image.len_le, fun hok ↦ ⟨(hsnap.image.ok hok).aligned, (hsnap.image.ok hok).bounded⟩, rfl⟩
  have htotal : d.alloc.totalBlocks = a.totalBlocks ∨ Allocator.Backed ⟨d.alloc, longer⟩ := by
    rcases hsnap.total with heq | hbacked
    · refine Or.inl (heq.trans ?_)
      rcases ha with rfl | ⟨-, rfl⟩
      · rfl
      · exact (Allocator.freeRange_totalBlocks _ _ _).symm
    · exact Or.inr hbacked
  have hwithin := htook.within hbase.owned.alloc hsnap.positive
  have hfirst : a.firstData = s.sb.firstDataBlock := hbase.geometry.first
  have hdata := h.geometry.data
  have hstart : start ≠ 0 := by omega
  have htookInv : Inv { s with sb := { s.sb with allocBlock := 0 }, alloc := d.alloc, image := longer } live
      [(start, n)] := hbase.took (d := ⟨d.alloc, longer⟩) hsnap.ok htook hlonger htotal
  have hstep : CachedImage.Step (fun b ↦ start ≤ b ∧ b < start + n) s.disk ⟨s.cache, d.image⟩ :=
    CachedImage.Step.of_image hsnap.image.outside hsnap.image.len_le hsnap.image.ok hsnap.image.host
  have hfill : CachedImage.Step (fun b ↦ start ≤ b ∧ b < start + n) ⟨s.cache, longer⟩ ⟨s.cache, d.image⟩ :=
    CachedImage.Step.of_image (d := ⟨s.cache, longer⟩) hsnap.image.outside le_rfl
      (fun _ ↦ hsnap.image.ok h.geometry.image) hsnap.image.host
  have hspan : ∀ b, start ≤ b ∧ b < start + n → 0 < cover [(start, n)] b := by
    intro b hb
    rw [cover_cons, span_eq_one hb]
    omega
  have hwritten := htookInv.write (d := ⟨s.cache, d.image⟩) hfill fun b hb ↦ Or.inl (hspan b hb)
  have hclean' : ∀ b, ¬(⟨s.cache, d.image⟩ : CachedImage).DirtyAt b := fun b hb ↦ hclean b hb
  have hheader : (d.image.block start).getU32 4 = n % 2 ^ 32 := by
    have := hsnap.image.inside 0 hsnap.positive
    rw [Nat.add_zero] at this
    rw [this, Allocator.snapshotBlock_count]
  have hput := hwritten.putMap rfl hstart (by
    have hpos := hsnap.positive
    change max ((d.image.block start).getU32 4) 1 ≤ n
    rw [hheader]
    have := Nat.mod_le n (2 ^ 32)
    omega) hclean'
  refine ⟨n, ?_, ?_, hclean', hsnap, hstart, rfl⟩
  · have hlayout : SameLayout { s.sb with allocBlock := start } { s.sb with
        mtime := s.env.now, totalBlocks := d.alloc.totalBlocks, allocBlock := start } :=
      ⟨rfl, rfl, rfl, rfl⟩
    exact hput.relabel hlayout rfl rfl rfl
  · exact htookInv.keepsData (s := s) hstep fun b hb ↦ by
      have := hspan b hb
      omega

/-! ## Shrinking the image -/

theorem Inv.shrunk (h : s.Inv live []) {newTotal : ℕ} {a : Allocator}
    (hs : Allocator.Shrunk newTotal s.alloc a) : Inv { s with alloc := a } live [] := by
  refine ⟨{ h.geometry with
    first := hs.first.trans h.geometry.first
    backed := ?_
    total := ?_ }, ⟨hs.ok, fun b ↦ ?_⟩, ?_, h.onDisk.congr rfl rfl (fun _ hj ↦ hj) (fun _ hj ↦ hj)⟩
  · change a.totalBlocks * blockSize ≤ s.image.len
    rw [hs.total]
    exact (Nat.mul_le_mul_right _ hs.total_le).trans h.geometry.backed
  · have h1 := h.geometry.total
    have h2 := hs.total_le
    change a.totalBlocks < _
    rw [hs.total]
    omega
  · have h1 := h.owned.fits b
    have h2 := s.alloc.area_le_one b
    have hfree := hs.ok.fits b
    have hfirst := hs.first
    have htotal := hs.total
    have hle := hs.total_le
    have hlow := hs.first_le
    unfold load at h1 ⊢
    change cover a.free.entries b + cover (tableRanges s.sb) b + cover s.mapRanges b +
      live.total (fun _ i ↦ cover i.ranges b) + cover [] b ≤ a.area b
    rw [cover_nil] at h1 ⊢
    by_cases hb : b < newTotal
    · have h3 := hs.below b hb
      have h4 : a.area b = s.alloc.area b := by
        unfold Allocator.area span
        rw [hfirst, htotal]
        split_ifs <;> omega
      omega
    · have h3 : a.area b = 0 := by
        unfold Allocator.area
        rw [hfirst, htotal, span_eq_zero (by omega)]
      by_cases hin : b < s.alloc.totalBlocks
      · have h4 := hs.above b (by omega) hin
        omega
      · have h4 : s.alloc.area b = 0 := by
          unfold Allocator.area
          rw [span_eq_zero (by omega)]
        omega
  · exact { h.numbered with
      record := fun c hc ↦ ⟨(h.numbered.record c hc).length_le, (h.numbered.record c hc).index_le,
        (h.numbered.record c hc).owner⟩ }

/-- Blocks past the data area leave cache and image. -/
theorem Inv.cut (h : s.Inv live []) {d : CachedImage}
    (hcache : d.cache = s.cache.dropFrom s.alloc.totalBlocks)
    (hblock : ∀ b, b < s.alloc.totalBlocks → d.image.block b = s.image.block b) (hok : d.image.Ok)
    (hinside : s.sb.firstDataBlock * blockSize ≤ d.image.len)
    (hbacked : s.alloc.totalBlocks * blockSize ≤ d.image.len) :
    (s.withDisk d).Inv live [] ∧ KeepsData live s (s.withDisk d) ∧
      ∀ b, d.DirtyAt b → s.disk.DirtyAt b := by
  have hfind : ∀ b, b < s.alloc.totalBlocks → d.cache.map.find? b = s.cache.map.find? b := by
    intro b hb
    rw [hcache]
    change (s.cache.map.filterKeys _).find? b = _
    rw [KeyMap.find?_filterKeys, if_pos (by simpa using hb)]
  have hdirty : ∀ b, d.DirtyAt b → s.disk.DirtyAt b := by
    rintro b ⟨e, he, hd⟩
    rw [hcache] at he
    change (s.cache.map.filterKeys _).find? b = _ at he
    rw [KeyMap.find?_filterKeys] at he
    split_ifs at he
    exact ⟨e, he, hd⟩
  have hcopies : ∀ b, ¬s.alloc.totalBlocks ≤ b → ∀ P, s.disk.Copies P b → d.Copies P b := by
    intro b hb P hP
    have hlt : b < s.alloc.totalBlocks := by omega
    refine ⟨fun e he ↦ hP.1 e (by rw [hfind b hlt] at he; exact he), fun hclean ↦ ?_⟩
    rw [hblock b hlt]
    refine hP.2 ?_
    rintro ⟨e, he, hd⟩
    exact hclean ⟨e, by rw [hfind b hlt]; exact he, hd⟩
  have hzero : ∀ b, s.alloc.totalBlocks ≤ b → s.load live b = 0 := by
    intro b hb
    have h1 := h.owned.fits b
    have h2 : s.alloc.area b = 0 := by
      have := h.owned.alloc.first_le
      unfold Allocator.area
      rw [span_eq_zero (by omega)]
    omega
  have hwaiting : ∀ b, d.DirtyAt b → b * blockSize + blockSize ≤ d.image.len := by
    rintro b ⟨e, he, -⟩
    rw [hcache] at he
    change (s.cache.map.filterKeys _).find? b = _ at he
    rw [KeyMap.find?_filterKeys] at he
    split_ifs at he with hlt
    have hle : (b + 1) * blockSize ≤ s.alloc.totalBlocks * blockSize :=
      Nat.mul_le_mul_right _ (of_decide_eq_true hlt)
    rw [Nat.succ_mul] at hle
    exact hle.trans hbacked
  refine ⟨(h.redisk hcopies (fun b hb ↦ Or.inl (hdirty b hb))
    (fun b _ hb ↦ hblock b (not_le.mp hb)) hok hinside hbacked hwaiting fun b hb ↦ h.apart_of_zero (hzero b hb)).1,
    fun k i hk b hb P hP ↦ hcopies b (fun hle ↦ ?_) P hP, hdirty⟩
  have h1 := cover_le_load (s := s) hk b
  rw [cover_ranges] at h1
  have := hzero b hle
  omega

theorem shrinkImage_spec (h : s.Inv live []) (hclean : ∀ b, ¬s.disk.DirtyAt b) :
    shrinkImage.Holds s
      (fun _ t ↦ t.Inv live [] ∧ KeepsData live s t ∧ (∀ b, ¬t.disk.DirtyAt b) ∧
        t.alloc.totalBlocks ≤ s.alloc.totalBlocks ∧
        (∀ b, b < t.alloc.totalBlocks → t.image.block b = s.image.block b) ∧
        (t.alloc = s.alloc ∨ Allocator.Shrunk t.alloc.totalBlocks s.alloc t.alloc) ∧
        t = { s with
          alloc := t.alloc
          image := t.image
          cache := t.cache
          sb := { s.sb with totalBlocks := t.alloc.totalBlocks } })
      (fun e _ ↦ e.IsHost) := by
  unfold shrinkImage
  rw [Exec.holds_bind, onAlloc, Exec.holds_zoom]
  refine (Allocator.maybeShrink_spec ⟨s.alloc, s.image⟩ h.owned.alloc).mono ?_ (fun _ _ he ↦ he)
  rintro _ d hd
  rw [Exec.holds_modify]
  have hlabel : ∀ {u : Inner}, u.Inv live [] → Inv { u with
      sb := { u.sb with totalBlocks := u.alloc.totalBlocks } } live [] := fun hu ↦
    hu.relabel ⟨rfl, rfl, rfl, rfl⟩ rfl rfl rfl
  rcases hd with rfl | ⟨newTotal, hshrunk, hlen, -, hbytes⟩
  · obtain ⟨hinv, hdata, hdirty⟩ := h.cut (d := ⟨s.cache.dropFrom s.alloc.totalBlocks, s.image⟩) rfl
      (fun _ _ ↦ rfl) h.geometry.image h.geometry.inside h.geometry.backed
    exact ⟨hlabel hinv, hdata, fun b hb ↦ hclean b (hdirty b hb), le_rfl, fun _ _ ↦ rfl, Or.inl rfl, rfl⟩
  · have hlow : s.sb.firstDataBlock ≤ newTotal := by
      have h1 := hshrunk.first_le
      have h2 := h.geometry.first
      exact h2 ▸ h1
    have htotal : d.alloc.totalBlocks = newTotal := hshrunk.total
    have hblock : ∀ b, b < d.alloc.totalBlocks → d.image.block b = s.image.block b := by
      intro b hb
      apply Buf.ext_of_lt
      intro i hi
      rw [Image.block_byte _ _ hi, Image.block_byte _ _ hi, hbytes, if_pos]
      rw [htotal] at hb
      calc b * blockSize + i < b * blockSize + blockSize := by omega
        _ = (b + 1) * blockSize := by rw [Nat.add_mul, Nat.one_mul]
        _ ≤ newTotal * blockSize := Nat.mul_le_mul_right _ hb
    have himage := h.geometry.image
    obtain ⟨hinv, hdata, hdirty⟩ := (h.shrunk hshrunk).cut
      (d := ⟨s.cache.dropFrom d.alloc.totalBlocks, d.image⟩) rfl hblock
      (by
        refine ⟨?_, ?_⟩
        · have h1 := himage.aligned
          rw [hlen]
          change min s.image.len (newTotal * blockSize) % blockSize = 0
          rcases min_choice s.image.len (newTotal * blockSize) with hm | hm <;> rw [hm]
          · exact h1
          · exact Nat.mul_mod_left _ _
        · have h1 := himage.bounded
          rw [hlen]
          change min s.image.len (newTotal * blockSize) < _
          omega)
      (by
        rw [hlen]
        exact le_min h.geometry.inside (Nat.mul_le_mul_right _ hlow))
      (by
        rw [hlen]
        exact le_min (h.shrunk hshrunk).geometry.backed (Nat.mul_le_mul_right _ htotal.le))
    refine ⟨hlabel hinv, hdata, fun b hb ↦ hclean b (hdirty b hb), ?_, hblock, Or.inr ?_, rfl⟩
    · change d.alloc.totalBlocks ≤ s.alloc.totalBlocks
      rw [htotal]
      exact hshrunk.total_le
    · change Allocator.Shrunk d.alloc.totalBlocks s.alloc d.alloc
      rw [htotal]
      exact hshrunk

/-! ## Journal -/

/-- The superblock with other journal fields. -/
def SameButJournal (a b : Superblock) : Prop :=
  b = { a with
    journalSeq := b.journalSeq
    journalHead := b.journalHead
    journalTail := b.journalTail
    journalCommitted := b.journalCommitted }

theorem SameButJournal.layout {a b : Superblock} (h : SameButJournal a b) :
    SameLayout a b ∧ b.allocBlock = a.allocBlock := by
  rw [h]
  exact ⟨⟨rfl, rfl, rfl, rfl⟩, rfl⟩

theorem journalDirty_spec (h : s.Inv live []) (dirty : List ℕ) :
    (journalDirty dirty).Holds s
      (fun _ t ↦ t.Inv live [] ∧ KeepsData live s t ∧ (∀ b, t.disk.DirtyAt b → s.disk.DirtyAt b) ∧
        CachedImage.Step (· < s.sb.firstDataBlock) s.disk t.disk ∧ t.image.len = s.image.len ∧
        SameButJournal s.sb t.sb ∧ (s.sb.InRange → t.sb.InRange) ∧
        t = { s with journal := t.journal, image := t.image, sb := t.sb })
      (fun e t ↦ e.IsHost ∨ t.Inv live [] ∧ ∃ journal, t = { s with journal := journal }) := by
  unfold journalDirty
  rw [Exec.holds_bind, Exec.holds_read, Exec.holds_when]
  refine ⟨fun _ ↦ ?_, fun _ ↦ ⟨h, KeepsData.refl _ _, fun _ hb ↦ hb, .refl _ _, rfl, rfl, id, rfl⟩⟩
  rw [Exec.holds_bind, onJournal, Exec.holds_zoom]
  unfold Journal.beginTx
  rw [Exec.holds_bind, Exec.holds_read]
  split_ifs with hseq
  · trivial
  · rw [Exec.holds_bind, Exec.holds_modify, Exec.holds_pure, Exec.holds_bind, Exec.holds_read, onJournal,
      Exec.holds_zoom]
    unfold Journal.commit
    dsimp only
    rw [Exec.holds_bind, Exec.holds_read]
    have hjournal := h.geometry.journal
    have hdata := h.geometry.data
    split_ifs with hlarge
    · exact Or.inr ⟨h.relabel ⟨rfl, rfl, rfl, rfl⟩ rfl rfl rfl, _, rfl⟩
    · -- the transaction stays inside the journal area
      have hbelow : s.journal.startBlock * blockSize + ({ s.journal with
          seq := s.journal.seq + 1 } : Journal).nextHead ((dirtyTransaction s.inodes
            ⟨s.journal.seq + 1, journalMagic ++ leBytes 4 opBegin ++
              leBytes 8 (s.journal.seq + 1)⟩ dirty).sealed.length + 8) +
          (dirtyTransaction s.inodes ⟨s.journal.seq + 1, journalMagic ++ leBytes 4 opBegin ++
            leBytes 8 (s.journal.seq + 1)⟩ dirty).sealed.length ≤ s.sb.firstDataBlock * blockSize := by
        have harea : ({ s.journal with seq := s.journal.seq + 1 } : Journal).areaBytes =
            s.sb.journalBlocks * blockSize := by
          unfold Journal.areaBytes
          rw [hjournal.2]
        unfold Journal.nextHead
        rw [harea] at hlarge ⊢
        rw [hjournal.1, hdata, Nat.add_mul]
        split_ifs <;> omega
      rw [Exec.holds_bind, Exec.holds_modify, Exec.holds_bind, Journal.onImage, Exec.holds_zoom]
      refine ((Image.writeAllAt_spec s.image _ _).and (Image.writeAllAt_within
        (hbelow.trans h.geometry.inside))).mono ?_ (fun _ _ he ↦ Or.inl he.1.1)
      rintro _ img ⟨hwrote, hlen⟩
      obtain ⟨hinv, hstep⟩ := h.write_outside hwrote hbelow
      have hkeep := h.keepsData_outside hstep
      have hsync : ∀ {u : JournalImage} {sync : Bool}, (Exec.when (sync = true)
          (Journal.onImage Image.sync)).Holds u
          (fun _ v ↦ ∃ faults, v = { u with image := { u.image with faults := faults } })
          (fun e _ ↦ e.IsHost) := by
        intro u sync
        rw [Exec.holds_when]
        refine ⟨fun _ ↦ ?_, fun _ ↦ ⟨u.image.faults, rfl⟩⟩
        rw [Journal.onImage, Exec.holds_zoom]
        refine (Image.hostCall_spec u.image).mono ?_ (fun _ _ he ↦ he.1)
        rintro _ _ ⟨faults, rfl⟩
        exact ⟨faults, rfl⟩
      refine hsync.bind ?_ (fun _ _ he ↦ Or.inl he)
      rintro _ _ ⟨faults, rfl⟩
      rw [Exec.holds_modify]
      have hquiet := CachedImage.Step.of_grown (d := ⟨s.cache, img⟩) (Image.Grown.faults img faults)
      have hfaults := hinv.quiet hquiet
      refine ⟨hfaults.relabel ⟨rfl, rfl, rfl, rfl⟩ rfl rfl rfl, hkeep, fun _ hb ↦ hb,
        hstep.trans (hquiet.mono fun _ hb ↦ hb.elim), hlen, rfl, ?_, rfl⟩
      have hhead : ∀ a b, Journal.saturatingAdd32 a b < 2 ^ 32 := by
        intro a b
        unfold Journal.saturatingAdd32
        omega
      intro hrange
      exact { hrange with
        journalSeq := Nat.lt_of_not_le hseq
        journalHead := hhead _ _
        journalTail := hhead _ _
        journalCommitted := Nat.lt_of_not_le hseq }

/-! ## All dirty inodes -/

theorem Persisted.refl (i : Inode) : Persisted i i := ⟨rfl, rfl, Or.inl ⟨rfl, rfl⟩⟩

/-- The live inodes after some have been persisted. -/
structure AllPersisted (live live' : KeyMap Inode) : Prop where
  some : ∀ k i, live.find? k = Option.some i → ∃ i', live'.find? k = Option.some i' ∧ Persisted i i'
  none : ∀ k, live.find? k = Option.none → live'.find? k = Option.none

theorem AllPersisted.refl (live : KeyMap Inode) : AllPersisted live live :=
  ⟨fun _ i hk ↦ ⟨i, hk, Persisted.refl i⟩, fun _ hk ↦ hk⟩

theorem AllPersisted.keepsData {live' : KeyMap Inode} (h : AllPersisted live live')
    (hdata : KeepsData live' s t) : KeepsData live s t := by
  intro k i hk
  obtain ⟨i', hk', hper⟩ := h.some k i hk
  rw [← hper.extents]
  exact hdata k i' hk'

/-- The state between two inodes of the loop; `rest` is still to be persisted. -/
structure PersistLoop (s : Inner) (live : KeyMap Inode) (rest : List ℕ) (t : Inner) : Prop where
  nodup : rest.Nodup
  inv : ∃ live' dirty, (t.shadow t.inodes dirty).Inv live' [] ∧ AllPersisted live live' ∧
    (∀ k ∈ rest, live'.find? k = live.find? k) ∧ ∀ k, dirty.contains k = true ↔ k ∈ rest
  memory : ∀ k, t.inodes.find? k = none ↔ s.inodes.find? k = none
  same : SameButInodes s t
  data : KeepsData live s t

theorem PersistLoop.start (h : s.Inv live []) {items : List ℕ} (hnodup : items.Nodup)
    (hitems : ∀ k, s.dirtyInodes.contains k = true ↔ k ∈ items) : PersistLoop s live items s :=
  ⟨hnodup, ⟨live, s.dirtyInodes, h, AllPersisted.refl live, fun _ _ ↦ rfl, hitems⟩, fun _ ↦ Iff.rfl, rfl,
    KeepsData.refl _ _⟩

/-- The next inode is as it was before the loop. -/
theorem PersistLoop.next {rest : List ℕ} (hloop : PersistLoop s live (ino :: rest) t) (h : s.Inv live []) :
    ∃ i dirty live', s.inodes.find? ino = some i ∧ t.inodes.find? ino = some i ∧ live.find? ino = some i ∧
      (t.shadow t.inodes dirty).Inv live' [] ∧ dirty.contains ino = true := by
  obtain ⟨live', dirty, hinv, -, hsame, hdirty⟩ := hloop.inv
  have hmark : dirty.contains ino = true := (hdirty ino).mpr List.mem_cons_self
  obtain ⟨i, hmem⟩ : ∃ i, t.inodes.find? ino = some i := hinv.numbered.dirty ino hmark
  have hlive : live.find? ino = some i := (hsame ino List.mem_cons_self).symm.trans (hinv.numbered.memory ino i hmem)
  have hold : s.inodes.find? ino = some i := by
    cases hs : s.inodes.find? ino with
    | none =>
      rw [(hloop.memory ino).mpr hs] at hmem
      cases hmem
    | some x => rw [← h.numbered.memory ino x hs, hlive]
  exact ⟨i, dirty, live', hold, hmem, hlive, hinv, hmark⟩

theorem PersistLoop.step {rest : List ℕ} (hloop : PersistLoop s live (ino :: rest) t) :
    (persistInode ino).Holds t (fun _ u ↦ PersistLoop s live rest u)
      (fun e u ↦ e.IsHost ∨ (∃ i, live.find? ino = some i ∧ blockSize < (encodeXattrs i.xattr).length) ∧ u = t) := by
  obtain ⟨hnodup, ⟨live', dirty, hinv, hall, hsame, hdirty⟩, hmemory, hbut, hdata⟩ := hloop
  obtain ⟨hnot, hrest⟩ := List.nodup_cons.mp hnodup
  have hmark : dirty.contains ino = true := (hdirty ino).mpr List.mem_cons_self
  obtain ⟨i, hmem⟩ : ∃ i, t.inodes.find? ino = some i := hinv.numbered.dirty ino hmark
  have hlive' : live'.find? ino = some i := hinv.numbered.memory ino i hmem
  have hlive : live.find? ino = some i := (hsame ino List.mem_cons_self).symm.trans hlive'
  refine (persistInode_spec hinv hmem hmark).mono ?_ ?_
  · rintro _ u ⟨i', hper, hinodes, hbut', hinv', hdata'⟩
    refine ⟨hrest, ⟨live'.insert ino i', dirty.erase ino, hinv', ⟨fun k x hx ↦ ?_, fun k hk ↦ ?_⟩,
      fun k hk ↦ ?_, fun k ↦ ?_⟩, fun k ↦ ?_, hbut.trans hbut', hdata.trans (hall.keepsData hdata')⟩
    · by_cases hki : k = ino
      · rw [hki, hlive] at hx
        cases hx
        exact ⟨i', by rw [hki, KeyMap.find?_insert_self], hper⟩
      · obtain ⟨x', hx', hpx⟩ := hall.some k x hx
        exact ⟨x', by rw [KeyMap.find?_insert_of_ne hki]; exact hx', hpx⟩
    · rw [KeyMap.find?_insert_of_ne]
      · exact hall.none k hk
      · rintro rfl
        rw [hlive] at hk
        cases hk
    · rw [KeyMap.find?_insert_of_ne]
      · exact hsame k (List.mem_cons_of_mem _ hk)
      · rintro rfl
        exact hnot hk
    · rw [KeyMap.contains_iff, KeyMap.find?_erase]
      constructor
      · rintro ⟨v, hv⟩
        split_ifs at hv with hki
        have := (hdirty k).mp (KeyMap.contains_iff.mpr ⟨v, hv⟩)
        exact (List.mem_cons.mp this).resolve_left hki
      · intro hk
        have hki : k ≠ ino := by
          rintro rfl
          exact hnot hk
        rw [if_neg hki]
        exact KeyMap.contains_iff.mp ((hdirty k).mpr (List.mem_cons_of_mem _ hk))
    · rw [hinodes, KeyMap.find?_insert]
      split_ifs with hki
      · rw [hki, ← hmemory ino, hmem]
        simp
      · exact hmemory k
  · rintro e u (he | ⟨hlarge, rfl⟩)
    · exact Or.inl he
    · exact Or.inr ⟨⟨i, hlive, hlarge⟩, rfl⟩

/-- A non-host error of the loop: attributes that do not fit a block. -/
def XattrTooLarge (live : KeyMap Inode) : Prop :=
  ∃ k i, live.find? k = some i ∧ blockSize < (encodeXattrs i.xattr).length

theorem Inv.dirtier {dirty dirty' : KeyMap Unit} (h : (s.shadow s.inodes dirty).Inv live hand)
    (hsub : ∀ k, dirty.contains k = true → dirty'.contains k = true)
    (hmem : ∀ k, dirty'.contains k = true → ∃ i, s.inodes.find? k = some i) :
    (s.shadow s.inodes dirty').Inv live hand := by
  refine ⟨{ h.geometry with }, ⟨h.owned.alloc, h.owned.fits⟩, ?_, ?_⟩
  · exact { h.numbered with
      dirty := hmem
      record := fun c hc ↦ ⟨(h.numbered.record c hc).length_le, (h.numbered.record c hc).index_le,
        (h.numbered.record c hc).owner⟩ }
  · refine h.onDisk.congr rfl rfl (fun k hk ↦ ?_) (fun _ hj ↦ hj)
    rw [Bool.eq_false_iff] at hk ⊢
    exact fun hd ↦ hk (hsub k hd)

theorem persistAll_spec (h : s.Inv live []) (items : List ℕ) (hnodup : items.Nodup)
    (hitems : ∀ k, s.dirtyInodes.contains k = true ↔ k ∈ items) :
    (Exec.forEach persistInode items).Holds s (fun _ t ↦ PersistLoop s live [] t)
      (fun e t ↦ e.IsHost ∨ XattrTooLarge live ∧
        ∃ live', t.Inv live' [] ∧ AllPersisted live live' ∧ SameButInodes s t ∧ KeepsData live s t ∧
          ∀ k, t.inodes.find? k = none ↔ s.inodes.find? k = none) := by
  refine (Exec.holds_forEach (fun rest t ↦ PersistLoop s live rest t ∧ ∀ k ∈ rest, k ∈ items) ?_ items
    ⟨.start h hnodup hitems, fun _ hk ↦ hk⟩).mono (fun _ _ hp ↦ hp.1) (fun _ _ he ↦ he)
  rintro ino rest t ⟨hloop, hsub⟩
  have hkept := hloop
  obtain ⟨-, ⟨live', dirty, hinv, hall, -, hdirty⟩, hmemory, hbut, hdata⟩ := hkept
  refine hloop.step.mono (fun _ _ hnext ↦ ⟨hnext, fun k hk ↦ hsub k (List.mem_cons_of_mem _ hk)⟩) ?_
  rintro e u (he | ⟨⟨i, hlive, hlarge⟩, rfl⟩)
  · exact Or.inl he
  · refine Or.inr ⟨⟨ino, i, hlive, hlarge⟩, live', ?_, hall, hbut, hdata, hmemory⟩
    have hdirtyInodes : u.dirtyInodes = s.dirtyInodes := by rw [hbut]
    rw [← hdirtyInodes] at hitems
    refine hinv.dirtier (fun k hk ↦ ?_) (fun k hk ↦ ?_)
    · exact (hitems k).mpr (hsub k ((hdirty k).mp hk))
    · rw [hdirtyInodes] at hk
      obtain ⟨x, hx⟩ := h.numbered.dirty k hk
      cases hu : u.inodes.find? k with
      | none =>
        rw [(hmemory k).mp hu] at hx
        cases hx
      | some y => exact ⟨y, rfl⟩

/-! ## Write-back -/

/-- Both copies of the superblock are on disk. They may count the blocks the image had before it was shrunk. -/
def SbRecorded (t : Inner) : Prop :=
  ∃ total < u64Limit, t.image.block 0 = ({ t.sb with totalBlocks := total } : Superblock).encode ∧
    t.image.block t.sb.backupBlock = ({ t.sb with totalBlocks := total } : Superblock).encode

/-- The state after everything was written back. -/
structure Flushed (s : Inner) (live : KeyMap Inode) (t : Inner) (live' : KeyMap Inode) : Prop where
  inv : t.Inv live' []
  persisted : AllPersisted live live'
  memory : ∀ k, t.inodes.find? k = none ↔ s.inodes.find? k = none
  clean : t.dirtyInodes = KeyMap.empty
  settled : ∀ b, ¬t.disk.DirtyAt b
  data : KeepsData live s t
  sb : t.sb = { s.sb with
    mtime := s.env.now
    totalBlocks := t.alloc.totalBlocks
    allocBlock := t.sb.allocBlock }
  recorded : t.SbRecorded
  same : t = { s with
    image := t.image
    cache := t.cache
    alloc := t.alloc
    inodes := t.inodes
    dirtyInodes := t.dirtyInodes
    sb := t.sb }

theorem sync_spec (s : Inner) (mode : SyncMode) :
    (Exec.when (mode = .full) (onImage Image.sync)).Holds s
      (fun _ t ↦ ∃ faults, t = { s with image := { s.image with faults := faults } })
      (fun e _ ↦ e.IsHost) := by
  rw [Exec.holds_when]
  refine ⟨fun _ ↦ ?_, fun _ ↦ ⟨s.image.faults, rfl⟩⟩
  rw [onImage, Exec.holds_zoom]
  refine (Image.hostCall_spec s.image).mono ?_ (fun _ _ he ↦ he.1)
  rintro _ _ ⟨faults, rfl⟩
  exact ⟨faults, rfl⟩

theorem writeBack_spec (h : s.Inv live []) (order : FlushOrder) (items : List ℕ) (hnodup : items.Nodup)
    (hitems : ∀ k, s.dirtyInodes.contains k = true ↔ k ∈ items) :
    (writeBack order items).Holds s (fun _ t ↦ ∃ live', Flushed s live t live')
      (fun e t ↦ e.IsHost ∨ XattrTooLarge live ∧
        ∃ live', t.Inv live' [] ∧ AllPersisted live live' ∧ SameButInodes s t ∧ KeepsData live s t ∧
          ∀ k, t.inodes.find? k = none ↔ s.inodes.find? k = none) := by
  unfold writeBack
  refine (persistAll_spec h items hnodup hitems).bind ?_ (fun _ _ he ↦ he)
  rintro _ t₁ ⟨-, ⟨live', dirty, hinv₁, hall, -, hdirty⟩, hmemory, hbut, hdata₁⟩
  rw [Exec.holds_bind, Exec.holds_modify]
  have hempty : dirty = KeyMap.empty := by
    apply KeyMap.eq_of_find?_eq
    intro k
    cases hk : dirty.find? k with
    | none => rfl
    | some v => exact absurd ((hdirty k).mp (KeyMap.contains_iff.mpr ⟨v, hk⟩)) (by simp)
  rw [hempty] at hinv₁
  set t₂ : Inner := { t₁ with dirtyInodes := KeyMap.empty } with ht₂
  have hinv₂ : t₂.Inv live' [] := hinv₁
  -- the cache is flushed
  rw [Exec.holds_bind, onCache, Exec.holds_zoom]
  refine (BlockCache.flush_spec order.blocks t₂.disk).mono ?_ (fun _ _ he ↦ Or.inl he)
  rintro _ d ⟨hquiet, hclean⟩
  have hinv₃ := hinv₂.quiet hquiet
  have hdata₃ : KeepsData live' t₂ (t₂.withDisk d) := fun k i _ ↦
    KeepsBlocks.step (t := t₂.withDisk d) hquiet fun b hb ↦ hb.elim
  refine (writeAllocator_spec hinv₃ hclean).bind ?_ (fun _ _ he ↦ Or.inl he)
  rintro _ t₄ ⟨n, hinv₄, hdata₄, hclean₄, -, -, hsame₄⟩
  refine (writeSuperblock_spec hinv₄).bind ?_ (fun _ _ he ↦ Or.inl he)
  rintro _ t₅ ⟨hinv₅, hdata₅, hdirty₅, hprimary, hbackup, hsame₅⟩
  have hclean₅ : ∀ b, ¬t₅.disk.DirtyAt b := fun b hb ↦ hclean₄ b (hdirty₅ b hb)
  refine (shrinkImage_spec hinv₅ hclean₅).bind ?_ (fun _ _ he ↦ Or.inl he)
  rintro _ t₆ ⟨hinv₆, hdata₆, hclean₆, -, hkept, -, hsame₆⟩
  rw [Exec.holds_bind, Exec.holds_read]
  refine (sync_spec t₆ _).mono ?_ (fun _ _ he ↦ Or.inl he)
  rintro _ _ ⟨faults, rfl⟩
  have hgrown : CachedImage.Quiet t₆.disk ⟨t₆.cache, { t₆.image with faults := faults }⟩ :=
    CachedImage.Step.of_grown (Image.Grown.faults t₆.image faults)
  have hdata' : KeepsData live' t₁ t₆ :=
    (((KeepsData.trans (t := t₂) (fun _ _ _ _ _ _ hP ↦ hP) hdata₃).trans hdata₄).trans hdata₅).trans
      hdata₆
  have hinodes : t₆.inodes = t₁.inodes := by rw [hsame₆, hsame₅, hsame₄]; rfl
  have henv : t₁.env = s.env := by rw [hbut]
  have hsb₁ : t₁.sb = s.sb := by rw [hbut]
  have hsb₆ : t₆.sb = { t₅.sb with totalBlocks := t₆.alloc.totalBlocks } := by rw [hsame₆]
  have hsb₅ : t₅.sb = t₄.sb := by rw [hsame₅]
  have hsb₄ : t₄.sb.totalBlocks = t₄.alloc.totalBlocks := by rw [hsame₄]
  have hrecorded : t₆.SbRecorded := by
    have hdata := hinv₆.geometry.data
    have hfirst := hinv₆.geometry.first
    have hle := hinv₆.owned.alloc.first_le
    have hplace : t₆.sb.backupBlock = t₄.sb.backupBlock := by rw [hsb₆, hsb₅]; rfl
    have hback : t₆.sb.backupBlock < t₆.alloc.totalBlocks := by
      unfold Superblock.backupBlock
      omega
    have hsb : { t₆.sb with totalBlocks := t₄.alloc.totalBlocks } = t₄.sb := by rw [hsb₆, hsb₅, ← hsb₄]
    refine ⟨t₄.alloc.totalBlocks, hinv₄.geometry.total, ?_, ?_⟩
    · rw [hkept 0 (by omega), hsb]
      exact hprimary
    · rw [hkept _ hback, hsb, hplace]
      exact hbackup
  refine ⟨live', hinv₆.quiet hgrown, hall, fun k ↦ ?_, ?_, hclean₆, ?_, ?_, hrecorded, ?_⟩
  · change t₆.inodes.find? k = none ↔ _
    rw [hinodes]
    exact hmemory k
  · change t₆.dirtyInodes = _
    rw [hsame₆, hsame₅, hsame₄]
    rfl
  · exact hdata₁.trans (hall.keepsData hdata')
  · change t₆.sb = _
    rw [hsame₆, hsame₅, hsame₄, ← henv, ← hsb₁]
    rfl
  · rw [hsame₆, hsame₅, hsame₄, ht₂, hbut]
    rfl

end Inner

end LinuxFile
