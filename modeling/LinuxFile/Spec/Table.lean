import LinuxFile.Spec.Blocks

/-!
# Slots of the inode table

Every number below the table's capacity has a slot, and different numbers have different slots, so
writing one slot leaves the others alone.
-/

namespace LinuxFile

open Ledger

/-! ## Where the slots are -/

theorem Contiguous.logical_le {first : ℕ} {extents : List Extent} (h : Contiguous first extents) :
    ∀ e ∈ extents, first ≤ e.logical := by
  induction extents generalizing first with
  | nil => simp
  | cons a rest ih =>
    obtain ⟨hlog, hpos, -, -, -, hrest⟩ := h
    intro e he
    rcases List.mem_cons.mp he with rfl | he
    · omega
    · have := ih hrest e he
      omega

theorem Contiguous.clear {first : ℕ} {extents : List Extent} (h : Contiguous first extents) :
    extents.Pairwise Clear := by
  induction extents generalizing first with
  | nil => exact List.Pairwise.nil
  | cons a rest ih =>
    obtain ⟨hlog, hpos, -, -, -, hrest⟩ := h
    refine List.pairwise_cons.mpr ⟨fun e he n hn ↦ ?_, ih hrest⟩
    have := hrest.logical_le e he
    unfold Extent.logicalEnd at hn
    omega

theorem Contiguous.exists_map {first : ℕ} {extents : List Extent} (h : Contiguous first extents) {n : ℕ}
    (hlow : first ≤ n) (hhigh : n < first + (extents.map Extent.length).sum) :
    ∃ phys, mapExtents extents n = some phys := by
  have hmem : ∃ e ∈ extents, e.logical ≤ n ∧ n < e.logicalEnd := by
    induction extents generalizing first with
    | nil =>
      simp only [List.map_nil, List.sum_nil] at hhigh
      omega
    | cons a rest ih =>
      obtain ⟨hlog, hpos, -, -, -, hrest⟩ := h
      rw [List.map_cons, List.sum_cons] at hhigh
      by_cases hin : n < first + a.length
      · exact ⟨a, List.mem_cons_self, by omega, by unfold Extent.logicalEnd; omega⟩
      · obtain ⟨e, he, hen⟩ := ih hrest (by omega) (by omega)
        exact ⟨e, List.mem_cons_of_mem _ he, hen⟩
  obtain ⟨e, he, hen⟩ := hmem
  exact ⟨_, (mapExtents_eq_some_iff h.clear).mpr ⟨e, he, Extent.map_eq_some_iff.mpr ⟨hen, rfl⟩⟩⟩

/-- Blocks with one owner have one place in the table. -/
theorem mapExtents_inj {extents : List Extent} {n m phys : ℕ}
    (hone : cover (extents.map (fun e ↦ (e.physical, e.length))) phys ≤ 1)
    (hn : mapExtents extents n = some phys) (hm : mapExtents extents m = some phys) : n = m := by
  obtain ⟨a, ha, hmapa⟩ := List.exists_of_findSome?_eq_some hn
  obtain ⟨b, hb, hmapb⟩ := List.exists_of_findSome?_eq_some hm
  rw [Extent.map_eq_some_iff] at hmapa hmapb
  unfold Extent.logicalEnd at hmapa hmapb
  by_cases hab : a = b
  · subst hab
    omega
  · have hspan : ∀ e : Extent, ∀ k, (e.logical ≤ k ∧ k < e.logical + e.length) ∧
        phys = e.physical + (k - e.logical) → span e.physical e.length phys = 1 := by
      intro e k hk
      exact span_eq_one (by omega)
    have htwo := two_le_sum (f := fun e : Extent ↦ span e.physical e.length phys) ha hb hab
    have hsum : (extents.map fun e ↦ span e.physical e.length phys).sum =
        cover (extents.map (fun e ↦ (e.physical, e.length))) phys := by
      rw [cover, List.map_map]
      rfl
    rw [hspan a n hmapa, hspan b m hmapb, hsum] at htwo
    omega

theorem mapInodeSlot_of_map {sb : Superblock} {ino phys : ℕ}
    (h : mapExtents sb.inodeTableExtents (ino / inodesPerBlock) = some phys) :
    mapInodeSlot sb ino = .ok (phys, ino % inodesPerBlock * inodeSize) := by
  unfold mapInodeSlot
  rw [h]

theorem exists_slot {sb : Superblock} (h : Contiguous 0 sb.inodeTableExtents) {ino : ℕ}
    (hino : ino < inodeTableCapacity sb) :
    ∃ phys, mapInodeSlot sb ino = .ok (phys, ino % inodesPerBlock * inodeSize) := by
  obtain ⟨phys, hphys⟩ := h.exists_map (n := ino / inodesPerBlock) (Nat.zero_le _) (by
    rw [Nat.zero_add]
    exact Nat.div_lt_of_lt_mul (by rw [Nat.mul_comm]; exact hino))
  exact ⟨phys, mapInodeSlot_of_map hphys⟩

theorem slot_bounds {sb : Superblock} {ino phys off : ℕ} (h : mapInodeSlot sb ino = .ok (phys, off)) :
    off = ino % inodesPerBlock * inodeSize ∧ off + inodeSize ≤ blockSize ∧
      mapExtents sb.inodeTableExtents (ino / inodesPerBlock) = some phys := by
  unfold mapInodeSlot at h
  split at h
  · cases h
    refine ⟨rfl, ?_, ‹_›⟩
    unfold inodesPerBlock inodeSize blockSize
    omega
  · cases h

/-- Slots of different numbers do not meet. -/
theorem slot_apart {sb : Superblock} {j k phys off off' : ℕ}
    (hone : ∀ b, cover (tableRanges sb) b ≤ 1) (hj : mapInodeSlot sb j = .ok (phys, off))
    (hk : mapInodeSlot sb k = .ok (phys, off')) (hjk : j ≠ k) :
    off + inodeSize ≤ off' ∨ off' + inodeSize ≤ off := by
  obtain ⟨hoff, -, hmap⟩ := slot_bounds hj
  obtain ⟨hoff', -, hmap'⟩ := slot_bounds hk
  have hdiv : j / inodesPerBlock = k / inodesPerBlock := mapExtents_inj (hone phys) hmap hmap'
  unfold inodesPerBlock inodeSize at *
  omega

namespace Inner

variable {s t : Inner} {live : KeyMap Inode} {hand : List (ℕ × ℕ)} {ino : ℕ}

theorem Owned.table_le_one (h : s.Owned live hand) (b : ℕ) : cover (tableRanges s.sb) b ≤ 1 := by
  have := h.load_le_one b
  unfold load at this
  omega

/-! ## Writing a slot -/

/-- Cache and image after a slot was written. -/
structure SlotWritten (s : Inner) (phys off : ℕ) (raw : Buf inodeSize) (d : CachedImage) : Prop where
  step : CachedImage.Step (· = phys) s.disk d
  view : d.view phys = (s.disk.view phys).put off (raw.slice 0 inodeSize)
  dirty : d.DirtyAt phys

theorem SlotWritten.other {phys off : ℕ} {raw : Buf inodeSize} {d : CachedImage}
    (h : SlotWritten s phys off raw d) (hone : ∀ b, cover (tableRanges s.sb) b ≤ 1)
    (hslot : mapInodeSlot s.sb ino = .ok (phys, off)) {j : ℕ} (hj : j ≠ ino) {P : Buf inodeSize → Prop}
    (hP : s.SlotAll j P) : (s.withDisk d).SlotAll j P := by
  obtain ⟨phys', off', hmap, hcopies⟩ := hP
  refine ⟨phys', off', hmap, ?_⟩
  by_cases hphys : phys' = phys
  · subst hphys
    have hapart := slot_apart hone hmap hslot hj
    apply h.dirty.copies
    rw [h.view]
    have hsub : ((s.disk.view phys').put off (raw.slice 0 inodeSize)).sub off' inodeSize =
        (s.disk.view phys').sub off' inodeSize := by
      apply Buf.sub_eq_of_slice
      exact Buf.slice_put_of_disjoint _ (by rw [Buf.slice_length]; exact hapart)
    rw [hsub]
    exact hcopies.view
  · exact h.step.copies phys' hphys _ hcopies

theorem SlotWritten.self {phys off : ℕ} {raw : Buf inodeSize} {d : CachedImage}
    (h : SlotWritten s phys off raw d) (hslot : mapInodeSlot s.sb ino = .ok (phys, off)) :
    (s.withDisk d).SlotIs ino raw := by
  refine ⟨phys, off, hslot, h.dirty.copies ?_⟩
  rw [h.view]
  apply Buf.sub_eq_of_slice_eq
  exact Buf.slice_put _ ⟨by simp, (slot_bounds hslot).2.1⟩

/-- Writing the slot of an inode that is being changed, or clearing that of an unused number. -/
theorem Inv.write_slot (h : s.Inv live hand) {phys off : ℕ} {raw : Buf inodeSize} {d : CachedImage}
    (hslot : mapInodeSlot s.sb ino = .ok (phys, off)) (hd : SlotWritten s phys off raw d)
    (hlive : ∀ i, live.find? ino = some i →
      s.dirtyInodes.contains ino = true ∧ s.inodes.find? ino ≠ none)
    (hdead : live.find? ino = none → raw = Buf.zero inodeSize) :
    (s.withDisk d).Inv live hand := by
  have hone := h.owned.table_le_one
  have htable := cover_table_of_slot hslot
  have hload := h.owned.load_le_one phys
  have hranges : ∀ k i, live.find? k = some i → cover i.ranges phys = 0 := by
    intro k i hk
    have := KeyMap.weight_le_total (fun _ i ↦ cover i.ranges phys) hk
    unfold load at hload
    omega
  have hkeep : ∀ k i, live.find? k = some i → KeepsBlocks i.ranges s (s.withDisk d) := by
    intro k i hk
    apply KeepsBlocks.step hd.step
    rintro b rfl
    exact hranges k i hk
  have hsplit : ∀ k i, live.find? k = some i → KeepsBlocks i.treeRanges s (s.withDisk d) ∧
      KeepsBlocks i.xattrRanges s (s.withDisk d) := by
    intro k i hk
    have hzero := hranges k i hk
    rw [cover_ranges] at hzero
    exact ⟨KeepsBlocks.step hd.step (by rintro b rfl; omega),
      KeepsBlocks.step hd.step (by rintro b rfl; omega)⟩
  have hmapRanges : (s.withDisk d).mapRanges = s.mapRanges := by
    unfold mapRanges
    change (if s.sb.allocBlock = 0 then [] else
      [(s.sb.allocBlock, max ((d.image.block s.sb.allocBlock).getU32 4) 1)]) = _
    split_ifs with hzero
    · rfl
    · have hself := cover_mapRanges_self hzero
      have hne : s.sb.allocBlock ≠ phys := by
        intro heq
        rw [heq] at hself
        unfold load at hload
        omega
      rw [hd.step.image _ (h.onDisk.map _ hself) hne]
      rfl
  refine ⟨?_, ⟨h.owned.alloc, fun b ↦ ?_⟩, ?_, ?_⟩
  · exact { h.geometry with
      image := hd.step.ok h.geometry.image
      inside := h.geometry.inside.trans hd.step.len_le
      backed := h.geometry.backed.trans hd.step.len_le
      waiting := fun b hb ↦ by
        rcases hd.step.dirty b hb with hold | rfl
        · exact (h.geometry.waiting b hold).trans hd.step.len_le
        · exact (h.mul_le_len (by unfold load; omega)).trans hd.step.len_le }
  · have := h.owned.fits b
    unfold load at this ⊢
    rw [hmapRanges]
    exact this
  · exact { h.numbered with
      record := fun c hc ↦ ⟨(h.numbered.record c hc).length_le, (h.numbered.record c hc).index_le,
        (h.numbered.record c hc).owner⟩ }
  · refine ⟨fun k i hk hclean ↦ ?_, fun k i hk hnone ↦ ?_, fun k hpos hnext hk ↦ ?_, ?_, ?_⟩
    · have hne : k ≠ ino := by
        rintro rfl
        rw [show (s.withDisk d).dirtyInodes = s.dirtyInodes from rfl, (hlive i hk).1] at hclean
        cases hclean
      exact (h.onDisk.stored k i hk hclean).keep (fun raw' hs ↦ hd.other hone hslot hne hs)
        (hsplit k i hk).1 (hsplit k i hk).2
    · have hne : k ≠ ino := by
        rintro rfl
        exact (hlive i hk).2 hnone
      exact (h.onDisk.parked k i hk hnone).keep (fun raw' hs ↦ hd.other hone hslot hne hs) (hkeep k i hk)
    · by_cases hne : k = ino
      · subst hne
        rw [← hdead hk]
        exact hd.self hslot
      · exact hd.other hone hslot hne (h.onDisk.dead k hpos hnext hk)
    · intro k i hk e he hpacked
      refine hd.step.copies _ ?_ _ (h.onDisk.headers k i hk e he hpacked)
      rintro rfl
      have hlen := ((h.numbered.shape k i hk).extents e he).packed
        (by simpa [Extent.isCompressed] using hpacked)
      have hspan : span e.physical e.physLen e.physical = 1 := by
        rw [span_eq_one]
        unfold Extent.physLen
        rw [if_pos (by omega)]
        omega
      have hle : span e.physical e.physLen e.physical ≤ cover (extentRanges i.extents) e.physical := by
        rw [cover_extentRanges]
        exact List.le_sum_of_mem
          (List.mem_map_of_mem (f := fun x : Extent ↦ span x.physical x.physLen e.physical) he)
      have := hranges k i hk
      rw [cover_ranges] at this
      omega
    · intro b hb hdirty
      rw [hmapRanges] at hb
      rcases hd.step.dirty b hdirty with hold | rfl
      · exact h.onDisk.map b hb hold
      · unfold load at hload
        omega

/-! ## Giving back blocks, and inodes that have been stored -/

/-- Blocks in hand go back to the free map. -/
theorem Inv.release (h : s.Inv live hand) (freed hand' : List (ℕ × ℕ))
    (hcover : ∀ b, cover freed b + cover hand' b ≤ cover hand b) :
    Inv { s with alloc := freed.foldl (fun a r ↦ a.freeRange r.1 r.2) s.alloc } live hand' := by
  obtain ⟨hok, hfirst, htot, hfree⟩ := Allocator.freeAll_spec freed h.owned.alloc (by
    intro b
    have h1 := h.owned.fits b
    have h2 := hcover b
    unfold load at h1
    omega)
  have harea : ∀ b, (freed.foldl (fun a r ↦ a.freeRange r.1 r.2) s.alloc).area b = s.alloc.area b := by
    intro b
    unfold Allocator.area
    rw [hfirst, htot]
  refine ⟨?_, ⟨hok, fun b ↦ ?_⟩, ?_, ?_⟩
  · exact { h.geometry with
      first := hfirst.trans h.geometry.first
      backed := by rw [htot]; exact h.geometry.backed
      total := by rw [htot]; exact h.geometry.total }
  · change cover (freed.foldl (fun a r ↦ a.freeRange r.1 r.2) s.alloc).free.entries b +
      cover (tableRanges s.sb) b + cover s.mapRanges b +
      live.total (fun _ i ↦ cover i.ranges b) + cover hand' b ≤
        (freed.foldl (fun a r ↦ a.freeRange r.1 r.2) s.alloc).area b
    rw [harea b, hfree b]
    have h1 := h.owned.fits b
    have h2 := hcover b
    unfold load at h1
    omega
  · exact { h.numbered with
      record := fun c hc ↦ ⟨(h.numbered.record c hc).length_le, (h.numbered.record c hc).index_le,
        (h.numbered.record c hc).owner⟩ }
  · exact h.onDisk.congr rfl rfl (fun _ hj ↦ hj) (fun _ hj ↦ hj)

/-- Inodes that are stored need not be dirty. -/
theorem Inv.clean (h : s.Inv live hand) {dirty : KeyMap Unit}
    (hsub : ∀ k, dirty.contains k = true → s.dirtyInodes.contains k = true)
    (hstored : ∀ k i, live.find? k = some i → dirty.contains k = false →
      s.dirtyInodes.contains k = true → s.Stored k i) :
    Inv { s with dirtyInodes := dirty } live hand := by
  refine ⟨{ h.geometry with }, ⟨h.owned.alloc, h.owned.fits⟩, ?_, ?_⟩
  · exact { h.numbered with
      dirty := fun k hk ↦ h.numbered.dirty k (hsub k hk)
      record := fun c hc ↦ ⟨(h.numbered.record c hc).length_le, (h.numbered.record c hc).index_le,
        (h.numbered.record c hc).owner⟩ }
  · refine { h.onDisk with stored := fun k i hk hclean ↦ ?_ }
    have hold : s.Stored k i := by
      cases hdirty : s.dirtyInodes.contains k with
      | false => exact h.onDisk.stored k i hk hdirty
      | true => exact hstored k i hk hclean hdirty
    exact hold.keep (fun _ hs ↦ hs) (fun _ _ _ hP ↦ hP) (fun _ _ _ hP ↦ hP)

end Inner

end LinuxFile
