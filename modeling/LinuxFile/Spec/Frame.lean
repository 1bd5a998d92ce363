import LinuxFile.Spec.Invariant

/-!
# Elementary steps that keep the invariant

Each operation is a sequence of a few kinds of steps: blocks are read through the cache, written
where the operation may write, allocated or released, and one inode in memory is replaced. Here each
kind of step is shown to keep the invariant, with the blocks it moves accounted for in `hand`.
-/

namespace LinuxFile

open Ledger

namespace Inner

variable {s t : Inner} {live : KeyMap Inode} {hand : List (ℕ × ℕ)}

/-! ## Consequences of ownership -/

theorem holds_onCache {α : Type} {x : Exec Error CachedImage α} {Q : α → Inner → Prop}
    {E : Error → Inner → Prop} : (onCache x).Holds s Q E ↔
      x.Holds s.disk (fun a d ↦ Q a (s.withDisk d)) (fun e d ↦ E e (s.withDisk d)) := by
  unfold onCache
  rw [Exec.holds_zoom]
  rfl

theorem cover_extentRanges (extents : List Extent) (b : ℕ) :
    cover (extentRanges extents) b = (extents.map (fun e ↦ span e.physical e.physLen b)).sum := by
  simp only [cover, extentRanges, List.map_map]
  rfl

theorem cover_ranges (i : Inode) (b : ℕ) : cover i.ranges b =
    cover (extentRanges i.extents) b + (cover i.treeRanges b + cover i.xattrRanges b) := by
  simp only [Inode.ranges, cover_append]

theorem Owned.load_le_one (h : s.Owned live hand) (b : ℕ) : s.load live b + cover hand b ≤ 1 :=
  (h.fits b).trans (s.alloc.area_le_one b)

/-- A block that the free map, the table, the snapshot or an inode owns is in the data area. -/
theorem Inv.lt_total (h : s.Inv live hand) {b : ℕ}
    (hb : 0 < s.load live b + cover hand b) :
    s.alloc.firstData ≤ b ∧ b < s.alloc.totalBlocks := by
  have hfits := h.owned.fits b
  unfold Allocator.area at hfits
  by_cases harea : s.alloc.firstData ≤ b ∧
      b < s.alloc.firstData + (s.alloc.totalBlocks - s.alloc.firstData)
  · omega
  · rw [span_eq_zero harea] at hfits
    omega

theorem cover_le_load {k : ℕ} {i : Inode} (h : live.find? k = some i) (b : ℕ) :
    cover i.ranges b ≤ s.load live b := by
  have : cover i.ranges b ≤ live.total (fun _ i ↦ cover i.ranges b) :=
    KeyMap.weight_le_total (fun _ i ↦ cover i.ranges b) h
  unfold load
  omega

/-- The blocks an operation may write: those in hand, and those of uncompressed extents of inodes in
memory. -/
def Zone (s : Inner) (hand : List (ℕ × ℕ)) (b : ℕ) : Prop :=
  0 < cover hand b ∨ ∃ k i e, s.inodes.find? k = some i ∧ e ∈ i.extents ∧ e.compress = 0 ∧
    e.physical ≤ b ∧ b < e.physical + e.physLen

/-- What does not own a block of the zone. -/
structure Apart (s : Inner) (live : KeyMap Inode) (b : ℕ) : Prop where
  table : cover (tableRanges s.sb) b = 0
  map : cover s.mapRanges b = 0
  parked : ∀ k i, live.find? k = some i → s.inodes.find? k = none → cover i.ranges b = 0
  tree : ∀ k i, live.find? k = some i → cover i.treeRanges b = 0 ∧ cover i.xattrRanges b = 0
  headers : ∀ k i, live.find? k = some i → ∀ e ∈ i.extents, e.isCompressed = true → e.physical ≠ b

theorem Inv.apart_of_zero (h : s.Inv live hand) {b : ℕ} (hzero : s.load live b = 0) :
    s.Apart live b := by
  have hranges : ∀ k i, live.find? k = some i → cover i.ranges b = 0 := by
    intro k i hk
    have := cover_le_load (s := s) hk b
    omega
  unfold load at hzero
  refine ⟨by omega, by omega, fun k i hk _ ↦ hranges k i hk, fun k i hk ↦ ?_, ?_⟩
  · have := hranges k i hk
    rw [cover_ranges] at this
    omega
  · intro k i hk e he hpacked hphys
    have hlen := ((h.numbered.shape k i hk).extents e he).packed (by simpa [Extent.isCompressed] using hpacked)
    have hone : 1 ≤ cover (extentRanges i.extents) b := by
      rw [cover_extentRanges]
      calc 1 = span e.physical e.physLen b := by
            rw [span_eq_one]
            unfold Extent.physLen
            rw [if_pos (by omega)]
            omega
        _ ≤ _ := List.le_sum_of_mem (List.mem_map_of_mem (f := fun e ↦ span e.physical e.physLen b) he)
    have := hranges k i hk
    rw [cover_ranges] at this
    omega

/-- Blocks of the zone are handed out. -/
theorem Inv.zone_pos (h : s.Inv live hand) {b : ℕ} (hb : s.Zone hand b) : 0 < s.load live b + cover hand b := by
  rcases hb with hhand | ⟨k, i, e, hmem, he, -, hlow, hhigh⟩
  · omega
  · have hload := cover_le_load (s := s) (h.numbered.memory k i hmem) b
    have hspan : span e.physical e.physLen b = 1 := span_eq_one ⟨hlow, hhigh⟩
    have hext : span e.physical e.physLen b ≤ cover (extentRanges i.extents) b := by
      rw [cover_extentRanges]
      exact List.le_sum_of_mem (List.mem_map_of_mem (f := fun e ↦ span e.physical e.physLen b) he)
    rw [cover_ranges] at hload
    omega

theorem Inv.apart_of_zone (h : s.Inv live hand) {b : ℕ} (hb : s.Zone hand b) : s.Apart live b := by
  have hone := h.owned.load_le_one b
  rcases hb with hhand | ⟨k₀, i₀, e₀, hmem, he₀, hraw, hlow, hhigh⟩
  · exact h.apart_of_zero (by omega)
  · have hk₀ := h.numbered.memory k₀ i₀ hmem
    have hspan : span e₀.physical e₀.physLen b = 1 := span_eq_one ⟨hlow, hhigh⟩
    have hext : span e₀.physical e₀.physLen b ≤ cover (extentRanges i₀.extents) b := by
      rw [cover_extentRanges]
      exact List.le_sum_of_mem (List.mem_map_of_mem (f := fun e ↦ span e.physical e.physLen b) he₀)
    have hload := cover_le_load (s := s) hk₀ b
    have hother : ∀ k i, live.find? k = some i → k ≠ k₀ → cover i.ranges b = 0 := by
      intro k i hk hne
      have h2 := KeyMap.two_weights_le_total (fun _ i ↦ cover i.ranges b) hk hk₀ hne
      rw [cover_ranges i₀] at h2
      unfold load at hone
      omega
    have hsum : s.load live b = 1 ∧ cover i₀.ranges b = 1 := by
      rw [cover_ranges] at hload ⊢
      omega
    have hfree : cover s.alloc.free.entries b = 0 ∧ cover (tableRanges s.sb) b = 0 ∧
        cover s.mapRanges b = 0 := by
      have hle := KeyMap.weight_le_total (fun _ i ↦ cover i.ranges b) hk₀
      unfold load at hsum
      omega
    refine ⟨hfree.2.1, hfree.2.2, fun k i hk hnone ↦ ?_, fun k i hk ↦ ?_, ?_⟩
    · apply hother k i hk
      rintro rfl
      rw [hmem] at hnone
      cases hnone
    · by_cases hkk : k = k₀
      · subst hkk
        have heq : i = i₀ := Option.some.inj (hk.symm.trans hk₀)
        subst heq
        have := hsum.2
        rw [cover_ranges] at this
        omega
      · have := hother k i hk hkk
        rw [cover_ranges] at this
        omega
    · intro k i hk e he hpacked hphys
      have hshape := (h.numbered.shape k i hk).extents e he
      have hlen := hshape.packed (by simpa [Extent.isCompressed] using hpacked)
      have hspan' : span e.physical e.physLen b = 1 := by
        rw [span_eq_one]
        unfold Extent.physLen
        rw [if_pos (by omega)]
        omega
      by_cases hkk : k = k₀
      · subst hkk
        have heq : i = i₀ := Option.some.inj (hk.symm.trans hk₀)
        subst heq
        have hne : e ≠ e₀ := by
          rintro rfl
          simp [Extent.isCompressed, hraw] at hpacked
        have h2 := two_le_sum (f := fun e ↦ span e.physical e.physLen b) he he₀ hne
        rw [← cover_extentRanges, hspan, hspan'] at h2
        have := hsum.2
        rw [cover_ranges] at this
        omega
      · have hext' : span e.physical e.physLen b ≤ cover (extentRanges i.extents) b := by
          rw [cover_extentRanges]
          exact List.le_sum_of_mem (List.mem_map_of_mem (f := fun e ↦ span e.physical e.physLen b) he)
        have := hother k i hk hkk
        rw [cover_ranges] at this
        omega

/-! ## The inode table -/

theorem cover_of_mapExtents {extents : List Extent} {n phys : ℕ} (h : mapExtents extents n = some phys) :
    0 < cover (extents.map (fun e ↦ (e.physical, e.length))) phys := by
  unfold mapExtents at h
  obtain ⟨e, he, hmap⟩ := List.exists_of_findSome?_eq_some h
  have hin : e.physical ≤ phys ∧ phys < e.physical + e.length := by
    unfold Extent.map Extent.containsLogical Extent.logicalEnd at hmap
    split_ifs at hmap with hc
    cases hmap
    rw [Bool.and_eq_true, decide_eq_true_eq, decide_eq_true_eq] at hc
    omega
  have hle := span_le_cover (List.mem_map_of_mem (f := fun e ↦ (e.physical, e.length)) he) phys
  rw [span_eq_one hin] at hle
  exact hle

theorem cover_table_of_slot {sb : Superblock} {ino phys off : ℕ}
    (h : mapInodeSlot sb ino = .ok (phys, off)) : 0 < cover (tableRanges sb) phys := by
  unfold mapInodeSlot at h
  split at h
  · cases h
    exact cover_of_mapExtents ‹_›
  · cases h

/-! ## Reading and writing blocks -/

theorem SlotAll.mono {ino : ℕ} {P Q : Buf inodeSize → Prop} (h : s.SlotAll ino P)
    (hPQ : ∀ raw, P raw → Q raw) : s.SlotAll ino Q := by
  obtain ⟨phys, off, hmap, hcopies⟩ := h
  exact ⟨phys, off, hmap, fun e he ↦ hPQ _ (hcopies.1 e he), fun hd ↦ hPQ _ (hcopies.2 hd)⟩

/-- Slots survive when the table and its blocks do. -/
theorem SlotAll.step {ino : ℕ} {P : Buf inodeSize → Prop} (h : s.SlotAll ino P) {W : ℕ → Prop}
    (hsb : t.sb = s.sb) (hstep : CachedImage.Step W s.disk t.disk)
    (hW : ∀ b, W b → cover (tableRanges s.sb) b = 0) : t.SlotAll ino P := by
  obtain ⟨phys, off, hmap, hcopies⟩ := h
  refine ⟨phys, off, by rw [hsb]; exact hmap, hstep.copies phys (fun hw ↦ ?_) _ hcopies⟩
  have := hW phys hw
  have := cover_table_of_slot hmap
  omega

theorem KeepsBlocks.step {ranges : List (ℕ × ℕ)} {W : ℕ → Prop}
    (hstep : CachedImage.Step W s.disk t.disk) (hW : ∀ b, W b → cover ranges b = 0) :
    KeepsBlocks ranges s t := by
  intro b hb P hP
  refine hstep.copies b (fun hw ↦ ?_) P hP
  have := hW b hw
  omega

theorem KeepsBlocks.trans {ranges : List (ℕ × ℕ)} {u : Inner} (hst : KeepsBlocks ranges s t)
    (htu : KeepsBlocks ranges t u) : KeepsBlocks ranges s u :=
  fun b hb P hP ↦ htu b hb P (hst b hb P hP)

theorem Parked.keep {ino : ℕ} {i : Inode} (h : s.Parked ino i)
    (hslot : ∀ raw, s.SlotIs ino raw → t.SlotIs ino raw) (hblocks : KeepsBlocks i.ranges s t) :
    t.Parked ino i := by
  obtain ⟨raw, hraw, hread⟩ := h
  exact ⟨raw, hslot raw hraw, fun u hok hcap hu hkeep ↦ hread u hok hcap hu (hblocks.trans hkeep)⟩

theorem XattrStored.keep {i : Inode} (h : s.XattrStored i) (hblocks : KeepsBlocks i.xattrRanges s t) :
    t.XattrStored i := by
  rcases h with h | ⟨hne, hblock, hfit, hcopies⟩
  · exact Or.inl h
  · refine Or.inr ⟨hne, hblock, hfit, hblocks _ ?_ _ hcopies⟩
    rw [Inode.xattrRanges, if_neg hblock, cover_cons, cover_nil, span_eq_one (by dsimp only; omega)]
    omega

theorem TreeStored.keep {i : Inode} (h : s.TreeStored i) (hblocks : KeepsBlocks i.treeRanges s t) :
    t.TreeStored i := by
  rcases h with h | ⟨hlen, hkind, htree, hcount, hcopies⟩
  · exact Or.inl h
  · refine Or.inr ⟨hlen, hkind, htree, hcount, fun b hb ↦ hblocks _ ?_ _ (hcopies b hb)⟩
    rw [Inode.treeRanges, if_neg htree, cover_cons, cover_nil, span_eq_one (by dsimp only; omega)]
    omega

theorem Stored.keep {ino : ℕ} {i : Inode} (h : s.Stored ino i)
    (hslot : ∀ raw, s.SlotIs ino raw → t.SlotIs ino raw) (htree : KeepsBlocks i.treeRanges s t)
    (hxattr : KeepsBlocks i.xattrRanges s t) : t.Stored ino i :=
  ⟨hslot _ h.slot, h.xattr.keep hxattr, h.tree.keep htree⟩

/-- What is on disk does not depend on the rest of the state. -/
theorem OnDisk.congr (h : s.OnDisk live) (hsb : t.sb = s.sb) (hdisk : t.disk = s.disk)
    (hdirty : ∀ k, t.dirtyInodes.contains k = false → s.dirtyInodes.contains k = false)
    (hmem : ∀ k, t.inodes.find? k = none → s.inodes.find? k = none) : t.OnDisk live := by
  have hslot : ∀ ino raw, s.SlotIs ino raw → t.SlotIs ino raw := by
    intro ino raw hs
    unfold SlotIs SlotAll at *
    rw [hsb, hdisk]
    exact hs
  have hblocks : ∀ ranges, KeepsBlocks ranges s t := by
    intro ranges b _ P hP
    rw [hdisk]
    exact hP
  refine ⟨fun k i hk hclean ↦ ?_, fun k i hk hnone ↦ ?_, fun k hpos hnext hk ↦ ?_, ?_, ?_⟩
  · exact (h.stored k i hk (hdirty k hclean)).keep (hslot k) (hblocks _) (hblocks _)
  · exact (h.parked k i hk (hmem k hnone)).keep (hslot k) (hblocks _)
  · exact hslot k _ (h.dead k hpos (by rw [← hsb]; exact hnext) hk)
  · intro k i hk e he hpacked
    unfold HeaderAt
    rw [hdisk]
    exact h.headers k i hk e he hpacked
  · have himage : t.image = s.image := congrArg CachedImage.image hdisk
    have hmap := h.map
    unfold MapStored mapRanges at *
    rw [hsb, hdisk, himage]
    exact hmap

theorem cover_mapRanges_self (hne : s.sb.allocBlock ≠ 0) : 0 < cover s.mapRanges s.sb.allocBlock := by
  rw [mapRanges, if_neg hne, cover_cons, cover_nil, span_eq_one (by dsimp only; omega)]
  omega

/-- Cache and image are replaced, and every block that anything depends on keeps its copies. -/
theorem Inv.redisk (h : s.Inv live hand) {W : ℕ → Prop} {d : CachedImage}
    (hcopies : ∀ b, ¬W b → ∀ P, s.disk.Copies P b → d.Copies P b)
    (hdirty : ∀ b, d.DirtyAt b → s.disk.DirtyAt b ∨ W b)
    (himage : ∀ b, ¬s.disk.DirtyAt b → ¬W b → d.image.block b = s.image.block b)
    (hok : d.image.Ok) (hinside : s.sb.firstDataBlock * blockSize ≤ d.image.len)
    (hbacked : s.alloc.totalBlocks * blockSize ≤ d.image.len)
    (hwaiting : ∀ b, d.DirtyAt b → b * blockSize + blockSize ≤ d.image.len)
    (hapart : ∀ b, W b → s.Apart live b) :
    (s.withDisk d).Inv live hand ∧ (s.withDisk d).mapRanges = s.mapRanges := by
  have hmap : s.sb.allocBlock ≠ 0 →
      d.image.block s.sb.allocBlock = s.image.block s.sb.allocBlock := by
    intro hne
    have hself := cover_mapRanges_self hne
    refine himage _ (h.onDisk.map _ hself) (fun hw ↦ ?_)
    have := (hapart _ hw).map
    omega
  have hmapRanges : (s.withDisk d).mapRanges = s.mapRanges := by
    unfold mapRanges
    change (if s.sb.allocBlock = 0 then [] else
      [(s.sb.allocBlock, max ((d.image.block s.sb.allocBlock).getU32 4) 1)]) = _
    split_ifs with hzero
    · rfl
    · rw [hmap hzero]
  have hload : ∀ b, (s.withDisk d).load live b = s.load live b := by
    intro b
    unfold load
    rw [hmapRanges]
    rfl
  have hslot : ∀ ino raw, s.SlotIs ino raw → (s.withDisk d).SlotIs ino raw := by
    rintro ino raw ⟨phys, off, hphys, hc⟩
    refine ⟨phys, off, hphys, hcopies phys (fun hw ↦ ?_) _ hc⟩
    have := (hapart phys hw).table
    have := cover_table_of_slot hphys
    omega
  have hblocks : ∀ ranges, (∀ b, W b → cover ranges b = 0) → KeepsBlocks ranges s (s.withDisk d) := by
    intro ranges hzero b hb P hP
    refine hcopies b (fun hw ↦ ?_) P hP
    have := hzero b hw
    omega
  refine ⟨⟨?_, ⟨h.owned.alloc, fun b ↦ ?_⟩, ?_, ?_⟩, hmapRanges⟩
  · exact { h.geometry with
      image := hok
      inside := hinside
      backed := hbacked
      waiting := hwaiting }
  · rw [hload b]
    exact h.owned.fits b
  · exact { h.numbered with
      record := fun c hc ↦ ⟨(h.numbered.record c hc).length_le, (h.numbered.record c hc).index_le,
        (h.numbered.record c hc).owner⟩ }
  · refine ⟨fun k i hk hclean ↦ ?_, fun k i hk hnone ↦ ?_, fun k hpos hnext hk ↦ ?_, ?_, ?_⟩
    · exact (h.onDisk.stored k i hk hclean).keep (hslot k)
        (hblocks _ fun b hb ↦ ((hapart b hb).tree k i hk).1)
        (hblocks _ fun b hb ↦ ((hapart b hb).tree k i hk).2)
    · exact (h.onDisk.parked k i hk hnone).keep (hslot k)
        (hblocks _ fun b hb ↦ (hapart b hb).parked k i hk hnone)
    · exact hslot k _ (h.onDisk.dead k hpos hnext hk)
    · intro k i hk e he hpacked
      refine hcopies _ (fun hw ↦ ?_) _ (h.onDisk.headers k i hk e he hpacked)
      exact (hapart _ hw).headers k i hk e he hpacked rfl
    · intro b hb hd
      rw [hmapRanges] at hb
      rcases hdirty b hd with hd' | hw
      · exact h.onDisk.map b hb hd'
      · have := (hapart b hw).map
        omega

/-- Writing blocks on which nothing depends. -/
theorem Inv.write_apart (h : s.Inv live hand) {W : ℕ → Prop} {d : CachedImage}
    (hstep : CachedImage.Step W s.disk d) (hinside : ∀ b, W b → d.DirtyAt b → b * blockSize + blockSize ≤ d.image.len)
    (hapart : ∀ b, W b → s.Apart live b) : (s.withDisk d).Inv live hand := by
  refine (h.redisk hstep.copies hstep.dirty hstep.image (hstep.ok h.geometry.image)
    (h.geometry.inside.trans hstep.len_le) (h.geometry.backed.trans hstep.len_le) (fun b hb ↦ ?_) hapart).1
  rcases hstep.dirty b hb with hold | hw
  · exact (h.geometry.waiting b hold).trans hstep.len_le
  · exact hinside b hw hb

/-- A block of the data area lies in the image. -/
theorem Inv.mul_le_len (h : s.Inv live hand) {b : ℕ} (hb : 0 < s.load live b + cover hand b) :
    b * blockSize + blockSize ≤ s.image.len := by
  have hfits := h.owned.fits b
  have hlt : b < s.alloc.totalBlocks := by
    by_contra hge
    have harea : s.alloc.area b = 0 := by
      unfold Allocator.area
      rw [span_eq_zero (by have := h.owned.alloc.first_le; omega)]
    omega
  have hle : (b + 1) * blockSize ≤ s.alloc.totalBlocks * blockSize := Nat.mul_le_mul_right _ hlt
  rw [Nat.succ_mul] at hle
  exact hle.trans h.geometry.backed

/-- Writing in the zone, and reading anywhere. -/
theorem Inv.write (h : s.Inv live hand) {W : ℕ → Prop} {d : CachedImage}
    (hstep : CachedImage.Step W s.disk d) (hW : ∀ b, W b → s.Zone hand b) :
    (s.withDisk d).Inv live hand := by
  refine h.write_apart hstep (fun b hb _ ↦ (h.mul_le_len ?_).trans hstep.len_le) fun b hb ↦ h.apart_of_zone (hW b hb)
  exact h.zone_pos (hW b hb)

/-- Reading through the cache. -/
theorem Inv.quiet (h : s.Inv live hand) {d : CachedImage} (hstep : CachedImage.Quiet s.disk d) :
    (s.withDisk d).Inv live hand := h.write hstep (fun _ hb ↦ hb.elim)

/-! ## Moving blocks between owners -/

/-- Blocks in hand may be forgotten. -/
theorem Inv.hand_le (h : s.Inv live hand) {hand' : List (ℕ × ℕ)}
    (hle : ∀ b, cover hand' b ≤ cover hand b) : s.Inv live hand' :=
  ⟨h.geometry, ⟨h.owned.alloc, fun b ↦ by have := h.owned.fits b; have := hle b; omega⟩, h.numbered,
    h.onDisk⟩

theorem Inv.forget (h : s.Inv live hand) : s.Inv live [] := h.hand_le (by simp)

/-- Blocks taken from the allocator. -/
theorem Inv.took (h : s.Inv live hand) {start want : ℕ} {d : AllocImage} (hok : d.alloc.Ok)
    (htook : Allocator.Took start want s.alloc d.alloc) (hgrown : Image.Grown s.image d.image)
    (htotal : d.alloc.totalBlocks = s.alloc.totalBlocks ∨ Allocator.Backed d) :
    Inv { s with alloc := d.alloc, image := d.image } live ((start, want) :: hand) := by
  have hq : CachedImage.Quiet s.disk ⟨s.cache, d.image⟩ := CachedImage.Step.of_grown hgrown
  have hinv := h.quiet hq
  have himage : d.image.Ok := hgrown.ok h.geometry.image
  have hbacked : d.alloc.totalBlocks * blockSize ≤ d.image.len := by
    rcases htotal with heq | hbacked
    · rw [heq]
      exact h.geometry.backed.trans hgrown.len_le
    · exact hbacked
  have hlt : d.alloc.totalBlocks < u64Limit := by
    have h1 := himage.bounded
    unfold Image.maxHostLen at h1
    unfold blockSize at hbacked
    unfold u64Limit
    omega
  refine ⟨?_, ⟨hok, fun b ↦ ?_⟩, ?_, ?_⟩
  · exact { hinv.geometry with
      first := htook.first.trans h.geometry.first
      backed := hbacked
      total := hlt }
  · have h1 := hinv.owned.fits b
    have h2 := htook.cover b
    unfold load at h1 ⊢
    rw [cover_cons]
    change cover d.alloc.free.entries b + cover (tableRanges s.sb) b +
      cover (s.withDisk ⟨s.cache, d.image⟩).mapRanges b + _ + (span start want b + cover hand b) ≤
        d.alloc.area b
    change cover s.alloc.free.entries b + cover (tableRanges s.sb) b +
      cover (s.withDisk ⟨s.cache, d.image⟩).mapRanges b + _ + cover hand b ≤ s.alloc.area b at h1
    have h3 := h.owned.alloc.fits b
    omega
  · exact { hinv.numbered with
      record := fun c hc ↦ ⟨(h.numbered.record c hc).length_le, (h.numbered.record c hc).index_le,
        (h.numbered.record c hc).owner⟩ }
  · exact hinv.onDisk.congr rfl rfl (fun _ h ↦ h) (fun _ h ↦ h)

/-- One inode in memory is replaced; blocks move between it, the free map and the hand. -/
theorem Inv.exchange (h : s.Inv live hand) {k : ℕ} {i : Inode} (hmem : s.inodes.find? k = some i)
    (i' : Inode) (hwf : i'.Wf) (hino : i'.ino = i.ino) (freed hand' : List (ℕ × ℕ))
    (hcover : ∀ b, cover i'.ranges b + cover freed b + cover hand' b ≤
      cover i.ranges b + cover hand b)
    (hheaders : ∀ e ∈ i'.extents, e.isCompressed = true → s.HeaderAt e)
    (hrecord : ∀ c, s.recordCache = some c → c.ino = k → c.dirty = true →
      i'.usesCompression = true ∧ i'.dataKind ≠ .inline) :
    Inv { s with
      alloc := freed.foldl (fun a r ↦ a.freeRange r.1 r.2) s.alloc
      inodes := s.inodes.insert k i'
      dirtyInodes := s.dirtyInodes.insert k () } (live.insert k i') hand' := by
  have hk := h.numbered.memory k i hmem
  have htotal : ∀ b, (live.insert k i').total (fun _ i ↦ cover i.ranges b) + cover i.ranges b =
      live.total (fun _ i ↦ cover i.ranges b) + cover i'.ranges b :=
    fun b ↦ KeyMap.total_replace (fun _ i ↦ cover i.ranges b) i' hk
  have hle : ∀ b, cover i.ranges b ≤ live.total (fun _ i ↦ cover i.ranges b) :=
    fun b ↦ KeyMap.weight_le_total (fun _ i ↦ cover i.ranges b) hk
  obtain ⟨hok, hfirst, htot, hfree⟩ := Allocator.freeAll_spec freed h.owned.alloc (by
    intro b
    have h1 := h.owned.fits b
    have h2 := hcover b
    have h3 := hle b
    unfold load at h1
    omega)
  have harea : ∀ b, (freed.foldl (fun a r ↦ a.freeRange r.1 r.2) s.alloc).area b = s.alloc.area b := by
    intro b
    unfold Allocator.area
    rw [hfirst, htot]
  refine ⟨?_, ⟨hok, fun b ↦ ?_⟩, ?_, ?_⟩
  · exact { h.geometry with
      first := hfirst.trans h.geometry.first
      backed := by rw [htot]; exact h.geometry.backed
      total := by rw [htot]; exact h.geometry.total }
  · change cover (freed.foldl (fun a r ↦ a.freeRange r.1 r.2) s.alloc).free.entries b +
      cover (tableRanges s.sb) b + cover s.mapRanges b +
      (live.insert k i').total (fun _ i ↦ cover i.ranges b) + cover hand' b ≤
        (freed.foldl (fun a r ↦ a.freeRange r.1 r.2) s.alloc).area b
    rw [harea b, hfree b]
    have h1 := h.owned.fits b
    have h2 := hcover b
    have h3 := hle b
    have h4 := htotal b
    unfold load at h1
    omega
  · have hkeys := h.numbered.keys k i hk
    refine ⟨fun j x hj ↦ ?_, fun j hj ↦ ?_, fun j x hj ↦ ?_, fun j x hj ↦ ?_, h.numbered.nodup,
      fun j hj ↦ ?_, fun c hc ↦ ?_⟩
    · change (s.inodes.insert k i').find? j = some x at hj
      rw [KeyMap.find?_insert] at hj ⊢
      split_ifs at hj ⊢
      · exact hj
      · exact h.numbered.memory j x hj
    · change (s.dirtyInodes.insert k ()).contains j = true at hj
      change ∃ x, (s.inodes.insert k i').find? j = some x
      rw [KeyMap.contains_iff, KeyMap.find?_insert] at hj
      rw [KeyMap.find?_insert]
      split_ifs at hj ⊢
      · exact ⟨i', rfl⟩
      · exact h.numbered.dirty j (KeyMap.contains_iff.mpr hj)
    · rw [KeyMap.find?_insert] at hj
      split_ifs at hj with hjk
      · cases hj
        rw [hjk]
        exact ⟨hkeys.1, hkeys.2.1, hino.trans hkeys.2.2⟩
      · exact h.numbered.keys j x hj
    · rw [KeyMap.find?_insert] at hj
      split_ifs at hj
      · cases hj
        exact hwf
      · exact h.numbered.shape j x hj
    · obtain ⟨hlow, hhigh, hnone⟩ := h.numbered.free j hj
      refine ⟨hlow, hhigh, ?_⟩
      rw [KeyMap.find?_insert_of_ne]
      · exact hnone
      · rintro rfl
        rw [hk] at hnone
        cases hnone
    · have hold := h.numbered.record c hc
      refine ⟨hold.length_le, hold.index_le, fun hdirty ↦ ?_⟩
      change ∃ x, (s.inodes.insert k i').find? c.ino = some x ∧ _
      rw [KeyMap.find?_insert]
      split_ifs with hck
      · exact ⟨i', rfl, hrecord c hc hck hdirty⟩
      · exact hold.owner hdirty
  · have hcongr : OnDisk { s with
        alloc := freed.foldl (fun a r ↦ a.freeRange r.1 r.2) s.alloc
        inodes := s.inodes.insert k i'
        dirtyInodes := s.dirtyInodes.insert k () } live := by
      refine h.onDisk.congr rfl rfl (fun j hj ↦ ?_) (fun j hj ↦ ?_)
      · rw [Bool.eq_false_iff] at hj ⊢
        intro hcontains
        apply hj
        obtain ⟨x, hx⟩ := KeyMap.contains_iff.mp hcontains
        apply KeyMap.contains_iff.mpr
        change ∃ value, (s.dirtyInodes.insert k ()).find? j = some value
        rw [KeyMap.find?_insert]
        split_ifs
        · exact ⟨(), rfl⟩
        · exact ⟨x, hx⟩
      · change (s.inodes.insert k i').find? j = none at hj
        rw [KeyMap.find?_insert] at hj
        split_ifs at hj
        exact hj
    refine ⟨fun j x hj hclean ↦ ?_, fun j x hj hnone ↦ ?_, fun j hpos hnext hj ↦ ?_, ?_, hcongr.map⟩
    · have hjk : j ≠ k := by
        rintro rfl
        change (s.dirtyInodes.insert j ()).contains j = false at hclean
        simp [KeyMap.contains] at hclean
      rw [KeyMap.find?_insert_of_ne hjk] at hj
      exact hcongr.stored j x hj hclean
    · have hjk : j ≠ k := by
        rintro rfl
        change (s.inodes.insert j i').find? j = none at hnone
        simp at hnone
      rw [KeyMap.find?_insert_of_ne hjk] at hj
      exact hcongr.parked j x hj hnone
    · have hjk : j ≠ k := by
        rintro rfl
        simp at hj
      rw [KeyMap.find?_insert_of_ne hjk] at hj
      exact hcongr.dead j hpos hnext hj
    · intro j x hj e he hpacked
      rw [KeyMap.find?_insert] at hj
      split_ifs at hj
      · cases hj
        exact hheaders e he hpacked
      · exact hcongr.headers j x hj e he hpacked

/-- Another record is held, or none. -/
theorem Inv.hold (h : s.Inv live hand) (c? : Option RecordCache)
    (hc : ∀ c, c? = some c → s.RecordOk c) : Inv { s with recordCache := c? } live hand := by
  refine ⟨{ h.geometry with }, ⟨h.owned.alloc, h.owned.fits⟩, ?_, ?_⟩
  · exact { h.numbered with
      record := fun c hcs ↦ ⟨(hc c hcs).length_le, (hc c hcs).index_le, (hc c hcs).owner⟩ }
  · exact h.onDisk.congr rfl rfl (fun _ hj ↦ hj) (fun _ hj ↦ hj)

end Inner

end LinuxFile
