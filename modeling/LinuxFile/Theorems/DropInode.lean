import LinuxFile.Spec.BlockStatus
import LinuxFile.Theorems.Orphans

/-!
# What dropping an inode gives back

`drop_inode` frees the blocks of the extents by truncating the file, then the block of the attributes and the blocks
of the extent tree. The tree is only thought of when the data kind still says that there is one.
-/

namespace LinuxFile.Inner

open Ledger

variable {s t u v : Inner} {i : Inode} {ino : ℕ}

/-- Everything the inode had is given back, and nothing else is: its blocks are free, all others are as they were, its
slot in the table is zero and its number is free. -/
structure GivesBack (s : Inner) (ino : ℕ) (i : Inode) (t : Inner) : Prop where
  freed : ∀ b, 0 < cover i.ranges b → t.alloc.status b = .free
  others : ∀ b, cover i.ranges b = 0 → t.alloc.status b = s.alloc.status b
  slot : t.SlotIs ino (Buf.zero inodeSize)
  number : t.freeInodes.count ino = 1

/-- When dropping an inode gives everything back. -/
structure Returnable (s : Inner) (ino : ℕ) (i : Inode) : Prop where
  /-- An inode that has an extent tree is marked as having one. -/
  tree : i.extentTree ≠ 0 → i.dataKind = .extentTree
  /-- A file without a size has no blocks. -/
  sized : i.size = 0 → ∀ e ∈ i.extents, e.physLen = 0
  low : firstUserIno ≤ ino
  /-- No record of another file has to be stored first. -/
  record : s.OthersIdle ino

/-! ## The steps -/

theorem invalidateRecordCache_clears (h : s.Sound) (ino : ℕ) : ∃ v, invalidateRecordCache ino s = .ok () v ∧ v.Sound ∧
    v.alloc = s.alloc ∧ v.inodes = s.inodes ∧ v.writable = s.writable ∧
    (∀ c, v.recordCache = some c → c.ino ≠ ino) ∧ (v.OthersIdle ino ↔ s.OthersIdle ino) := by
  by_cases hheld : ∃ c, s.recordCache = some c ∧ c.ino = ino
  · obtain ⟨c, hc, hino⟩ := hheld
    refine ⟨_, invalidateRecordCache_held hc hino, (h.discard hc hino).sound, rfl, rfl, rfl, ?_, ?_, ?_⟩
    · intro c' hc'
      cases hc'
    · intro _ c' j hc' hne _ _
      rw [hc] at hc'
      cases hc'
      exact absurd hino hne
    · intro _ c' j hc'
      cases hc'
  · have hother : ∀ c, s.recordCache = some c → c.ino ≠ ino := fun c hc hino ↦ hheld ⟨c, hc, hino⟩
    exact ⟨s, invalidateRecordCache_other hother, h, rfl, rfl, rfl, hother, Iff.rfl⟩

/-- Truncating first writes the held record back. -/
theorem truncateData_flushed (hv : v.writable = true) (hu : u.writable = true) (hnone : u.recordCache = none)
    (hflush : flushRecordCache v = .ok () u) {n : ℕ} (hn : n ≤ maxFileSize) :
    truncateData ino n v = truncateData ino n u := by
  have hagain : flushRecordCache u = .ok () u := by
    unfold flushRecordCache
    rw [Exec.bind_eq_of_ok (Exec.read_apply _ u), hnone]
    rfl
  unfold truncateData
  rw [Exec.bind_eq_of_ok (requireWrite_ok hv), Exec.bind_eq_of_ok (requireWrite_ok hu), if_neg (by omega),
    Exec.bind_eq_of_ok hflush, Exec.bind_eq_of_ok hagain]

theorem flushed_of_truncateData (hv : v.writable = true) {n : ℕ} (hn : n ≤ maxFileSize)
    (h : truncateData ino n v = .ok () t) : ∃ u, flushRecordCache v = .ok () u := by
  unfold truncateData at h
  rw [Exec.bind_eq_of_ok (requireWrite_ok hv), if_neg (by omega)] at h
  obtain ⟨_, u, hflush, -⟩ := Exec.bind_ok_iff.mp h
  exact ⟨u, hflush⟩

theorem cover_treeRanges (hwf : i.Wf) (b : ℕ) :
    cover (if i.extentTree ≠ 0 then [(i.extentTree, max i.extentTreeBlocks 1)] else []) b = cover i.treeRanges b := by
  unfold Inode.treeRanges
  by_cases hzero : i.extentTree = 0
  · rw [if_neg (not_not.mpr hzero), if_pos hzero]
  · have hpos : i.extentTreeBlocks ≠ 0 := fun h₀ ↦ hzero (hwf.tree.mpr h₀)
    rw [if_pos hzero, if_neg hzero, show max i.extentTreeBlocks 1 = i.extentTreeBlocks by omega]

theorem cover_retiredRanges (hwf : i.Wf) (b : ℕ) : cover (retiredRanges i) b =
    cover i.xattrRanges b + if i.extentTree ≠ 0 → i.dataKind = .extentTree then cover i.treeRanges b else 0 := by
  have hxattr : cover (if i.xattrBlock ≠ 0 then [(i.xattrBlock, 1)] else []) b = cover i.xattrRanges b := by
    unfold Inode.xattrRanges
    by_cases hzero : i.xattrBlock = 0
    · rw [if_neg (not_not.mpr hzero), if_pos hzero]
    · rw [if_pos hzero, if_neg hzero]
  unfold retiredRanges
  rw [cover_append, hxattr]
  congr 1
  rw [← cover_treeRanges hwf]
  by_cases htree : i.extentTree = 0
  · simp [htree]
  · by_cases hkind : i.dataKind = .extentTree <;> simp [htree, hkind]

/-- The blocks that dropping an inode frees. -/
structure FreesAll (i : Inode) (u t : Inner) : Prop where
  blocks : ∃ ranges, t.alloc = ranges.foldl (fun a r ↦ a.freeRange r.1 r.2) u.alloc ∧ ∀ b, cover ranges b =
    (if i.size = 0 then 0 else cover (extentRanges i.extents) b) +
      (cover i.xattrRanges b + if i.extentTree ≠ 0 → i.dataKind = .extentTree then cover i.treeRanges b else 0)

/-- What `drop_inode` does to the blocks: it may first store the record of another file. -/
theorem dropInode_frees (h : s.Sound) (hwritable : s.writable = true) (hmem : s.inodes.find? ino = some i)
    (hdrop : dropInode ino s = .ok () t) : ∃ v u, v.alloc = s.alloc ∧ (v.OthersIdle ino ↔ s.OthersIdle ino) ∧
      Unheld v ino i u ∧ FreesAll i u t := by
  obtain ⟨v, hv, hsound, halloc, hinodes, hwrite, hother, hidle⟩ := invalidateRecordCache_clears h ino
  have hwrite' : v.writable = true := hwrite.trans hwritable
  have hmem' : v.inodes.find? ino = some i := by rw [hinodes, hmem]
  rw [dropInode_eq, Exec.bind_eq_of_ok hv, Exec.bind_eq_of_ok (getInode_mem hmem')] at hdrop
  obtain ⟨_, w, htruncate, hretire⟩ := Exec.bind_ok_iff.mp hdrop
  obtain ⟨u, hflush⟩ := flushed_of_truncateData hwrite' (Nat.zero_le _) htruncate
  have hunheld := (flushRecordCache_unholds hsound hmem' hother).of_ok hflush
  have hwrite'' : u.writable = true := hunheld.writable.trans hwrite'
  rw [truncateData_flushed hwrite' hwrite'' hunheld.record hflush (Nat.zero_le _)] at htruncate
  obtain ⟨freed, hfreed, hcover⟩ :=
    (truncateData_frees hunheld.sound hwrite'' hunheld.record hunheld.mem).of_ok htruncate
  have hretired := (retireInode_frees ino i w).of_ok hretire
  refine ⟨v, u, halloc, hidle, hunheld, freed ++ retiredRanges i, ?_, fun b ↦ ?_⟩
  · rw [hretired, hfreed, List.foldl_append]
  · rw [cover_append, hcover b, cover_retiredRanges (h.wf hmem) b]

/-- After dropping, a block is free if it was freed, and otherwise as after the held record was stored. -/
theorem FreesAll.status (h : FreesAll i u t) (hu : u.Sound) (hmem : u.inodes.find? ino = some i) (b : ℕ) :
    t.alloc.status b =
      if 0 < (if i.size = 0 then 0 else cover (extentRanges i.extents) b) +
        (cover i.xattrRanges b + if i.extentTree ≠ 0 → i.dataKind = .extentTree then cover i.treeRanges b else 0)
      then .free else u.alloc.status b := by
  obtain ⟨ranges, halloc, hcover⟩ := h.blocks
  have hapart : ∀ b, cover u.alloc.free.entries b + cover ranges b ≤ u.alloc.area b := by
    intro b
    have hfits := hu.inv.owned.fits b
    have hweight : cover i.ranges b ≤ u.inodes.total (fun _ i ↦ cover i.ranges b) :=
      KeyMap.weight_le_total (fun _ i ↦ cover i.ranges b) hmem
    have hranges := cover_ranges i b
    have hle : cover ranges b ≤ cover i.ranges b := by
      rw [hcover b]
      split_ifs <;> omega
    unfold load at hfits
    omega
  rw [halloc, Allocator.freeAll_status ranges hu.inv.owned.alloc hapart, hcover b]

/-- An inode in memory of a reached state, and what dropping it does. -/
structure Dropped (s : Inner) (ino : ℕ) (i : Inode) (t : Inner) : Prop where
  sound : s.Sound
  mem : s.inodes.find? ino = some i
  fresh : ino ∉ s.freeInodes
  drops : Drops s ino t
  blocks : ∃ v u, v.alloc = s.alloc ∧ (v.OthersIdle ino ↔ s.OthersIdle ino) ∧ Unheld v ino i u ∧ FreesAll i u t

theorem Reached.dropped (hs : s.Reached) (hmem : s.inodes.find? ino = some i) (hdrop : dropInode ino s = .ok () t) :
    Dropped s ino i t := by
  have h : s.Sound := hs.tidy.sound
  have hkey := h.inv.numbered.keys ino i hmem
  refine ⟨h, hmem, fun hin ↦ ?_, ((dropInode_drops h hs.tidy.writable hkey.2.1).of_ok hdrop).2,
    dropInode_frees h hs.tidy.writable hmem hdrop⟩
  have hdead := (h.inv.numbered.free ino hin).2.2
  rw [hmem] at hdead
  cases hdead

/-- What was given back in full was given back for a reason. -/
theorem Dropped.returnable (h : Dropped s ino i t) (hgives : GivesBack s ino i t) : Returnable s ino i := by
  obtain ⟨v, u, halloc, hidle, hunheld, hfrees⟩ := h.blocks
  have hwf := h.sound.wf h.mem
  have hstatus := hfrees.status hunheld.sound hunheld.mem
  have hranges := cover_ranges i
  have hused : ∀ b, 0 < cover i.ranges b → u.alloc.status b = .used :=
    fun b hb ↦ hunheld.sound.status_of_range hunheld.mem hb
  have hone : ∀ b, cover i.ranges b ≤ 1 := by
    intro b
    have hload := h.sound.inv.owned.load_le_one b
    have hle : cover i.ranges b ≤ s.load s.inodes b := cover_le_load h.mem b
    omega
  refine ⟨fun htree ↦ ?_, fun hsize e he ↦ ?_, ?_, ?_⟩
  · by_contra hkind
    have hpos : 0 < i.extentTreeBlocks := Nat.pos_of_ne_zero fun h₀ ↦ htree (hwf.tree.mpr h₀)
    have hcover : cover i.treeRanges i.extentTree = 1 := by
      unfold Inode.treeRanges
      rw [if_neg htree, cover_cons, span_eq_one ⟨le_rfl, by omega⟩, cover_nil]
    have hb := hranges i.extentTree
    have hle := hone i.extentTree
    have hfree := hgives.freed i.extentTree (by omega)
    rw [hstatus, if_neg fun hkept : i.extentTree ≠ 0 → i.dataKind = .extentTree ↦ hkind (hkept htree)] at hfree
    rw [if_neg (by split_ifs <;> omega), hused _ (by omega)] at hfree
    cases hfree
  · by_contra hlen
    have hspan : span e.physical e.physLen e.physical = 1 := span_eq_one ⟨le_rfl, by omega⟩
    have hin : (e.physical, e.physLen) ∈ extentRanges i.extents := List.mem_map.mpr ⟨e, he, rfl⟩
    have hcover : span e.physical e.physLen e.physical ≤ cover (extentRanges i.extents) e.physical :=
      span_le_cover hin e.physical
    have hb := hranges e.physical
    have hle := hone e.physical
    have hfree := hgives.freed e.physical (by omega)
    rw [hstatus, if_pos hsize, if_neg (by split_ifs <;> omega), hused _ (by omega)] at hfree
    cases hfree
  · by_contra hlow
    have hnumber := hgives.number
    rw [h.drops.freeInodes, freed, if_neg hlow, List.append_nil, List.count_eq_zero_of_not_mem h.fresh] at hnumber
    cases hnumber
  · by_contra hbusy
    obtain ⟨b, hzero, hchanged⟩ := hunheld.busy (hidle.not.mpr hbusy)
    have hb := hranges b
    have hkept := hgives.others b hzero
    rw [hstatus, if_neg (by split_ifs <;> omega), ← halloc] at hkept
    exact hchanged hkept.symm

theorem Dropped.gives_back (h : Dropped s ino i t) (hreturnable : Returnable s ino i) : GivesBack s ino i t := by
  obtain ⟨v, u, halloc, hidle, hunheld, hfrees⟩ := h.blocks
  have hstatus := hfrees.status hunheld.sound hunheld.mem
  have hsame : u.alloc = s.alloc := (hunheld.idle (hidle.mpr hreturnable.record)).trans halloc
  have hextents : ∀ b, (if i.size = 0 then 0 else cover (extentRanges i.extents) b) =
      cover (extentRanges i.extents) b := by
    intro b
    by_cases hsize : i.size = 0
    · rw [if_pos hsize]
      symm
      rw [cover_eq_zero_iff]
      intro r hr
      obtain ⟨e, he, rfl⟩ := List.mem_map.mp hr
      have hlen := hreturnable.sized hsize e he
      dsimp only
      omega
    · rw [if_neg hsize]
  have hall : ∀ b, (if i.size = 0 then 0 else cover (extentRanges i.extents) b) +
      (cover i.xattrRanges b + if i.extentTree ≠ 0 → i.dataKind = .extentTree then cover i.treeRanges b else 0) =
      cover i.ranges b := by
    intro b
    rw [hextents, if_pos hreturnable.tree, cover_ranges i b]
    omega
  refine ⟨fun b hb ↦ ?_, fun b hb ↦ ?_, ?_, ?_⟩
  · rw [hstatus, hall b, if_pos hb]
  · rw [hstatus, hall b, if_neg (by omega), hsame]
  · have hkey := h.sound.inv.numbered.keys ino i h.mem
    have hnext : ino < t.sb.nextInode := by
      rw [h.drops.sb]
      exact hkey.2.1
    have hgone : t.inodes.find? ino = none := by
      apply node_eq_none.mp
      rw [h.drops.node, Function.update_self]
    exact h.drops.sound.inv.onDisk.dead ino hkey.1 hnext hgone
  · rw [h.drops.freeInodes, freed, if_pos hreturnable.low, List.count_append,
      List.count_eq_zero_of_not_mem h.fresh, List.count_singleton_self]

/-- Dropping an inode gives everything back exactly when its extent tree, if it has one, is still marked, a file
without a size has no blocks, the inode is not the root, and no record of another file is stored on the way. -/
theorem dropInode_gives_back_iff (hs : s.Reached) (hmem : s.inodes.find? ino = some i)
    (hdrop : dropInode ino s = .ok () t) : GivesBack s ino i t ↔ Returnable s ino i := by
  have h : Dropped s ino i t := hs.dropped hmem hdrop
  exact ⟨h.returnable, h.gives_back⟩

/-- The inode is in memory as the test says, and dropping it returns. -/
def dropTest (ino : ℕ) (s : Inner) (test : Inode → Bool) : Bool :=
  (s.inodes.find? ino).any test && (dropInode ino s).okAnd fun _ _ ↦ true

theorem dropTest_runs {test : Inode → Bool} (h : dropTest ino s test = true) :
    ∃ i t, s.inodes.find? ino = some i ∧ dropInode ino s = .ok () t ∧ test i = true := by
  unfold dropTest at h
  rw [Bool.and_eq_true] at h
  obtain ⟨i, hi, htest⟩ := (Option.any_eq_true ..).mp h.1
  obtain ⟨_, t, hdrop, -⟩ := Outcome.exists_of_okAnd h.2
  exact ⟨i, t, hi, hdrop, htest⟩

/-- A file with a byte in as many blocks that do not follow each other. -/
def holed (n : ℕ) : List Operation :=
  .createChild rootIno [0x61] (sIfreg ||| 0o644) 0 0 0 Creds.root ::
    (List.range n).map fun k ↦ .writeData 2 (2 * k * blockSize) [1]

theorem dropInode_gives_back_sample : ∃ s i t, s.Reached ∧ s.inodes.find? 2 = some i ∧ i.extents.length = 2 ∧
    dropInode 2 s = .ok () t ∧ (GivesBack s 2 i t ↔ Returnable s 2 i) := by
  have hplay : (sampleCalls (holed 2)).okAnd (fun calls s ↦ (calls.all fun call ↦ call.2.regular call.1) &&
      dropTest 2 s fun i ↦ decide (i.extents.length = 2)) = true := by
    decide +kernel
  obtain ⟨-, -, s, -, -, -, hs, htest⟩ := sampleCalls_reached hplay
  obtain ⟨i, t, hi, hdrop, hlen⟩ := dropTest_runs htest
  exact ⟨s, i, t, hs, hi, of_decide_eq_true hlen, hdrop, dropInode_gives_back_iff hs hi hdrop⟩

/-- A file with so many extents that they are stored in a tree, truncated before it is dropped. -/
def shortenedTree : List Operation := holed 7 ++ [.flushAll FlushOrder.inOrder, .truncateData 2 0]

/-- The blocks of the tree are never given back. -/
theorem truncated_tree_leaks : ∃ first calls s i t, sampleImage = .ok () first ∧
    Exec.Runs Operation.exec first calls s ∧ calls.map Prod.snd = shortenedTree ∧ s.Reached ∧
    s.inodes.find? 2 = some i ∧ dropInode 2 s = .ok () t ∧ ¬GivesBack s 2 i t := by
  have hplay : (sampleCalls shortenedTree).okAnd (fun calls s ↦ (calls.all fun call ↦ call.2.regular call.1) &&
      dropTest 2 s fun i ↦ decide (i.extentTree ≠ 0 ∧ i.dataKind ≠ .extentTree)) = true := by
    decide +kernel
  obtain ⟨first, calls, s, himage, hrun, hops, hs, htest⟩ := sampleCalls_reached hplay
  obtain ⟨i, t, hi, hdrop, htree⟩ := dropTest_runs htest
  have hstale := of_decide_eq_true htree
  exact ⟨first, calls, s, i, t, himage, hrun, hops, hs, hi, hdrop,
    fun hgives ↦ hstale.2 (((hs.dropped hi hdrop).returnable hgives).tree hstale.1)⟩

end LinuxFile.Inner
