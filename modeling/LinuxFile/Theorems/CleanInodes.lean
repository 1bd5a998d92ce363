import LinuxFile.Spec.Answering
import LinuxFile.Theorems.Ownership

/-!
# Inodes that are not dirty are on disk

`flush_all` writes the dirty inodes only. Over a run from a new filesystem in which no call writes into a
directory, every other inode in memory can be read back from what the block cache shows: its slot is its
encoding, its attribute block decodes to its attributes, and its tree loads back to its extents.
-/

namespace LinuxFile

open Ledger

/-- What is stored of an extent. -/
def Extent.place (e : Extent) : ℕ × ℕ × ℕ := (e.logical, e.physical, e.length)

namespace Inner

variable {s first : Inner} {calls : List (Inner × Operation)} {ino : ℕ} {i : Inode}

/-- The inode can be read back through the block cache. -/
structure Saved (s : Inner) (ino : ℕ) (i : Inode) : Prop where
  slot : ∃ phys off, mapInodeSlot s.sb ino = .ok (phys, off) ∧ (s.disk.view phys).sub off inodeSize = i.encode
  xattr : i.xattrBlock ≠ 0 → decodeXattrs ((s.disk.view i.xattrBlock).slice 0 blockSize) = i.xattr
  tree : i.dataKind = .extentTree → s.image.faults = [] → s.image.hostWritable = true →
    ∃ j t, loadExtentTree (Inode.decodeBody ino i.encode) s = .ok j t ∧
      j.extents.map Extent.place = i.extents.map Extent.place

theorem Inv.physical_lt {live : KeyMap Inode} (h : s.Inv live []) (hmem : live.find? ino = some i) {e : Extent}
    (he : e ∈ i.extents) : e.physical < 2 ^ 64 := by
  have hwf := (h.numbered.shape ino i hmem).extents e he
  by_cases hlen : e.length = 0
  · exact hwf.empty hlen
  · apply h.block_lt hmem
    have hphys : 0 < e.physLen := by
      unfold Extent.physLen
      split_ifs <;> omega
    have hrange : (e.physical, e.physLen) ∈ extentRanges i.extents := List.mem_map.mpr ⟨e, he, rfl⟩
    have hspan := span_le_cover hrange e.physical
    rw [span_eq_one ⟨le_rfl, by omega⟩] at hspan
    rw [cover_ranges]
    omega

theorem Inv.place_stored {live : KeyMap Inode} (h : s.Inv live []) (hmem : live.find? ino = some i) {e : Extent}
    (he : e ∈ i.extents) : e.stored.place = e.place := by
  have hwf := (h.numbered.shape ino i hmem).extents e he
  have hphysical := h.physical_lt hmem he
  have hlength : e.length < 2 ^ 32 := hwf.length_lt
  have hlogical : e.logical < 2 ^ 64 := by
    have hle : e.logical + e.length ≤ 2 ^ 33 := hwf.logical_le
    omega
  unfold Extent.stored Extent.place Extent.new
  rw [Nat.mod_eq_of_lt hlogical, Nat.mod_eq_of_lt hphysical, Nat.mod_eq_of_lt hlength]

theorem Stored.saved (h : s.Stored ino i) (hinv : s.Inv s.inodes []) (hmem : s.inodes.find? ino = some i)
    (hcount : i.extents.length < 2 ^ 32) : s.Saved ino i := by
  have hplaces : (i.extents.map Extent.stored).map Extent.place = i.extents.map Extent.place := by
    rw [List.map_map]
    exact List.map_congr_left fun e he ↦ hinv.place_stored hmem he
  refine ⟨?_, fun hblock ↦ ?_, fun hkind hfaults hwritable ↦ ?_⟩
  · obtain ⟨phys, off, hslot, hcopies⟩ := h.slot
    exact ⟨phys, off, hslot, hcopies.view⟩
  · rcases h.xattr with ⟨-, hzero⟩ | ⟨-, -, hsize, hcopies⟩
    · exact absurd hzero hblock
    · obtain ⟨rest, hrest⟩ := slice_ofBytes hsize
      rw [hcopies.view, hrest, decodeXattrs_encodeXattrs rest hsize]
  · rw [← (hinv.numbered.keys ino i hmem).2.2, Inode.decodeBody_encode]
    rcases h.tree with ⟨hfew, hnone⟩ | ⟨-, -, hne, hsize, hcopies⟩
    · unfold loadExtentTree Inode.stored
      rw [hnone, hkind, if_pos (by rfl)]
      refine ⟨_, s, rfl, ?_⟩
      change List.map Extent.place ((i.extents.take maxDirectExtents).map Extent.stored) = _
      rw [List.take_of_length_le hfew, hplaces]
    · have hlt : i.extentTree < 2 ^ 64 := by
        apply hinv.block_lt hmem
        have hspan : span i.extentTree i.extentTreeBlocks i.extentTree ≤ cover i.treeRanges i.extentTree := by
          unfold Inode.treeRanges
          rw [if_neg hne, cover_cons, cover_nil, Nat.add_zero]
        rw [hsize, span_eq_one ⟨le_rfl, Nat.lt_add_of_pos_right (treeSize_pos _)⟩] at hspan
        rw [cover_ranges]
        omega
      have hload := loadExtentTree_reads (i := i) (j := i.stored) hinv.geometry.image hcopies hcount (Nat.mod_eq_of_lt hlt) hne
      have hinside := (hinv.inside hmem).tree hne (by rw [hsize]; exact treeSize_pos _)
      rw [hsize] at hinside
      have hanswers : s.disk.Answering := ⟨hfaults, Or.inl hwritable, hinv.geometry.waiting⟩
      have hserved := loadExtentTree_served (i := i) (j := i.stored) hanswers hinv.geometry.image hcopies hcount
        (Nat.mod_eq_of_lt hlt) hinside
      obtain ⟨j, t, hrun, -⟩ := hserved.exists_ok
      refine ⟨j, t, hrun, ?_⟩
      rw [(hload.of_ok hrun).1]
      exact hplaces

/-- Over a run from a new filesystem in which no call writes into a directory, every inode in memory that is not
dirty is saved; the count of its extents has 32 bits. -/
theorem clean_inodes_are_saved {opts : CreateOptions} {env : Env} {uuid : Buf 16} {faults : List (Option ErrorKind)}
    {order : FlushOrder} (hcreate : create opts env uuid faults order = .ok () first)
    (hrun : Exec.Runs Operation.exec first calls s) (hcalls : Clean calls) :
    ∀ ino i, s.inodes.find? ino = some i → s.dirtyInodes.contains ino = false → i.extents.length < 2 ^ 32 →
      s.Saved ino i := by
  have htidy := ((create_tidy hcreate).runs hrun hcalls).1
  intro ino i hmem hclean hcount
  exact (htidy.sound.inv.onDisk.stored ino i hmem hclean).saved htidy.sound.inv hmem hcount

/-! ## Concrete runs -/

/-- A file with an attribute is made, gets a byte in seven blocks that do not follow each other, and is copied to
disk. -/
def writeAndSync : List Operation :=
  .createChild rootIno [0x61] (sIfreg ||| 0o644) 0 0 0 Creds.root :: .setxattr 2 [0x75] [1] 0 ::
    ((List.range 7).map fun k ↦ .writeData 2 (2 * k * blockSize) [1]) ++ [.flushAll FlushOrder.inOrder]

theorem write_and_sync_saved : ∃ first calls s i j t, sampleImage = .ok () first ∧
    Exec.Runs Operation.exec first calls s ∧ calls.map Prod.snd = writeAndSync ∧ Clean calls ∧
    s.inodes.find? 2 = some i ∧ i.xattrBlock ≠ 0 ∧ s.Saved 2 i ∧ 7 ≤ i.extents.length ∧
    loadExtentTree (Inode.decodeBody 2 i.encode) s = .ok j t ∧
    j.extents.map Extent.place = i.extents.map Extent.place := by
  have hplay : (sampleCalls writeAndSync).okAnd (fun calls s ↦ (calls.all fun call ↦ call.2.regular call.1) &&
      (s.inodes.find? 2).any (fun i ↦ decide (7 ≤ i.extents.length ∧ i.extents.length < 2 ^ 32) &&
        i.xattrBlock != 0 && i.dataKind == .extentTree) &&
      !s.dirtyInodes.contains 2 && s.image.faults.isEmpty && s.image.hostWritable) = true := by
    decide +kernel
  obtain ⟨first, calls, s, himage, hrun, hops, hreturns, htest⟩ := sampleCalls_runs hplay
  rw [Bool.and_eq_true, Bool.and_eq_true, Bool.and_eq_true, Bool.and_eq_true, Option.any_eq_true,
    Bool.not_eq_true'] at htest
  obtain ⟨⟨⟨⟨hregular, i, hi, hi'⟩, hclean⟩, hfaults⟩, hwritable⟩ := htest
  rw [Bool.and_eq_true, Bool.and_eq_true, decide_eq_true_eq, bne_iff_ne, beq_iff_eq] at hi'
  obtain ⟨⟨⟨hmany, hcount⟩, hblock⟩, hkind⟩ := hi'
  have hcalls : Clean calls := by
    intro call hcall
    exact ⟨.of_test (List.all_eq_true.mp hregular call hcall), .of_returns (hreturns call hcall)⟩
  have hsaved := clean_inodes_are_saved himage hrun hcalls 2 i hi hclean hcount
  obtain ⟨j, t, hload, hplaces⟩ := hsaved.tree hkind (List.isEmpty_iff.mp hfaults) hwritable
  exact ⟨first, calls, s, i, j, t, himage, hrun, hops, hcalls, hi, hblock, hsaved, hmany, hload, hplaces⟩

/-- The slot that a removed file left in the table is loaded, and does not encode the inode it gives. -/
theorem stray_inode_not_saved : ∃ first calls s ino i, sampleImage = .ok () first ∧
    Exec.Runs Operation.exec first calls s ∧
    (∀ call ∈ calls, call.1.Unhurt call.2 ∧ ∀ k ∈ call.2.numbers, (call.1.inodes.find? k).isSome) ∧
    s.inodes.find? ino = some i ∧ s.dirtyInodes.contains ino = false ∧ ¬s.Saved ino i := by
  obtain ⟨first, calls, s, i, himage, hrun, -, hcalls, hi⟩ := stray_is_loaded
  refine ⟨first, calls, s, 33, i, himage, hrun, hcalls, hi.found, hi.clean, fun h ↦ ?_⟩
  obtain ⟨phys, off, hplace, hslot⟩ := h.slot
  rw [hi.place] at hplace
  cases hplace
  have hbyte := congrArg (fun b : Buf inodeSize ↦ b.byte 250) hslot
  dsimp only [Buf.sub] at hbyte
  rw [Buf.ofFun_byte _ (by decide), hi.slot.1, hi.slot.2] at hbyte
  exact absurd hbyte (by decide)

end Inner

end LinuxFile
