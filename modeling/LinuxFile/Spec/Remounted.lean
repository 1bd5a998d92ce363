import LinuxFile.Spec.Ready
import LinuxFile.Spec.Rereading

/-!
# A mount that reads inodes when they are asked for

After a completed flush the image holds every inode. A mount of that image starts with none in memory and reads each one
the first time it is needed; until then, and from then on, it shows the files that the flushed filesystem had. The
inodes must have room where they are stored, and must not be compressed.
-/

namespace LinuxFile

open Ledger

/-- Nothing of the inode is lost where it is stored. -/
structure Inode.Savable (i : Inode) : Prop where
  mode : i.mode ≠ 0
  raw : i.usesCompression = false
  -- the width of the field
  nlink : i.nlink < 2 ^ 32
  inline : i.dataKind = .inline → i.inlineData.length ≤ inlineMax
  count : i.extents.length < 2 ^ 32

instance (i : Inode) : Decidable i.Savable :=
  decidable_of_iff (i.mode ≠ 0 ∧ i.usesCompression = false ∧ i.nlink < 2 ^ 32 ∧
      (i.dataKind = .inline → i.inlineData.length ≤ inlineMax) ∧ i.extents.length < 2 ^ 32)
    ⟨fun ⟨hmode, hraw, hlinks, hinline, hcount⟩ ↦ ⟨hmode, hraw, hlinks, hinline, hcount⟩,
      fun h ↦ ⟨h.mode, h.raw, h.nlink, h.inline, h.count⟩⟩

/-- What is in memory after the inode has been stored and read again. -/
structure Inode.Reread (i j : Inode) : Prop where
  fields : Inode.Relisted { i.stored with xattr := i.xattr } j
  extents : j.extents = i.extents.map Extent.stored

namespace Inode.Reread

variable {i j : Inode} (h : i.Reread j)

include h

theorem ino : j.ino = i.ino := by rw [h.fields]; rfl

theorem mode : j.mode = i.mode := by rw [h.fields]; rfl

theorem dataKind : j.dataKind = i.dataKind := by rw [h.fields]; rfl

theorem usesCompression : j.usesCompression = i.usesCompression := by rw [h.fields]; rfl

theorem shows {k : ℕ} {bytes : Bytes} (hwf : i.Wf) (hsavable : i.Savable) (hino : i.ino = k)
    (hlen : bytes.length = i.size) : j.Shows k (i.toNode bytes) where
  ino := h.ino.trans hino
  mode := h.mode
  nlink := by
    rw [h.fields]
    exact Nat.mod_eq_of_lt hsavable.nlink
  uid := by rw [h.fields]; rfl
  gid := by rw [h.fields]; rfl
  xattr := by rw [h.fields]; rfl
  size := (Inner.relisted_size hwf h.fields).trans hlen.symm

end Inode.Reread

namespace Inner

variable {s t m u : Inner} {i j : Inode} {k : ℕ}

theorem Sound.extentTree_lt (h : t.Sound) (hi : t.inodes.find? k = some i) : i.extentTree < 2 ^ 64 := by
  by_cases hzero : i.extentTree = 0
  · rw [hzero]
    norm_num
  · apply h.inv.block_lt hi
    have hblocks : i.extentTreeBlocks ≠ 0 := fun hnone ↦ hzero ((h.wf hi).tree.mpr hnone)
    rw [cover_ranges, Inode.treeRanges, if_neg hzero, cover_cons, span_eq_one ⟨le_rfl, by dsimp only; omega⟩]
    omega

def Savable (t : Inner) : Prop := ∀ k i, t.inodes.find? k = some i → i.Savable

/-- The mount `m` has read some of the inodes of `t`, and can read the others. -/
structure Serves (t m : Inner) : Prop where
  ok : m.image.Ok
  blocks : ∀ ranges, KeepsBlocks ranges t m
  table : m.sb.inodeTableExtents = t.sb.inodeTableExtents
  loaded : ∀ k j, m.inodes.find? k = some j → ∃ i, t.inodes.find? k = some i ∧ i.Reread j
  orphans : m.orphans = KeyMap.empty
  perm : m.checkPerm = false

namespace Serves

variable (hm : Serves t m)

include hm

theorem looked (hlook : Looked m u) : Serves t u := by
  have hkeeps := hlook.keeps
  have hok := hlook.ok hm.ok
  obtain ⟨d, rfl, -⟩ := hlook
  exact ⟨hok, fun ranges b hb P hP ↦ hkeeps ranges b hb P (hm.blocks ranges b hb P hP), hm.table, hm.loaded,
    hm.orphans, hm.perm⟩

theorem put (hi : t.inodes.find? k = some i) (hj : i.Reread j) :
    Serves t { m with inodes := m.inodes.insert k j } := by
  refine ⟨hm.ok, hm.blocks, hm.table, fun l c hc ↦ ?_, hm.orphans, hm.perm⟩
  by_cases hl : l = k
  · rw [hl, KeyMap.find?_insert_self] at hc
    cases hc
    rw [hl]
    exact ⟨i, hi, hj⟩
  · rw [KeyMap.find?_insert_of_ne hl] at hc
    exact hm.loaded l c hc

theorem counted (counts : KeyMap ℕ) : Serves t { m with openCount := counts } :=
  ⟨hm.ok, hm.blocks, hm.table, hm.loaded, hm.orphans, hm.perm⟩

theorem slot {raw : Buf inodeSize} (h : t.SlotIs k raw) : m.SlotIs k raw := by
  obtain ⟨phys, off, hmap, hcopies⟩ := h
  refine ⟨phys, off, ?_, hm.blocks [(phys, 1)] phys ?_ _ hcopies⟩
  · rw [← hmap]
    unfold mapInodeSlot
    rw [hm.table]
  · rw [cover_cons, span_eq_one (by dsimp only; omega)]
    omega

theorem stored (h : t.Stored k i) : m.Stored k i :=
  ⟨hm.slot h.slot, h.xattr.keep (hm.blocks _), h.tree.keep (hm.blocks _)⟩

theorem capacity : inodeTableCapacity m.sb = inodeTableCapacity t.sb := by
  unfold inodeTableCapacity
  rw [hm.table]

/-! ## Inodes -/

/-- A stored inode is read back. -/
theorem readInodeRaw_rereads (h : t.Flat) (hi : t.inodes.find? k = some i) (hsavable : i.Savable)
    (hstored : m.Stored k i) :
    (readInodeRaw k).Holds m (fun found u ↦ (∃ j, found = some j ∧ i.Reread j) ∧ Looked m u) (fun e _ ↦ e.IsHost) := by
  have hsound := h.tidy.sound
  have hbound : ¬(k = 0 ∨ inodeTableCapacity m.sb ≤ k) := by
    rw [hm.capacity]
    exact hsound.inv.lt_capacity hi
  refine (Inner.readInodeRaw_rereads hm.ok (hsound.inv.numbered.keys k i hi).2.2 hbound hstored hsavable.mode
    (hsound.wf hi) (hsound.inv.xattrBlock_lt hi) (hsound.extentTree_lt hi) hsavable.count fun huses ↦
      absurd (hsavable.raw.symm.trans huses) (by decide)).mono ?_ fun _ _ he ↦ he
  rintro found u ⟨⟨j, rfl, hfields, hextents⟩, hlook⟩
  refine ⟨⟨j, rfl, hfields, hextents.trans ?_⟩, hlook⟩
  unfold reread
  rw [if_neg (by rw [hsavable.raw]; decide)]

/-- No inode is found under a number that `t` has none under. -/
theorem vacant (h : t.Flat) (hk : k < t.sb.nextInode) (hi : t.inodes.find? k = none) : m.Vacant k := by
  rcases Nat.eq_zero_or_pos k with hzero | hpos
  · exact Or.inl hzero
  · refine Or.inr (Or.inr ((hm.slot (h.tidy.sound.inv.onDisk.dead k hpos hk hi)).mono fun raw hraw ↦ ?_))
    rw [hraw]
    exact zero_unused k

/-- The inode under a number, from memory or from the image. -/
theorem getInode (h : t.Flat) (hsavable : t.Savable) (hk : k < t.sb.nextInode) :
    (Inner.getInode k).Holds m
      (fun j u ↦ Serves t u ∧ u.inodes.find? k = some j ∧ ∃ i, t.inodes.find? k = some i ∧ i.Reread j)
      (fun e u ↦ e.IsHost ∨ Serves t u ∧ t.inodes.find? k = none) := by
  have hsound := h.tidy.sound
  have hinv := hsound.inv
  unfold Inner.getInode
  rw [Exec.holds_bind, Exec.holds_read]
  cases hload : m.inodes.find? k with
  | some j => exact ⟨hm, hload, hm.loaded k j hload⟩
  | none =>
    unfold loadInode
    cases hi : t.inodes.find? k with
    | some i =>
      have hi' := hsavable k i hi
      have hclean : t.dirtyInodes.contains k = false := by
        rw [h.clean]
        rfl
      refine (hm.readInodeRaw_rereads h hi hi' (hm.stored (hinv.onDisk.stored k i hi hclean))).bind ?_ fun _ _ he ↦ Or.inl he
      rintro found u ⟨⟨j, rfl, hj⟩, hlook⟩
      change (putInode k j >>= fun _ ↦ pure j).Holds u _ _
      rw [Exec.holds_bind, putInode, Exec.holds_modify, Exec.holds_pure]
      exact ⟨(hm.looked hlook).put hi hj, KeyMap.find?_insert_self _ _ _, i, rfl, hj⟩
    | none =>
      refine (readInodeRaw_vacant hm.ok (hm.vacant h hk hi)).bind ?_ fun _ _ he ↦ Or.inl he
      rintro _ u ⟨rfl, hlook⟩
      exact Or.inr ⟨hm.looked hlook, rfl⟩

/-! ## Bytes -/

/-- The blocks of a file that is not compressed hold the same bytes. -/
theorem laid (h : t.Flat) (hi : t.inodes.find? k = some i) (hraw : i.usesCompression = false) :
    m.Laid i ∧ ∀ p, m.storedByte i p = t.storedByte i p := by
  have hwf := h.tidy.sound.wf hi
  have hlaid := h.tidy.sound.laid k i hi
  have hflat := raw_of_uncompressed hwf hraw
  have hno : ∀ e ∈ i.extents, e.isCompressed = true → False := by
    intro e he hpacked
    unfold Extent.isCompressed at hpacked
    rw [hflat e he] at hpacked
    cases hpacked
  refine ⟨⟨fun b hb ↦ ((hm.blocks _).stable hb (hlaid.stable b hb)).1, fun e he hp ↦ (hno e he hp).elim,
    fun e he hp ↦ (hno e he hp).elim, fun e he hp ↦ (hno e he hp).elim, fun e he hp ↦ (hno e he hp).elim⟩, fun p ↦ ?_⟩
  unfold storedByte
  cases hcell : cellAt i.extents (p / blockSize) with
  | hole => rfl
  | raw phys =>
    have hcover := cover_of_raw hwf hcell
    rw [cellByte_raw, cellByte_raw, ((hm.blocks _).stable hcover (hlaid.stable phys hcover)).2]
  | packed e => exact absurd hcell (not_packed_of_raw hflat _ e)

theorem readData (h : t.Flat) (hsavable : t.Savable) (hi : t.inodes.find? k = some i) (off count : ℕ) :
    (Inner.readData k off count).Holds m (fun data u ↦ Serves t u ∧ data = PlainFile.read (t.contents k) off count)
      (fun e _ ↦ e.IsHost) := by
  have hsound := h.tidy.sound
  have hwf := hsound.wf hi
  have hi' := hsavable k i hi
  have hlive : k < t.sb.nextInode := (hsound.inv.numbered.keys k i hi).2.1
  rw [read_contents hi]
  unfold Inner.readData
  refine (hm.getInode h hsavable hlive).bind ?_ ?_
  swap
  · rintro e u (he | ⟨-, hnone⟩)
    · exact he
    · rw [hi] at hnone
      cases hnone
  rintro j u ⟨hu, hmem, i', hi₁, hj⟩
  rw [hi] at hi₁
  cases hi₁
  have hsize := relisted_size hwf hj.fields
  rw [hsize]
  by_cases hend : i.size ≤ off
  · rw [if_pos hend, Nat.sub_eq_zero_of_le hend, Nat.zero_min]
    exact ⟨hu, rfl⟩
  rw [if_neg hend]
  dsimp only
  by_cases hzero : min (i.size - off) count = 0
  · rw [if_pos hzero, hzero]
    exact ⟨hu, rfl⟩
  rw [if_neg hzero, hj.dataKind, hj.usesCompression]
  by_cases hkind : i.dataKind = .inline
  · have hlen := hsound.inline k i hi hkind
    rw [if_pos hkind, inlineSlice, relisted_inlineData hkind (hi'.inline hkind) hj.fields, if_neg (by omega)]
    refine ⟨hu, ?_⟩
    rw [slice_eq_map i.inlineData off (by omega)]
    apply List.map_congr_left
    intro p hp
    rw [List.mem_range'_1] at hp
    rw [fileByte_inline hkind, Nat.add_sub_cancel' hp.1]
  rw [if_neg hkind, if_neg (by rw [hi'.raw]; decide)]
  obtain ⟨hlaid, hbyte⟩ := hu.laid h hi hi'.raw
  have hpacked := raw_of_uncompressed hwf hi'.raw
  have hmap : ∀ n, mapExtents j.extents n = mapExtents i.extents n := by
    intro n
    rw [hj.extents]
    exact mapExtents_stored fun e he ↦ stored_map (hwf.extents e he) (hsound.physical_lt hi hi'.raw he) n
  unfold readDataRaw
  rw [Exec.holds_bind_of_ok (getInode_mem hmem), hsize, if_neg hend, hj.dataKind]
  dsimp only
  rw [if_neg hkind, readChunks_congr hmap]
  have htiles := Chunk.list_tiles (by decide : 0 < blockSize) off (min (i.size - off) count)
  refine (readChunks_spec htiles hwf (fun c _ ↦ not_packed_of_raw hpacked _) u hu.ok hlaid).mono ?_ fun _ _ he ↦ he
  rintro _ v ⟨rfl, hlook⟩
  refine ⟨hu.looked hlook, ?_⟩
  rw [Nat.add_zero, Nat.sub_zero]
  apply List.map_congr_left
  intro p _
  rw [hbyte, fileByte_stored hkind (hsound.held_ne hi hi'.raw)]

/-! ## Where the host answers -/

theorem slot_inside (h : t.Sound) (hlen : t.image.len ≤ m.image.len) {phys off : ℕ}
    (hmap : mapInodeSlot m.sb k = .ok (phys, off)) : phys * blockSize + blockSize ≤ m.image.len := by
  have hmap' : mapInodeSlot t.sb k = .ok (phys, off) := by
    rw [← hmap]
    unfold mapInodeSlot
    rw [hm.table]
  exact (h.inv.slot_inside hmap').trans hlen

/-- A stored inode can be read back. -/
theorem completeInode_answered (h : t.Sound) (hlen : t.image.len ≤ m.image.len) (ha : m.disk.Answering)
    (hi : t.inodes.find? k = some i) (hsavable : i.Savable) (hxattr : m.XattrStored i) (htree : m.TreeStored i) :
    Answered (completeInode i.stored) m := by
  have hinside := (h.inv.inside hi).of_le hlen
  have hblock : i.stored.xattrBlock = i.xattrBlock := Nat.mod_eq_of_lt (h.inv.xattrBlock_lt hi)
  have hattrs : Answered (loadXattrs i.stored) m := by
    unfold loadXattrs
    split_ifs with hzero
    · exact .pure ha _
    · refine (Answered.get ha ?_).bind fun _ _ _ hu ↦ .pure hu.answering _
      rw [hblock] at hzero ⊢
      apply hinside
      rw [cover_ranges, Inode.xattrRanges, if_neg hzero, cover_cons, span_eq_one (by dsimp only; omega)]
      omega
  have hextents : ∀ {j : Inode} {u : Inner}, Looked m u → Served m u → j.dataKind = i.dataKind →
      j.extentTree = i.extentTree →
      Answered (if j.dataKind = .extentTree then loadExtentTree j else pure j : Fs Inode) u := by
    intro j u hlook hu hkind hsame
    split_ifs
    · rcases htree.keep (hlook.keeps _) with ⟨-, hzero⟩ | ⟨-, -, hne, hsize, hblocks⟩
      · unfold loadExtentTree
        rw [if_pos (hsame.trans hzero)]
        exact .pure hu.answering _
      · have hpos : 0 < i.extentTreeBlocks := by
          rw [hsize]
          exact treeSize_pos _
        have hin := (hinside.of_le hu.len.ge).tree hne hpos
        rw [hsize] at hin
        exact Exec.Meets.mono (loadExtentTree_served hu.answering (hlook.ok hm.ok) hblocks hsavable.count hsame hin)
          (fun _ _ hv ↦ hv) (fun _ _ hf ↦ hf.elim) id
    · exact .pure hu.answering _
  unfold completeInode
  refine hattrs.bind fun j u hrun hu ↦ ?_
  obtain ⟨rfl, hlook⟩ := (loadXattrs_reads hm.ok hxattr hblock rfl).of_ok hrun
  have hlast := (hextents hlook hu (j := { i.stored with xattr := i.xattr }) rfl
    (Nat.mod_eq_of_lt (h.extentTree_lt hi))).bind
      (f := fun j ↦ if j.usesCompression then resolveAllExtents j else pure j) fun j v hrun hv ↦ ?_
  · dsimp only at hlast ⊢
    split_ifs at hlast ⊢
    · exact hlast
    · exact hlast
  · obtain ⟨-, huses, -⟩ := (treePart_reads (hlook.ok hm.ok) (htree.keep (hlook.keeps _)) (h.wf hi) (h.extentTree_lt hi)
      hsavable.count).of_ok hrun
    rw [if_neg (by rw [huses, hsavable.raw]; decide)]
    exact .pure hv.answering _

theorem readInodeRaw_answered (h : t.Sound) (hlen : t.image.len ≤ m.image.len) (ha : m.disk.Answering)
    (hi : t.inodes.find? k = some i) (hsavable : i.Savable) (hstored : m.Stored k i) :
    Answered (readInodeRaw k) m := by
  have hino : i.ino = k := (h.inv.numbered.keys k i hi).2.2
  have hbound : ¬(k = 0 ∨ inodeTableCapacity m.sb ≤ k) := by
    rw [hm.capacity]
    exact h.inv.lt_capacity hi
  obtain ⟨phys, off, hmap, hcopies⟩ := hstored.slot
  unfold readInodeRaw
  refine Answered.bind (Served.refl ha : Answered (Exec.read (·.sb)) m) fun sb v hrun _ ↦ ?_
  cases hrun
  rw [if_neg hbound, hmap]
  change Answered (onCache (BlockCache.get phys) >>= _) m
  refine (Answered.get ha (hm.slot_inside h hlen hmap)).bind fun block u hrun hu ↦ ?_
  obtain ⟨rfl, hlook⟩ := (get_looked phys hm.ok).of_ok hrun
  have hraw := hcopies.view
  dsimp only at hraw ⊢
  rw [hraw, if_neg (encode_used hsavable.mode), ← hino, Inode.decode_encode hsavable.mode]
  exact ((hm.looked hlook).completeInode_answered h (hlen.trans_eq hu.len.symm) hu.answering hi hsavable
    (hstored.xattr.keep (hlook.keeps _)) (hstored.tree.keep (hlook.keeps _))).bind fun _ _ _ hv ↦ .pure hv.answering _

theorem getInode_answered (h : t.Flat) (hsavable : t.Savable) (hlen : t.image.len ≤ m.image.len)
    (ha : m.disk.Answering) (hk : k < t.sb.nextInode) : Answered (Inner.getInode k) m := by
  have hsound := h.tidy.sound
  have hinv := hsound.inv
  cases hload : m.inodes.find? k with
  | some j => exact Exec.meets_of_ok (getInode_mem hload) (.refl ha)
  | none =>
    unfold Inner.getInode
    refine Answered.bind (Served.refl ha : Answered (Exec.read fun s ↦ s.inodes.find? k) m) fun hit v hrun _ ↦ ?_
    cases hrun
    dsimp only
    rw [hload]
    unfold loadInode
    cases hi : t.inodes.find? k with
    | some i =>
      have hi' := hsavable k i hi
      have hclean : t.dirtyInodes.contains k = false := by
        rw [h.clean]
        rfl
      have hstored := hm.stored (hinv.onDisk.stored k i hi hclean)
      refine (hm.readInodeRaw_answered hsound hlen ha hi hi' hstored).bind fun found u hrun hu ↦ ?_
      obtain ⟨⟨j, rfl, -⟩, hlook⟩ := (hm.readInodeRaw_rereads h hi hi' hstored).of_ok hrun
      have hput : Served u { u with inodes := u.inodes.insert k j } := by
        refine ⟨hu.answering.served, id, fun l c hc ↦ ?_, rfl⟩
        have hl : l ≠ k := by
          rintro rfl
          rw [hlook.inodes, hload] at hc
          cases hc
        exact (KeyMap.find?_insert_of_ne hl).trans hc
      have hfound : Answered (Exec.ofOption (.eio s!"missing inode {k}") (some j)) u := .pure hu.answering j
      refine hfound.bind fun j' v hrun _ ↦ ?_
      cases hrun
      exact Answered.bind (show Answered (putInode k j) u from hput) fun _ _ _ hv ↦ .pure hv.answering _
    | none =>
      have hvacant := hm.vacant h hk hi
      refine (Inner.readInodeRaw_answered ha hm.ok hvacant fun _ _ hmap ↦ hm.slot_inside hsound hlen hmap).bind
        fun found u hrun hu ↦ ?_
      obtain ⟨rfl, -⟩ := (readInodeRaw_vacant hm.ok hvacant).of_ok hrun
      exact Answered.bind (Answered.throw hu.answering id) fun _ _ hrun _ ↦ by cases hrun

theorem readData_answered (h : t.Flat) (hsavable : t.Savable) (hlen : t.image.len ≤ m.image.len)
    (ha : m.disk.Answering) (hi : t.inodes.find? k = some i) (off count : ℕ) :
    Answered (Inner.readData k off count) m := by
  have hsound := h.tidy.sound
  have hwf := hsound.wf hi
  have hi' := hsavable k i hi
  have hlive : k < t.sb.nextInode := (hsound.inv.numbered.keys k i hi).2.1
  unfold Inner.readData
  refine (hm.getInode_answered h hsavable hlen ha hlive).bind fun j u hrun hu ↦ ?_
  obtain ⟨hserves, hmem, i', hi₁, hj⟩ := (hm.getInode h hsavable hlive).of_ok hrun
  rw [hi] at hi₁
  cases hi₁
  have hsize := relisted_size hwf hj.fields
  dsimp only
  have huncompressed : ¬j.usesCompression = true := by
    rw [hj.usesCompression, hi'.raw]
    exact Bool.false_ne_true
  rw [hsize, hj.dataKind]
  split_ifs with hend hzero hkind
  · exact .pure hu.answering _
  · exact .pure hu.answering _
  · have hlength := hsound.inline k i hi hkind
    unfold inlineSlice
    rw [relisted_inlineData hkind (hi'.inline hkind) hj.fields, if_neg (by omega)]
    exact .pure hu.answering _
  · have hmap : ∀ n, mapExtents j.extents n = mapExtents i.extents n := by
      intro n
      rw [hj.extents]
      exact mapExtents_stored fun e he ↦ stored_map (hwf.extents e he) (hsound.physical_lt hi hi'.raw he) n
    have hget : Answered (Inner.getInode k) u := Exec.meets_of_ok (getInode_mem hmem) (.refl hu.answering)
    unfold readDataRaw
    refine hget.bind fun j' v hrun _ ↦ ?_
    rw [getInode_mem hmem] at hrun
    cases hrun
    rw [hsize, if_neg hend]
    dsimp only
    rw [hj.dataKind, if_neg hkind, readChunks_congr hmap]
    refine readChunks_answered _ u hu.answering fun c _ phys hphys ↦ ?_
    have hcell := mapExtents_of_cellAt (n := c.index) (not_packed_of_raw (raw_of_uncompressed hwf hi'.raw) _)
    rw [hphys] at hcell
    exact ((hsound.inv.inside hi).of_le (hlen.trans_eq hu.len.symm)).extents (cover_of_raw hwf hcell)

end Serves

/-! ## The mount as a reader -/

theorem Flat.reader (h : t.Flat) (hsavable : t.Savable) : Reader True t.node (Serves t) false t.sb.nextInode where
  perm _ hm := hm.perm
  below _ _ _ _ hdir hentry := h.tidy.namesBelow.lookup hdir hentry
  size _ _ hn := h.tidy.sound.bytes_le hn
  inode m k hm hk := by
    apply Asks.of_holds
    refine Exec.Holds.mono (hm.getInode h hsavable hk) ?_ ?_
    · rintro j u ⟨hu, -, i, hi, hj⟩
      have hino := (h.tidy.sound.inv.numbered.keys k i hi).2.2
      exact ⟨hu, _, node_of_mem hi,
        hj.shows (h.tidy.sound.wf hi) (hsavable k i hi) hino (contents_length hi)⟩
    · rintro e u (he | ⟨hu, hi⟩)
      · exact Or.inl he
      · exact Or.inr ⟨hu, node_eq_none.mpr hi⟩
  data m k n off count hm hn := by
    obtain ⟨i, hi, rfl⟩ := mem_of_node hn
    exact Asks.of_holds (Exec.Holds.mono (hm.readData h hsavable hi off count) (fun _ _ hu ↦ hu) fun _ _ he ↦ Or.inl he)

theorem Flat.visitor (h : t.Flat) (hrooted : t.Rooted) (hsavable : t.Savable) :
    Visitor True t.node (fun _ ↦ Serves t) false t.sb.nextInode where
  reader _ := h.reader hsavable
  root := hrooted.root_dir
  root_lt := hrooted.root_lt
  linked _ _ _ _ _ hk hn := hrooted.nlink_ne_zero hk hn
  opens m k hm := by
    apply Asks.of_holds
    unfold incOpen
    rw [Exec.holds_bind, Exec.holds_read, Exec.holds_bind]
    apply holds_addU32
    intro _
    rw [Exec.holds_modify]
    exact ⟨hm.counted _, trivial⟩
  closes m k n hm _ _ := by
    refine Exec.Holds.meets ?_ fun _ ↦ trivial
    unfold decOpen
    rw [Exec.holds_bind, Exec.holds_get]
    cases m.openCount.find? k with
    | none => exact hm
    | some count =>
      dsimp only
      have hnone : ¬m.orphans.contains k = true := by
        rw [hm.orphans]
        exact Bool.false_ne_true
      rw [if_neg hnone]
      split_ifs
      · exact hm.counted _
      · rw [Exec.holds_bind, Exec.holds_modify, Exec.holds_pure]
        exact hm.counted _

/-- A mount whose host answers. -/
theorem Flat.ready_visitor (h : t.Flat) (hrooted : t.Rooted) (hsavable : t.Savable) {len : ℕ} (hlen : t.image.len ≤ len) :
    Visitor False t.node (fun o m ↦ Serves t m ∧ m.Ready o ∧ m.image.len = len) false t.sb.nextInode := by
  refine (h.visitor hrooted hsavable).answered len ?_ ?_ ?_
  · rintro m k hm ha rfl hk
    exact hm.getInode_answered h hsavable hlen ha hk
  · rintro m k n off count hm ha - rfl hn
    obtain ⟨i, hi, -⟩ := mem_of_node hn
    exact hm.readData_answered h hsavable hlen ha hi off count
  · rintro m k n hm - - horphan
    rw [hm.orphans] at horphan
    cases horphan

/-- A mount that has nothing in memory and an unchanged copy of the flushed blocks. -/
theorem Flat.serves_pristine (h : t.Flat) (hpristine : m.disk.Pristine)
    (hblock : ∀ b, m.image.block b = t.image.block b) (htable : m.sb.inodeTableExtents = t.sb.inodeTableExtents)
    (hinodes : m.inodes = KeyMap.empty) (horphans : m.orphans = KeyMap.empty) (hperm : m.checkPerm = false) :
    Serves t m where
  ok := hpristine.ok
  blocks ranges b hb P hP := by
    have hcopy : P (m.image.block b) := by
      rw [hblock]
      exact hP.2 (h.settled b)
    refine ⟨fun e he ↦ ?_, fun _ ↦ hcopy⟩
    rw [(hpristine.clean b e he).2]
    exact hcopy
  table := htable
  loaded k j hj := by
    rw [hinodes] at hj
    cases hj
  orphans := horphans
  perm := hperm

end Inner

end LinuxFile
