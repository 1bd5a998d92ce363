import LinuxFile.Spec.FileRead
import LinuxFile.Spec.Reload

/-!
# Extents read back

A slot or a tree block keeps neither the physical length of an extent nor its codec. For a file that compresses both
are found again in the first block of the extent; other files have raw extents only.
-/

namespace LinuxFile.Inner

open Ledger

variable {s t : Inner} {i j : Inode} {k : ℕ}

/-- The state without the inode in memory. -/
def forget (s : Inner) (k : ℕ) : Inner := { s with inodes := s.inodes.erase k }

/-- What `resolve_all_extents` makes of an extent. -/
def resolved (s : Inner) (e : Extent) : Extent :=
  if e.physLength ≠ 0 ∨ e.physical = 0 then e
  else
    (RecordHeader.parse (s.disk.view e.physical)).elim { e with physLength := e.length }
      fun h ↦ { e with physLength := h.physBlocks, compress := h.algo.asU8 }

/-- The extents of an inode after it has been stored and read back. -/
def reread (s : Inner) (i : Inode) : List Extent :=
  if i.usesCompression then i.extents.map fun e ↦ s.resolved e.stored else i.extents.map Extent.stored

/-- What a reader sees of the first blocks of the extents is what is stored there. -/
def FirstStable (s : Inner) (extents : List Extent) : Prop := ∀ e ∈ extents, s.disk.Stable e.physical

theorem Looked.stable (h : Looked s t) {b : ℕ} (hb : s.disk.Stable b) :
    t.disk.Stable b ∧ t.disk.view b = s.disk.view b := by
  obtain ⟨d, rfl, hquiet⟩ := h
  have hcopies := hquiet.copies b not_false _ (CachedImage.stable_iff_copies.mp hb)
  exact ⟨hcopies.stable, hcopies.view⟩

theorem FirstStable.looked {extents : List Extent} (h : s.FirstStable extents) (ht : Looked s t) :
    t.FirstStable extents := fun e he ↦ (ht.stable (h e he)).1

theorem Looked.resolved (ht : Looked s t) {e : Extent} (hstable : s.disk.Stable e.physical) :
    t.resolved e = s.resolved e := by
  unfold Inner.resolved
  rw [(ht.stable hstable).2]

theorem resolveExtent_reads (hok : s.image.Ok) (e : Extent) :
    (resolveExtent e).Holds s (fun found t ↦ found = s.resolved e ∧ Looked s t) (fun e _ ↦ e.IsHost) := by
  unfold resolveExtent resolved
  split_ifs
  · exact ⟨rfl, Looked.refl s⟩
  · refine (get_looked e.physical hok).bind ?_ (fun _ _ he ↦ he)
    rintro block t ⟨rfl, ht⟩
    cases RecordHeader.parse (s.disk.view e.physical) with
    | none => exact ⟨rfl, ht⟩
    | some h => exact ⟨rfl, ht⟩

theorem resolveExtents_reads (extents : List Extent) : ∀ s : Inner, s.image.Ok → s.FirstStable extents →
    (resolveExtents extents).Holds s (fun found t ↦ found = extents.map s.resolved ∧ Looked s t)
      (fun e _ ↦ e.IsHost) := by
  induction extents with
  | nil => exact fun s _ _ ↦ ⟨rfl, Looked.refl s⟩
  | cons e rest ih =>
    intro s hok hstable
    have hrest : s.FirstStable rest := fun e he ↦ hstable e (List.mem_cons_of_mem _ he)
    unfold resolveExtents
    refine (resolveExtent_reads hok e).bind ?_ (fun _ _ he ↦ he)
    rintro _ t ⟨rfl, ht⟩
    refine (ih t (ht.ok hok) (hrest.looked ht)).bind ?_ (fun _ _ he ↦ he)
    rintro _ u ⟨rfl, hu⟩
    refine ⟨?_, ht.trans hu⟩
    rw [List.map_cons, List.cons.injEq]
    exact ⟨rfl, List.map_congr_left fun e he ↦ ht.resolved (hrest e he)⟩

/-- The extents that an inode has in its slot, or in its tree if it has one. -/
theorem treePart_reads (hok : s.image.Ok) (htree : s.TreeStored i) (hwf : i.Wf) (hlt : i.extentTree < 2 ^ 64)
    (hcount : i.extents.length < 2 ^ 32) :
    (if ({ i.stored with xattr := i.xattr } : Inode).dataKind = .extentTree then
      loadExtentTree { i.stored with xattr := i.xattr } else pure { i.stored with xattr := i.xattr } : Fs Inode).Holds s
      (fun j t ↦ j.extents = i.extents.map Extent.stored ∧ j.usesCompression = i.usesCompression ∧ Looked s t)
      (fun e _ ↦ e.IsHost) := by
  have hfew : i.extents.length ≤ maxDirectExtents → i.stored.extents = i.extents.map Extent.stored := by
    intro hle
    change (if i.dataKind = .inline then [] else (i.extents.take maxDirectExtents).map Extent.stored) = _
    rw [List.take_of_length_le hle]
    split_ifs with hinline
    · rw [hwf.inline hinline]
      rfl
    · rfl
  change (if i.dataKind = .extentTree then loadExtentTree { i.stored with xattr := i.xattr } else
    pure { i.stored with xattr := i.xattr } : Fs Inode).Holds s _ _
  have hmod : ({ i.stored with xattr := i.xattr } : Inode).extentTree = i.extentTree := Nat.mod_eq_of_lt hlt
  rcases htree with ⟨hle, hzero⟩ | ⟨-, hkind, hne, -, hblocks⟩
  · split_ifs
    · unfold loadExtentTree
      rw [if_pos (hmod.trans hzero)]
      exact ⟨hfew hle, rfl, Looked.refl s⟩
    · exact ⟨hfew hle, rfl, Looked.refl s⟩
  · rw [if_pos hkind]
    refine (loadExtentTree_reads hok hblocks hcount hmod hne).mono ?_ (fun _ _ he ↦ he)
    rintro _ t ⟨rfl, ht⟩
    exact ⟨rfl, rfl, ht⟩

/-- The extents of the inode that is read back. -/
theorem completeInode_rereads (hok : s.image.Ok) (hxattr : s.XattrStored i) (hblock : i.xattrBlock < 2 ^ 64)
    (htree : s.TreeStored i) (hwf : i.Wf) (hlt : i.extentTree < 2 ^ 64) (hcount : i.extents.length < 2 ^ 32)
    (hstable : i.usesCompression = true → s.FirstStable (i.extents.map Extent.stored)) :
    (completeInode i.stored).Holds s (fun j t ↦ j.extents = s.reread i ∧ Looked s t) (fun e _ ↦ e.IsHost) := by
  unfold completeInode
  refine (loadXattrs_reads hok hxattr (Nat.mod_eq_of_lt hblock) rfl).bind ?_ (fun _ _ he ↦ he)
  rintro _ t ⟨rfl, ht⟩
  have hstored : (if ({ i.stored with xattr := i.xattr } : Inode).dataKind = .extentTree then
      loadExtentTree { i.stored with xattr := i.xattr } else pure { i.stored with xattr := i.xattr } : Fs Inode).Holds t
      (fun j u ↦ j.extents = i.extents.map Extent.stored ∧ j.usesCompression = i.usesCompression ∧ Looked t u)
      (fun e _ ↦ e.IsHost) := treePart_reads (ht.ok hok) (htree.keep (ht.keeps _)) hwf hlt hcount
  have hlast := hstored.bind (f := fun j ↦ if j.usesCompression then resolveAllExtents j else pure j)
    (R := fun j u ↦ j.extents = s.reread i ∧ Looked s u) ?_ (fun _ _ he ↦ he)
  · dsimp only at hlast ⊢
    split_ifs at hlast ⊢
    · exact hlast
    · exact hlast
  · rintro j u ⟨hext, huses, hu⟩
    have hsu := ht.trans hu
    unfold reread
    rw [huses, ← hext]
    split_ifs with hpacked
    · have hstable' := (hstable hpacked).looked hsu
      rw [← hext] at hstable'
      refine (resolveExtents_reads j.extents u (hsu.ok hok) hstable').bind ?_ (fun _ _ he ↦ he)
      rintro _ v ⟨rfl, hv⟩
      refine ⟨?_, hsu.trans hv⟩
      dsimp only
      rw [hext, List.map_map]
      refine List.map_congr_left fun e he ↦ ?_
      exact hsu.resolved (hstable hpacked _ (List.mem_map_of_mem he))
    · exact ⟨rfl, hsu⟩

/-- The slot of an inode is in use. -/
theorem encode_used (hmode : i.mode ≠ 0) :
    ¬((i.encode.slice 0 inodeSize).all (· == 0) = true ∨ i.encode.getU16 0 = 0) := by
  have hne : i.encode.getU16 0 ≠ 0 := by
    rw [show i.encode.getU16 0 = i.mode.toNat from i.encode_mode]
    exact fun hzero ↦ hmode (UInt16.toNat_inj.mp hzero)
  rintro (hzero | hzero)
  · exact hne (getU16_of_zeros hzero)
  · exact hne hzero

/-- An inode that is stored is read back with its extents. -/
theorem readInodeRaw_rereads (hok : s.image.Ok) (hino : i.ino = k)
    (hbound : ¬(k = 0 ∨ inodeTableCapacity s.sb ≤ k)) (h : s.Stored k i) (hmode : i.mode ≠ 0) (hwf : i.Wf)
    (hblock : i.xattrBlock < 2 ^ 64) (hlt : i.extentTree < 2 ^ 64) (hcount : i.extents.length < 2 ^ 32)
    (hstable : i.usesCompression = true → s.FirstStable (i.extents.map Extent.stored)) :
    (readInodeRaw k).Holds s
      (fun found t ↦ (∃ j, found = some j ∧ Inode.Relisted { i.stored with xattr := i.xattr } j ∧
        j.extents = s.reread i) ∧ Looked s t) (fun e _ ↦ e.IsHost) := by
  obtain ⟨phys, off, hmap, hcopies⟩ := h.slot
  unfold readInodeRaw
  rw [Exec.holds_bind, Exec.holds_read, if_neg hbound, hmap]
  refine (get_looked phys hok).bind ?_ (fun _ _ he ↦ he)
  rintro block t ⟨rfl, ht⟩
  have hraw := hcopies.view
  dsimp only at hraw ⊢
  rw [hraw, if_neg (encode_used hmode), ← hino, Inode.decode_encode hmode]
  have hxattr : t.XattrStored i := h.xattr.keep (ht.keeps _)
  have hboth := (completeInode_reads (ht.ok hok) hxattr (Nat.mod_eq_of_lt hblock : i.stored.xattrBlock = _) rfl).and
    (completeInode_rereads (ht.ok hok) hxattr hblock (h.tree.keep (ht.keeps _)) hwf hlt hcount fun hpacked ↦
      (hstable hpacked).looked ht)
  refine hboth.bind ?_ (fun _ _ he ↦ he.1)
  rintro j u ⟨⟨hlisted, hu⟩, hext, -⟩
  refine ⟨⟨j, rfl, hlisted, ?_⟩, ht.trans hu⟩
  rw [hext]
  unfold reread
  split_ifs with hpacked
  · exact List.map_congr_left fun e he ↦ ht.resolved (hstable hpacked _ (List.mem_map_of_mem he))
  · rfl

/-! ## Files without compression -/

/-- A raw extent loses nothing when it is stored. -/
theorem stored_map {e : Extent} (hwf : e.Wf i) (hphys : e.physical < 2 ^ 64) (n : ℕ) : e.stored.map n = e.map n := by
  have hend := hwf.logical_le
  have hlogical : e.logical % 2 ^ 64 = e.logical := by
    apply Nat.mod_eq_of_lt
    unfold Extent.logicalEnd maxLogical at hend
    omega
  have hlength : e.length % 2 ^ 32 = e.length := Nat.mod_eq_of_lt hwf.length_lt
  unfold Extent.map Extent.containsLogical Extent.logicalEnd Extent.stored Extent.new
  dsimp only
  rw [hlogical, hlength, Nat.mod_eq_of_lt hphys]

theorem Sound.physical_lt (h : s.Sound) (hi : s.inodes.find? k = some i) (hraw : i.usesCompression = false)
    {e : Extent} (he : e ∈ i.extents) : e.physical < 2 ^ 64 := by
  have hwf := (h.wf hi).extents e he
  have hlen := hwf.physLen_eq (raw_of_uncompressed (h.wf hi) hraw e he)
  by_cases hzero : e.length = 0
  · exact hwf.empty hzero
  · apply h.inv.block_lt hi
    have hcover := cover_of_mem he le_rfl (by omega)
    rw [cover_ranges]
    omega

theorem mapExtents_stored {extents : List Extent} {n : ℕ} (h : ∀ e ∈ extents, e.stored.map n = e.map n) :
    mapExtents (extents.map Extent.stored) n = mapExtents extents n := by
  induction extents with
  | nil => rfl
  | cons e rest ih =>
    have hrest := ih fun e he ↦ h e (List.mem_cons_of_mem _ he)
    unfold mapExtents at hrest ⊢
    rw [List.map_cons, List.findSome?_cons, List.findSome?_cons, h e List.mem_cons_self, hrest]

theorem readChunks_congr (h : ∀ n, mapExtents j.extents n = mapExtents i.extents n) (chunks : List Chunk) :
    readChunks j chunks = readChunks i chunks := by
  induction chunks with
  | nil => rfl
  | cons c rest ih =>
    have hchunk : readChunk j c = readChunk i c := by
      unfold readChunk mapFileBlock
      rw [h c.index]
    rw [readChunks_cons, readChunks_cons, hchunk, ih]

/-- `get_inode` of an inode that is only on disk. -/
theorem getInode_rereads (h : s.Sound) (hi : s.inodes.find? k = some i) (hclean : s.dirtyInodes.contains k = false)
    (hmode : i.mode ≠ 0) (hcount : i.extents.length < 2 ^ 32)
    (hstable : i.usesCompression = true → s.FirstStable (i.extents.map Extent.stored)) :
    (getInode k).Holds (s.forget k)
      (fun j t ↦ Inode.Relisted { i.stored with xattr := i.xattr } j ∧ j.extents = s.reread i ∧
        t.inodes.find? k = some j ∧ ∃ u, Looked s u ∧ t.disk = u.disk ∧ t.env = u.env ∧ t.recordBlocks = u.recordBlocks)
      (fun e _ ↦ e.IsHost) := by
  have hstored : (s.forget k).Stored k i := by
    have hdisk := h.inv.onDisk.stored k i hi hclean
    exact ⟨hdisk.slot, hdisk.xattr, hdisk.tree⟩
  have hlt : i.extentTree < 2 ^ 64 := by
    by_cases hzero : i.extentTree = 0
    · rw [hzero]
      norm_num
    · apply h.inv.block_lt hi
      have hblocks : i.extentTreeBlocks ≠ 0 := fun hnone ↦ hzero ((h.wf hi).tree.mpr hnone)
      rw [cover_ranges, Inode.treeRanges, if_neg hzero, cover_cons, span_eq_one ⟨le_rfl, by dsimp only; omega⟩]
      omega
  have hread := readInodeRaw_rereads (s := s.forget k) h.inv.geometry.image (h.inv.numbered.keys k i hi).2.2
    (h.inv.lt_capacity hi) hstored hmode (h.wf hi) (h.inv.xattrBlock_lt hi) hlt hcount hstable
  unfold getInode
  rw [Exec.holds_bind, Exec.holds_read]
  have hgone : (s.forget k).inodes.find? k = none := KeyMap.find?_erase_self _ _
  rw [hgone]
  unfold loadInode
  refine hread.bind ?_ (fun _ _ he ↦ he)
  rintro found t ⟨⟨j, rfl, hlisted, hext⟩, d, rfl, hquiet⟩
  rw [Exec.holds_bind, Exec.holds_ofOption]
  refine ⟨fun j' hj' ↦ ?_, fun h ↦ by cases h⟩
  cases hj'
  rw [Exec.holds_bind, putInode, Exec.holds_modify, Exec.holds_pure]
  exact ⟨hlisted, hext, KeyMap.find?_insert_self _ _ _, s.withDisk d, ⟨d, rfl, hquiet⟩, rfl, rfl, rfl⟩

/-- The size survives the slot. -/
theorem relisted_size (hwf : i.Wf) (h : Inode.Relisted { i.stored with xattr := i.xattr } j) : j.size = i.size := by
  rw [h]
  apply Nat.mod_eq_of_lt
  have hle := hwf.size_le
  unfold maxFileSize at hle
  omega

/-- So does inline data that the slot has room for. -/
theorem relisted_inlineData (hin : i.dataKind = .inline) (hlen : i.inlineData.length ≤ inlineMax)
    (h : Inode.Relisted { i.stored with xattr := i.xattr } j) : j.inlineData = i.inlineData := by
  rw [h]
  change (if i.dataKind = .inline then i.inlineData.take inlineMax else []) = _
  rw [if_pos hin, List.take_of_length_le hlen]

/-- Reading a file without compression whose inode is only on disk. -/
theorem readData_rereads (h : s.Sound) (hi : s.inodes.find? k = some i) (hclean : s.dirtyInodes.contains k = false)
    (hmode : i.mode ≠ 0) (hcount : i.extents.length < 2 ^ 32) (hraw : i.usesCompression = false)
    (hinline : i.dataKind = .inline → i.inlineData.length ≤ inlineMax) :
    (readData k 0 i.size).Holds (s.forget k) (fun data _ ↦ data = s.contents k) (fun e _ ↦ e.IsHost) := by
  have hwf := h.wf hi
  unfold readData
  refine (getInode_rereads h hi hclean hmode hcount fun huses ↦ ?_).bind ?_ (fun _ _ he ↦ he)
  · rw [hraw] at huses
    cases huses
  rintro j t ⟨hlisted, hext, hmem, u, hlook, hdisk, henv, hrecords⟩
  have hsize := relisted_size hwf hlisted
  have hkind : j.dataKind = i.dataKind := by
    rw [hlisted]
    rfl
  have huses : j.usesCompression = false := by
    rw [hlisted]
    exact hraw
  rw [contents_of_mem hi, hsize]
  by_cases hend : i.size ≤ 0
  · rw [if_pos hend, Nat.le_zero.mp hend]
    exact rfl
  rw [if_neg hend]
  dsimp only
  rw [Nat.sub_zero, Nat.min_self, if_neg (by omega)]
  by_cases hin : i.dataKind = .inline
  · have hlen := h.inline k i hi hin
    rw [if_pos (hkind.trans hin), inlineSlice, relisted_inlineData hin (hinline hin) hlisted, if_neg (by omega)]
    change (i.inlineData.drop 0).take i.size = _
    rw [slice_eq_map i.inlineData 0 (by omega), List.range_eq_range']
    refine List.map_congr_left fun p _ ↦ ?_
    rw [fileByte_inline hin, Nat.zero_add, Nat.sub_zero]
  · have hnot : j.dataKind ≠ .inline := by
      rw [hkind]
      exact hin
    have hpacked := raw_of_uncompressed hwf hraw
    have hmap : ∀ n, mapExtents j.extents n = mapExtents i.extents n := by
      intro n
      rw [hext, reread, if_neg (by rw [hraw]; decide)]
      exact mapExtents_stored fun e he ↦ stored_map (hwf.extents e he) (h.physical_lt hi hraw he) n
    rw [if_neg hnot, if_neg (by rw [huses]; decide)]
    unfold readDataRaw
    rw [Exec.holds_bind_of_ok (getInode_mem hmem), hsize, if_neg hend]
    dsimp only
    rw [if_neg hnot, Nat.sub_zero, Nat.min_self, readChunks_congr hmap]
    have hlaid : t.Laid i := ((h.laid k i hi).keep hwf (hlook.keeps _) hlook.env hlook.recordBlocks).congr hdisk henv
      hrecords
    have htiles := Chunk.list_tiles (by decide : 0 < blockSize) 0 i.size
    refine (readChunks_spec htiles hwf (fun c _ ↦ not_packed_of_raw hpacked _) t ?_ hlaid).mono ?_ (fun _ _ he ↦ he)
    · have hok := hlook.ok h.inv.geometry.image
      have himage : t.image = u.image := congrArg CachedImage.image hdisk
      rw [himage]
      exact hok
    · rintro data v ⟨rfl, -⟩
      rw [Nat.zero_add, Nat.sub_zero, List.range_eq_range']
      refine List.map_congr_left fun p _ ↦ ?_
      rw [fileByte_stored hin (h.held_ne hi hraw), storedByte_congr hdisk henv,
        (h.laid k i hi).storedByte_eq hwf (hlook.keeps _) hlook.env]

end LinuxFile.Inner
