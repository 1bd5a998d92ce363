import LinuxFile.Spec.FileTruncate
import LinuxFile.Spec.Files

/-!
# Files without holes

A file that does not compress is solid when each of its bytes has a place, in its inode or in a block. Writes that
begin at or before its end and truncations that do not make it longer keep it solid, and then its bytes are those of an
array that is written and cut. The bytes of a file that compresses are such an array whatever is written, as long as
what is stored behind its end is blank.
-/

namespace LinuxFile

/-- Each byte has its place. -/
structure Inode.Solid (i : Inode) : Prop where
  raw : i.usesCompression = false
  inline : i.dataKind = .inline → i.size ≤ inlineMax
  blocks : i.dataKind ≠ .inline → ∀ p, p < i.size → cellAt i.extents (p / blockSize) ≠ .hole

namespace Inner

variable {s t : Inner} {i i' : Inode} {ino off n p : ℕ} {buf : Bytes}

/-- A write takes no new block for a byte that has its place. -/
theorem Sound.spared (h : s.Sound) (hmem : s.inodes.find? ino = some i) (hsolid : i.Solid) (off len : ℕ)
    (hp : p < i.size) : Spared i off len p := by
  unfold Spared
  by_cases hkind : i.dataKind = .inline
  · have hsmall := hsolid.inline hkind
    rw [if_pos hkind, h.inline ino i hmem hkind]
    have hcount : ceilBlocks i.size < u32Limit := by
      unfold ceilBlocks blockSize u32Limit
      unfold inlineMax at hsmall
      omega
    exact Or.inr (Or.inr ⟨hcount, Or.inl (div_lt_ceilBlocks.mpr (hp.trans_le (le_ceilBlocks_mul i.size)))⟩)
  · rw [if_neg hkind]
    exact Or.inr (Or.inl (hsolid.blocks hkind p hp))

/-! ## The bytes -/

/-- A write that begins at or before the end leaves no byte to chance. -/
theorem FileWritten.write_eq (h : FileWritten s ino i off buf i' t) (hmem : s.inodes.find? ino = some i)
    (hoff : off ≤ i.size) (hspared : ∀ p, p < i.size → Spared i off buf.length p) :
    t.contents ino = PlainFile.write 0 (s.contents ino) off buf := by
  have hlen := h.length hmem
  apply PlainFile.eq_of_getD 0
  · rw [hlen, PlainFile.length_write]
  intro p hp
  rw [PlainFile.getD_write]
  by_cases hin : off ≤ p ∧ p < off + buf.length
  · rw [if_pos hin, h.getD_inside hin.1 hin.2]
  · rw [if_neg hin]
    rw [hlen, length_contents hmem] at hp
    have hlt : p < i.size := by omega
    exact h.getD_outside hmem (by omega) (hspared p hlt) hlt

/-- A truncation that does not make the file longer keeps the bytes below the new end. -/
theorem FileCut.truncate_eq (h : FileCut s ino i n i' t) (hmem : s.inodes.find? ino = some i) (hn : n ≤ i.size) :
    t.contents ino = PlainFile.truncate 0 (s.contents ino) n := by
  apply PlainFile.eq_of_getD 0
  · rw [h.length, PlainFile.length_truncate]
  intro p hp
  rw [h.length] at hp
  rw [PlainFile.getD_truncate, if_pos hp]
  exact h.getD_below hmem hp (hp.trans_le hn)

/-! ## Writing -/

/-- The bytes that a raw write covers have their blocks, and so have those it does not cover. -/
theorem RawWritten.solid {i₁ : Inode} (h : RawWritten s ino i off buf buf.length i₁ t) (hraw : i.usesCompression = false)
    (hblocks : ∀ p, p < i.size → cellAt i.extents (p / blockSize) ≠ .hole) (hoff : off ≤ i.size) (now : Timespec) :
    (extendSize now (off + buf.length) i₁).Solid where
  raw := h.recut.usesCompression.trans hraw
  inline hkind := absurd hkind h.recut.kind
  blocks := by
    intro _ p hp
    change cellAt i₁.extents (p / blockSize) ≠ .hole
    change p < max (off + buf.length) i₁.size at hp
    rw [h.recut.size] at hp
    by_cases hin : off ≤ p ∧ p < off + buf.length
    · exact h.covered p hin.1 hin.2
    · exact h.mapped _ (hblocks p (by omega))

/-- Inline data that is moved to blocks has a block for each of its bytes. -/
theorem Promoted.blocks {i₁ : Inode} (h : Promoted s ino i i₁ t) (hs : s.Sound) (hmem : s.inodes.find? ino = some i)
    (hkind : i.dataKind = .inline) (hsmall : i.size ≤ inlineMax) (hp : p < i₁.size) :
    cellAt i₁.extents (p / blockSize) ≠ .hole := by
  have hlen := hs.inline ino i hmem hkind
  rw [h.recut.size] at hp
  apply h.mapped
  · rw [hlen]
    unfold ceilBlocks blockSize u32Limit
    unfold inlineMax at hsmall
    omega
  · rw [hlen]
    exact div_lt_ceilBlocks.mpr (hp.trans_le (le_ceilBlocks_mul i.size))

/-- A write that begins at or before the end of a solid file keeps it solid. -/
theorem writeData_solid (h : s.Sound) (hwritable : s.writable = true) (hmem : s.inodes.find? ino = some i)
    (hsolid : i.Solid) (hne : buf ≠ []) (hstop : off + buf.length ≤ maxFileSize) (hoff : off ≤ i.size) :
    (writeData ino off buf).Holds s (fun _ t ↦ ∃ i', t.inodes.find? ino = some i' ∧ i'.Solid)
      (fun e _ ↦ e.IsHost) := by
  have hwf := h.wf hmem
  have huses := hsolid.raw
  unfold writeData
  rw [Exec.holds_bind_of_ok (requireWrite_ok hwritable), if_neg hne, if_neg (by omega)]
  dsimp only
  rw [Exec.holds_bind_of_ok (getInode_mem hmem), Exec.holds_bind, Exec.holds_read]
  by_cases hinline : i.dataKind = .inline ∧ off + buf.length ≤ inlineMax ∧ i.extents = []
  · rw [if_pos hinline, Exec.holds_bind_of_ok (getInodeMut_mem hmem _)]
    have hsmall := hsolid.inline hinline.1
    refine ⟨_, KeyMap.find?_insert_self _ _ _, ⟨huses, fun _ ↦ max_le hinline.2.1 hsmall, fun hkind ↦ ?_⟩⟩
    exact absurd hinline.1 hkind
  rw [if_neg hinline, if_neg (by rw [huses]; exact Bool.false_ne_true)]
  by_cases hkind : i.dataKind = .inline
  · rw [Exec.when, if_pos hkind]
    refine (promoteInline_promotes h.inv hmem hkind).bind ?_ (fun _ _ he ↦ he)
    intro _ t ht
    obtain ⟨i₁, hpromoted⟩ := ht
    have hsound := (hpromoted.edited h hmem hkind).sound
    have hfind := hpromoted.rewritten.find
    have hblocks : ∀ p, p < i₁.size → cellAt i₁.extents (p / blockSize) ≠ .hole :=
      fun p hp ↦ hpromoted.blocks h hmem hkind (hsolid.inline hkind) hp
    refine (writeDataRaw_writes hsound.inv hfind (hsound.laid ino i₁ hfind) hpromoted.recut.kind hpromoted.raw
      hstop).bind ?_ (fun _ _ he ↦ he)
    intro _ u hu
    obtain ⟨i₂, hwritten⟩ := hu
    rw [Exec.holds_bind_of_ok (getInodeMut_mem hwritten.rewritten.find _)]
    exact ⟨_, KeyMap.find?_insert_self _ _ _, hwritten.solid (hpromoted.recut.usesCompression.trans huses) hblocks
      (by rw [hpromoted.recut.size]; exact hoff) _⟩
  · rw [Exec.when, if_neg hkind, Exec.holds_bind, Exec.holds_exec_pure]
    refine (writeDataRaw_writes h.inv hmem (h.laid ino i hmem) hkind (raw_of_uncompressed hwf huses) hstop).bind ?_
      (fun _ _ he ↦ he)
    intro _ t ht
    obtain ⟨i₁, hwritten⟩ := ht
    rw [Exec.holds_bind_of_ok (getInodeMut_mem hwritten.rewritten.find _)]
    exact ⟨_, KeyMap.find?_insert_self _ _ _, hwritten.solid huses (hsolid.blocks hkind) hoff _⟩

/-! ## Truncating -/

/-- A file cut after whole blocks keeps the blocks of the bytes that are left. -/
theorem cut_solid (hwf : i.Wf) (hsolid : i.Solid) (hkind : i.dataKind ≠ .inline) (hn : n ≤ i.size)
    (hcut : i' = { i with
      extents := i.extents.flatMap (cutKeep (ceilBlocks n))
      size := n
      blocks := i'.blocks
      mtime := i'.mtime
      ctime := i'.ctime }) : i'.Solid where
  raw := by
    rw [hcut]
    exact hsolid.raw
  inline hinline := by
    rw [hcut] at hinline
    exact absurd hinline hkind
  blocks := by
    intro _ p hp
    have hext : i'.extents = i.extents.flatMap (cutKeep (ceilBlocks n)) := by rw [hcut]
    have hsize : i'.size = n := by rw [hcut]
    rw [hsize] at hp
    rw [hext, (cut_of_wf hwf (raw_of_uncompressed hwf hsolid.raw) (ceilBlocks n)).cell,
      if_pos (div_lt_ceilBlocks.mpr (hp.trans_le (le_ceilBlocks_mul n)))]
    exact hsolid.blocks hkind p (hp.trans_le hn)

/-- A small file that goes back into its inode has its bytes there, any other stays as it is. -/
theorem demoteInline_solid (hmem : s.inodes.find? ino = some i) (hsolid : i.Solid) (n : ℕ) (now : Timespec) :
    (demoteInline ino n now).Holds s (fun _ t ↦ ∀ i', t.inodes.find? ino = some i' → i'.size = n →
      i'.usesCompression = false → i'.Solid) (fun _ _ ↦ True) := by
  refine (demoteInline_kind hmem n now).mono ?_ (fun _ _ _ ↦ trivial)
  intro _ t ht i' hi' hsize' huses
  by_cases hsmall : n ≤ inlineMax ∧ i.extents.length ≤ 1
  · rw [if_pos hsmall] at ht
    obtain ⟨j, hj, hkind⟩ := ht
    have hji : j = i' := Option.some.inj (hj.symm.trans hi')
    subst hji
    exact ⟨huses, fun _ ↦ hsize'.trans_le hsmall.1, fun hne ↦ absurd hkind hne⟩
  · rw [if_neg hsmall] at ht
    subst ht
    have hii : i' = i := Option.some.inj (hi'.symm.trans hmem)
    rw [hii]
    exact hsolid

/-- A truncation that does not make a solid file longer keeps it solid. -/
theorem truncateData_solid (h : s.Sound) (hwritable : s.writable = true) (hmem : s.inodes.find? ino = some i)
    (hsolid : i.Solid) (hn : n ≤ i.size) :
    (truncateData ino n).Holds s (fun _ t ↦ ∀ i', t.inodes.find? ino = some i' → i'.size = n →
      i'.usesCompression = false → i'.Solid) (fun _ _ ↦ True) := by
  have hwf := h.wf hmem
  have hsize := hwf.size_le
  unfold truncateData
  rw [Exec.holds_bind_of_ok (requireWrite_ok hwritable), if_neg (by omega)]
  refine (flushRecordCache_flushes h).bind ?_ (fun _ _ _ ↦ trivial)
  intro _ t ht
  obtain ⟨j, hj, hdata⟩ := ht.same.some ino i hmem
  have hji : j = i := hdata.stowed.resolve_right fun hst ↦ by
    rw [hsolid.raw] at hst
    cases hst.2.1
  rw [hji] at hj
  rw [Exec.holds_bind_of_ok (getInode_mem hj), Exec.holds_bind, Exec.holds_read]
  by_cases hsame : n = i.size
  · rw [if_pos hsame]
    intro i' hi' _ _
    rw [Option.some.inj (hi'.symm.trans hj)]
    exact hsolid
  rw [if_neg hsame]
  by_cases hkind : i.dataKind = .inline
  · rw [if_pos hkind, Exec.holds_iff_of_ok (getInodeMut_mem hj _)]
    intro i' hi' hsize' huses
    have hi'eq := Option.some.inj (hi'.symm.trans (KeyMap.find?_insert_self _ _ _))
    refine ⟨huses, fun _ ↦ hsize'.trans_le (hn.trans (hsolid.inline hkind)), fun hne ↦ ?_⟩
    rw [hi'eq] at hne
    exact absurd hkind hne
  · rw [if_neg hkind, if_pos (by omega), if_neg (by rw [hsolid.raw]; exact Bool.false_ne_true)]
    have hcut : ∀ now, shrinkRaw ino n i now t = .ok () { t with
        alloc := (i.extents.flatMap (cutFree (ceilBlocks n))).foldl (fun a r ↦ a.freeRange r.1 r.2) t.alloc
        inodes := t.inodes.insert ino (Inode.touchMtime { i with
          extents := i.extents.flatMap (cutKeep (ceilBlocks n))
          size := n
          blocks := sectorsOf (i.extents.flatMap (cutKeep (ceilBlocks n))) } now)
        dirtyInodes := t.dirtyInodes.insert ino () } := by
      intro now
      unfold shrinkRaw freeRanges
      rw [Exec.bind_apply, Exec.modify_apply]
      exact getInodeMut_mem (s := { t with
        alloc := (i.extents.flatMap (cutFree (ceilBlocks n))).foldl (fun a r ↦ a.freeRange r.1 r.2) t.alloc }) hj _
    rw [Exec.holds_bind_of_ok (hcut _)]
    exact demoteInline_solid (KeyMap.find?_insert_self _ _ _) (cut_solid hwf hsolid hkind hn rfl) n _

end Inner

end LinuxFile
