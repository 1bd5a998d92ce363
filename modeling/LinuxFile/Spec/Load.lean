import LinuxFile.Spec.Triple

/-!
# Finding and changing one inode
-/

namespace LinuxFile.Inner

open Ledger

variable {T : ℕ → Prop} {s t : Inner} {live live' : KeyMap Inode} {hand : List (ℕ × ℕ)} {ino : ℕ}
  {i : Inode}

theorem zero_unused (ino : ℕ) : Unused ino (Buf.zero inodeSize) := by
  refine Or.inl ?_
  rw [List.all_eq_true]
  intro b hb
  obtain ⟨n, -, hn⟩ := List.mem_map.mp hb
  simp [← hn]

/-- A number without an inode gives none, and nothing but the cache changes. -/
theorem readInodeRaw_vacant (hok : s.image.Ok) (h : s.Vacant ino) :
    (readInodeRaw ino).Holds s
      (fun found t ↦ found = none ∧ ∃ d, t = s.withDisk d ∧ CachedImage.Quiet s.disk d)
      (fun e _ ↦ e.IsHost) := by
  unfold readInodeRaw
  rw [Exec.holds_bind, Exec.holds_read]
  split_ifs with hbound
  · exact ⟨rfl, s.disk, rfl, CachedImage.Step.refl _ _⟩
  · have hslot : s.SlotAll ino (Unused ino) := by
      rcases h with h | h | h
      · exact absurd (Or.inl h) hbound
      · exact absurd (Or.inr h) hbound
      · exact h
    obtain ⟨phys, off, hmap, hcopies⟩ := hslot
    rw [hmap]
    change Exec.Holds (onCache (BlockCache.get phys) >>= _) s _ _
    rw [Exec.holds_bind, onCache, Exec.holds_zoom]
    refine (BlockCache.get_spec phys s.disk hok).mono ?_ (fun _ _ he ↦ he)
    rintro data d ⟨hquiet, rfl, -⟩
    have hunused := hcopies.view
    have hsame : ∃ d', { s with cache := d.cache, image := d.image } = s.withDisk d' ∧
        CachedImage.Quiet s.disk d' := ⟨d, rfl, hquiet⟩
    dsimp only
    split_ifs with hempty
    · exact ⟨rfl, hsame⟩
    · rcases hunused with hzero | hmode | ⟨e, herr⟩
      · exact absurd (Or.inl hzero) hempty
      · exact absurd (Or.inr hmode) hempty
      · rw [herr]
        exact ⟨rfl, hsame⟩

theorem getInode_mem (h : s.inodes.find? ino = some i) : getInode ino s = .ok i s := by
  unfold getInode
  rw [Exec.bind_apply, Exec.read_apply]
  dsimp only
  rw [h]
  rfl

theorem requireWrite_ok (hwritable : s.writable = true) : requireWrite s = .ok () s := by
  unfold requireWrite
  rw [Exec.bind_apply, Exec.read_apply]
  dsimp only
  rw [hwritable]
  rfl

theorem getInodeMut_mem (h : s.inodes.find? ino = some i) (change : Inode → Inode) :
    getInodeMut ino change s = .ok () { s with
      inodes := s.inodes.insert ino (change i)
      dirtyInodes := s.dirtyInodes.insert ino () } := by
  unfold getInodeMut
  rw [Exec.bind_eq_of_ok (getInode_mem h)]
  rfl

/-- Replace one inode in memory; nothing else moves. -/
theorem Inv.update (h : s.Inv live hand) (hmem : s.inodes.find? ino = some i) (i' : Inode)
    (hwf : i'.Wf) (hino : i'.ino = i.ino) (hranges : i'.ranges = i.ranges)
    (hext : i'.extents = i.extents)
    (hrecord : i.usesCompression = true → i.dataKind ≠ .inline →
      i'.usesCompression = true ∧ i'.dataKind ≠ .inline) :
    Inv { s with inodes := s.inodes.insert ino i', dirtyInodes := s.dirtyInodes.insert ino () }
      (live.insert ino i') hand := by
  have hk := h.numbered.memory ino i hmem
  refine h.exchange hmem i' hwf hino [] hand (fun b ↦ by rw [hranges, cover_nil]; omega) ?_ ?_
  · intro e he hpacked
    rw [hext] at he
    exact h.onDisk.headers ino i hk e he hpacked
  · intro c hc hck hdirty
    obtain ⟨j, hj, huses, hkind⟩ := (h.numbered.record c hc).owner hdirty
    rw [hck, hmem] at hj
    cases hj
    exact hrecord huses hkind

theorem Evolves.insert (hT : T ino) (hmem : s.inodes.find? ino = some i) (i' : Inode)
    {alloc : Allocator} :
    Evolves T s live { s with
      alloc := alloc
      inodes := s.inodes.insert ino i'
      dirtyInodes := s.dirtyInodes.insert ino () } (live.insert ino i') := by
  refine Evolves.memory_only rfl rfl (fun k hk ↦ ?_) (fun k j hj ↦ ?_)
  · rw [KeyMap.find?_insert_of_ne]
    rintro rfl
    exact hk hT
  · change ∃ j', (s.inodes.insert ino i').find? k = some j'
    rw [KeyMap.find?_insert]
    split_ifs
    · exact ⟨i', rfl⟩
    · exact ⟨j, hj⟩

end LinuxFile.Inner
