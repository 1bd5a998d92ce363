import LinuxFile.Spec.Extents
import LinuxFile.Spec.Load

/-!
# Taking, filling and adding blocks
-/

namespace LinuxFile

namespace CachedImage

/-- A dirty block has one copy that counts. -/
theorem DirtyAt.copies {d : CachedImage} {b : ℕ} (h : d.DirtyAt b) {P : Block → Prop}
    (hP : P (d.view b)) : d.Copies P b := by
  refine ⟨fun e he ↦ ?_, fun hclean ↦ absurd h hclean⟩
  rw [← view_of_some he]
  exact hP

end CachedImage

namespace Inner

open Ledger

variable {T : ℕ → Prop} {s t : Inner} {live live' : KeyMap Inode} {hand : List (ℕ × ℕ)} {ino : ℕ}
  {i : Inode}

/-- A block in hand has no owner. -/
theorem Inv.hand_free (h : s.Inv live hand) {b : ℕ} (hb : 0 < cover hand b) :
    cover (tableRanges s.sb) b = 0 ∧ ∀ k i, live.find? k = some i → cover i.ranges b = 0 := by
  have hone := h.owned.load_le_one b
  have hzero : s.load live b = 0 := by omega
  refine ⟨?_, fun k i hk ↦ ?_⟩
  · unfold load at hzero
    omega
  · have := cover_le_load (s := s) hk b
    omega

/-- Writing blocks in hand. -/
theorem Inv.write_hand (h : s.Inv live hand) {W : ℕ → Prop} {d : CachedImage}
    (hstep : CachedImage.Step W s.disk d) (hW : ∀ b, W b → 0 < cover hand b) :
    (s.withDisk d).Inv live hand ∧ Evolves T s live (s.withDisk d) live :=
  ⟨h.write hstep fun b hb ↦ Or.inl (hW b hb),
    Evolves.disk hstep (fun b hb ↦ (h.hand_free (hW b hb)).1)
      (fun b hb k i _ hk ↦ (h.hand_free (hW b hb)).2 k i hk)⟩

theorem allocate_takes (h : s.Inv live hand) {want : ℕ} (hwant : 0 < want) :
    (onAlloc (Allocator.allocate want)).Holds s
      (fun start t ↦ t.Inv live ((start, want) :: hand) ∧ start ≠ 0 ∧
        ∃ alloc img, t = { s with alloc := alloc, image := img } ∧ Image.Grown s.image img)
      (fun e _ ↦ e.IsHost) := by
  unfold onAlloc
  rw [Exec.holds_zoom]
  refine (Allocator.allocate_spec ⟨s.alloc, s.image⟩ h.owned.alloc hwant).mono ?_ (fun e d he ↦ he.1)
  rintro start d ⟨hok, htook, hgrown, htotal⟩
  have hinv := h.took hok htook hgrown htotal
  have hin : s.alloc.firstData ≤ start ∧ _ := htook.within h.owned.alloc hwant
  have hfirst := h.geometry.first
  have hdata := h.geometry.data
  exact ⟨hinv, by omega, d.alloc, d.image, rfl, hgrown⟩

theorem allocate_keeps (h : s.Inv live hand) {want : ℕ} (hwant : 0 < want) :
    Keeps T s live (onAlloc (Allocator.allocate want))
      (fun start t live' ↦ live' = live ∧ t.Inv live ((start, want) :: hand) ∧ start ≠ 0 ∧
        ∃ alloc img, t = { s with alloc := alloc, image := img } ∧ Image.Grown s.image img) := by
  refine Exec.Holds.mono (allocate_takes h hwant) ?_ (fun _ _ he ↦ Or.inl he)
  rintro start _ ⟨hinv, hne, alloc, img, rfl, hgrown⟩
  exact ⟨live, Evolves.grown hgrown, rfl, hinv, hne, alloc, img, rfl, hgrown⟩

theorem writePhysicalBytes_fills (h : s.Inv live hand) {phys n : ℕ}
    (hhand : ∀ b, phys ≤ b → b < phys + n → 0 < cover hand b) (data : Bytes)
    (hn : max (ceilBlocks data.length) 1 ≤ n) :
    (writePhysicalBytes phys data).Holds s
      (fun _ t ↦ t.Inv live hand ∧ ∃ d, t = s.withDisk d ∧
        CachedImage.Step (fun b ↦ phys ≤ b ∧ b < phys + n) s.disk d ∧
        ∀ j, j < max (ceilBlocks data.length) 1 →
          d.Copies (· = dataBlock data j) (phys + j))
      (fun e _ ↦ e.IsHost) := by
  unfold writePhysicalBytes
  refine (Exec.holds_forEach (fun rest t ↦ t.Inv live hand ∧
    (∀ j ∈ rest, j < max (ceilBlocks data.length) 1) ∧ ∃ d, t = s.withDisk d ∧
      CachedImage.Step (fun b ↦ phys ≤ b ∧ b < phys + n) s.disk d ∧
      ∀ j, j < max (ceilBlocks data.length) 1 → j ∉ rest →
        d.Copies (· = dataBlock data j) (phys + j)) ?_ _ ?_).mono ?_ (fun _ _ he ↦ he)
  · rintro j rest t ⟨hinv, hlt, d, rfl, hstep, hdone⟩
    have hj := hlt j List.mem_cons_self
    rw [holds_onCache]
    refine (BlockCache.insertDirty_spec (phys + j) (dataBlock data j) d).mono ?_ (fun _ _ he ↦ he)
    rintro _ d' ⟨hstep', hview, hdirty⟩
    have hw : ∀ b, b = phys + j → 0 < cover hand b := by
      rintro b rfl
      exact hhand _ (by omega) (by omega)
    refine ⟨(hinv.write_hand (T := fun _ ↦ True) hstep' hw).1, fun j' hj' ↦ hlt j' (List.mem_cons_of_mem _ hj'),
      d', rfl, hstep.trans (hstep'.mono (by rintro b rfl; omega)), fun j' hj' hnot ↦ ?_⟩
    by_cases heq : j' = j
    · subst heq
      exact hdirty.copies hview
    · refine hstep'.copies _ (by omega) _ (hdone j' hj' ?_)
      simp [heq, hnot]
  · exact ⟨h, fun j hj ↦ List.mem_range.mp hj, s.disk, rfl, CachedImage.Step.refl _ _,
      fun j hj hnot ↦ absurd (List.mem_range.mpr hj) hnot⟩
  · rintro _ t ⟨hinv, -, d, rfl, hstep, hdone⟩
    exact ⟨hinv, d, rfl, hstep, fun j hj ↦ hdone j hj (by simp)⟩

theorem writePhysicalBytes_keeps (h : s.Inv live hand) {phys n : ℕ}
    (hhand : ∀ b, phys ≤ b → b < phys + n → 0 < cover hand b) (data : Bytes)
    (hn : max (ceilBlocks data.length) 1 ≤ n) :
    Keeps T s live (writePhysicalBytes phys data)
      (fun _ t live' ↦ live' = live ∧ t.Inv live hand ∧ ∃ d, t = s.withDisk d ∧
        CachedImage.Step (fun b ↦ phys ≤ b ∧ b < phys + n) s.disk d ∧
        ∀ j, j < max (ceilBlocks data.length) 1 →
          d.Copies (· = dataBlock data j) (phys + j)) := by
  refine Exec.Holds.mono (writePhysicalBytes_fills h hhand data hn) ?_ (fun _ _ he ↦ Or.inl he)
  rintro _ _ ⟨hinv, d, rfl, hstep, hcopies⟩
  exact ⟨live, (h.write_hand hstep fun b hb ↦ hhand b hb.1 hb.2).2, rfl, hinv, d, rfl, hstep, hcopies⟩

/-- The inode with a new extent list. -/
def setExtents (extents : List Extent) (i : Inode) : Inode :=
  { i with extents := extents, dataKind := kindOf extents }

theorem kindOf_ne_inline (extents : List Extent) : kindOf extents ≠ .inline := by
  unfold kindOf
  split_ifs <;> simp

/-- The inode in memory gets one more extent. `j` may have more flags than the inode has yet. -/
theorem addExtent_eval {j : Inode} (hmem : s.inodes.find? ino = some i) (hj : j.extents = i.extents)
    (hwf : j.Wf) {ext : Extent} (hext : ext.Wf j) (hnew : ∀ e ∈ j.extents, Clear e ext) :
    (addExtent ino ext).Holds s
      (fun _ t ↦ ∃ extents, Added j ext extents ∧ t = { s with
        inodes := s.inodes.insert ino (setExtents extents i)
        dirtyInodes := s.dirtyInodes.insert ino () })
      (fun _ _ ↦ False) := by
  unfold addExtent
  rw [Exec.holds_bind_of_ok (getInode_mem hmem), ← hj]
  refine Exec.Holds.bind (appendExtent_spec hwf hext hnew) ?_ (fun _ _ he ↦ he)
  rintro extents _ ⟨rfl, hadded⟩
  rw [Exec.holds_iff_of_ok (getInodeMut_mem hmem _)]
  exact ⟨extents, hadded, rfl⟩

/-- The blocks of a new extent move from the hand to the inode in memory. -/
theorem Inv.addExtent (h : s.Inv live hand) (hmem : s.inodes.find? ino = some i) {i' : Inode}
    (hi' : i' = { i with
      extents := i'.extents, dataKind := i'.dataKind, flags := i'.flags, blocks := i'.blocks })
    (hflags : i.flags &&& flagCompressed ≠ 0 → i'.flags &&& flagCompressed ≠ 0)
    (hkind : i'.dataKind ≠ .inline) {j : Inode} (hj : j.extents = i.extents)
    (hjflags : j.flags &&& flagCompressed ≠ 0 → i'.flags &&& flagCompressed ≠ 0) {ext : Extent}
    (hadded : Added j ext i'.extents) {hand' : List (ℕ × ℕ)}
    (hhand : ∀ b, span ext.physical ext.physLen b + cover hand' b ≤ cover hand b)
    (hhead : ext.isCompressed = true → s.HeaderAt ext) :
    Inv { s with
      inodes := s.inodes.insert ino i'
      dirtyInodes := s.dirtyInodes.insert ino () } (live.insert ino i') hand' := by
  have hk := h.numbered.memory ino i hmem
  have hwf := h.numbered.shape ino i hk
  have htree : i'.extentTree = i.extentTree ∧ i'.extentTreeBlocks = i.extentTreeBlocks ∧
      i'.xattrBlock = i.xattrBlock ∧ i'.size = i.size ∧ i'.ino = i.ino ∧
      i'.compression = i.compression := by
    rw [hi']
    exact ⟨rfl, rfl, rfl, rfl, rfl, rfl⟩
  obtain ⟨htree, htreeN, hxattr, hsize, hino, hcomp⟩ := htree
  refine h.exchange hmem i' ⟨fun e he ↦ (hadded.wf e he).congr hjflags, hadded.clear, ?_, ?_,
    fun hk ↦ absurd hk hkind⟩ hino []
    hand' (fun b ↦ ?_) (fun e he hpacked ↦ ?_) ?_
  · rw [htree, htreeN]
    exact hwf.tree
  · rw [hsize]
    exact hwf.size_le
  · have h1 := hadded.cover b
    have h2 := hhand b
    rw [cover_ranges, cover_ranges, cover_nil]
    unfold Inode.treeRanges Inode.xattrRanges
    rw [htree, htreeN, hxattr]
    rw [hj] at h1
    omega
  · rcases hadded.packed e he hpacked with hold | rfl
    · rw [hj] at hold
      exact h.onDisk.headers ino i hk e hold hpacked
    · exact hhead hpacked
  · intro c hc hck hdirty
    obtain ⟨x, hx, huses, -⟩ := (h.numbered.record c hc).owner hdirty
    rw [hck, hmem] at hx
    cases hx
    refine ⟨?_, hkind⟩
    unfold Inode.usesCompression at *
    rw [Bool.or_eq_true] at huses ⊢
    rw [hcomp]
    refine huses.imp_right fun hne ↦ ?_
    simpa using hflags (by simpa using hne)

theorem setExtents_same (extents : List Extent) (i : Inode) : setExtents extents i = { i with
    extents := (setExtents extents i).extents
    dataKind := (setExtents extents i).dataKind
    flags := (setExtents extents i).flags
    blocks := (setExtents extents i).blocks } := rfl

/-- A raw extent whose blocks are in hand is added. -/
theorem addExtent_keeps (h : s.Inv live hand) (hT : T ino) (hmem : s.inodes.find? ino = some i)
    {ext : Extent} (hext : ext.Wf i) (hnew : ∀ e ∈ i.extents, Clear e ext) {hand' : List (ℕ × ℕ)}
    (hhand : ∀ b, span ext.physical ext.physLen b + cover hand' b ≤ cover hand b)
    (hhead : ext.isCompressed = true → s.HeaderAt ext) :
    Keeps T s live (addExtent ino ext)
      (fun _ t live' ↦ ∃ extents, Added i ext extents ∧
        live' = live.insert ino (setExtents extents i) ∧ t.Inv live' hand' ∧
        t = { s with
          inodes := s.inodes.insert ino (setExtents extents i)
          dirtyInodes := s.dirtyInodes.insert ino () }) := by
  have hwf := h.numbered.shape ino i (h.numbered.memory ino i hmem)
  refine Exec.Holds.mono (addExtent_eval hmem rfl hwf hext hnew) ?_ (fun _ _ he ↦ he.elim)
  rintro _ _ ⟨extents, hadded, rfl⟩
  exact ⟨live.insert ino (setExtents extents i), Evolves.insert hT hmem _, extents, hadded, rfl,
    h.addExtent hmem (setExtents_same extents i) id (kindOf_ne_inline extents) rfl id hadded hhand hhead,
    rfl⟩

end Inner

end LinuxFile
