import LinuxFile.Spec.Table

/-!
# Persisting one inode

While an inode is being persisted, its attribute block and its extent tree are in transit: they are
given back, taken again and written before the inode in memory names them. The invariant is therefore
kept for a shadow of the state in which the inode owns neither, and the blocks are in hand; at the
end the inode takes them back, and is stored.
-/

namespace LinuxFile

open Ledger

/-! ## Flag bits -/

theorem flags_clear_xattr (x : UInt32) :
    (x &&& ~~~flagHasXattr) &&& flagCompressed = x &&& flagCompressed := by
  rw [UInt32.and_assoc]
  rfl

theorem flags_set_xattr (x : UInt32) :
    (x ||| flagHasXattr) &&& flagCompressed = x &&& flagCompressed := by
  have hbits : flagHasXattr &&& flagCompressed = 0 := rfl
  apply UInt32.toBitVec_inj.mp
  have hvec := congrArg UInt32.toBitVec hbits
  ext i hi
  have hbit := congrArg (fun b : BitVec 32 ↦ b[i]) hvec
  simp only [UInt32.toBitVec_and, UInt32.toBitVec_or, BitVec.getElem_and, BitVec.getElem_or] at hbit ⊢
  cases hc : flagCompressed.toBitVec[i] with
  | false => simp
  | true =>
    have hzero : flagHasXattr.toBitVec[i] = false := by simpa [hc] using hbit
    simp [hzero]

theorem flags_set_compressed (x : UInt32) : (x ||| flagCompressed) &&& flagCompressed ≠ 0 := by
  have hself : (x ||| flagCompressed) &&& flagCompressed = flagCompressed := by
    apply UInt32.toBitVec_inj.mp
    ext i hi
    simp only [UInt32.toBitVec_and, UInt32.toBitVec_or, BitVec.getElem_and, BitVec.getElem_or]
    cases flagCompressed.toBitVec[i] <;> simp
  rw [hself]
  decide

namespace Inner

variable {s t : Inner} {live : KeyMap Inode} {hand rest : List (ℕ × ℕ)} {ino : ℕ} {i j : Inode}
  {inodes : KeyMap Inode} {dirty : KeyMap Unit}

/-- The state with other inodes in memory and other dirty marks. -/
def shadow (s : Inner) (inodes : KeyMap Inode) (dirty : KeyMap Unit) : Inner :=
  { s with inodes := inodes, dirtyInodes := dirty }

/-- Only cache, image, free map and the inodes in memory differ. -/
def SameButInodes (s t : Inner) : Prop :=
  t = { s with alloc := t.alloc, cache := t.cache, image := t.image, inodes := t.inodes }

theorem SameButInodes.trans {u : Inner} (hst : SameButInodes s t) (htu : SameButInodes t u) :
    SameButInodes s u := by
  unfold SameButInodes at *
  rw [htu, hst]

theorem shadow_allocate (h : (s.shadow inodes dirty).Inv live hand) {want : ℕ} (hwant : 0 < want) :
    (onAlloc (Allocator.allocate want)).Holds s
      (fun start t ↦ (t.shadow inodes dirty).Inv live ((start, want) :: hand) ∧ start ≠ 0 ∧
        CachedImage.Quiet s.disk t.disk ∧ ∃ alloc img, t = { s with alloc := alloc, image := img })
      (fun e _ ↦ e.IsHost) := by
  unfold onAlloc
  rw [Exec.holds_zoom]
  refine (Allocator.allocate_spec ⟨s.alloc, s.image⟩ h.owned.alloc hwant).mono ?_ (fun _ _ he ↦ he.1)
  rintro start d ⟨hok, htook, hgrown, htotal⟩
  have hinv := h.took hok htook hgrown htotal
  have hin : s.alloc.firstData ≤ start ∧ _ := htook.within h.owned.alloc hwant
  have hfirst : s.alloc.firstData = s.sb.firstDataBlock := h.geometry.first
  have hdata : s.sb.firstDataBlock = 2 + s.sb.journalBlocks := h.geometry.data
  exact ⟨hinv, by omega, CachedImage.Step.of_grown hgrown, d.alloc, d.image, rfl⟩

/-- Writing a block in hand. -/
theorem shadow_insertDirty (h : (s.shadow inodes dirty).Inv live hand) {b : ℕ} (data : Block)
    (hb : 0 < cover hand b) :
    (onCache (BlockCache.insertDirty b data)).Holds s
      (fun _ t ↦ (t.shadow inodes dirty).Inv live hand ∧ CachedImage.Step (· = b) s.disk t.disk ∧
        t.disk.Copies (· = data) b ∧ ∃ d, t = s.withDisk d)
      (fun e _ ↦ e.IsHost) := by
  unfold onCache
  rw [Exec.holds_zoom]
  refine (BlockCache.insertDirty_spec b data s.disk).mono ?_ (fun _ _ he ↦ he)
  rintro _ d ⟨hstep, hview, hdirty⟩
  refine ⟨h.write (d := d) hstep ?_, hstep, hdirty.copies hview, d, rfl⟩
  rintro _ rfl
  exact Or.inl hb

theorem modifyInode_mem (h : s.inodes.find? ino = some i) (f : Inode → Inode) :
    modifyInode ino f s = .ok () { s with inodes := s.inodes.insert ino (f i) } := by
  unfold modifyInode
  rw [Exec.modify_apply, h]

/-! ## Attributes -/

theorem storeXattrs_spec (h : (s.shadow inodes dirty).Inv live (i.xattrRanges ++ rest))
    (hmem : s.inodes.find? i.ino = some i) :
    (storeXattrs i).Holds s
      (fun _ t ↦ ∃ xb flags, flags &&& flagCompressed = i.flags &&& flagCompressed ∧
        t.inodes = s.inodes.insert i.ino { i with xattrBlock := xb, flags := flags } ∧
        SameButInodes s t ∧ t.XattrStored { i with xattrBlock := xb, flags := flags } ∧
        (t.shadow inodes dirty).Inv live
          (({ i with xattrBlock := xb, flags := flags } : Inode).xattrRanges ++ rest) ∧
        CachedImage.Step (fun b ↦ b = xb ∧ xb ≠ 0) s.disk t.disk)
      (fun e t ↦ e.IsHost ∨ blockSize < (encodeXattrs i.xattr).length ∧ t = s) := by
  have hsame : s.inodes.insert i.ino i = s.inodes := KeyMap.insert_of_find? hmem
  unfold storeXattrs
  by_cases hnil : i.xattr = []
  · rw [if_pos hnil]
    by_cases hblock : i.xattrBlock = 0
    · rw [if_neg (by simpa using hblock)]
      refine ⟨0, i.flags, rfl, ?_, rfl, Or.inl ⟨hnil, rfl⟩, ?_, CachedImage.Step.refl _ _⟩
      · have heq : ({ i with xattrBlock := 0, flags := i.flags } : Inode) = i := by rw [← hblock]
        rw [heq, hsame]
      · rw [Inode.xattrRanges, if_pos hblock] at h
        exact h
    · rw [if_pos hblock, Exec.holds_bind]
      unfold freeBlocks
      rw [Exec.holds_modify]
      unfold Exec.Holds
      rw [modifyInode_mem (s := { s with alloc := s.alloc.freeRange i.xattrBlock 1 }) hmem]
      refine ⟨0, i.flags &&& ~~~flagHasXattr, flags_clear_xattr _, rfl, rfl, Or.inl ⟨hnil, rfl⟩, ?_,
        CachedImage.Step.refl _ _⟩
      refine h.release [(i.xattrBlock, 1)] _ fun b ↦ ?_
      simp only [Inode.xattrRanges, if_neg hblock, if_pos, cover_append, cover_cons, cover_nil]
      omega
  · rw [if_neg hnil]
    dsimp only
    by_cases hfit : blockSize < (encodeXattrs i.xattr).length
    · rw [if_pos hfit]
      exact Or.inr ⟨hfit, rfl⟩
    · rw [if_neg hfit]
      by_cases hblock : i.xattrBlock = 0
      · rw [if_pos hblock, Exec.holds_bind]
        refine (shadow_allocate h (by norm_num)).mono ?_ (fun _ _ he ↦ Or.inl he)
        rintro xb _ ⟨hinv, hxb, hquiet, alloc, img, rfl⟩
        rw [Exec.holds_bind]
        unfold Exec.Holds
        rw [modifyInode_mem (s := { s with alloc := alloc, image := img }) hmem]
        -- the shadow does not see that the inode in memory names the block already
        have hshadow : (({ s with
            alloc := alloc
            image := img
            inodes := s.inodes.insert i.ino
              { i with xattrBlock := xb, flags := i.flags ||| flagHasXattr } } : Inner).shadow inodes
                dirty).Inv live ((xb, 1) :: (i.xattrRanges ++ rest)) := hinv
        refine (shadow_insertDirty hshadow (b := xb) (Buf.ofBytes blockSize (encodeXattrs i.xattr))
          ?_).mono ?_ (fun _ _ he ↦ Or.inl he)
        · rw [cover_cons, span_eq_one (by dsimp only; omega)]
          omega
        · rintro _ t ⟨hinv', hstep, hcopies, d, rfl⟩
          refine ⟨xb, i.flags ||| flagHasXattr, flags_set_xattr _, rfl, rfl,
            Or.inr ⟨hnil, hxb, not_lt.mp hfit, hcopies⟩, hinv'.hand_le fun b ↦ ?_, ?_⟩
          · simp only [Inode.xattrRanges, if_neg hxb, if_pos hblock, cover_append, cover_cons, cover_nil]
            omega
          · refine (hquiet.mono fun b hb ↦ hb.elim).trans (hstep.mono ?_)
            rintro b rfl
            exact ⟨rfl, hxb⟩
      · rw [if_neg hblock, Exec.holds_bind, Exec.holds_pure]
        refine (shadow_insertDirty h _ ?_).mono ?_ (fun _ _ he ↦ Or.inl he)
        · rw [cover_append, Inode.xattrRanges, if_neg hblock, cover_cons, span_eq_one (by dsimp only; omega)]
          omega
        · rintro _ t ⟨hinv', hstep, hcopies, d, rfl⟩
          refine ⟨i.xattrBlock, i.flags, rfl, hsame.symm, rfl,
            Or.inr ⟨hnil, hblock, not_lt.mp hfit, hcopies⟩, hinv', ?_⟩
          refine hstep.mono ?_
          rintro b rfl
          exact ⟨rfl, hblock⟩

/-! ## Extent tree -/

theorem treePer_eq (b : ℕ) : treePer b = treePer 0 := by
  unfold treePer
  split_ifs <;> rfl

theorem treeSize_pos (n : ℕ) : 0 < treeSize n := by
  unfold treeSize
  omega

/-- The tree blocks from block `b` on are written, and no others. -/
theorem storeTreeBlocks_writes (extents : List Extent) (tree nblocks : ℕ) (count : ℕ) : ∀ (s : Inner) (b : ℕ),
    (storeTreeBlocks extents tree nblocks count b (extents.drop (b * treePer 0))).Holds s
      (fun _ t ↦ (∃ d, t = s.withDisk d) ∧
        CachedImage.Step (fun x ↦ tree + b ≤ x ∧ x < tree + b + count) s.disk t.disk ∧
        ∀ c, b ≤ c → c < b + count → t.disk.Copies
          (· = treeBlock extents ((extents.drop (c * treePer 0)).take (treePer 0)) nblocks c) (tree + c))
      (fun e _ ↦ e.IsHost) := by
  induction count with
  | zero =>
    intro s b
    exact ⟨⟨s.disk, rfl⟩, CachedImage.Step.refl _ _, fun c hlow hhigh ↦ absurd hhigh (by omega)⟩
  | succ count ih =>
    intro s b
    unfold storeTreeBlocks
    dsimp only
    rw [Exec.holds_bind, onCache, Exec.holds_zoom]
    refine (BlockCache.insertDirty_spec (tree + b) _ s.disk).mono ?_ (fun _ _ he ↦ he)
    rintro _ d ⟨hstep, hview, hdirty⟩
    have hcopies : d.Copies (· = treeBlock extents ((extents.drop (b * treePer 0)).take (treePer b)) nblocks b)
        (tree + b) := hdirty.copies hview
    have hnext : (extents.drop (b * treePer 0)).drop (treePer b) = extents.drop ((b + 1) * treePer 0) := by
      rw [List.drop_drop, treePer_eq b, Nat.add_mul, Nat.one_mul]
    rw [hnext]
    refine (ih (s.withDisk d) (b + 1)).mono ?_ (fun _ _ he ↦ he)
    rintro _ t ⟨⟨d', rfl⟩, hstep', hcopies'⟩
    refine ⟨⟨d', rfl⟩, ?_, fun c hlow hhigh ↦ ?_⟩
    · refine (hstep.mono ?_).trans (hstep'.mono ?_)
      · rintro x rfl
        omega
      · intro x hx
        omega
    · by_cases hc : c = b
      · subst hc
        rw [treePer_eq c] at hcopies
        exact hstep'.copies (tree + c) (by omega) _ hcopies
      · exact hcopies' c (by omega) (by omega)

theorem storeTreeBlocks_spec (extents : List Extent) (tree nblocks : ℕ) (count b : ℕ)
    (h : (s.shadow inodes dirty).Inv live hand)
    (hhand : ∀ c, b ≤ c → c < b + count → 0 < cover hand (tree + c)) :
    (storeTreeBlocks extents tree nblocks count b (extents.drop (b * treePer 0))).Holds s
      (fun _ t ↦ (t.shadow inodes dirty).Inv live hand ∧ (∃ d, t = s.withDisk d) ∧
        CachedImage.Step (fun x ↦ tree + b ≤ x ∧ x < tree + b + count) s.disk t.disk ∧
        ∀ c, b ≤ c → c < b + count → t.disk.Copies
          (· = treeBlock extents ((extents.drop (c * treePer 0)).take (treePer 0)) nblocks c) (tree + c))
      (fun e _ ↦ e.IsHost) := by
  refine (storeTreeBlocks_writes extents tree nblocks count s b).mono ?_ (fun _ _ he ↦ he)
  rintro _ _ ⟨⟨d, rfl⟩, hstep, hcopies⟩
  refine ⟨?_, ⟨d, rfl⟩, hstep, hcopies⟩
  refine (Inv.write_hand (T := fun _ ↦ True) h (d := d) hstep fun x hx ↦ ?_).1
  have hin := hhand (x - tree) (by omega) (by omega)
  rwa [Nat.add_sub_cancel' (by omega)] at hin

/-- The blocks of the old tree are given back. -/
theorem freeTree_spec (h : (s.shadow inodes dirty).Inv live (i.treeRanges ++ rest))
    (htree : i.extentTree = 0 ↔ i.extentTreeBlocks = 0) :
    (Exec.when (i.extentTree ≠ 0) (freeBlocks i.extentTree
      (if i.extentTree ≠ 0 then max i.extentTreeBlocks 1 else 0))).Holds s
      (fun _ t ↦ (t.shadow inodes dirty).Inv live rest ∧ t = { s with
        alloc := if i.extentTree ≠ 0 then s.alloc.freeRange i.extentTree (max i.extentTreeBlocks 1) else s.alloc })
      (fun e _ ↦ e.IsHost) := by
  rw [Exec.holds_when]
  refine ⟨fun hne ↦ ?_, fun heq ↦ ?_⟩
  · rw [if_pos hne, if_pos hne]
    unfold freeBlocks
    rw [Exec.holds_modify]
    have hpos : i.extentTreeBlocks ≠ 0 := fun hzero ↦ hne (htree.mpr hzero)
    refine ⟨h.release [(i.extentTree, max i.extentTreeBlocks 1)] _ fun b ↦ ?_, rfl⟩
    rw [Inode.treeRanges, if_neg hne, max_eq_left (by omega)]
    simp only [cover_append, cover_cons, cover_nil]
    omega
  · rw [Inode.treeRanges, if_pos (not_not.mp heq)] at h
    rw [if_neg heq]
    exact ⟨h, rfl⟩

/-- The inode in memory names a tree that holds its extents, or none if they fit the slot. -/
theorem storeExtentTree_spec (h : (s.shadow inodes dirty).Inv live (i.treeRanges ++ rest))
    (htree : i.extentTree = 0 ↔ i.extentTreeBlocks = 0) (hmem : s.inodes.find? i.ino = some j)
    (hext : j.extents = i.extents) (hold : j.extentTree = i.extentTree)
    (holdN : j.extentTreeBlocks = i.extentTreeBlocks) :
    (storeExtentTree i).Holds s
      (fun _ t ↦ ∃ tree n kind,
        (kind = j.dataKind ∧ tree = j.extentTree ∨ maxDirectExtents < i.extents.length ∧ kind = .extentTree ∨
          i.extents.length ≤ maxDirectExtents ∧ i.extentTree ≠ 0 ∧ kind = .extents) ∧
        t.inodes = s.inodes.insert i.ino
          { j with extentTree := tree, extentTreeBlocks := n, dataKind := kind } ∧
        SameButInodes s t ∧
        t.TreeStored { j with extentTree := tree, extentTreeBlocks := n, dataKind := kind } ∧
        (tree = 0 ↔ n = 0) ∧
        (t.shadow inodes dirty).Inv live (({ j with
          extentTree := tree, extentTreeBlocks := n, dataKind := kind } : Inode).treeRanges ++ rest) ∧
        CachedImage.Step (fun b ↦ 0 < cover (({ j with
          extentTree := tree, extentTreeBlocks := n, dataKind := kind } : Inode).treeRanges) b)
            s.disk t.disk)
      (fun e _ ↦ e.IsHost) := by
  have hranges : i.extentTree ≠ 0 →
      i.treeRanges = [(i.extentTree, max i.extentTreeBlocks 1)] := by
    intro hne
    have hpos : i.extentTreeBlocks ≠ 0 := fun hzero ↦ hne (htree.mpr hzero)
    rw [Inode.treeRanges, if_neg hne, max_eq_left (by omega)]
  unfold storeExtentTree
  dsimp only
  by_cases hfew : i.extents.length ≤ maxDirectExtents
  · rw [if_pos hfew]
    by_cases hnone : i.extentTree = 0
    · rw [if_neg (by simpa using hnone)]
      have heq : ({ j with extentTree := 0, extentTreeBlocks := 0, dataKind := j.dataKind } : Inode) =
          j := by
        have hzero : j.extentTree = 0 := hold.trans hnone
        have hzeroN : j.extentTreeBlocks = 0 := holdN.trans (htree.mp hnone)
        rw [Inode.ext_iff]
        simp only [hzero, hzeroN, and_self]
      refine ⟨0, 0, j.dataKind, Or.inl ⟨rfl, (hold.trans hnone).symm⟩, ?_, rfl,
        Or.inl ⟨by rw [← hext] at hfew; exact hfew, rfl⟩,
        Iff.rfl, ?_, CachedImage.Step.refl _ _⟩
      · rw [heq, KeyMap.insert_of_find? hmem]
      · rw [Inode.treeRanges, if_pos hnone] at h
        exact h
    · rw [if_pos hnone, if_pos hnone, Exec.holds_bind]
      unfold freeBlocks
      rw [Exec.holds_modify]
      unfold Exec.Holds
      rw [modifyInode_mem (s := { s with
        alloc := s.alloc.freeRange i.extentTree (max i.extentTreeBlocks 1) }) hmem]
      refine ⟨0, 0, .extents, Or.inr (Or.inr ⟨hfew, hnone, rfl⟩), rfl, rfl,
        Or.inl ⟨by rw [← hext] at hfew; exact hfew, rfl⟩, Iff.rfl, ?_, CachedImage.Step.refl _ _⟩
      refine h.release [(i.extentTree, max i.extentTreeBlocks 1)] _ fun b ↦ ?_
      rw [hranges hnone, Inode.treeRanges, if_pos rfl]
      simp only [cover_append, cover_cons, cover_nil]
      omega
  · rw [if_neg hfew]
    have hmany : maxDirectExtents < i.extents.length := by omega
    have hsize : max ((i.extents.length + (treePer 0 - 1)) / treePer 0) 1 = treeSize i.extents.length :=
      rfl
    rw [hsize, Exec.holds_bind]
    refine (freeTree_spec h htree).mono ?_ (fun _ _ he ↦ he)
    rintro _ _ ⟨hinv, rfl⟩
    refine (shadow_allocate hinv (treeSize_pos _)).bind ?_ (fun _ _ he ↦ he)
    rintro tree _ ⟨hinv, hne, hquiet, alloc', img, rfl⟩
    have hstore := storeTreeBlocks_spec i.extents tree
      (treeSize i.extents.length) (treeSize i.extents.length) 0 hinv (by
        intro c hlow hhigh
        rw [cover_cons, span_eq_one (by dsimp only; omega)]
        omega)
    rw [Nat.zero_mul, List.drop_zero] at hstore
    refine hstore.bind ?_ (fun _ _ he ↦ he)
    rintro _ _ ⟨hinv', ⟨d, rfl⟩, hstep, hcopies⟩
    unfold Exec.Holds
    rw [modifyInode_mem (s := ({ s with alloc := alloc', image := img } : Inner).withDisk d) hmem]
    refine ⟨tree, treeSize i.extents.length, .extentTree, Or.inr (Or.inl ⟨hmany, rfl⟩), rfl, rfl,
      Or.inr ⟨by rw [← hext] at hmany; exact hmany, rfl, hne, ?_, fun b hb ↦ ?_⟩, ?_, ?_, ?_⟩
    · change treeSize i.extents.length = treeSize j.extents.length
      rw [hext]
    · change b < treeSize j.extents.length at hb
      rw [hext] at hb
      have := hcopies b (Nat.zero_le _) (by omega)
      change d.Copies (· = treeBlock j.extents _ (treeSize j.extents.length) b) (tree + b)
      rw [hext]
      exact this
    · have := treeSize_pos i.extents.length
      omega
    · rw [Inode.treeRanges, if_neg hne]
      exact hinv'
    · refine (hquiet.mono fun b hb ↦ hb.elim).trans (hstep.mono fun b hb ↦ ?_)
      rw [Inode.treeRanges, if_neg hne, cover_cons, span_eq_one (by dsimp only; omega)]
      omega

/-! ## The slot -/

theorem growUntil_eq (hino : ino < inodeTableCapacity s.sb) (fuel : ℕ) :
    growUntil ino fuel s = .ok () s := by
  cases fuel with
  | zero => rfl
  | succ fuel =>
    unfold growUntil
    rw [Exec.bind_apply, Exec.read_apply]
    dsimp only
    rw [if_pos hino]
    rfl

theorem writeInodeToTable_spec (h : (s.shadow inodes dirty).Inv live hand)
    (hlive : live.find? j.ino = some i) (hdirty : dirty.contains j.ino = true)
    (hmem : inodes.find? j.ino ≠ none) :
    (writeInodeToTable j).Holds s
      (fun _ t ↦ ∃ phys d, t = s.withDisk d ∧ (t.shadow inodes dirty).Inv live hand ∧
        t.SlotIs j.ino j.encode ∧ 0 < cover (tableRanges s.sb) phys ∧
        CachedImage.Step (· = phys) s.disk d)
      (fun e _ ↦ e.IsHost) := by
  have hkey : 0 < j.ino ∧ j.ino < s.sb.nextInode ∧ i.ino = j.ino := h.numbered.keys j.ino i hlive
  have hnext : s.sb.nextInode ≤ inodeTableCapacity s.sb := h.geometry.next.2
  have hcap : j.ino < inodeTableCapacity s.sb := by omega
  have htable : Contiguous 0 s.sb.inodeTableExtents := h.geometry.table
  obtain ⟨phys, hslot⟩ := exists_slot htable hcap
  unfold writeInodeToTable
  rw [Exec.holds_bind]
  unfold Exec.Holds
  rw [growUntil_eq (by omega)]
  change Exec.Holds (Exec.ofExcept (mapInodeSlot s.sb j.ino) >>= _) s _ _
  rw [hslot]
  change Exec.Holds (onCache _) s _ _
  unfold onCache
  rw [Exec.holds_zoom]
  refine (BlockCache.getMut_spec phys _ s.disk h.geometry.image).mono ?_ (fun _ _ he ↦ he)
  rintro _ d ⟨hstep, hview, hd⟩
  have hwritten : SlotWritten (s.shadow inodes dirty) phys (j.ino % inodesPerBlock * inodeSize)
      j.encode d := ⟨hstep, hview, hd⟩
  refine ⟨phys, d, rfl, h.write_slot hslot hwritten (fun _ _ ↦ ⟨hdirty, hmem⟩) (fun hnone ↦ ?_),
    hwritten.self hslot, cover_table_of_slot hslot, hstep⟩
  rw [hlive] at hnone
  cases hnone

/-! ## The whole inode -/

/-- What persisting may change of an inode in memory. -/
structure Persisted (i i' : Inode) : Prop where
  same : i' = { i with
    xattrBlock := i'.xattrBlock
    flags := i'.flags
    extentTree := i'.extentTree
    extentTreeBlocks := i'.extentTreeBlocks
    dataKind := i'.dataKind }
  flags : i'.flags &&& flagCompressed = i.flags &&& flagCompressed
  kind : i'.dataKind = i.dataKind ∧ i'.extentTree = i.extentTree ∨
    maxDirectExtents < i.extents.length ∧ i'.dataKind = .extentTree ∨
    i.extents.length ≤ maxDirectExtents ∧ i.extentTree ≠ 0 ∧ i'.dataKind = .extents

theorem Persisted.extents {i i' : Inode} (h : Persisted i i') : i'.extents = i.extents := by
  rw [h.same]

theorem Persisted.usesCompression {i i' : Inode} (h : Persisted i i') :
    i'.usesCompression = i.usesCompression := by
  have hcomp : i'.compression = i.compression := by rw [h.same]
  unfold Inode.usesCompression
  rw [hcomp, h.flags]

theorem Persisted.kind_ne {i i' : Inode} (h : Persisted i i') (hne : i.dataKind ≠ .inline) :
    i'.dataKind ≠ .inline := by
  rcases h.kind with ⟨hk, -⟩ | ⟨-, hk⟩ | ⟨-, -, hk⟩ <;> rw [hk]
  · exact hne
  · decide
  · decide

/-- The data blocks of every file keep their copies. -/
def KeepsData (live : KeyMap Inode) (s t : Inner) : Prop :=
  ∀ k i, live.find? k = some i → KeepsBlocks (extentRanges i.extents) s t

theorem KeepsData.refl (live : KeyMap Inode) (s : Inner) : KeepsData live s s :=
  fun _ _ _ _ _ _ hP ↦ hP

theorem KeepsData.trans {u : Inner} (hst : KeepsData live s t) (htu : KeepsData live t u) :
    KeepsData live s u := fun k i hk ↦ (hst k i hk).trans (htu k i hk)

/-- Writes to blocks in hand or of the table spare the data. -/
theorem Inv.keepsData {u : Inner} (h : u.Inv live hand) {W : ℕ → Prop}
    (hstep : CachedImage.Step W s.disk t.disk)
    (hW : ∀ b, W b → 0 < cover (tableRanges u.sb) b + cover hand b) : KeepsData live s t := by
  intro k i hk
  apply KeepsBlocks.step hstep
  intro b hb
  have h1 := hW b hb
  have h2 := h.owned.load_le_one b
  have h3 := KeyMap.weight_le_total (fun _ i ↦ cover i.ranges b) hk
  rw [cover_ranges] at h3
  unfold load at h2
  omega

/-- The inode without its tree and its attribute block. -/
def bare (i : Inode) : Inode := { i with xattrBlock := 0, extentTree := 0, extentTreeBlocks := 0 }

theorem bare_ranges (i : Inode) : (bare i).ranges = extentRanges i.extents := by
  simp [Inode.ranges, Inode.treeRanges, Inode.xattrRanges, bare]

/-- The inode's tree and attribute block are taken in hand. -/
theorem Inv.bare (h : s.Inv live []) (hmem : s.inodes.find? ino = some i)
    (hdirty : s.dirtyInodes.contains ino = true) :
    (s.shadow (s.inodes.insert ino (bare i)) s.dirtyInodes).Inv (live.insert ino (Inner.bare i))
      (i.xattrRanges ++ i.treeRanges) := by
  have hk := h.numbered.memory ino i hmem
  have hwf := h.numbered.shape ino i hk
  have hmark : s.dirtyInodes.insert ino () = s.dirtyInodes := by
    obtain ⟨u, hu⟩ := KeyMap.contains_iff.mp hdirty
    exact KeyMap.insert_of_find? hu
  have hinv := h.exchange hmem (Inner.bare i)
    ⟨fun e he ↦ (hwf.extents e he).congr id, hwf.clear, Iff.rfl, hwf.size_le, hwf.inline⟩ rfl []
    (i.xattrRanges ++ i.treeRanges)
    (by
      intro b
      rw [bare_ranges, cover_ranges, cover_append, cover_nil]
      omega)
    (fun e he hpacked ↦ h.onDisk.headers ino i hk e he hpacked)
    (by
      intro c hc hck hcd
      obtain ⟨x, hx, huses, hkind⟩ := (h.numbered.record c hc).owner hcd
      rw [hck, hmem] at hx
      cases hx
      exact ⟨huses, hkind⟩)
  rw [hmark] at hinv
  exact hinv

/-- Every inode owns the same data with and without the two. -/
theorem KeepsData.of_bare (hk : live.find? ino = some i) (h : KeepsData (live.insert ino (bare i)) s t) :
    KeepsData live s t := by
  intro k x hx
  by_cases hki : k = ino
  · rw [hki, hk] at hx
    cases hx
    have hext : KeepsBlocks (extentRanges (bare i).extents) s t := h ino (bare i) (KeyMap.find?_insert_self _ _ _)
    exact hext
  · exact h k x (by rw [KeyMap.find?_insert_of_ne hki]; exact hx)

/-- An inode that is stored needs its mark no longer. -/
theorem Inv.clean_one (h : (s.shadow inodes dirty).Inv live hand)
    (hstored : ∀ x, live.find? ino = some x → (s.shadow inodes dirty).Stored ino x) :
    (s.shadow inodes (dirty.erase ino)).Inv live hand := by
  refine h.clean (fun k hk ↦ ?_) (fun k x hx hclean hold ↦ ?_)
  · rw [KeyMap.contains_iff] at hk ⊢
    obtain ⟨u, hu⟩ := hk
    rw [KeyMap.find?_erase] at hu
    split_ifs at hu
    exact ⟨u, hu⟩
  · have hki : k = ino := by
      by_contra hne
      rw [Bool.eq_false_iff] at hclean
      apply hclean
      rw [KeyMap.contains_iff, KeyMap.find?_erase_of_ne hne]
      exact KeyMap.contains_iff.mp hold
    rw [hki] at hx ⊢
    exact hstored x hx

theorem persistInode_spec (h : (s.shadow s.inodes dirty).Inv live [])
    (hmem : s.inodes.find? ino = some i) (hdirty : dirty.contains ino = true) :
    (persistInode ino).Holds s
      (fun _ t ↦ ∃ i', Persisted i i' ∧ t.inodes = s.inodes.insert ino i' ∧ SameButInodes s t ∧
        (t.shadow t.inodes (dirty.erase ino)).Inv (live.insert ino i') [] ∧ KeepsData live s t)
      (fun e t ↦ e.IsHost ∨ blockSize < (encodeXattrs i.xattr).length ∧ t = s) := by
  have hk : live.find? ino = some i := h.numbered.memory ino i hmem
  have hino : i.ino = ino := (h.numbered.keys ino i hk).2.2
  have hwf := h.numbered.shape ino i hk
  have hbare : (s.shadow (s.inodes.insert ino (bare i)) dirty).Inv (live.insert ino (bare i))
      (i.xattrRanges ++ i.treeRanges) := h.bare hmem hdirty
  have hlive : (live.insert ino (bare i)).find? ino = some (bare i) := KeyMap.find?_insert_self _ _ _
  unfold persistInode
  rw [Exec.holds_bind, Exec.holds_read, hmem]
  dsimp only
  refine (storeXattrs_spec hbare (by rw [hino]; exact hmem)).bind ?_ (fun _ _ he ↦ he)
  rintro _ t₁ ⟨xb, flags, hflags, hinodes₁, hsame₁, hxattr, hinv₁, hstep₁⟩
  set j₁ : Inode := { i with xattrBlock := xb, flags := flags } with hj₁
  have hdata₁ : KeepsData (live.insert ino (bare i)) s t₁ := by
    refine hinv₁.keepsData hstep₁ ?_
    rintro b ⟨rfl, hne⟩
    rw [Inode.xattrRanges, if_neg hne, cover_append, cover_cons,
      span_eq_one ⟨le_rfl, Nat.lt_succ_self b⟩]
    omega
  have hswap : ∀ b, cover (i.treeRanges ++ j₁.xattrRanges) b ≤ cover (j₁.xattrRanges ++ i.treeRanges) b := by
    intro b
    rw [cover_append, cover_append]
    omega
  have hinv₁' := hinv₁.hand_le hswap
  refine (storeExtentTree_spec (j := j₁) hinv₁' hwf.tree
    (by rw [hinodes₁, KeyMap.find?_insert_self]) rfl rfl rfl).bind ?_ (fun _ _ he ↦ Or.inl he)
  rintro _ t₂ ⟨tree, n, kind, hkind, hinodes₂, hsame₂, htree, hzero, hinv₂, hstep₂⟩
  set j₂ : Inode := { j₁ with extentTree := tree, extentTreeBlocks := n, dataKind := kind } with hj₂
  have hfits₂ := hinv₂.owned.load_le_one
  have hdata₂ : KeepsData (live.insert ino (bare i)) t₁ t₂ := by
    refine hinv₂.keepsData hstep₂ fun b hb ↦ ?_
    rw [cover_append]
    omega
  have hxattr₂ : t₂.XattrStored j₁ := by
    refine hxattr.keep (KeepsBlocks.step hstep₂ fun b hb ↦ ?_)
    have := hfits₂ b
    rw [cover_append] at this
    omega
  have hread : ((t₂.inodes.find? ino).getD i) = j₂ := by
    rw [hinodes₂, hino, KeyMap.find?_insert_self, Option.getD_some]
  rw [Exec.holds_bind, Exec.holds_read, hread]
  have hino₂ : j₂.ino = ino := hino
  refine (writeInodeToTable_spec (j := j₂) hinv₂ (by rw [hino₂]; exact hlive)
    (by rw [hino₂]; exact hdirty)
    (by rw [hino₂, KeyMap.find?_insert_self]; simp)).mono ?_ (fun _ _ he ↦ Or.inl he)
  rintro _ _ ⟨phys, d, rfl, hinv₃, hslot, hphys, hstep₃⟩
  have hfits₃ := hinv₃.owned.load_le_one
  have hdata₃ : KeepsData (live.insert ino (bare i)) t₂ (t₂.withDisk d) := by
    refine hinv₃.keepsData (s := t₂) (t := t₂.withDisk d) hstep₃ ?_
    rintro b rfl
    change 0 < cover (tableRanges t₂.sb) b + _
    omega
  have hoff : ∀ ranges, (∀ b, cover ranges b ≤ cover (j₂.treeRanges ++ j₁.xattrRanges) b) →
      KeepsBlocks ranges t₂ (t₂.withDisk d) := by
    intro ranges hle
    apply KeepsBlocks.step hstep₃
    rintro b rfl
    have h1 := hfits₃ b
    have h2 := hle b
    unfold load at h1
    change _ + cover (tableRanges t₂.sb) b + _ + _ + _ ≤ 1 at h1
    omega
  have hstored : (t₂.withDisk d).Stored ino j₂ := by
    refine ⟨by rw [← hino₂]; exact hslot, ?_, ?_⟩
    · exact hxattr₂.keep (hoff _ fun b ↦ by rw [cover_append]; omega)
    · exact htree.keep (hoff _ fun b ↦ by rw [cover_append]; omega)
  have hpersisted : Persisted i j₂ := ⟨rfl, hflags, hkind⟩
  have hinline : j₂.dataKind = .inline → j₂.extents = [] := fun hk ↦ by
    by_contra hne
    exact hpersisted.kind_ne (fun hk' ↦ hne (hwf.inline hk')) hk
  have hfinal := hinv₃.exchange (KeyMap.find?_insert_self _ _ _) j₂
    ⟨fun e he ↦ (hwf.extents e he).congr fun hne ↦ by rw [hflags]; exact hne, hwf.clear, hzero,
      hwf.size_le, hinline⟩ rfl [] []
    (by
      intro b
      rw [bare_ranges, cover_ranges, cover_append]
      simp only [cover_nil]
      change cover (extentRanges i.extents) b + (cover j₂.treeRanges b + cover j₁.xattrRanges b) +
        0 + 0 ≤ _
      omega)
    (fun e he hpacked ↦ hinv₃.onDisk.headers ino (bare i) hlive e he hpacked)
    (by
      intro c hc hck hcd
      obtain ⟨x, hx, huses, hkind'⟩ := (hinv₃.numbered.record c hc).owner hcd
      rw [hck] at hx
      have hxi : x = bare i := by
        have : (s.inodes.insert ino (bare i)).find? ino = some x := hx
        rw [KeyMap.find?_insert_self] at this
        exact (Option.some.inj this).symm
      subst hxi
      exact ⟨hpersisted.usesCompression.trans huses, hpersisted.kind_ne hkind'⟩)
  have hmark : dirty.insert ino () = dirty := by
    obtain ⟨u, hu⟩ := KeyMap.contains_iff.mp hdirty
    exact KeyMap.insert_of_find? hu
  have hinodes : (s.inodes.insert ino (bare i)).insert ino j₂ = t₂.inodes := by
    rw [KeyMap.insert_insert, hinodes₂, hinodes₁, hino, KeyMap.insert_insert]
  have hinv : ((t₂.withDisk d).shadow t₂.inodes dirty).Inv (live.insert ino j₂) [] := by
    have hcopy := hfinal
    rw [KeyMap.insert_insert] at hcopy
    rw [← hinodes, ← hmark]
    exact hcopy
  refine ⟨j₂, hpersisted, ?_, ?_, ?_, ?_⟩
  · change t₂.inodes = _
    rw [hinodes₂, hinodes₁, hino, KeyMap.insert_insert]
  · exact (hsame₁.trans hsame₂).trans rfl
  · exact hinv.clean_one fun x hx ↦ by
      rw [KeyMap.find?_insert_self] at hx
      cases hx
      exact hstored.keep (fun _ hs ↦ hs) (fun _ _ _ hP ↦ hP) (fun _ _ _ hP ↦ hP)
  · exact ((hdata₁.trans hdata₂).trans hdata₃).of_bare hk

end Inner

end LinuxFile
