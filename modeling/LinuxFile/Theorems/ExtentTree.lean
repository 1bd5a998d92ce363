import LinuxFile.Spec.Answering
import LinuxFile.Spec.Remount
import LinuxFile.Theorems.Codecs
import LinuxFile.Theorems.Sample

/-!
# Extent trees are read back

A list of extents too long for the slot goes to blocks of its own, 204 records to a block. The writer and the
reader count the records of a block each in their way and agree.
-/

namespace LinuxFile

open Ledger

namespace Inner

/-- The allocator once the blocks of the old tree have been given back. -/
def treeReleased (a : Allocator) (i : Inode) : Allocator :=
  if i.extentTree ≠ 0 then a.freeRange i.extentTree (max i.extentTreeBlocks 1) else a

/-- The inode with its extents in a tree. -/
def inTree (tree nblocks : ℕ) (i : Inode) : Inode :=
  { i with extentTree := tree, extentTreeBlocks := nblocks, dataKind := .extentTree }

theorem treeReleased_firstData (a : Allocator) (i : Inode) : (treeReleased a i).firstData = a.firstData := by
  unfold treeReleased
  split_ifs
  · exact a.freeRange_firstData _ _
  · rfl

/-- The records of a tree block end inside the block. -/
theorem tree_records_inside (b : ℕ) : treeStart b + 20 * treePer b ≤ blockSize := by
  unfold treeStart treePer
  split_ifs <;> decide

variable {s t : Inner} {i j : Inode}

/-- The extents are written to blocks that were free, and nothing else is written. -/
theorem storeExtentTree_writes (hmany : maxDirectExtents < i.extents.length) (hmem : s.inodes.find? i.ino = some j)
    (halloc : (treeReleased s.alloc i).Ok) :
    (storeExtentTree i).Holds s
      (fun _ t ↦ ∃ tree, t.inodes.find? i.ino = some (inTree tree (treeSize i.extents.length) j) ∧
        Allocator.Took tree (treeSize i.extents.length) (treeReleased s.alloc i) t.alloc ∧
        CachedImage.Step (fun b ↦ tree ≤ b ∧ b < tree + treeSize i.extents.length) s.disk t.disk ∧
        t.TreeAt i.extents tree)
      (fun e _ ↦ e.IsHost) := by
  have hsize : max ((i.extents.length + (treePer 0 - 1)) / treePer 0) 1 = treeSize i.extents.length := rfl
  unfold storeExtentTree
  dsimp only
  rw [if_neg (by omega), hsize, Exec.holds_bind]
  have hfreed : (Exec.when (i.extentTree ≠ 0) (freeBlocks i.extentTree
      (if i.extentTree ≠ 0 then max i.extentTreeBlocks 1 else 0))) s =
      .ok () { s with alloc := treeReleased s.alloc i } := by
    unfold Exec.when treeReleased
    by_cases hold : i.extentTree ≠ 0
    · rw [if_pos hold, if_pos hold, if_pos hold]
      rfl
    · rw [if_neg hold, if_neg hold]
      rfl
  rw [Exec.holds_iff_of_ok hfreed, Exec.holds_bind, onAlloc, Exec.holds_zoom]
  apply (Allocator.allocate_spec ⟨treeReleased s.alloc i, s.image⟩ halloc (treeSize_pos _)).mono
  · rintro tree d ⟨-, htook, hgrown, -⟩
    set u : Inner := { s with alloc := d.alloc, image := d.image } with hu
    have hquiet : CachedImage.Quiet s.disk u.disk := CachedImage.Step.of_grown hgrown
    have hstore := storeTreeBlocks_writes i.extents tree (treeSize i.extents.length) (treeSize i.extents.length) u 0
    rw [Nat.zero_mul, List.drop_zero] at hstore
    apply hstore.bind _ (fun _ _ he ↦ he)
    rintro _ _ ⟨⟨d', rfl⟩, hstep, hcopies⟩
    unfold Exec.Holds
    rw [modifyInode_mem (s := u.withDisk d') hmem]
    refine ⟨tree, KeyMap.find?_insert_self .., htook, ?_, fun b hb ↦ hcopies b (Nat.zero_le b) (by omega)⟩
    exact (hquiet.mono fun b hb ↦ hb.elim).trans (hstep.mono fun b hb ↦ by omega)
  · exact fun e d he ↦ he.1

theorem treeAt_of_keeps {tree : ℕ} (h : t.TreeAt i.extents tree) {u : Inner}
    (hkeeps : KeepsBlocks [(tree, treeSize i.extents.length)] t u) : u.TreeAt i.extents tree := by
  intro b hb
  apply hkeeps (tree + b) _ _ (h b hb)
  rw [cover_cons, span_eq_one (by dsimp only; omega)]
  omega

/-! ## The blocks that are read -/

/-- `load_tree_blocks` over any way to read a block. -/
def loadTreeBlocksWith (read : ℕ → Fs Block) (tree : ℕ) (first : Block) : ℕ → ℕ → ℕ → Fs (List Extent)
  | 0, _, _ => pure []
  | count + 1, b, remaining => do
    let block ← if b = 0 then pure first else read (tree + b)
    let take := min remaining (treePer b)
    let rest ← loadTreeBlocksWith read tree first count (b + 1) (remaining - take)
    pure (getExtents block (treeStart b) take ++ rest)

/-- `load_extent_tree` over any way to read a block. -/
def loadExtentTreeWith (read : ℕ → Fs Block) (inode : Inode) : Fs Inode :=
  if inode.extentTree = 0 then pure inode
  else do
    let first ← read inode.extentTree
    let n := first.getU32 0
    if first.slice 8 4 = treeMagic then do
      let nblocks := max (first.getU32 4) 1
      let extents ← loadTreeBlocksWith read inode.extentTree first nblocks 0 n
      pure { inode with extents := extents, extentTreeBlocks := nblocks }
    else pure { inode with extents := getExtents first 8 (min n 200), extentTreeBlocks := 1 }

/-- Reads of the `n` blocks from `tree` on. Any other read aborts. -/
def readInside (tree n b : ℕ) : Fs Block :=
  if tree ≤ b ∧ b < tree + n then onCache (BlockCache.get b) else Exec.abort

theorem loadTreeBlocksWith_get (tree : ℕ) (first : Block) (count : ℕ) : ∀ b remaining : ℕ,
    loadTreeBlocksWith (fun b ↦ onCache (BlockCache.get b)) tree first count b remaining =
      loadTreeBlocks tree first count b remaining := by
  induction count with
  | zero => exact fun _ _ ↦ rfl
  | succ count ih =>
    intro b remaining
    unfold loadTreeBlocksWith loadTreeBlocks
    simp only [ih]

/-- Through the cache it is `load_extent_tree`. -/
theorem loadExtentTreeWith_get (inode : Inode) :
    loadExtentTreeWith (fun b ↦ onCache (BlockCache.get b)) inode = loadExtentTree inode := by
  unfold loadExtentTreeWith loadExtentTree
  simp only [loadTreeBlocksWith_get]

theorem loadTreeBlocksWith_inside (tree n : ℕ) (first : Block) (count : ℕ) : ∀ b remaining : ℕ, b + count ≤ n →
    loadTreeBlocksWith (readInside tree n) tree first count b remaining =
      loadTreeBlocks tree first count b remaining := by
  induction count with
  | zero => exact fun _ _ _ ↦ rfl
  | succ count ih =>
    intro b remaining hb
    have hread : readInside tree n (tree + b) = onCache (BlockCache.get (tree + b)) := if_pos (by omega)
    unfold loadTreeBlocksWith loadTreeBlocks
    rw [hread]
    simp only [ih _ _ (show b + 1 + count ≤ n by omega)]

/-- A tree is loaded from its own blocks. -/
theorem loadExtentTreeWith_inside (hok : s.image.Ok) (htree : s.TreeAt i.extents i.extentTree)
    (hcount : i.extents.length < 2 ^ 32) (hsame : j.extentTree = i.extentTree) :
    loadExtentTreeWith (readInside i.extentTree (treeSize i.extents.length)) j s = loadExtentTree j s := by
  have hpos := treeSize_pos i.extents.length
  have hread : readInside i.extentTree (treeSize i.extents.length) i.extentTree =
      onCache (BlockCache.get i.extentTree) := if_pos (by omega)
  unfold loadExtentTreeWith loadExtentTree
  rw [hsame, hread]
  by_cases hzero : i.extentTree = 0
  · rw [if_pos hzero, if_pos hzero]
  rw [if_neg hzero, if_neg hzero, Exec.bind_apply, Exec.bind_apply]
  cases hfirst : onCache (BlockCache.get i.extentTree) s with
  | ok first t =>
    obtain ⟨hview, -⟩ := (get_looked i.extentTree hok).of_ok hfirst
    have hhead := (htree 0 hpos).view
    rw [Nat.zero_mul, List.drop_zero, Nat.add_zero, ← hview] at hhead
    dsimp only
    rw [hhead, treeBlock_size, Nat.mod_eq_of_lt (treeSize_lt hcount), max_eq_left hpos,
      loadTreeBlocksWith_inside _ _ _ _ _ _ (by omega)]
  | err e t => rfl
  | panic => rfl

/-! ## The round trip -/

/-- After an inode's extents have been stored as a tree, the inode in memory names it, its blocks were free before, no
other block has been written, and the records end inside their blocks. From any state that has these blocks, whatever
else it has, loading it reads no other block and gives the same list, if the host answers. -/
theorem extent_tree_round_trip (hmany : maxDirectExtents < i.extents.length) (hcount : i.extents.length < 2 ^ 32)
    (hfields : ∀ e ∈ i.extents, e.logical < 2 ^ 64 ∧ e.physical < 2 ^ 64 ∧ e.length < 2 ^ 32)
    (hmem : s.inodes.find? i.ino = some j) (halloc : (treeReleased s.alloc i).Ok) (hfirst : 0 < s.alloc.firstData)
    (hstore : storeExtentTree i s = .ok () t) :
    ∃ tree nblocks, tree ≠ 0 ∧ t.inodes.find? i.ino = some (inTree tree nblocks j) ∧
      Allocator.Took tree nblocks (treeReleased s.alloc i) t.alloc ∧
      CachedImage.Step (fun b ↦ tree ≤ b ∧ b < tree + nblocks) s.disk t.disk ∧
      (∀ b, treeStart b + 20 * treePer b ≤ blockSize) ∧
      ∀ u k, u.image.Ok → u.disk.Answering → (tree + nblocks) * blockSize ≤ u.image.len →
        KeepsBlocks [(tree, nblocks)] t u → k.extentTree = tree →
        ∃ k' v, loadExtentTree k u = .ok k' v ∧ loadExtentTreeWith (readInside tree nblocks) k u = .ok k' v ∧
          k'.extents.map Inode.placed = i.extents.map Inode.placed ∧ k'.extentTreeBlocks = nblocks := by
  obtain ⟨tree, hfind, htook, hstep, htree⟩ := (storeExtentTree_writes hmany hmem halloc).of_ok hstore
  have hne : tree ≠ 0 := by
    have hwithin := htook.within halloc (treeSize_pos _)
    rw [treeReleased_firstData] at hwithin
    omega
  refine ⟨tree, treeSize i.extents.length, hne, hfind, htook, hstep, tree_records_inside, ?_⟩
  intro u k hok hanswers hlen hkeeps hk
  have hat := treeAt_of_keeps htree hkeeps
  have hload := loadExtentTree_reads (i := { i with extentTree := tree }) (j := k) hok hat hcount hk hne
  have hserved := loadExtentTree_served (i := { i with extentTree := tree }) (j := k) hanswers hok hat hcount hk hlen
  obtain ⟨k', v, hrun, -⟩ := hserved.exists_ok
  obtain ⟨hk', -⟩ := hload.of_ok hrun
  have hinside := loadExtentTreeWith_inside (i := { i with extentTree := tree }) hok hat hcount hk
  refine ⟨k', v, hrun, hinside.trans hrun, ?_, by rw [hk']⟩
  rw [hk']
  dsimp only
  rw [List.map_map]
  apply List.map_congr_left
  intro e he
  have hfits := hfields e he
  unfold Inode.placed Extent.stored Extent.new
  simp only [Function.comp_apply, Nat.mod_eq_of_lt hfits.1, Nat.mod_eq_of_lt hfits.2.1,
    Nat.mod_eq_of_lt hfits.2.2]

/-- A new filesystem with an inode of seven extents in memory. -/
def withSampleTree (s : Inner) : Inner :=
  { s with inodes := s.inodes.insert 9 { Inode.sampleSlot with extentTree := 0 } }

/-- The host answers, and the tree of inode 9 and all that is cached lies in the file. -/
def treeServed (t : Inner) : Bool :=
  t.disk.answers && (t.inodes.find? 9).any fun i ↦ decide ((i.extentTree + i.extentTreeBlocks) * blockSize ≤ t.image.len)

theorem treeServed_test (h : treeServed t = true) : t.disk.Answering ∧
    ∀ i, t.inodes.find? 9 = some i → (i.extentTree + i.extentTreeBlocks) * blockSize ≤ t.image.len := by
  unfold treeServed at h
  rw [Bool.and_eq_true, Option.any_eq_true] at h
  obtain ⟨hanswers, i, hi, hlen⟩ := h
  refine ⟨.of_test hanswers, fun i' hi' ↦ ?_⟩
  rw [hi] at hi'
  cases hi'
  exact of_decide_eq_true hlen

theorem extent_tree_round_trip_sample : ∃ s t tree nblocks k' v, sampleImage = .ok () s ∧
    storeExtentTree { Inode.sampleSlot with extentTree := 0 } (withSampleTree s) = .ok () t ∧
    t.inodes.find? 9 = some (inTree tree nblocks { Inode.sampleSlot with extentTree := 0 }) ∧
    loadExtentTree { Inode.sampleSlot with extentTree := tree } t = .ok k' v ∧
    k'.extents.map Inode.placed = Inode.sampleSlot.extents.map Inode.placed ∧ k'.extentTreeBlocks = nblocks := by
  have hrun : (sampleRun fun s ↦ storeExtentTree { Inode.sampleSlot with extentTree := 0 } (withSampleTree s)).okAnd
      (fun _ t ↦ treeServed t) = true := by
    decide +kernel
  obtain ⟨_, t, hstore, htest⟩ := Outcome.exists_of_okAnd hrun
  unfold sampleRun at hstore
  cases himage : sampleImage with
  | ok _ s =>
    rw [himage] at hstore
    dsimp only at hstore
    unfold sampleImage at himage
    obtain ⟨live, hinv⟩ := inv_of_create himage
    have hfirst : 0 < (withSampleTree s).alloc.firstData := by
      change 0 < s.alloc.firstData
      rw [hinv.geometry.first, hinv.geometry.data]
      omega
    obtain ⟨tree, nblocks, -, hfind, -, hstep, -, hload⟩ := extent_tree_round_trip (s := withSampleTree s)
      (i := { Inode.sampleSlot with extentTree := 0 }) (by decide) (by decide) (by decide)
      (KeyMap.find?_insert_self ..) hinv.owned.alloc hfirst hstore
    have hok : t.image.Ok := hstep.ok hinv.geometry.image
    obtain ⟨hanswers, hlen⟩ := treeServed_test htest
    have hinside := hlen _ hfind
    unfold inTree at hinside
    have hkeeps : KeepsBlocks [(tree, nblocks)] t t := fun _ _ _ hP ↦ hP
    obtain ⟨k', v, hloaded, -, hplaced, hblocks⟩ :=
      hload t { Inode.sampleSlot with extentTree := tree } hok hanswers hinside hkeeps rfl
    exact ⟨s, t, tree, nblocks, k', v, rfl, hstore, hfind, hloaded, hplaced, hblocks⟩
  | err e s =>
    rw [himage] at hstore
    cases hstore
  | panic =>
    rw [himage] at hstore
    cases hstore

end Inner

end LinuxFile
