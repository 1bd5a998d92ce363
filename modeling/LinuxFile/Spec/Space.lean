import LinuxFile.Spec.Mount
import LinuxFile.Spec.Pending

/-!
# The blocks a flush asks for

`flush_all` takes blocks from the allocator and gives blocks back: for the held record, for the attribute blocks and
extent trees of the dirty inodes, and for the snapshot of the allocator itself. What is free afterwards follows from
the state before: from the free map and the length of the host file, and from the inodes. What the cache holds, and in
which order it lets go of it, has no part in it.
-/

namespace LinuxFile

open Ledger

/-- The allocator, and the length of the host file in bytes. -/
structure Space where
  alloc : Allocator
  len : ℕ

/-- The extents after `ext` was added, where no counter overflows. -/
def appended (extents : List Extent) (ext : Extent) : List Extent :=
  match extents.getLast? with
  | some last =>
    if Inner.continues last ext then
      extents.dropLast ++ [{ last with
        length := last.length + ext.length
        physLength := if last.physLength ≠ 0 then last.physLength + ext.physLength else last.physLength }]
    else sortByLogical (extents ++ [ext])
  | none => sortByLogical (extents ++ [ext])

namespace Space

/-! ## Taking and giving back -/

/-- Take `want` blocks, from the best fit or else from the end of a longer file. -/
def take (p : Space) (want : ℕ) : Space :=
  match Allocator.bestFit want p.alloc.free.entries none with
  | some (start, len) => { p with alloc := p.alloc.carve start len want }
  | none =>
    let newTotal := p.alloc.totalBlocks + want
    let len := if newTotal * blockSize ≤ p.len then p.len else Image.alignedLen (newTotal * blockSize)
    ⟨p.alloc.extend newTotal (len / blockSize), len⟩

/-- Give ranges of blocks back, one after the other. -/
def give (p : Space) (ranges : List (ℕ × ℕ)) : Space :=
  { p with alloc := ranges.foldl (fun a r ↦ a.freeRange r.1 r.2) p.alloc }

/-! ## The requests of a flush -/

/-- The new place of a record, and its file afterwards. -/
def storeRecord (p : Space) (s : Inner) (c : RecordCache) (i : Inode) : Space × Inode :=
  let start := c.record * s.recordBlocks
  let old := i.extents.flatMap (punchFree start (start + s.recordBlocks))
  let j := Inner.punched start (start + s.recordBlocks) i
  if c.data.all (· == 0) then (p.give old, j)
  else
    let packed := tryCompress s.env.lz4 (Compression.fromU8 i.compression) c.data
    let length := max (ceilBlocks c.data.length) 1
    let physLength := if packed.1.isOff then length else ceilBlocks (headerSize + packed.2.length)
    let ext := Extent.withPhys start (p.alloc.place physLength) length physLength packed.1.asU8
    ((p.take physLength).give old, { j with extents := appended j.extents ext })

/-- The attribute block of an inode. -/
def storeXattrs (p : Space) (i : Inode) : Space :=
  if i.xattr = [] then p.give i.xattrRanges
  else if i.xattrBlock = 0 then p.take 1
  else p

/-- The extent tree of an inode. -/
def storeExtentTree (p : Space) (i : Inode) : Space :=
  let p := if i.extentTree ≠ 0 then p.give [(i.extentTree, max i.extentTreeBlocks 1)] else p
  if i.extents.length ≤ maxDirectExtents then p else p.take (Inner.treeSize i.extents.length)

def persistInode (p : Space) (i : Inode) : Space := (p.storeXattrs i).storeExtentTree i

/-- The snapshot of the allocator, in place of `old`. -/
def writeAllocator (p : Space) (old : List (ℕ × ℕ)) : Space :=
  let p := p.give old
  p.take (max ((p.alloc.encode.length + 64 + Allocator.perBlock - 1) / Allocator.perBlock) 1)

end Space

/-! ## The host file and the cache -/

namespace Image

variable {img : Image}

theorem growTo_len (img : Image) (n : ℕ) : (growTo n).Holds img
    (fun _ img' ↦ img'.len = if n ≤ img.len then img.len else alignedLen n) (fun _ _ ↦ True) := by
  unfold growTo
  rw [Exec.holds_bind, Exec.holds_read]
  split_ifs
  · exact rfl
  · exact (setLen_spec img (alignedLen n)).mono (fun _ _ h ↦ h.2.1) (fun _ _ _ ↦ trivial)

theorem readBlock_len {b : ℕ} (h : b * blockSize + blockSize ≤ img.len) :
    (readBlock b).Holds img (fun data img' ↦ data = img.block b ∧ img'.len = img.len) (fun _ _ ↦ True) := by
  unfold readBlock
  rw [Exec.holds_bind, Exec.holds_read, if_neg (by omega)]
  refine (hostCall_spec img).bind ?_ (fun _ _ _ ↦ trivial)
  rintro _ _ ⟨faults, rfl⟩
  exact ⟨rfl, rfl⟩

theorem writeBlock_len {b : ℕ} (data : Block) (h : b * blockSize + blockSize ≤ img.len) :
    (writeBlock b data).Holds img (fun _ img' ↦ img'.len = img.len) (fun _ _ ↦ True) := by
  refine (writeAllAt_within ?_).mono (fun _ _ hlen ↦ hlen) (fun _ _ _ ↦ trivial)
  rwa [Buf.slice_length]

end Image

/-- What waits in the cache goes inside the image. -/
def CachedImage.Contained (d : CachedImage) : Prop := ∀ b, d.DirtyAt b → b * blockSize + blockSize ≤ d.image.len

namespace BlockCache

variable {d : CachedImage} {b : ℕ}

theorem evictFrom_len (blocks : List ℕ) (h : d.Contained) :
    (evictFrom blocks).Holds d (fun _ d' ↦ d'.image.len = d.image.len) (fun _ _ ↦ True) := by
  induction blocks with
  | nil => exact rfl
  | cons old rest ih =>
    unfold evictFrom
    rw [Exec.holds_bind, Exec.holds_read]
    cases hfind : d.cache.map.find? old with
    | none => exact ih
    | some entry =>
      dsimp only
      rw [Exec.holds_bind, modifyCache, Exec.holds_modify]
      split_ifs with hdirty
      · rw [onImage, Exec.holds_zoom]
        exact (Image.writeBlock_len _ (h old ⟨entry, hfind, hdirty⟩)).mono (fun _ _ hlen ↦ hlen) (fun _ _ _ ↦ trivial)
      · exact rfl

theorem makeRoom_len (h : d.Contained) :
    makeRoom.Holds d (fun _ d' ↦ d'.image.len = d.image.len) (fun _ _ ↦ True) := by
  unfold makeRoom
  rw [Exec.holds_bind, Exec.holds_read]
  split_ifs
  · exact evictFrom_len d.cache.lru h
  · exact rfl

theorem get_len (h : d.Contained) (hin : b * blockSize + blockSize ≤ d.image.len) :
    (get b).Holds d (fun _ d' ↦ d'.image.len = d.image.len) (fun _ _ ↦ True) := by
  unfold get
  rw [Exec.holds_bind, Exec.holds_read]
  cases d.cache.map.find? b with
  | some entry => exact rfl
  | none =>
    dsimp only
    refine (makeRoom_len h).bind ?_ (fun _ _ _ ↦ trivial)
    intro _ d₁ hlen
    rw [← hlen] at hin
    have hfetch : (fetch b).Holds d₁ (fun _ d' ↦ d'.image.len = d₁.image.len) (fun _ _ ↦ True) := by
      unfold fetch
      rw [Exec.holds_bind, Exec.holds_read, if_pos hin, onImage, Exec.holds_zoom]
      exact (Image.readBlock_len hin).mono (fun _ _ hread ↦ hread.2) (fun _ _ _ ↦ trivial)
    refine hfetch.bind ?_ (fun _ _ _ ↦ trivial)
    intro data d₂ hlen'
    exact hlen'.trans hlen

theorem getMut_len (change : Block → Block) (h : d.Contained) (hin : b * blockSize + blockSize ≤ d.image.len) :
    (getMut b change).Holds d (fun _ d' ↦ d'.image.len = d.image.len) (fun _ _ ↦ True) := by
  unfold getMut
  exact (get_len h hin).bind (fun _ _ hlen ↦ hlen) (fun _ _ _ ↦ trivial)

theorem insertDirty_len (data : Block) (h : d.Contained) (hin : b * blockSize + blockSize ≤ d.image.len) :
    (insertDirty b data).Holds d (fun _ d' ↦ d'.image.len = d.image.len ∧ d'.Contained) (fun _ _ ↦ True) := by
  have hlen : (insertDirty b data).Holds d (fun _ d' ↦ d'.image.len = d.image.len) (fun _ _ ↦ True) := by
    unfold insertDirty
    rw [Exec.holds_bind, Exec.holds_read, Exec.holds_bind, Exec.holds_when]
    exact ⟨fun _ ↦ (makeRoom_len h).mono (fun _ _ hroom ↦ hroom) (fun _ _ _ ↦ trivial), fun _ ↦ rfl⟩
  refine ((insertDirty_spec b data d).and hlen).mono ?_ (fun _ _ _ ↦ trivial)
  rintro _ d' ⟨⟨hstep, -⟩, hlen⟩
  refine ⟨hlen, fun c hc ↦ ?_⟩
  rw [hlen]
  rcases hstep.dirty c hc with hold | rfl
  · exact h c hold
  · exact hin

theorem flush_len (order : IterOrder) (h : d.Contained) :
    (flush order).Holds d (fun _ d' ↦ d'.image.len = d.image.len) (fun _ _ ↦ True) := by
  unfold flush
  rw [Exec.holds_bind, Exec.holds_read]
  refine (Exec.holds_forEach (E := fun _ _ ↦ True) (fun _ d' ↦ d'.image.len = d.image.len ∧ d'.Contained) ?_ _ ⟨rfl, h⟩).mono
    (fun _ _ hlen ↦ hlen.1) (fun _ _ _ ↦ trivial)
  rintro b _ d₁ ⟨hlen, hin⟩
  have hblock : (flushBlock b).Holds d₁ (fun _ d' ↦ d'.image.len = d₁.image.len) (fun _ _ ↦ True) := by
    unfold flushBlock
    rw [Exec.holds_bind, Exec.holds_read]
    cases hfind : d₁.cache.map.find? b with
    | none => exact rfl
    | some entry =>
      dsimp only
      split_ifs with hdirty
      · rw [Exec.holds_bind, onImage, Exec.holds_zoom]
        exact (Image.writeBlock_len _ (hin b ⟨entry, hfind, hdirty⟩)).mono (fun _ _ hlen ↦ hlen) (fun _ _ _ ↦ trivial)
      · exact rfl
  refine ((flushBlock_spec b d₁).and hblock).mono ?_ (fun _ _ _ ↦ trivial)
  rintro _ d₂ ⟨⟨-, hdirty⟩, hlen'⟩
  refine ⟨hlen'.trans hlen, fun c hc ↦ ?_⟩
  rw [hlen']
  exact hin c (hdirty c hc).1

end BlockCache

/-! ## The allocator -/

/-- The blocks of the snapshot at `existing`, as its header counts them. -/
def Image.snapshotRanges (img : Image) (existing : ℕ) : List (ℕ × ℕ) :=
  if existing ≠ 0 ∧ (img.block existing).slice 0 4 = Allocator.snapshotMagic then
    [(existing, (img.block existing).getU32 4)]
  else []

/-- The space of the allocator with its image. -/
def AllocImage.space (d : AllocImage) : Space := ⟨d.alloc, d.image.len⟩

namespace Allocator

variable {d : AllocImage}

theorem allocate_space (want : ℕ) (d : AllocImage) :
    (allocate want).Holds d (fun _ d' ↦ d'.space = d.space.take want) (fun _ _ ↦ True) := by
  unfold allocate
  split_ifs
  · trivial
  rw [Exec.holds_bind, Exec.holds_read]
  have halloc : d.space.alloc = d.alloc := rfl
  unfold Space.take
  rw [halloc]
  cases bestFit want d.alloc.free.entries none with
  | some found => exact rfl
  | none =>
    dsimp only
    rw [Exec.holds_bind, onImage, Exec.holds_zoom]
    refine (Image.growTo_len d.image _).mono ?_ (fun _ _ _ ↦ trivial)
    intro _ img hlen
    rw [Exec.holds_bind, Exec.holds_read, Exec.holds_bind, modifyAlloc, Exec.holds_modify, Exec.holds_pure]
    unfold AllocImage.space
    dsimp only
    rw [hlen]

/-- New blocks lie inside the file. -/
theorem allocate_inside {want : ℕ} (hok : d.alloc.Ok) (hbacked : Backed d) (hwant : 0 < want) :
    (allocate want).Holds d (fun start d' ↦ (start + want) * blockSize ≤ d'.image.len) (fun _ _ ↦ True) := by
  refine (allocate_spec d hok hwant).mono ?_ (fun _ _ _ ↦ trivial)
  rintro start d' ⟨-, htook, hgrown, htotal⟩
  have hend := (htook.within hok hwant).2
  have hbacked' : Backed d' := by
    rcases htotal with heq | hbacked'
    · unfold Backed at *
      rw [heq]
      exact hbacked.trans hgrown.len_le
    · exact hbacked'
  exact (Nat.mul_le_mul_right _ hend).trans hbacked'

theorem releaseSnapshot_space {existing : ℕ} (hin : existing ≠ 0 → existing * blockSize + blockSize ≤ d.image.len) :
    (releaseSnapshot existing).Holds d (fun _ d' ↦ d'.space = d.space.give (d.image.snapshotRanges existing))
      (fun _ _ ↦ True) := by
  unfold releaseSnapshot
  by_cases hzero : existing = 0
  · have hnone : d.image.snapshotRanges existing = [] := if_neg fun hboth ↦ hboth.1 hzero
    rw [if_pos hzero, hnone]
    exact rfl
  rw [if_neg hzero, Exec.holds_bind, Exec.holds_read, if_pos (hin hzero), Exec.holds_bind, onImage, Exec.holds_zoom]
  refine (Image.readBlock_len (hin hzero)).mono ?_ (fun _ _ _ ↦ trivial)
  rintro hdr img ⟨rfl, hlen⟩
  have hspace : ∀ a, AllocImage.space ⟨a, img⟩ = ⟨a, d.image.len⟩ := fun a ↦ congrArg (Space.mk a) hlen
  dsimp only
  by_cases hmagic : (d.image.block existing).slice 0 4 = snapshotMagic
  · have hold : d.image.snapshotRanges existing = [(existing, (d.image.block existing).getU32 4)] :=
      if_pos ⟨hzero, hmagic⟩
    rw [if_pos hmagic, hold]
    split_ifs with hpos
    · exact hspace _
    · have hsame : d.alloc.freeRange existing ((d.image.block existing).getU32 4) = d.alloc := by
        rw [Nat.eq_zero_of_not_pos hpos]
        rfl
      change AllocImage.space ⟨d.alloc, img⟩ = ⟨d.alloc.freeRange existing _, d.image.len⟩
      rw [hspace, hsame]
  · have hnone : d.image.snapshotRanges existing = [] := if_neg fun hboth ↦ hmagic hboth.2
    rw [if_neg hmagic, hnone]
    exact hspace _

theorem writeAllocBlocks_space {existing : ℕ} (hok : ∀ a, Released existing d a → a.Ok) (hbacked : Backed d)
    (hin : existing ≠ 0 → existing * blockSize + blockSize ≤ d.image.len) :
    (writeAllocBlocks existing).Holds d
      (fun _ d' ↦ d'.space = d.space.writeAllocator (d.image.snapshotRanges existing)) (fun _ _ ↦ True) := by
  unfold writeAllocBlocks
  refine ((releaseSnapshot_spec existing d).and (releaseSnapshot_space hin)).bind ?_ (fun _ _ _ ↦ trivial)
  rintro _ d₁ ⟨⟨hgrown, hreleased⟩, hspace₁⟩
  have htotal : d₁.alloc.totalBlocks = d.alloc.totalBlocks := by
    rcases hreleased with h | ⟨-, h⟩
    · rw [h]
    · rw [h, freeRange_totalBlocks]
  have hbacked₁ : Backed d₁ := by
    unfold Backed
    rw [htotal]
    exact Nat.le_trans hbacked hgrown.len_le
  rw [Exec.holds_bind, Exec.holds_read]
  dsimp only
  set n := max ((d₁.alloc.encode.length + 64 + perBlock - 1) / perBlock) 1 with hn
  refine ((allocate_space n d₁).and (allocate_inside (hok _ hreleased) hbacked₁ (by omega))).bind ?_
    (fun _ _ _ ↦ trivial)
  rintro start d₂ ⟨hspace₂, hinside⟩
  rw [Exec.holds_bind, Exec.holds_read]
  -- the blocks that are written have just been taken
  have hwrite : (Exec.forEach (fun i ↦ onImage (Image.writeBlock (start + i) (snapshotBlock d₂.alloc.encode n i)))
      (List.range n)).Holds d₂ (fun _ d' ↦ d'.space = d₂.space) (fun _ _ ↦ True) := by
    refine (Exec.holds_forEach (E := fun _ _ ↦ True) (fun rest d' ↦ d'.space = d₂.space ∧ ∀ i ∈ rest, i < n) ?_ _
      ⟨rfl, fun i hi ↦ List.mem_range.mp hi⟩).mono (fun _ _ hall ↦ hall.1) (fun _ _ _ ↦ trivial)
    rintro i rest d₃ ⟨hspace₃, hlt⟩
    have hlen : d₃.image.len = d₂.image.len := congrArg Space.len hspace₃
    have hi : (start + i + 1) * blockSize ≤ (start + n) * blockSize :=
      Nat.mul_le_mul_right _ (by have := hlt i List.mem_cons_self; omega)
    rw [Nat.succ_mul] at hi
    rw [onImage, Exec.holds_zoom]
    refine (Image.writeBlock_len _ (by rw [hlen]; exact hi.trans hinside)).mono ?_ (fun _ _ _ ↦ trivial)
    intro _ img hsame
    refine ⟨?_, fun j hj ↦ hlt j (List.mem_cons_of_mem _ hj)⟩
    rw [← hspace₃]
    exact congrArg (Space.mk d₃.alloc) hsame
  refine hwrite.bind ?_ (fun _ _ _ ↦ trivial)
  intro _ d₃ hspace₃
  rw [Exec.holds_pure, hspace₃, hspace₂]
  unfold Space.writeAllocator
  rw [← hspace₁]
  rfl

end Allocator

namespace Inner

variable {s t u : Inner} {live live' : KeyMap Inode} {hand hand' rest : List (ℕ × ℕ)} {ino : ℕ} {i j : Inode}
  {inodes : KeyMap Inode} {dirty : KeyMap Unit}

def space (s : Inner) : Space := ⟨s.alloc, s.image.len⟩

/-- The stored snapshot, which the next one replaces. -/
def oldSnapshot (s : Inner) : List (ℕ × ℕ) := s.image.snapshotRanges s.sb.allocBlock

/-- The space once the held record is stored, and the inodes in memory. -/
def recordSpace (s : Inner) : Space × KeyMap Inode :=
  match s.recordCache.filter (·.dirty) with
  | none => (s.space, s.inodes)
  | some c =>
    match s.inodes.find? c.ino with
    | none => (s.space, s.inodes)
    | some i =>
      let stored := s.space.storeRecord s c i
      (stored.1, s.inodes.insert c.ino stored.2)

/-- The space after `ino` has been persisted. -/
def inodeSpace (inodes : KeyMap Inode) (p : Space) (ino : ℕ) : Space := (inodes.find? ino).elim p p.persistInode

/-- The space that is left when `flush_all` has stored everything, told from the state before. -/
def flushSpace (order : FlushOrder) (s : Inner) : Space :=
  let p := (order.inodes.arrange s.pending.keys).foldl (inodeSpace s.recordSpace.2) s.recordSpace.1
  p.writeAllocator s.oldSnapshot

/-! ## Steps that leave the space alone -/

theorem oldSnapshot_of_step (h : s.Inv live hand) (hplace : t.sb.allocBlock = s.sb.allocBlock) {W : ℕ → Prop}
    (hstep : CachedImage.Step W s.disk t.disk) (hW : s.sb.allocBlock ≠ 0 → ¬W s.sb.allocBlock) :
    t.oldSnapshot = s.oldSnapshot := by
  unfold oldSnapshot Image.snapshotRanges
  rw [hplace]
  by_cases hzero : s.sb.allocBlock = 0
  · rw [if_neg fun hboth ↦ hboth.1 hzero, if_neg fun hboth ↦ hboth.1 hzero]
  have hblock : t.image.block s.sb.allocBlock = s.image.block s.sb.allocBlock :=
    hstep.image _ (h.onDisk.map _ (cover_mapRanges_self hzero)) (hW hzero)
  rw [hblock]

/-- Writes to the table and to blocks in hand spare the stored snapshot. -/
theorem oldSnapshot_of_hand (h : s.Inv live hand) (ht : t.Inv live' hand') (hsb : t.sb = s.sb) {W : ℕ → Prop}
    (hstep : CachedImage.Step W s.disk t.disk)
    (hW : ∀ b, W b → 0 < cover (tableRanges t.sb) b + cover hand' b) : t.oldSnapshot = s.oldSnapshot := by
  refine oldSnapshot_of_step h (by rw [hsb]) hstep fun hne hw ↦ ?_
  have hself : 0 < cover t.mapRanges t.sb.allocBlock := cover_mapRanges_self (by rwa [hsb])
  have hone := ht.owned.load_le_one s.sb.allocBlock
  have hwritten := hW _ hw
  rw [hsb] at hself
  unfold load at hone
  omega

theorem onCache_space {α : Type} {x : Exec Error CachedImage α}
    (h : x.Holds s.disk (fun _ d ↦ d.image.len = s.image.len) (fun _ _ ↦ True)) :
    (onCache x).Holds s (fun _ t ↦ t.space = s.space) (fun _ _ ↦ True) := by
  rw [onCache, Exec.holds_zoom]
  refine h.mono ?_ (fun _ _ _ ↦ trivial)
  intro _ d hlen
  exact congrArg (Space.mk s.alloc) hlen

theorem modifyInode_space (ino : ℕ) (f : Inode → Inode) (s : Inner) : (modifyInode ino f).Holds s
    (fun _ t ↦ t.space = s.space ∧ t.disk = s.disk) (fun _ _ ↦ True) := by
  unfold modifyInode
  rw [Exec.holds_modify]
  cases s.inodes.find? ino <;> exact ⟨rfl, rfl⟩

/-! ## Persisting an inode -/

theorem shadow_allocate_space (h : (s.shadow inodes dirty).Inv live hand) {want : ℕ} (hwant : 0 < want) :
    (onAlloc (Allocator.allocate want)).Holds s
      (fun start t ↦ t.space = s.space.take want ∧ t.disk.Contained ∧ (start + want) * blockSize ≤ t.image.len)
      (fun _ _ ↦ True) := by
  have hinside := Allocator.allocate_inside (d := ⟨s.alloc, s.image⟩) h.owned.alloc h.geometry.backed hwant
  have hspace : (onAlloc (Allocator.allocate want)).Holds s
      (fun start t ↦ t.space = s.space.take want ∧ (start + want) * blockSize ≤ t.image.len) (fun _ _ ↦ True) := by
    rw [onAlloc, Exec.holds_zoom]
    exact ((Allocator.allocate_space want ⟨s.alloc, s.image⟩).and hinside).mono (fun _ _ hboth ↦ hboth)
      (fun _ _ _ ↦ trivial)
  refine ((shadow_allocate h hwant).and hspace).mono ?_ (fun _ _ _ ↦ trivial)
  rintro start t ⟨⟨hinv, -⟩, hspace, hlen⟩
  exact ⟨hspace, hinv.geometry.waiting, hlen⟩

theorem insertDirty_space {b : ℕ} (data : Block) (h : s.disk.Contained) (hin : b * blockSize + blockSize ≤ s.image.len) :
    (onCache (BlockCache.insertDirty b data)).Holds s (fun _ t ↦ t.space = s.space) (fun _ _ ↦ True) :=
  onCache_space ((BlockCache.insertDirty_len data h hin).mono (fun _ _ hlen ↦ hlen.1) (fun _ _ _ ↦ trivial))

theorem storeXattrs_space (h : (s.shadow inodes dirty).Inv live (i.xattrRanges ++ rest)) :
    (storeXattrs i).Holds s (fun _ t ↦ t.space = s.space.storeXattrs i) (fun _ _ ↦ True) := by
  unfold storeXattrs Space.storeXattrs
  by_cases hnil : i.xattr = []
  · rw [if_pos hnil, if_pos hnil]
    unfold Inode.xattrRanges
    by_cases hblock : i.xattrBlock = 0
    · rw [if_neg (by simpa using hblock), if_pos hblock]
      exact rfl
    · rw [if_pos hblock, if_neg hblock, Exec.holds_bind]
      unfold freeBlocks
      rw [Exec.holds_modify]
      exact (modifyInode_space _ _ _).mono (fun _ _ hsame ↦ hsame.1) (fun _ _ _ ↦ trivial)
  rw [if_neg hnil, if_neg hnil]
  dsimp only
  by_cases hfit : blockSize < (encodeXattrs i.xattr).length
  · rw [if_pos hfit]
    trivial
  rw [if_neg hfit]
  by_cases hblock : i.xattrBlock = 0
  · rw [if_pos hblock, if_pos hblock, Exec.holds_bind]
    refine (shadow_allocate_space h Nat.one_pos).mono ?_ (fun _ _ _ ↦ trivial)
    rintro xb t ⟨hspace, hin, hlen⟩
    rw [Exec.holds_bind]
    refine (modifyInode_space _ _ t).mono ?_ (fun _ _ _ ↦ trivial)
    rintro _ t' ⟨hspace', hdisk⟩
    rw [Exec.holds_bind, Exec.holds_pure, ← hspace, ← hspace']
    rw [← hdisk] at hin
    have hlen' : t'.image.len = t.image.len := congrArg Space.len hspace'
    rw [Nat.succ_mul, ← hlen'] at hlen
    exact insertDirty_space _ hin hlen
  · rw [if_neg hblock, if_neg hblock, Exec.holds_bind, Exec.holds_pure]
    refine insertDirty_space _ h.geometry.waiting (h.mul_le_len ?_)
    rw [cover_append, Inode.xattrRanges, if_neg hblock, cover_cons, span_eq_one (by dsimp only; omega)]
    omega

theorem storeTreeBlocks_space (extents : List Extent) (tree nblocks count : ℕ) : ∀ {s : Inner} (b : ℕ) (rest : List Extent),
    s.disk.Contained → (tree + b + count) * blockSize ≤ s.image.len →
    (storeTreeBlocks extents tree nblocks count b rest).Holds s (fun _ t ↦ t.space = s.space) (fun _ _ ↦ True) := by
  induction count with
  | zero => exact fun b rest _ _ ↦ rfl
  | succ count ih =>
    intro s b rest hin hlen
    have hblock : (tree + b + 1) * blockSize ≤ (tree + b + (count + 1)) * blockSize := Nat.mul_le_mul_right _ (by omega)
    rw [Nat.succ_mul] at hblock
    unfold storeTreeBlocks
    dsimp only
    rw [Exec.holds_bind, onCache, Exec.holds_zoom]
    refine (BlockCache.insertDirty_len _ hin (hblock.trans hlen)).mono ?_ (fun _ _ _ ↦ trivial)
    rintro _ d ⟨hsame, hin'⟩
    have hspace : (s.withDisk d).space = s.space := congrArg (Space.mk s.alloc) hsame
    rw [← hspace]
    refine ih (s := s.withDisk d) (b + 1) _ hin' ?_
    change _ ≤ d.image.len
    rw [hsame, show tree + (b + 1) + count = tree + b + (count + 1) by omega]
    exact hlen

theorem storeExtentTree_space (h : (s.shadow inodes dirty).Inv live (i.treeRanges ++ rest))
    (htree : i.extentTree = 0 ↔ i.extentTreeBlocks = 0) :
    (storeExtentTree i).Holds s (fun _ t ↦ t.space = s.space.storeExtentTree i) (fun _ _ ↦ True) := by
  unfold storeExtentTree Space.storeExtentTree
  dsimp only
  by_cases hfew : i.extents.length ≤ maxDirectExtents
  · rw [if_pos hfew, if_pos hfew]
    split_ifs
    · rw [Exec.holds_bind]
      unfold freeBlocks
      rw [Exec.holds_modify]
      exact (modifyInode_space _ _ _).mono (fun _ _ hsame ↦ hsame.1) (fun _ _ _ ↦ trivial)
    · exact rfl
  rw [if_neg hfew, if_neg hfew, Exec.holds_bind]
  refine (freeTree_spec h htree).mono ?_ (fun _ _ _ ↦ trivial)
  rintro _ t ⟨hinv, rfl⟩
  refine (shadow_allocate_space hinv (treeSize_pos _)).bind ?_ (fun _ _ _ ↦ trivial)
  rintro tree t ⟨hspace, hin, hlen⟩
  refine (storeTreeBlocks_space i.extents tree _ _ 0 i.extents hin hlen).bind ?_ (fun _ _ _ ↦ trivial)
  intro _ t' hspace'
  refine (modifyInode_space _ _ t').mono ?_ (fun _ _ _ ↦ trivial)
  rintro _ u ⟨hspace'', -⟩
  rw [hspace'', hspace', hspace]
  split_ifs <;> rfl

theorem writeInodeToTable_space (h : (s.shadow inodes dirty).Inv live hand) (hlive : live.find? j.ino = some i) :
    (writeInodeToTable j).Holds s (fun _ t ↦ t.space = s.space) (fun _ _ ↦ True) := by
  obtain ⟨-, hnext, -⟩ := h.numbered.keys j.ino i hlive
  have hcap : j.ino < inodeTableCapacity s.sb := hnext.trans_le h.geometry.next.2
  have htable : Contiguous 0 s.sb.inodeTableExtents := h.geometry.table
  obtain ⟨phys, hslot⟩ := exists_slot htable hcap
  unfold writeInodeToTable
  rw [Exec.holds_bind_of_ok (growUntil_eq hcap _), Exec.holds_bind, Exec.holds_read, hslot]
  refine onCache_space (BlockCache.getMut_len _ h.geometry.waiting (h.mul_le_len ?_))
  have hcover := cover_table_of_slot hslot
  change 0 < _ + cover (tableRanges s.sb) phys + _ + _ + _
  omega

theorem persistInode_space (h : (s.shadow s.inodes dirty).Inv live []) (hmem : s.inodes.find? ino = some i)
    (hdirty : dirty.contains ino = true) :
    (persistInode ino).Holds s (fun _ t ↦ t.space = s.space.persistInode i ∧ t.oldSnapshot = s.oldSnapshot)
      (fun _ _ ↦ True) := by
  have hk : live.find? ino = some i := h.numbered.memory ino i hmem
  have hino : i.ino = ino := (h.numbered.keys ino i hk).2.2
  have hwf := h.numbered.shape ino i hk
  have hbare : (s.shadow (s.inodes.insert ino (bare i)) dirty).Inv (live.insert ino (bare i))
      (i.xattrRanges ++ i.treeRanges) := h.bare hmem hdirty
  have hlive : (live.insert ino (bare i)).find? ino = some (bare i) := KeyMap.find?_insert_self _ _ _
  unfold persistInode
  rw [Exec.holds_bind, Exec.holds_read, hmem]
  dsimp only
  refine ((storeXattrs_spec hbare (by rw [hino]; exact hmem)).and (storeXattrs_space hbare)).bind ?_ (fun _ _ _ ↦ trivial)
  rintro _ t₁ ⟨⟨xb, flags, -, hinodes₁, hsame₁, -, hinv₁, hstep₁⟩, hspace₁⟩
  have hsb₁ : t₁.sb = s.sb := by rw [hsame₁]
  have hold₁ := oldSnapshot_of_hand hbare hinv₁ hsb₁ hstep₁ fun b ⟨hb, hne⟩ ↦ by
    rw [Inode.xattrRanges, if_neg hne, cover_append, cover_cons, span_eq_one ⟨hb.ge, by dsimp only; omega⟩]
    omega
  have hswap : ∀ b, cover (i.treeRanges ++ ({ i with xattrBlock := xb, flags := flags } : Inode).xattrRanges) b ≤
      cover (({ i with xattrBlock := xb, flags := flags } : Inode).xattrRanges ++ i.treeRanges) b := fun b ↦ by
    rw [cover_append, cover_append]
    omega
  have hinv₁' := hinv₁.hand_le hswap
  refine ((storeExtentTree_spec (j := { i with xattrBlock := xb, flags := flags }) hinv₁' hwf.tree
    (by rw [hinodes₁, KeyMap.find?_insert_self]) rfl rfl rfl).and (storeExtentTree_space hinv₁' hwf.tree)).bind ?_
    (fun _ _ _ ↦ trivial)
  rintro _ t₂ ⟨⟨tree, n, kind, -, hinodes₂, hsame₂, -, -, hinv₂, hstep₂⟩, hspace₂⟩
  have hsb₂ : t₂.sb = t₁.sb := by rw [hsame₂]
  have hold₂ := oldSnapshot_of_hand hinv₁' hinv₂ hsb₂ hstep₂ fun b hb ↦ by
    rw [cover_append]
    omega
  set j : Inode := { i with
    xattrBlock := xb, flags := flags, extentTree := tree, extentTreeBlocks := n, dataKind := kind } with hj
  have hread : (t₂.inodes.find? ino).getD i = j := by rw [hinodes₂, hino, KeyMap.find?_insert_self, Option.getD_some]
  have hino' : j.ino = ino := hino
  have hlive' : (live.insert ino (bare i)).find? j.ino = some (bare i) := by
    rw [hino']
    exact hlive
  rw [Exec.holds_bind, Exec.holds_read, hread]
  refine ((writeInodeToTable_spec (j := j) hinv₂ hlive' (by rw [hino']; exact hdirty)
    (by rw [hino', KeyMap.find?_insert_self]; simp)).and
      (writeInodeToTable_space (j := j) hinv₂ hlive')).mono ?_ (fun _ _ _ ↦ trivial)
  rintro _ t₃ ⟨⟨phys, d, rfl, hinv₃, -, hphys, hstep₃⟩, hspace₃⟩
  have hold₃ := oldSnapshot_of_hand hinv₂ hinv₃ rfl hstep₃ fun b hb ↦ by
    rw [hb]
    exact Nat.add_pos_left hphys _
  refine ⟨?_, (hold₃.trans hold₂).trans hold₁⟩
  rw [hspace₃, hspace₂, hspace₁]
  rfl

theorem persistAll_space (h : s.Inv live []) (items : List ℕ) (hnodup : items.Nodup)
    (hitems : ∀ k, s.dirtyInodes.contains k = true ↔ k ∈ items) :
    (Exec.forEach persistInode items).Holds s
      (fun _ t ↦ t.space = items.foldl (inodeSpace s.inodes) s.space ∧ t.oldSnapshot = s.oldSnapshot) (fun _ _ ↦ True) := by
  refine (Exec.holds_forEach (E := fun _ _ ↦ True) (fun rest t ↦ PersistLoop s live rest t ∧
      rest.foldl (inodeSpace s.inodes) t.space = items.foldl (inodeSpace s.inodes) s.space ∧
      t.oldSnapshot = s.oldSnapshot) ?_ items ⟨.start h hnodup hitems, rfl, rfl⟩).mono (fun _ _ hall ↦ hall.2)
      (fun _ _ _ ↦ trivial)
  rintro ino rest t ⟨hloop, hfold, hold⟩
  obtain ⟨i, dirty, live', hmem, hmem', -, hinv, hmark⟩ := hloop.next h
  refine (hloop.step.and (persistInode_space hinv hmem' hmark)).mono ?_ (fun _ _ _ ↦ trivial)
  rintro _ u ⟨hloop', hspace, hold'⟩
  refine ⟨hloop', ?_, hold'.trans hold⟩
  rw [List.foldl_cons] at hfold
  rw [← hfold, hspace]
  unfold inodeSpace
  rw [hmem]
  rfl

/-! ## Storing the held record -/

theorem appendExtent_appends (extents : List Extent) (ext : Extent) (s : Inner) :
    (appendExtent extents ext).Holds s (fun result t ↦ result = appended extents ext ∧ t = s) (fun _ _ ↦ True) := by
  unfold appendExtent appended
  cases extents.getLast? with
  | none => exact ⟨rfl, rfl⟩
  | some last =>
    dsimp only
    split_ifs with hcont hlen
    · rw [Exec.holds_bind]
      apply holds_addU32
      intro _
      rw [Exec.holds_bind]
      apply holds_addU32
      intro _
      exact ⟨rfl, rfl⟩
    · rw [Exec.holds_bind]
      apply holds_addU32
      intro _
      exact ⟨rfl, rfl⟩
    · exact ⟨rfl, rfl⟩

theorem addExtent_appends (hmem : s.inodes.find? ino = some i) (ext : Extent) :
    (addExtent ino ext).Holds s (fun _ t ↦ t = { s with
      inodes := s.inodes.insert ino (setExtents (appended i.extents ext) i)
      dirtyInodes := s.dirtyInodes.insert ino () }) (fun _ _ ↦ True) := by
  unfold addExtent
  rw [Exec.holds_bind_of_ok (getInode_mem hmem)]
  refine (appendExtent_appends i.extents ext s).bind ?_ (fun _ _ _ ↦ trivial)
  rintro extents _ ⟨rfl, rfl⟩
  rw [Exec.holds_iff_of_ok (getInodeMut_mem hmem _)]
  rfl

theorem writePhysicalBytes_space {phys : ℕ} {data : Bytes} (h : s.disk.Contained)
    (hlen : (phys + max (ceilBlocks data.length) 1) * blockSize ≤ s.image.len) :
    (writePhysicalBytes phys data).Holds s (fun _ t ↦ t.space = s.space) (fun _ _ ↦ True) := by
  unfold writePhysicalBytes
  refine (Exec.holds_forEach (E := fun _ _ ↦ True) (fun rest t ↦ t.space = s.space ∧ t.disk.Contained ∧
    ∀ k ∈ rest, k < max (ceilBlocks data.length) 1) ?_ _ ⟨rfl, h, fun k hk ↦ List.mem_range.mp hk⟩).mono
      (fun _ _ hall ↦ hall.1) (fun _ _ _ ↦ trivial)
  rintro k rest t ⟨hspace, hin, hlt⟩
  have hsame : t.image.len = s.image.len := congrArg Space.len hspace
  have hblock : (phys + k + 1) * blockSize ≤ (phys + max (ceilBlocks data.length) 1) * blockSize :=
    Nat.mul_le_mul_right _ (by have := hlt k List.mem_cons_self; omega)
  rw [Nat.succ_mul] at hblock
  rw [onCache, Exec.holds_zoom]
  refine (BlockCache.insertDirty_len _ hin ?_).mono ?_ (fun _ _ _ ↦ trivial)
  · change _ ≤ t.image.len
    rw [hsame]
    exact hblock.trans hlen
  · rintro _ d ⟨hlen', hin'⟩
    refine ⟨?_, hin', fun k' hk' ↦ hlt k' (List.mem_cons_of_mem _ hk')⟩
    rw [← hspace]
    exact congrArg (Space.mk t.alloc) hlen'

/-- New blocks are filled, and those of the old record are given back. -/
theorem replaceRange_space {α : Type} {Q : α → Inner → Prop} (h : s.Inv s.inodes []) (hmem : s.inodes.find? ino = some i)
    {start stop n : ℕ} (hlt : start < stop) {data : Bytes} (hn : n = max (ceilBlocks data.length) 1) {f : ℕ → Fs α}
    (hf : ∀ w : Inner, w.space = (s.space.take n).give (i.extents.flatMap (punchFree start stop)) →
      w.oldSnapshot = s.oldSnapshot → w.inodes = s.inodes.insert ino (punched start stop i) →
      (f (s.alloc.place n)).Holds w Q (fun _ _ ↦ True)) :
    (do
      let phys ← onAlloc (Allocator.allocate n)
      writePhysicalBytes phys data
      punchLogicalRange ino start stop
      f phys).Holds s Q (fun _ _ ↦ True) := by
  have hpos : 0 < n := by omega
  have hplace : (onAlloc (Allocator.allocate n)).Holds s (fun phys _ ↦ phys = s.alloc.place n) (fun _ _ ↦ True) := by
    rw [onAlloc, Exec.holds_zoom]
    exact Allocator.allocate_place n ⟨s.alloc, s.image⟩
  have hshadow : (s.shadow s.inodes s.dirtyInodes).Inv s.inodes [] := h
  have hspace := shadow_allocate_space hshadow hpos
  refine (((allocate_takes h hpos).and hspace).and hplace).bind ?_ (fun _ _ _ ↦ trivial)
  rintro phys _ ⟨⟨⟨hinv, -, alloc, img, rfl, hgrown⟩, hspace, hin, hlen⟩, rfl⟩
  have hfill := writePhysicalBytes_fills (n := n) hinv (fun b hlow hhigh ↦ by
    rw [cover_cons, span_eq_one ⟨hlow, hhigh⟩]
    omega) data hn.ge
  rw [hn] at hlen
  refine (hfill.and (writePhysicalBytes_space hin (by rw [← hn]; rw [← hn] at hlen; exact hlen))).bind ?_
    (fun _ _ _ ↦ trivial)
  rintro _ _ ⟨⟨hinv', d, rfl, hstep, -⟩, hspace'⟩
  have hmem' : (withDisk { s with alloc := alloc, image := img } d).inodes.find? ino = some i := hmem
  rw [Exec.holds_bind_of_ok (punch_eq hmem' hlt)]
  refine hf _ ?_ ?_ rfl
  · rw [← hspace, ← hspace']
    rfl
  · have hold : (withDisk { s with alloc := alloc, image := img } d).oldSnapshot =
        ({ s with alloc := alloc, image := img } : Inner).oldSnapshot := by
      refine oldSnapshot_of_hand hinv hinv' rfl hstep fun b hb ↦ ?_
      rw [cover_cons, span_eq_one hb]
      omega
    refine hold.trans ?_
    unfold oldSnapshot Image.snapshotRanges
    dsimp only
    rw [hgrown.block]

/-- Only the requests of an inode count. -/
theorem inodeSpace_insert {m : KeyMap Inode} {k : ℕ} (hsame : ∀ p : Space, p.persistInode i = p.persistInode j) :
    inodeSpace (m.insert k i) = inodeSpace (m.insert k j) := by
  funext p ino
  unfold inodeSpace
  rw [KeyMap.find?_insert, KeyMap.find?_insert]
  split_ifs
  · exact hsame p
  · rfl

theorem storeRecord_space (h : s.Inv s.inodes []) {c : RecordCache} (hmem : s.inodes.find? c.ino = some i) :
    (storeRecord c.ino c.record c.data).Holds s (fun _ t ↦ t.space = (s.space.storeRecord s c i).1 ∧
      t.oldSnapshot = s.oldSnapshot ∧
      inodeSpace t.inodes = inodeSpace (s.inodes.insert c.ino (s.space.storeRecord s c i).2)) (fun _ _ ↦ True) := by
  have hrec := h.geometry.records.1
  have hlt : c.record * s.recordBlocks < c.record * s.recordBlocks + s.recordBlocks := by omega
  unfold storeRecord Space.storeRecord
  rw [Exec.holds_bind, Exec.holds_read]
  dsimp only
  by_cases hzero : c.data.all (· == 0) = true
  · rw [if_pos hzero, if_pos hzero, Exec.holds_iff_of_ok (punch_eq hmem hlt)]
    exact ⟨rfl, rfl, rfl⟩
  rw [if_neg hzero, if_neg hzero, Exec.holds_bind_of_ok (getInode_mem hmem), Exec.holds_bind, Exec.holds_read]
  by_cases hoff : (tryCompress s.env.lz4 (Compression.fromU8 i.compression) c.data).1.isOff = true
  · have halgo : (tryCompress s.env.lz4 (Compression.fromU8 i.compression) c.data).1.asU8 = 0 := by
      cases hcase : (tryCompress s.env.lz4 (Compression.fromU8 i.compression) c.data).1 with
      | off => rfl
      | lz4 => rw [hcase] at hoff; cases hoff
    rw [if_pos hoff, if_pos hoff, halgo]
    refine replaceRange_space h hmem hlt rfl ?_
    intro w hspace hold hinodes
    have hfind : w.inodes.find? c.ino = some (punched (c.record * s.recordBlocks)
        (c.record * s.recordBlocks + s.recordBlocks) i) := by rw [hinodes, KeyMap.find?_insert_self]
    refine (addExtent_appends hfind _).bind ?_ (fun _ _ _ ↦ trivial)
    rintro _ _ rfl
    rw [Exec.holds_iff_of_ok (getInodeMut_mem (KeyMap.find?_insert_self _ _ _) _)]
    refine ⟨hspace, hold, ?_⟩
    dsimp only
    rw [hinodes, KeyMap.insert_insert, KeyMap.insert_insert]
    exact inodeSpace_insert fun _ ↦ rfl
  · rw [if_neg hoff, if_neg hoff]
    set packed := tryCompress s.env.lz4 (Compression.fromU8 i.compression) c.data
    set hdr : RecordHeader := ⟨packed.1, max (ceilBlocks c.data.length) 1, packed.2.length, c.data.length,
      Crc.crc32 packed.2⟩ with hhdr
    have hphys : ceilBlocks (headerSize + packed.2.length) = hdr.physBlocks := rfl
    rw [hphys]
    refine replaceRange_space h hmem hlt ?_ ?_
    · rw [recordImage_blocks]
      exact (max_eq_left (physBlocks_pos _)).symm
    intro w hspace hold hinodes
    have hfind : w.inodes.find? c.ino = some (punched (c.record * s.recordBlocks)
        (c.record * s.recordBlocks + s.recordBlocks) i) := by rw [hinodes, KeyMap.find?_insert_self]
    refine (addExtent_appends hfind _).bind ?_ (fun _ _ _ ↦ trivial)
    rintro _ _ rfl
    rw [Exec.holds_bind_of_ok (getInodeMut_mem (KeyMap.find?_insert_self _ _ _) _),
      Exec.holds_iff_of_ok (getInodeMut_mem (KeyMap.find?_insert_self _ _ _) _)]
    refine ⟨hspace, hold, ?_⟩
    dsimp only
    rw [hinodes, KeyMap.insert_insert, KeyMap.insert_insert, KeyMap.insert_insert]
    exact inodeSpace_insert fun _ ↦ rfl

theorem flushRecordCache_space (h : s.Sound) : flushRecordCache.Holds s (fun _ t ↦ t.space = s.recordSpace.1 ∧
    t.oldSnapshot = s.oldSnapshot ∧ inodeSpace t.inodes = inodeSpace s.recordSpace.2) (fun _ _ ↦ True) := by
  unfold flushRecordCache recordSpace
  rw [Exec.holds_bind, Exec.holds_read]
  cases hc : s.recordCache with
  | none => exact ⟨rfl, rfl, rfl⟩
  | some c =>
    dsimp only
    rw [Exec.holds_bind, Exec.holds_modify]
    by_cases hdirty : c.dirty = true
    · obtain ⟨i, hi, -⟩ := (h.held c hc).owner
      rw [if_pos hdirty, Option.filter_some, if_pos hdirty]
      dsimp only
      rw [hi]
      have hfree : ({ s with recordCache := none } : Inner).Inv s.inodes [] := h.inv.hold none fun _ hheld ↦ by cases hheld
      exact storeRecord_space hfree hi
    · rw [if_neg hdirty, Option.filter_some, if_neg hdirty]
      exact ⟨rfl, rfl, rfl⟩

/-! ## The journal, the snapshot and the superblock -/

theorem commitDirty_space (h : s.Sound) (order : FlushOrder) : (commitDirty order).Holds s
    (fun items t ↦ items = order.inodes.arrange s.pending.keys ∧ t.space = s.recordSpace.1 ∧
      t.oldSnapshot = s.oldSnapshot ∧ inodeSpace t.inodes = inodeSpace s.recordSpace.2) (fun _ _ ↦ True) := by
  unfold commitDirty
  refine (((flushRecordCache_spec h.inv).and (flushRecordCache_pending h)).and (flushRecordCache_space h)).bind ?_
    (fun _ _ _ ↦ trivial)
  rintro _ t ⟨⟨⟨live', hd⟩, hpending⟩, hspace, hold, hinodes⟩
  rw [Exec.holds_bind, Exec.holds_read]
  refine (journalDirty_spec hd.inv _).bind ?_ (fun _ _ _ ↦ trivial)
  rintro _ u ⟨-, -, -, hstep, hlen, hsb, -, hsame⟩
  have hkept : u.oldSnapshot = t.oldSnapshot := by
    refine oldSnapshot_of_step hd.inv hsb.layout.2 hstep fun hne hbelow ↦ ?_
    have hmap := (hd.inv.outside hbelow).map
    have hself := cover_mapRanges_self hne
    omega
  rw [Exec.holds_pure]
  refine ⟨by rw [hpending], ?_, hkept.trans hold, ?_⟩
  · rw [← hspace]
    unfold space
    rw [hlen, hsame]
  · rw [← hinodes, hsame]

theorem writeAllocator_space (h : s.Inv live []) :
    writeAllocator.Holds s (fun _ t ↦ t.space = s.space.writeAllocator s.oldSnapshot) (fun _ _ ↦ True) := by
  unfold writeAllocator
  rw [Exec.holds_bind, Exec.holds_read, Exec.holds_bind, Exec.holds_modify, Exec.holds_bind, Exec.holds_read,
    Exec.holds_bind, onAlloc, Exec.holds_zoom]
  refine (Allocator.writeAllocBlocks_space (d := ⟨s.alloc, s.image⟩) (fun a ha ↦ (h.released ha).owned.alloc)
    h.geometry.backed fun hne ↦ h.mul_le_len ?_).mono (fun _ _ hspace ↦ hspace) (fun _ _ _ ↦ trivial)
  have hself := cover_mapRanges_self hne
  unfold load
  omega

theorem writeSuperblock_space (h : s.Inv live []) :
    writeSuperblock.Holds s (fun _ t ↦ t.space = s.space) (fun _ _ ↦ True) := by
  have hdata := h.geometry.data
  have hinside := h.geometry.inside
  have hbelow : ∀ b, b < s.sb.firstDataBlock → b * blockSize + blockSize ≤ s.image.len := by
    intro b hb
    have hle : (b + 1) * blockSize ≤ s.sb.firstDataBlock * blockSize := Nat.mul_le_mul_right _ hb
    rw [Nat.succ_mul] at hle
    exact hle.trans hinside
  unfold writeSuperblock
  rw [Exec.holds_bind, Exec.holds_read, Exec.holds_bind, writeSuperblock_eq, onImage, Exec.holds_zoom]
  refine (Image.writeBlock_len s.sb.encode (hbelow 0 (by omega))).mono ?_ (fun _ _ _ ↦ trivial)
  intro _ img hlen
  rw [onImage, Exec.holds_zoom]
  have hbackup : s.sb.backupBlock = 1 + s.sb.journalBlocks := rfl
  have hroom : s.sb.backupBlock * blockSize + blockSize ≤ img.len := by
    rw [hlen]
    exact hbelow _ (by omega)
  refine (Image.writeBlock_len s.sb.encode hroom).mono ?_ (fun _ _ _ ↦ trivial)
  intro _ img' hlen'
  unfold space
  rw [← hlen, ← hlen']

end Inner

end LinuxFile
