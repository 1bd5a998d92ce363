import LinuxFile.Spec.Flush
import LinuxFile.Spec.Records

/-!
# Flushing and creating

`flush_all` as a whole, and the invariant of a new filesystem.
-/

namespace LinuxFile.Inner

open Ledger

variable {s t : Inner} {live live' : KeyMap Inode} {ino : ℕ} {i : Inode}

/-! ## Flushing -/

/-- The superblock with other journal fields, snapshot and block count. -/
def SbFlushed (a b : Superblock) : Prop :=
  b = { a with
    mtime := b.mtime
    totalBlocks := b.totalBlocks
    allocBlock := b.allocBlock
    journalSeq := b.journalSeq
    journalHead := b.journalHead
    journalTail := b.journalTail
    journalCommitted := b.journalCommitted }

theorem SbFlushed.layout {a b : Superblock} (h : SbFlushed a b) : SameLayout a b := by
  rw [h]
  exact ⟨rfl, rfl, rfl, rfl⟩

theorem Inv.allocBlock_lt (h : s.Inv live []) : s.sb.allocBlock < u64Limit := by
  by_cases hzero : s.sb.allocBlock = 0
  · rw [hzero]
    decide
  · have hcover := cover_mapRanges_self hzero
    have hin := h.lt_total (b := s.sb.allocBlock) (by unfold load; omega)
    exact hin.2.trans h.geometry.total

/-- The filesystem after a complete flush. -/
structure Synced (s : Inner) (live : KeyMap Inode) (t : Inner) (live' : KeyMap Inode) : Prop where
  inv : t.Inv live' []
  persisted : ∃ mid, Drained live mid ∧ AllPersisted mid live'
  memory : ∀ k i, s.inodes.find? k = some i → ∃ i', t.inodes.find? k = some i'
  clean : t.dirtyInodes = KeyMap.empty
  settled : ∀ b, ¬t.disk.DirtyAt b
  record : t.recordCache = none
  raw : ∀ k i, live.find? k = some i → i.usesCompression = false →
    KeepsBlocks (extentRanges i.extents) s t
  sb : SbFlushed s.sb t.sb
  inRange : s.sb.InRange → t.sb.InRange
  same : t = { s with
    image := t.image
    cache := t.cache
    alloc := t.alloc
    journal := t.journal
    inodes := t.inodes
    dirtyInodes := t.dirtyInodes
    recordCache := t.recordCache
    sb := t.sb }

/-- A failed flush has at most written some of the dirty inodes. -/
structure Unsynced (s t : Inner) : Prop where
  inv : ∃ live', t.Inv live' []
  layout : SameLayout s.sb t.sb
  memory : ∀ k i, s.inodes.find? k = some i → ∃ i', t.inodes.find? k = some i'

theorem KeepsBlocks.mono {a b : List (ℕ × ℕ)} (h : KeepsBlocks b s t)
    (hab : ∀ n, 0 < cover a n → 0 < cover b n) : KeepsBlocks a s t :=
  fun n hn P hP ↦ h n (hab n hn) P hP

theorem KeepsBlocks.extents (h : KeepsBlocks i.ranges s t) :
    KeepsBlocks (extentRanges i.extents) s t :=
  h.mono fun n hn ↦ by
    rw [cover_ranges]
    omega

/-- What `commit_dirty` leaves for the second half. -/
structure Committed (s : Inner) (live : KeyMap Inode) (items : List ℕ) (t : Inner)
    (live' : KeyMap Inode) : Prop where
  inv : t.Inv live' []
  drained : Drained live live'
  nodup : items.Nodup
  items : ∀ k, t.dirtyInodes.contains k = true ↔ k ∈ items
  record : t.recordCache = none
  memory : ∀ k i, s.inodes.find? k = some i → ∃ i', t.inodes.find? k = some i'
  raw : ∀ k i, live.find? k = some i → i.usesCompression = false →
    KeepsBlocks (extentRanges i.extents) s t
  sb : SameButJournal s.sb t.sb
  inRange : s.sb.InRange → t.sb.InRange
  same : t = { s with
    image := t.image
    cache := t.cache
    alloc := t.alloc
    journal := t.journal
    inodes := t.inodes
    dirtyInodes := t.dirtyInodes
    recordCache := t.recordCache
    sb := t.sb }

theorem Drained.raw {k : ℕ} (h : Drained live live') (hk : live.find? k = some i)
    (hraw : i.usesCompression = false) : live'.find? k = some i := by
  obtain ⟨i', hk', rfl | ⟨huses, -⟩⟩ := h.find hk
  · exact hk'
  · rw [hraw] at huses
    cases huses

theorem commitDirty_spec (h : s.Inv live []) (order : FlushOrder) :
    (commitDirty order).Holds s (fun items t ↦ ∃ live', Committed s live items t live')
      (fun e t ↦ e.IsHost ∨ Unsynced s t) := by
  unfold commitDirty
  refine (flushRecordCache_spec h).bind ?_ ?_
  · rintro _ t ⟨live', hd⟩
    rw [Exec.holds_bind, Exec.holds_read]
    refine (journalDirty_spec hd.inv _).bind ?_ ?_
    · rintro _ u ⟨hinv, hkeep, -, -, -, hsb, hrange, hsame⟩
      rw [Exec.holds_pure]
      have hdirty : u.dirtyInodes = t.dirtyInodes := by rw [hsame]
      have hinodes : u.inodes = t.inodes := by rw [hsame]
      have hrecord : u.recordCache = t.recordCache := by rw [hsame]
      refine ⟨live', hinv, hd.drained, ?_, fun k ↦ ?_, hrecord.trans hd.record, ?_, ?_, ?_, ?_, ?_⟩
      · exact ((order.inodes.perm _).nodup_iff).mpr (KeyMap.keys_nodup _)
      · rw [hdirty, IterOrder.mem_arrange, KeyMap.mem_keys_iff]
        rfl
      · rw [hinodes]
        exact hd.evolves.memory
      · intro k i hk hraw
        exact (hd.raw k i hk hraw).extents.trans (hkeep k i (hd.drained.raw hk hraw))
      · rw [← hd.evolves.shell.sb]
        exact hsb
      · rw [← hd.evolves.shell.sb]
        exact hrange
      · rw [hsame, hd.evolves.shell]
    · rintro e u (he | ⟨hinv, journal, rfl⟩)
      · exact Or.inl he
      · refine Or.inr ⟨⟨live', hinv⟩, ?_, hd.evolves.memory⟩
        change SameLayout s.sb t.sb
        rw [hd.evolves.shell.sb]
        exact ⟨rfl, rfl, rfl, rfl⟩
  · rintro e t (he | ⟨live', hinv, hev⟩)
    · exact Or.inl he
    · refine Or.inr ⟨⟨live', hinv⟩, ?_, hev.memory⟩
      rw [hev.shell.sb]
      exact ⟨rfl, rfl, rfl, rfl⟩

theorem flushAll_spec (h : s.Inv live []) (hwritable : s.writable = true) (order : FlushOrder) :
    (flushAll order).Holds s (fun _ t ↦ ∃ live', Synced s live t live')
      (fun e t ↦ e.IsHost ∨ Unsynced s t) := by
  unfold flushAll
  rw [Exec.holds_bind, Exec.holds_read, hwritable, if_neg (by simp)]
  refine (commitDirty_spec h order).bind ?_ (fun _ _ he ↦ he)
  rintro items t ⟨mid, hc⟩
  have hmemory : ∀ u : Inner, (∀ k, u.inodes.find? k = none ↔ t.inodes.find? k = none) →
      ∀ k i, s.inodes.find? k = some i → ∃ i', u.inodes.find? k = some i' := by
    intro u hu k i hk
    obtain ⟨i', hi'⟩ := hc.memory k i hk
    cases hfind : u.inodes.find? k with
    | none =>
      rw [(hu k).mp hfind] at hi'
      cases hi'
    | some x => exact ⟨x, rfl⟩
  refine (writeBack_spec hc.inv order items hc.nodup hc.items).mono ?_ ?_
  · rintro _ u ⟨live', hf⟩
    have hrange : s.sb.InRange → u.sb.InRange := fun hr ↦ by
      have htotal := hf.inv.geometry.total
      have halloc := hf.inv.allocBlock_lt
      have hr' := hc.inRange hr
      rw [hf.sb]
      exact { hr' with totalBlocks := htotal, allocBlock := halloc }
    refine ⟨live', hf.inv, ⟨mid, hc.drained, hf.persisted⟩, hmemory u hf.memory, hf.clean, hf.settled,
      ?_, fun k i hk hraw ↦ ?_, ?_, hrange, ?_⟩
    · rw [hf.same]
      exact hc.record
    · exact (hc.raw k i hk hraw).trans (hf.data k i (hc.drained.raw hk hraw))
    · unfold SbFlushed
      rw [hf.sb, hc.sb]
    · rw [hf.same, hc.same]
  · rintro e u (he | ⟨-, live', hinv, -, hbut, -, hmem⟩)
    · exact Or.inl he
    · refine Or.inr ⟨⟨live', hinv⟩, ?_, hmemory u hmem⟩
      rw [hbut]
      exact hc.sb.layout.1

/-! ## A new filesystem -/

theorem normalizeRecordBlocks_bounds (n : ℕ) :
    0 < normalizeRecordBlocks n ∧ normalizeRecordBlocks n ≤ maxRecordBlocks := by
  exact ⟨Nat.lt_of_lt_of_le (by decide) (le_max_right _ _), max_le (min_le_right _ _) (by decide)⟩

theorem Image.create_spec (faults : List (Option ErrorKind)) (n : ℕ) :
    (Image.create n).Holds (Image.fresh faults)
      (fun _ img ↦ img.len = n ∧ n < Image.maxHostLen ∧ img.bytes = fun _ ↦ 0) (fun _ _ ↦ True) := by
  unfold Image.create
  refine (Image.hostCall_spec _).bind ?_ (fun _ _ _ ↦ trivial)
  rintro _ _ ⟨faults', rfl⟩
  refine (Image.setLen_spec _ n).mono ?_ (fun _ _ _ ↦ trivial)
  rintro _ img ⟨hlt, hlen, -, hbytes⟩
  refine ⟨hlen, hlt, ?_⟩
  funext k
  rw [hbytes k]
  unfold Image.fresh
  split_ifs <;> rfl

/-- Truncating to the size a file has does nothing, when no record is held. -/
theorem truncateData_same (hwritable : s.writable = true) (hrecord : s.recordCache = none)
    (hmem : s.inodes.find? ino = some i) (hsize : i.size ≤ maxFileSize) :
    truncateData ino i.size s = .ok () s := by
  have hflush : flushRecordCache s = .ok () s := by
    unfold flushRecordCache
    rw [Exec.bind_apply, Exec.read_apply]
    dsimp only
    rw [hrecord]
    rfl
  unfold truncateData
  rw [Exec.bind_eq_of_ok (requireWrite_ok hwritable), if_neg (by omega), Exec.bind_eq_of_ok hflush, Exec.bind_eq_of_ok (getInode_mem hmem),
    Exec.bind_eq_of_ok (Exec.read_apply _ s), if_pos rfl]
  rfl

/-- A short write to inline data. -/
theorem writeData_inline (hwritable : s.writable = true) (hmem : s.inodes.find? ino = some i)
    {offset : ℕ} {buf : Bytes} (hne : buf ≠ []) (hinline : i.dataKind = .inline) (hext : i.extents = [])
    (hstop : offset + buf.length ≤ inlineMax) :
    writeData ino offset buf s = .ok buf.length { s with
      inodes := s.inodes.insert ino (writeInline s.env.now offset buf i)
      dirtyInodes := s.dirtyInodes.insert ino () } := by
  have hmax : inlineMax ≤ maxFileSize := by decide
  unfold writeData
  rw [Exec.bind_eq_of_ok (requireWrite_ok hwritable), if_neg hne, if_neg (by omega)]
  dsimp only
  rw [Exec.bind_eq_of_ok (getInode_mem hmem), Exec.bind_eq_of_ok (Exec.read_apply _ s),
    if_pos ⟨hinline, hstop, hext⟩, Exec.bind_eq_of_ok (getInodeMut_mem hmem _)]
  rfl

/-- The entries of the empty root directory. -/
def rootEntries : List DirEntry := [⟨rootIno, .directory, dotName⟩, ⟨rootIno, .directory, dotdotName⟩]

/-- The root directory as `create` makes it. -/
def newRoot (now : Timespec) (compression : UInt8) : Inode :=
  writeInline now 0 (encodeDir rootEntries)
    { Inode.new now rootIno (sIfdir ||| 0o755) 0 0 with compression := compression, nlink := 2 }

theorem initRoot_eq (hwritable : s.writable = true) (hrecord : s.recordCache = none) :
    initRoot s = .ok () { s with
      inodes := s.inodes.insert rootIno (newRoot s.env.now s.defaultCompression.asU8)
      dirtyInodes := s.dirtyInodes.insert rootIno ()
      sb := { s.sb with inodeCount := 1 } } := by
  set root : Inode := { Inode.new s.env.now rootIno (sIfdir ||| 0o755) 0 0 with
    compression := s.defaultCompression.asU8, nlink := 2 } with hroot
  set s₁ : Inner := { s with
    inodes := s.inodes.insert rootIno root
    dirtyInodes := s.dirtyInodes.insert rootIno () } with hs₁
  have hmem : s₁.inodes.find? rootIno = some root := KeyMap.find?_insert_self _ _ _
  have htruncate : truncateData rootIno 0 s₁ = .ok () s₁ :=
    truncateData_same (i := root) hwritable hrecord hmem (Nat.zero_le _)
  have hne : encodeDir rootEntries ≠ [] := by decide
  have hfits : 0 + (encodeDir rootEntries).length ≤ inlineMax := by decide
  have hwrite := writeData_inline (s := s₁) hwritable hmem hne rfl rfl hfits
  have hdir : writeDirEntries rootIno root rootEntries s = .ok () { s₁ with
      inodes := s₁.inodes.insert rootIno (newRoot s.env.now s.defaultCompression.asU8)
      dirtyInodes := s₁.dirtyInodes.insert rootIno () } := by
    unfold writeDirEntries
    rw [Exec.bind_eq_of_ok (show putInode rootIno root s = .ok () _ from rfl),
      Exec.bind_eq_of_ok (show markDirty rootIno _ = .ok () s₁ from rfl),
      Exec.bind_eq_of_ok htruncate, Exec.bind_eq_of_ok hwrite]
    rfl
  unfold initRoot
  rw [Exec.bind_eq_of_ok (Exec.get_apply s)]
  refine (Exec.bind_eq_of_ok hdir).trans ?_
  change Outcome.ok () _ = _
  simp only [hs₁, KeyMap.insert_insert]

theorem Allocator.new_ok {firstData totalBlocks : ℕ} (h : firstData ≤ totalBlocks) :
    (Allocator.new firstData totalBlocks).Ok := by
  unfold Allocator.new
  by_cases hlt : firstData < totalBlocks
  · rw [if_pos hlt]
    refine ⟨?_, fun b ↦ ?_, h⟩
    · intro start len hfind
      change (KeyMap.empty.insert firstData (totalBlocks - firstData)).find? start = some len at hfind
      rw [KeyMap.find?_insert] at hfind
      split_ifs at hfind
      · cases hfind
        omega
      · cases hfind
    · change cover [(firstData, totalBlocks - firstData)] b ≤ _
      rw [cover_cons, cover_nil]
      exact le_rfl
  · rw [if_neg hlt]
    refine ⟨?_, fun b ↦ Nat.zero_le _, h⟩
    intro start len hfind
    cases hfind

theorem newRoot_wf (now : Timespec) (compression : UInt8) : (newRoot now compression).Wf := by
  refine ⟨?_, ?_, ?_, ?_, fun _ ↦ rfl⟩
  · intro e he
    cases he
  · exact List.Pairwise.nil
  · exact Iff.rfl
  · have hsize : (newRoot now compression).size = max (0 + (encodeDir rootEntries).length) 0 := rfl
    rw [hsize]
    decide

/-- The first state with a root directory, before its flush. -/
def firstState (base : Inner) (img : Image) (alloc : Allocator) (start : ℕ) : Inner :=
  { base with
    image := img
    alloc := alloc
    inodes := KeyMap.empty.insert rootIno (newRoot base.env.now base.defaultCompression.asU8)
    dirtyInodes := KeyMap.empty.insert rootIno ()
    sb := { base.sb with inodeTableExtents := [Extent.new 0 start 2], inodeCount := 1 } }

theorem firstState_inv (opts : CreateOptions) (env : Env) (uuid : Buf 16)
    (faults : List (Option ErrorKind)) {img img' : Image} {alloc : Allocator} {start : ℕ}
    (hlen : img.len = (blank opts env uuid faults).sb.totalBlocks * blockSize)
    (hlt : img.len < Image.maxHostLen) (hbytes : img.bytes = fun _ ↦ 0) (hok : alloc.Ok)
    (htook : Allocator.Took start 2 (blank opts env uuid faults).alloc alloc)
    (hgrown : Image.Grown img img')
    (htotal : alloc.totalBlocks = (blank opts env uuid faults).sb.totalBlocks ∨
      Allocator.Backed ⟨alloc, img'⟩) :
    (firstState (blank opts env uuid faults) img' alloc start).Inv
      (KeyMap.empty.insert rootIno (newRoot env.now opts.compression.asU8)) [] := by
  set base := blank opts env uuid faults with hbase
  have hfirst : base.sb.firstDataBlock = 2 + base.sb.journalBlocks := rfl
  have htotalBlocks : base.sb.firstDataBlock + 8 ≤ base.sb.totalBlocks := le_max_right _ _
  have himage : img'.Ok := by
    apply hgrown.ok
    refine ⟨?_, hlt⟩
    rw [hlen, Nat.mul_mod_left]
  have hzero : ∀ b, img'.block b = Buf.zero blockSize := by
    intro b
    rw [hgrown.block]
    apply Buf.ext_of_lt
    intro k hk
    rw [Image.block_byte img b hk, hbytes, Buf.zero_byte]
  have hfind : ∀ k i, (KeyMap.empty.insert rootIno (newRoot env.now opts.compression.asU8)).find? k =
      some i → k = rootIno ∧ i = newRoot env.now opts.compression.asU8 := by
    intro k i hk
    rw [KeyMap.find?_insert] at hk
    split_ifs at hk with hroot
    · cases hk
      exact ⟨hroot, rfl⟩
    · cases hk
  refine ⟨⟨himage, htook.first, hfirst, ?_, ?_, ⟨rfl, rfl⟩, ?_, ?_, ?_, ?_, ?_⟩, ⟨hok, fun b ↦ ?_⟩, ?_, ?_⟩
  · have hle := hgrown.len_le
    rw [hlen] at hle
    change base.sb.firstDataBlock * blockSize ≤ img'.len
    exact (Nat.mul_le_mul_right _ (by omega)).trans hle
  · change alloc.totalBlocks * blockSize ≤ img'.len
    rcases htotal with heq | hbacked
    · have hle := hgrown.len_le
      rw [hlen, ← heq] at hle
      exact hle
    · exact hbacked
  · have hbounded := himage.bounded
    unfold Image.maxHostLen at hbounded hlt
    unfold u64Limit
    change alloc.totalBlocks < _
    rcases htotal with heq | hbacked
    · rw [hlen] at hlt
      unfold blockSize at hlt
      omega
    · have hle : alloc.totalBlocks * blockSize ≤ img'.len := hbacked
      unfold blockSize at hle
      omega
  · exact ⟨rfl, Nat.zero_lt_two, (by decide : 2 < u32Limit), rfl, rfl, trivial⟩
  · exact ⟨le_rfl, (by decide : firstUserIno ≤ ([2].sum) * inodesPerBlock)⟩
  · exact normalizeRecordBlocks_bounds _
  · rintro b ⟨e, he, -⟩
    cases he
  · have h1 := htook.cover b
    have hnew : base.alloc.Ok := Allocator.new_ok (by omega)
    have h2 := hnew.fits b
    change cover alloc.free.entries b + cover [(start, 2)] b + cover [] b + (0 + 0) + cover [] b ≤
      alloc.area b
    rw [cover_cons, cover_nil]
    dsimp only
    omega
  · refine ⟨fun k i hk ↦ hk, ?_, ?_, ?_, List.nodup_nil, ?_, ?_⟩
    · intro k hk
      obtain ⟨v, hv⟩ := KeyMap.contains_iff.mp hk
      change (KeyMap.empty.insert rootIno ()).find? k = some v at hv
      rw [KeyMap.find?_insert] at hv
      split_ifs at hv with hroot
      · exact ⟨_, by rw [hroot]; exact KeyMap.find?_insert_self _ _ _⟩
      · cases hv
    · intro k i hk
      obtain ⟨rfl, rfl⟩ := hfind k i hk
      exact ⟨by decide, (by decide : rootIno < firstUserIno), rfl⟩
    · intro k i hk
      obtain ⟨rfl, rfl⟩ := hfind k i hk
      exact newRoot_wf _ _
    · intro k hk
      cases hk
    · intro c hc
      cases hc
  · refine ⟨?_, ?_, ?_, ?_, ?_⟩
    · intro k i hk hclean
      obtain ⟨rfl, rfl⟩ := hfind k i hk
      cases hclean
    · intro k i hk hnone
      change (KeyMap.empty.insert rootIno (newRoot env.now opts.compression.asU8)).find? k = none at hnone
      rw [hk] at hnone
      cases hnone
    · intro k hpos hnext hk
      have hblock : k / inodesPerBlock = 0 := by
        change k < firstUserIno at hnext
        exact Nat.div_eq_of_lt (hnext.trans (by decide))
      refine ⟨start, k % inodesPerBlock * inodeSize, ?_, ?_⟩
      · unfold mapInodeSlot
        rw [hblock]
        rfl
      · refine ⟨fun e he ↦ ?_, fun _ ↦ ?_⟩
        · cases he
        change (img'.block start).sub _ inodeSize = _
        rw [hzero]
        apply Buf.ext_of_lt
        intro n hn
        rw [Buf.sub, Buf.ofFun_byte _ hn, Buf.zero_byte, Buf.zero_byte]
    · intro k i hk e he
      obtain ⟨rfl, rfl⟩ := hfind k i hk
      cases he
    · intro b hb
      exact absurd hb (Nat.lt_irrefl 0)

/-- What `create` leaves: an empty root directory, everything written. -/
structure Created (opts : CreateOptions) (env : Env) (t : Inner) (live : KeyMap Inode) : Prop where
  inv : t.Inv live []
  root : ∃ flags, flags &&& flagCompressed = 0 ∧ live = KeyMap.empty.insert rootIno
    { newRoot env.now opts.compression.asU8 with flags := flags }
  memory : t.inodes = live
  clean : t.dirtyInodes = KeyMap.empty
  settled : ∀ b, ¬t.disk.DirtyAt b
  table : t.sb.inodeTableExtents.length = 1
  inRange : t.sb.InRange
  record : t.recordCache = none
  base : t.writable = true ∧ t.freeInodes = [] ∧ t.defaultCompression = opts.compression ∧
    t.syncMode = opts.sync ∧ t.env = env ∧ t.openCount = KeyMap.empty ∧ t.orphans = KeyMap.empty ∧
    t.checkPerm = false ∧ t.sb.nextInode = firstUserIno

theorem newRoot_persisted {now : Timespec} {compression : UInt8} {root : Inode}
    (h : Persisted (newRoot now compression) root) (hwf : root.Wf) (hstored : s.Stored rootIno root) :
    root = { newRoot now compression with flags := root.flags } := by
  have hxattr : root.xattr = [] := by rw [h.same]; rfl
  have hext : root.extents = [] := by rw [h.same]; rfl
  have hblock : root.xattrBlock = 0 := by
    rcases hstored.xattr with ⟨-, hzero⟩ | ⟨hne, -⟩
    · exact hzero
    · exact absurd hxattr hne
  have htree : root.extentTree = 0 := by
    rcases hstored.tree with ⟨-, hzero⟩ | ⟨hlong, -⟩
    · exact hzero
    · rw [hext] at hlong
      exact absurd hlong (by decide)
  have hkind : root.dataKind = .inline := by
    rcases h.kind with ⟨hk, -⟩ | ⟨hlong, -⟩ | ⟨-, hne, -⟩
    · exact hk
    · exact absurd hlong (by decide : ¬maxDirectExtents < ([] : List Extent).length)
    · exact absurd rfl hne
  rw [h.same, hblock, htree, hwf.tree.mp htree, hkind]
  rfl

theorem create_spec (opts : CreateOptions) (env : Env) (uuid : Buf 16)
    (faults : List (Option ErrorKind)) (order : FlushOrder) :
    (format order).Holds (blank opts env uuid faults)
      (fun _ t ↦ ∃ live, Created opts env t live) (fun _ _ ↦ True) := by
  set base := blank opts env uuid faults with hbase
  unfold format
  rw [Exec.holds_bind, Exec.holds_read]
  split_ifs with hlarge
  · trivial
  push Not at hlarge
  rw [Exec.holds_bind, onImage, Exec.holds_zoom]
  refine (Image.create_spec faults _).mono ?_ (fun _ _ _ ↦ trivial)
  rintro _ img ⟨hlen, hlt, hbytes⟩
  have hdata : base.sb.firstDataBlock + 8 ≤ base.sb.totalBlocks := le_max_right _ _
  have hnew : base.alloc.Ok := Allocator.new_ok (by omega)
  unfold initTable
  rw [Exec.holds_bind, Exec.holds_bind, onAlloc, Exec.holds_zoom]
  refine (Allocator.allocate_spec ⟨base.alloc, img⟩ hnew Nat.zero_lt_two).mono ?_ (fun _ _ _ ↦ trivial)
  rintro start d ⟨hok, htook, hgrown, htotal⟩
  rw [Exec.holds_modify, Exec.holds_bind_of_ok (initRoot_eq rfl rfl)]
  set first := firstState base d.image d.alloc start with hfirst
  change (flushAll order).Holds first _ _
  have hinv := firstState_inv opts env uuid faults hlen (hlen ▸ hlt) hbytes hok htook hgrown htotal
  refine (flushAll_spec hinv rfl order).mono ?_ (fun _ _ _ ↦ trivial)
  rintro _ t ⟨live, hs⟩
  obtain ⟨mid, hdrained, hall⟩ := hs.persisted
  set root := newRoot env.now opts.compression.asU8 with hroot
  have hmid : mid = KeyMap.empty.insert rootIno root := by
    rcases hdrained with rfl | ⟨k, i, i', hk, -, hkind, -⟩
    · rfl
    · rw [KeyMap.find?_insert] at hk
      split_ifs at hk
      · cases hk
        exact absurd rfl hkind
      · cases hk
  subst hmid
  obtain ⟨root', hfind, hper⟩ := hall.some rootIno root (KeyMap.find?_insert_self _ _ _)
  have hlive : live = KeyMap.empty.insert rootIno root' := by
    apply KeyMap.eq_of_find?_eq
    intro k
    rw [KeyMap.find?_insert]
    split_ifs with hk
    · rw [hk]
      exact hfind
    · exact hall.none k (by rw [KeyMap.find?_insert_of_ne hk]; rfl)
  have hstored := hs.inv.onDisk.stored rootIno root' hfind (by rw [hs.clean]; rfl)
  have heq := newRoot_persisted hper (hs.inv.numbered.shape _ _ hfind) hstored
  have htable : t.sb.inodeTableExtents = first.sb.inodeTableExtents := hs.sb.layout.table
  have hmemory : t.inodes = live := by
    obtain ⟨x, hx⟩ := hs.memory rootIno root (KeyMap.find?_insert_self _ _ _)
    apply KeyMap.eq_of_find?_eq
    intro k
    cases hk : t.inodes.find? k with
    | some y => exact (hs.inv.numbered.memory k y hk).symm
    | none =>
      rw [hlive, KeyMap.find?_insert]
      split_ifs with hki
      · rw [hki, hx] at hk
        cases hk
      · rfl
  refine ⟨live, hs.inv, ⟨root'.flags, hper.flags.trans (by decide : (0 : UInt32) &&& flagCompressed = 0), ?_⟩, hmemory, hs.clean, hs.settled, ?_, ?_, hs.record,
    ?_⟩
  · rw [← heq]
    exact hlive
  · rw [htable]
    rfl
  · apply hs.inRange
    have htotalLt : base.sb.totalBlocks < 2 ^ 64 := by
      have := hlarge.2
      unfold blockSize u64Limit at this
      omega
    have hstart : start < 2 ^ 64 := by
      have hin := hinv.lt_total (b := start) (by
        change 0 < _ + cover [(start, 2)] start + _ + _ + _
        rw [cover_cons, span_eq_one (by omega)]
        omega)
      exact hin.2.trans hinv.geometry.total
    have h64 : ∀ n : ℕ, n ≤ firstUserIno → n < 2 ^ 64 := fun n hn ↦ hn.trans_lt (by decide)
    have h32 : 0 < 2 ^ 32 := by decide
    refine ⟨rfl, rfl, rfl, ?_, hlarge.1, htotalLt, h64 1 (by decide), h64 0 (by decide), h64 _ le_rfl,
      h64 rootIno (by decide), h64 1 (by decide), h64 0 (by decide), h64 0 (by decide), h32, h32,
      h64 0 (by decide), ?_⟩
    · have hfirst := hlarge.1
      change 2 + base.sb.journalBlocks < 2 ^ 32 at hfirst
      change base.sb.journalBlocks < 2 ^ 32
      omega
    · intro e he
      rw [List.mem_singleton.mp he]
      change Extent.new 0 (start % 2 ^ 64) 2 = _
      rw [Nat.mod_eq_of_lt hstart]
  · rw [hs.same]
    refine ⟨rfl, rfl, rfl, rfl, rfl, rfl, rfl, rfl, ?_⟩
    exact hs.sb.layout.next

theorem inv_of_create {opts : CreateOptions} {env : Env} {uuid : Buf 16} {faults : List (Option ErrorKind)}
    {order : FlushOrder} (h : create opts env uuid faults order = .ok () s) : ∃ live, s.Inv live [] := by
  obtain ⟨live, hcreated⟩ := (create_spec opts env uuid faults order).of_ok h
  exact ⟨live, hcreated.inv⟩

end LinuxFile.Inner
