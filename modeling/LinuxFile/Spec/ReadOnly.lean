import LinuxFile.Library.Settled
import LinuxFile.Spec.Remount

/-!
# Mounts that may not write

The host refuses to write or resize a file that was opened for reading. On such a file the cache only ever holds clean
copies, the operations that change something stop at `require_write`, and the others do no more than load inodes and
records.
-/

namespace LinuxFile

/-! ## The host file -/

namespace Image

/-- A file that may not be written stays as it is. -/
def Locked (img img' : Image) : Prop :=
  img.hostWritable = false → img'.hostWritable = false ∧ SameFile img img'

instance : IsPreorder Image Locked where
  refl img h := ⟨h, refl_of SameFile img⟩
  trans _ _ _ hab hbc h := ⟨(hbc (hab h).1).1, trans_of SameFile (hab h).2 (hbc (hab h).1).2⟩

theorem hostCall_locked : hostCall.Respects Locked := by
  intro img
  unfold Exec.Holds hostCall
  cases img.faults with
  | nil => exact fun h ↦ ⟨h, rfl, rfl⟩
  | cons answer rest => cases answer <;> exact fun h ↦ ⟨h, rfl, rfl⟩

/-- What is only reached on a file that may be written. -/
theorem locked_of_writable {α : Type} {x : Exec Error Image α} {img : Image} (h : img.hostWritable ≠ false) :
    x.Holds img (fun _ img' ↦ Locked img img') (fun _ img' ↦ Locked img img') :=
  Exec.holds_of_forall (fun _ _ _ hlocked ↦ absurd hlocked h) fun _ _ _ hlocked ↦ absurd hlocked h

theorem setLen_locked (n : ℕ) : (setLen n).Respects Locked := by
  intro img
  by_cases hlocked : img.hostWritable = false
  · unfold setLen
    rw [Exec.holds_bind, Exec.holds_read, if_pos (Or.inr hlocked)]
    exact refl_of Locked img
  · exact locked_of_writable hlocked

theorem growTo_locked (n : ℕ) : (growTo n).Respects Locked := by
  unfold growTo
  exact .bind (.read _) fun _ ↦ .ite (.pure ()) (setLen_locked _)

theorem readBlock_locked (b : ℕ) : (readBlock b).Respects Locked := by
  unfold readBlock
  exact .bind (.read _) fun _ ↦ .ite (.throw _) (.bind hostCall_locked fun _ ↦ .read _)

theorem readExactAt_locked (off count : ℕ) : (readExactAt off count).Respects Locked := by
  unfold readExactAt
  exact .bind (.read _) fun _ ↦ .ite (.throw _) (.bind hostCall_locked fun _ ↦ .read _)

theorem writeAllAt_locked (data : Bytes) (off : ℕ) : (writeAllAt data off).Respects Locked := by
  intro img
  by_cases hlocked : img.hostWritable = false
  · unfold writeAllAt
    rw [Exec.holds_bind, Exec.holds_read]
    refine (Exec.Respects.when (fun _ ↦ growTo_locked _) img).bind (fun _ img₁ h ↦ ?_) (fun _ _ h ↦ h)
    rw [Exec.holds_bind, Exec.holds_read, if_pos (h hlocked).1]
    exact h
  · exact locked_of_writable hlocked

/-- Opening for reading changes nothing. -/
theorem openFile_locks (img : Image) : (openFile false).Holds img
    (fun _ img' ↦ img'.hostWritable = false ∧ SameFile img img') (fun _ img' ↦ SameFile img img') := by
  unfold openFile
  refine (hostCall_sameFile img).bind (fun _ img₁ h₁ ↦ ?_) (fun _ _ h ↦ h)
  refine (hostCall_sameFile img₁).bind (fun _ img₂ h₂ ↦ ?_) (fun _ _ h ↦ trans_of SameFile h₁ h)
  rw [Exec.holds_modify]
  exact ⟨rfl, h₂.bytes.trans h₁.bytes, h₂.len.trans h₁.len⟩

end Image

theorem Journal.replay_locked (sb : Superblock) : (replay sb).Respects Image.Locked := by
  have hop : ∀ op, (applyOp op).Respects Image.Locked := by
    intro op
    cases op with
    | inode ino data => exact .pure ()
    | block b data => exact .ite (Image.writeAllAt_locked _ _) (.pure ())
  unfold replay
  refine .ite (.pure 0) (.bind (Image.readExactAt_locked _ _) fun buf ↦ ?_)
  exact .bind (.forEach (fun ops ↦ .forEach hop ops) _) fun _ ↦ .pure _

theorem Allocator.readSnapshot_locked (start nbytes count : ℕ) : ∀ (i : ℕ) (acc : Bytes),
    (readSnapshot start nbytes count i acc).Respects Image.Locked := by
  induction count with
  | zero => exact fun _ acc ↦ .pure acc
  | succ count ih =>
    intro i acc
    unfold readSnapshot
    exact .bind (Image.readBlock_locked _) fun _ ↦ .ite (.pure _) (ih _ _)

theorem Allocator.readAllocBlocks_locked (start : ℕ) : (readAllocBlocks start).Respects Image.Locked := by
  unfold readAllocBlocks
  refine .ite (.throw _) (.bind (Image.readBlock_locked _) fun hdr ↦ .ite (.throw _) ?_)
  exact .bind (readSnapshot_locked _ _ _ _ _) fun _ ↦ .ofExcept _

/-! ## The cache -/

/-- The host file may not be written, and every cached block is a clean copy. -/
structure CachedImage.Frozen (d : CachedImage) : Prop where
  locked : d.image.hostWritable = false
  clean : ∀ b e, d.cache.map.find? b = some e → e.dirty = false ∧ e.data = d.image.block b

/-- From a frozen state on nothing changes. -/
structure CachedImage.Thawless (d d' : CachedImage) : Prop where
  frozen : d'.Frozen
  file : Image.SameFile d.image d'.image

namespace CachedImage

variable {d d' : CachedImage}

theorem Frozen.thawless (h : d.Frozen) : Thawless d d := ⟨h, refl_of Image.SameFile d.image⟩

theorem Thawless.trans {d'' : CachedImage} (h : Thawless d d') (h' : Thawless d' d'') : Thawless d d'' :=
  ⟨h'.frozen, trans_of Image.SameFile h.file h'.file⟩

/-- Fewer or other clean copies. -/
theorem Frozen.recache (h : d.Frozen) {cache : BlockCache}
    (hcache : ∀ b e, cache.map.find? b = some e → d.cache.map.find? b = some e ∨ e = ⟨d.image.block b, false⟩) :
    Thawless d { d with cache := cache } := by
  refine ⟨⟨h.locked, fun b e he ↦ ?_⟩, rfl, rfl⟩
  rcases hcache b e he with hold | rfl
  · exact h.clean b e hold
  · exact ⟨rfl, rfl⟩

theorem Frozen.reimage (h : d.Frozen) {img : Image} (himage : Image.Locked d.image img) :
    Thawless d { d with image := img } := by
  obtain ⟨hlocked, hfile⟩ := himage h.locked
  refine ⟨⟨hlocked, fun b e he ↦ ?_⟩, hfile⟩
  rw [hfile.block]
  exact h.clean b e he

end CachedImage

namespace BlockCache

open CachedImage

variable {d : CachedImage}

theorem evictFrom_frozen (h : d.Frozen) (blocks : List ℕ) :
    (evictFrom blocks).Holds d (fun _ d' ↦ Thawless d d') (fun _ _ ↦ False) := by
  induction blocks with
  | nil => exact h.recache fun _ _ he ↦ Or.inl he
  | cons old rest ih =>
    unfold evictFrom
    rw [Exec.holds_bind, Exec.holds_read]
    cases he : d.cache.map.find? old with
    | none => exact ih
    | some entry =>
      dsimp only
      rw [Exec.holds_bind, modifyCache, Exec.holds_modify, if_neg (by rw [(h.clean old entry he).1]; decide)]
      refine h.recache fun b e hb ↦ ?_
      rw [KeyMap.find?_erase] at hb
      split_ifs at hb
      exact Or.inl hb

theorem makeRoom_frozen (h : d.Frozen) : makeRoom.Holds d (fun _ d' ↦ Thawless d d') (fun _ _ ↦ False) := by
  unfold makeRoom evictOne
  rw [Exec.holds_bind, Exec.holds_read]
  split_ifs
  · rw [Exec.holds_bind, Exec.holds_read]
    exact evictFrom_frozen h _
  · exact h.thawless

/-- A block past the end of the file cannot be had: the file would have to grow. -/
theorem fetch_frozen (h : d.Frozen) (b : ℕ) : (fetch b).Holds d
    (fun data d' ↦ data = d.image.block b ∧ d'.cache = d.cache ∧ Thawless d d') (fun _ d' ↦ Thawless d d') := by
  unfold fetch
  rw [Exec.holds_bind, Exec.holds_read]
  by_cases hin : b * blockSize + blockSize ≤ d.image.len
  · rw [if_pos hin, onImage, Exec.holds_zoom]
    refine ((Image.readBlock_spec d.image b hin).and (Image.readBlock_locked b d.image)).mono ?_ ?_
    · rintro data img ⟨⟨hdata, -⟩, hlocked⟩
      exact ⟨hdata, rfl, h.reimage hlocked⟩
    · rintro e img ⟨-, hlocked⟩
      exact h.reimage hlocked
  · rw [if_neg hin, Exec.holds_bind, onImage, Exec.holds_zoom]
    unfold Image.growTo Image.setLen
    rw [Exec.holds_bind, Exec.holds_read, if_neg (by omega), Exec.holds_bind, Exec.holds_read,
      if_pos (Or.inr h.locked)]
    exact h.thawless

/-- Reading a block of a frozen image gives the block of the file. -/
theorem get_frozen (h : d.Frozen) (b : ℕ) : (get b).Holds d
    (fun data d' ↦ data = d.image.block b ∧ Thawless d d') (fun _ d' ↦ Thawless d d') := by
  unfold get
  rw [Exec.holds_bind, Exec.holds_read]
  cases hhit : d.cache.map.find? b with
  | some entry =>
    exact ⟨(h.clean b entry hhit).2, h.recache fun _ _ he ↦ Or.inl he⟩
  | none =>
    refine (makeRoom_frozen h).bind (fun _ d₁ h₁ ↦ ?_) (fun _ _ he ↦ he.elim)
    refine (fetch_frozen h₁.frozen b).bind ?_ (fun _ d₂ h₂ ↦ h₁.trans h₂)
    rintro data d₂ ⟨hdata, -, h₂⟩
    rw [Exec.holds_bind, modifyCache, Exec.holds_modify, Exec.holds_pure]
    have hblock : data = d₂.image.block b := by rw [hdata, h₂.file.block]
    refine ⟨by rw [hdata, h₁.file.block], (h₁.trans h₂).trans (h₂.frozen.recache fun c e he ↦ ?_)⟩
    unfold touch at he
    dsimp only at he
    rw [KeyMap.find?_insert] at he
    split_ifs at he with hcb
    · cases he
      exact Or.inr (by rw [hblock, hcb])
    · exact Or.inl he

theorem flushBlock_frozen (h : d.Frozen) (b : ℕ) : flushBlock b d = .ok () d := by
  unfold flushBlock
  rw [Exec.bind_eq_of_ok (Exec.read_apply _ d)]
  cases hhit : d.cache.map.find? b with
  | none => rfl
  | some entry =>
    dsimp only
    rw [if_neg (by rw [(h.clean b entry hhit).1]; decide)]
    rfl

/-- Flushing a cache without dirty blocks does nothing. -/
theorem flush_frozen (h : d.Frozen) (order : IterOrder) : flush order d = .ok () d := by
  unfold flush
  rw [Exec.bind_eq_of_ok (Exec.read_apply _ d)]
  generalize order.arrange d.cache.map.keys = blocks
  induction blocks with
  | nil => rfl
  | cons b rest ih =>
    rw [Exec.forEach, Exec.bind_eq_of_ok (flushBlock_frozen h b)]
    exact ih

end BlockCache

namespace Inner

/-! ## The mounted filesystem -/

/-- Nothing may be written and nothing waits to be. -/
structure ReadOnly (s : Inner) : Prop where
  refuses : s.writable = false
  frozen : s.disk.Frozen
  clean : s.dirtyInodes = KeyMap.empty
  record : ∀ c, s.recordCache = some c → c.dirty = false

/-- A mount of the file of `m` that may not write. -/
structure Kin (m s : Inner) : Prop where
  refuses : s.writable = false
  frozen : s.disk.Frozen
  clean : s.dirtyInodes = KeyMap.empty
  file : Image.SameFile m.image s.image
  sb : s.sb = m.sb
  env : s.env = m.env
  recordBlocks : s.recordBlocks = m.recordBlocks

variable {m s : Inner}

theorem Kin.redisk (h : Kin m s) {d : CachedImage} (hd : CachedImage.Thawless s.disk d) : Kin m (s.withDisk d) :=
  ⟨h.refuses, hd.frozen, h.clean, trans_of Image.SameFile h.file hd.file, h.sb, h.env, h.recordBlocks⟩

/-- Any block that is read is the block of the file. -/
theorem settled_get {P : Inner → Prop} (hP : ∀ s, P s → Kin m s)
    (hdisk : ∀ s d, P s → CachedImage.Thawless s.disk d → P (s.withDisk d)) (b : ℕ) :
    (onCache (BlockCache.get b)).Settled P := by
  apply Exec.Settled.of_value (m.image.block b)
  intro s hs
  rw [holds_onCache]
  refine (BlockCache.get_frozen (hP s hs).frozen b).mono ?_ (fun _ d hd ↦ hdisk s d hs hd)
  rintro data d ⟨rfl, hd⟩
  exact ⟨(hP s hs).file.block b, hdisk s d hs hd⟩

theorem kin_get (b : ℕ) : (onCache (BlockCache.get b)).Settled (Kin m) :=
  settled_get (fun _ h ↦ h) (fun _ _ h hd ↦ h.redisk hd) b

/-! ## Loading inodes -/

theorem loadXattrs_settled (inode : Inode) : (loadXattrs inode).Settled (Kin m) := by
  unfold loadXattrs
  exact .ite (.pure _) (.bind (kin_get _) fun _ ↦ .pure _)

theorem loadTreeBlocks_settled (tree : ℕ) (first : Block) (count b remaining : ℕ) :
    (loadTreeBlocks tree first count b remaining).Settled (Kin m) := by
  induction count generalizing b remaining with
  | zero => exact .pure _
  | succ count ih =>
    unfold loadTreeBlocks
    split_ifs
    · exact .bind (.pure _) fun _ ↦ .bind (ih _ _) fun _ ↦ .pure _
    · exact .bind (kin_get _) fun _ ↦ .bind (ih _ _) fun _ ↦ .pure _

theorem loadExtentTree_settled (inode : Inode) : (loadExtentTree inode).Settled (Kin m) := by
  unfold loadExtentTree
  refine .ite (.pure _) (.bind (kin_get _) fun first ↦ ?_)
  exact .ite (.bind (loadTreeBlocks_settled _ _ _ _ _) fun _ ↦ .pure _) (.pure _)

theorem resolveExtent_settled (ext : Extent) : (resolveExtent ext).Settled (Kin m) := by
  unfold resolveExtent
  refine .ite (.pure _) (.bind (kin_get _) fun block ↦ ?_)
  cases RecordHeader.parse block <;> exact .pure _

theorem resolveExtents_settled (extents : List Extent) : (resolveExtents extents).Settled (Kin m) := by
  induction extents with
  | nil => exact .pure _
  | cons ext rest ih => exact .bind (resolveExtent_settled ext) fun _ ↦ .bind ih fun _ ↦ .pure _

theorem completeInode_settled (inode : Inode) : (completeInode inode).Settled (Kin m) := by
  have resolve : ∀ i : Inode, (if i.usesCompression then resolveAllExtents i else pure i : Fs Inode).Settled (Kin m) :=
    fun i ↦ .ite (.bind (resolveExtents_settled _) fun _ ↦ .pure _) (.pure _)
  unfold completeInode
  refine .bind (loadXattrs_settled inode) fun i ↦ ?_
  split_ifs
  · exact .bind (loadExtentTree_settled i) fun j ↦ resolve j
  · exact .bind (.pure _) fun j ↦ resolve j

/-- What is found in the table under a number is settled by the file. -/
theorem readInodeRaw_settled (ino : ℕ) : (readInodeRaw ino).Settled (Kin m) := by
  unfold readInodeRaw
  refine .bind (.read m.sb fun s h ↦ h.sb) fun sb ↦ .ite (.pure _) ?_
  refine .bind (.ofExcept _) fun slot ↦ .bind (kin_get _) fun block ↦ .ite (.pure _) ?_
  cases Inode.decode ino _ with
  | error e => exact .pure _
  | ok inode => exact .bind (completeInode_settled inode) fun _ ↦ .pure _

/-- The file has the inode `i` under the number `k`. -/
def FileHas (m : Inner) (k : ℕ) (i : Inode) : Prop := ∃ u u', Kin m u ∧ readInodeRaw k u = .ok (some i) u'

theorem FileHas.eq {k : ℕ} {i j : Inode} (h : FileHas m k i) (h' : FileHas m k j) : i = j := by
  obtain ⟨u, u', hu, hi⟩ := h
  obtain ⟨v, v', hv, hj⟩ := h'
  exact Option.some.inj ((readInodeRaw_settled k).eq hu hv hi hj)

/-- The inodes in memory are those of the file; `Q` holds of the record in memory. -/
structure Mirror (m : Inner) (Q : Option RecordCache → Prop) (s : Inner) : Prop where
  kin : Kin m s
  inodes : ∀ k i, s.inodes.find? k = some i → FileHas m k i
  record : Q s.recordCache

variable {Q : Option RecordCache → Prop}

theorem Mirror.mono {Q' : Option RecordCache → Prop} (h : Mirror m Q s) (hQ : Q s.recordCache → Q' s.recordCache) :
    Mirror m Q' s := ⟨h.kin, h.inodes, hQ h.record⟩

theorem Mirror.redisk (h : Mirror m Q s) {d : CachedImage} (hd : CachedImage.Thawless s.disk d) :
    Mirror m Q (s.withDisk d) := ⟨h.kin.redisk hd, h.inodes, h.record⟩

theorem mirror_get (b : ℕ) : (onCache (BlockCache.get b)).Settled (Mirror m Q) :=
  settled_get (fun _ h ↦ h.kin) (fun _ _ h hd ↦ h.redisk hd) b

theorem Mirror.reload {t : Inner} (h : Mirror m Q s) (ht : OnlyCache s t) (hkin : Kin m t) : Mirror m Q t := by
  refine ⟨hkin, fun k i hi ↦ h.inodes k i ?_, ?_⟩
  · rw [ht] at hi
    exact hi
  · rw [ht]
    exact h.record

/-- An inode is the one of the file, whether it is in memory or loaded now. -/
theorem getInode_mirror (ino : ℕ) (h : Mirror m Q s) :
    (getInode ino).Holds s (fun i t ↦ FileHas m ino i ∧ Mirror m Q t) (fun _ t ↦ Mirror m Q t) := by
  unfold getInode
  rw [Exec.holds_bind, Exec.holds_read]
  cases hhit : s.inodes.find? ino with
  | some i => exact ⟨h.inodes ino i hhit, h⟩
  | none =>
    unfold loadInode
    dsimp only
    rw [Exec.holds_bind]
    have hread := (readInodeRaw_onlyCache ino s).and ((readInodeRaw_settled ino).keeps h.kin)
    refine Exec.holds_of_forall (fun loaded t hload ↦ ?_) (fun _ t hfail ↦ ?_)
    · have ht := hread.of_ok hload
      have hmirror := h.reload ht.1 ht.2
      rw [Exec.holds_bind, Exec.holds_ofOption]
      refine ⟨fun i hi ↦ ?_, fun _ ↦ hmirror⟩
      rw [hi] at hload
      have hhas : FileHas m ino i := ⟨s, t, h.kin, hload⟩
      rw [Exec.holds_bind, putInode, Exec.holds_modify, Exec.holds_pure]
      refine ⟨hhas, ⟨ht.2.refuses, ht.2.frozen, ht.2.clean, ht.2.file, ht.2.sb, ht.2.env, ht.2.recordBlocks⟩,
        fun k j hj ↦ ?_, hmirror.record⟩
      by_cases hk : k = ino
      · subst hk
        rw [KeyMap.find?_insert_self] at hj
        cases hj
        exact hhas
      · rw [KeyMap.find?_insert_of_ne hk] at hj
        exact hmirror.inodes k j hj
    · have ht := hread.of_err hfail
      exact h.reload ht.1 ht.2

theorem getInode_settled (ino : ℕ) : (getInode ino).Settled (Mirror m Q) := by
  by_cases hhas : ∃ i, FileHas m ino i
  · obtain ⟨i, hi⟩ := hhas
    apply Exec.Settled.of_value i
    intro s hs
    refine (getInode_mirror ino hs).mono ?_ (fun _ _ ht ↦ ht)
    rintro j t ⟨hj, ht⟩
    exact ⟨hj.eq hi, ht⟩
  · refine ⟨none, fun s hs ↦ (getInode_mirror ino hs).mono ?_ (fun _ _ ht ↦ ht)⟩
    rintro j t ⟨hj, -⟩
    exact absurd ⟨j, hj⟩ hhas

/-! ## Contents -/

theorem readBlocks_settled (phys count : ℕ) : (readBlocks phys count).Settled (Mirror m Q) := by
  induction count generalizing phys with
  | zero => exact .pure _
  | succ count ih => exact .bind (mirror_get _) fun _ ↦ .bind (ih _) fun _ ↦ .pure _

theorem readCompressedExtent_settled (ext : Extent) : (readCompressedExtent ext).Settled (Mirror m Q) := by
  unfold readCompressedExtent
  refine .bind (readBlocks_settled _ _) fun raw ↦ .bind (.ofOption _ _) fun hdr ↦ ?_
  exact .ite (.throw _) (.ite (.throw _) (.bind (.read m.env fun _ h ↦ h.kin.env) fun _ ↦ .ofExcept _))

theorem readChunks_settled (inode : Inode) (chunks : List Chunk) :
    (readChunks inode chunks).Settled (Mirror m Q) := by
  induction chunks with
  | nil => exact .pure _
  | cons c rest ih =>
    unfold readChunks
    cases mapFileBlock inode c.index with
    | none => exact .bind (.pure _) fun _ ↦ .bind ih fun _ ↦ .pure _
    | some phys => exact .bind (mirror_get _) fun _ ↦ .bind (.pure _) fun _ ↦ .bind ih fun _ ↦ .pure _

theorem inlineSlice_settled (inode : Inode) (start n : ℕ) : (inlineSlice inode start n).Settled (Mirror m Q) :=
  .ite .abort (.pure _)

theorem readDataRaw_settled (ino offset count : ℕ) : (readDataRaw ino offset count).Settled (Mirror m Q) := by
  unfold readDataRaw
  refine .bind (getInode_settled ino) fun inode ↦ .ite (.pure _) (.ite ?_ (readChunks_settled _ _))
  exact .ite (.pure _) (inlineSlice_settled _ _ _)

theorem loadRecord_settled (ino record : ℕ) : (loadRecord ino record).Settled (Mirror m Q) := by
  have blocks : ∀ (inode : Inode) (off : ℕ),
      (if off < inode.size then do
          let data ← readDataRaw ino off (min (inode.size - off) m.recordBytes)
          pure (resizeBytes data m.recordBytes)
        else pure (List.replicate m.recordBytes 0) : Fs Bytes).Settled (Mirror m Q) :=
    fun inode off ↦ .ite (.bind (readDataRaw_settled _ _ _) fun _ ↦ .pure _) (.pure _)
  unfold loadRecord
  refine Exec.Settled.bind_get m (fun s hs ↦ ?_) ?_
  · have hblocks : s.recordBlocks = m.recordBlocks := hs.kin.recordBlocks
    have hbytes : s.recordBytes = m.recordBytes := by
      simp only [recordBytes, hblocks]
    dsimp only
    rw [hblocks, hbytes]
  · refine .bind (getInode_settled ino) fun inode ↦ ?_
    cases inode.extents.find? (fun e ↦ e.containsLogical (record * m.recordBlocks)) with
    | none => exact blocks _ _
    | some ext => exact .ite (.bind (readCompressedExtent_settled _) fun _ ↦ .pure _) (blocks _ _)

/-- The record in memory is a clean copy of the one of the file. -/
def HeldClean (m : Inner) (held : Option RecordCache) : Prop :=
  ∀ c, held = some c → c.dirty = false ∧
    ∃ u u', Mirror m (fun _ ↦ True) u ∧ loadRecord c.ino c.record u = .ok c.data u'

/-- Everything in memory is what the file tells. -/
abbrev Mirrors (m : Inner) : Inner → Prop := Mirror m (HeldClean m)

theorem Mirrors.readOnly (h : Mirrors m s) : s.ReadOnly :=
  ⟨h.kin.refuses, h.kin.frozen, h.kin.clean, fun c hc ↦ (h.record c hc).1⟩

theorem heldClean_none : HeldClean m none := fun _ hc ↦ nomatch hc

/-- A clean record is let go without being stored. -/
theorem flushRecordCache_clean (h : s.ReadOnly) : flushRecordCache s = .ok () { s with recordCache := none } := by
  unfold flushRecordCache
  rw [Exec.bind_eq_of_ok (Exec.read_apply _ s)]
  cases hheld : s.recordCache with
  | none =>
    have hs : { s with recordCache := none } = s := by rw [← hheld]
    rw [hs]
    rfl
  | some c =>
    dsimp only
    rw [Exec.bind_eq_of_ok (Exec.modify_apply _ s), if_neg (by rw [h.record c hheld]; decide)]
    rfl

theorem Mirror.unhold (h : Mirror m Q s) : Mirror m (· = none) { s with recordCache := none } :=
  ⟨⟨h.kin.refuses, h.kin.frozen, h.kin.clean, h.kin.file, h.kin.sb, h.kin.env, h.kin.recordBlocks⟩, h.inodes, rfl⟩

/-- A record is the one of the file, whether it is held or loaded now. -/
theorem cachedRecord_mirror (ino record : ℕ) (h : Mirrors m s) :
    (cachedRecord ino record).Holds s
      (fun data t ↦ (∃ u u', Mirror m (fun _ ↦ True) u ∧ loadRecord ino record u = .ok data u') ∧ Mirrors m t)
      (fun _ t ↦ Mirrors m t) := by
  unfold cachedRecord
  rw [Exec.holds_bind, Exec.holds_read]
  cases hheld : s.recordCache.filter (fun c ↦ c.ino == ino && c.record == record) with
  | some c =>
    obtain ⟨hc, hmatch⟩ := Option.filter_eq_some_iff.mp hheld
    rw [Bool.and_eq_true, beq_iff_eq, beq_iff_eq] at hmatch
    have hdata := (h.record c hc).2
    rw [hmatch.1, hmatch.2] at hdata
    exact ⟨hdata, h⟩
  | none =>
    dsimp only
    rw [Exec.holds_bind_of_ok (flushRecordCache_clean h.readOnly)]
    have hstart := h.unhold
    rw [Exec.holds_bind]
    refine Exec.holds_of_forall (fun data t hload ↦ ?_) (fun _ t hfail ↦ ?_)
    · have ht := ((loadRecord_settled ino record).keeps hstart).of_ok hload
      have hdata : ∃ u u', Mirror m (fun _ ↦ True) u ∧ loadRecord ino record u = .ok data u' :=
        ⟨_, t, hstart.mono fun _ ↦ trivial, hload⟩
      rw [Exec.holds_bind, Exec.holds_modify, Exec.holds_pure]
      refine ⟨hdata, ⟨ht.kin.refuses, ht.kin.frozen, ht.kin.clean, ht.kin.file, ht.kin.sb, ht.kin.env,
        ht.kin.recordBlocks⟩, ht.inodes, fun c hc ↦ ?_⟩
      cases hc
      exact ⟨rfl, hdata⟩
    · have ht := ((loadRecord_settled ino record).keeps hstart).of_err hfail
      exact ht.mono fun hnone ↦ by rw [hnone]; exact heldClean_none

theorem cachedRecord_settled (ino record : ℕ) : (cachedRecord ino record).Settled (Mirrors m) := by
  by_cases hany : ∃ data u u', Mirror m (fun _ ↦ True) u ∧ loadRecord ino record u = .ok data u'
  · obtain ⟨data, u, u', hu, hdata⟩ := hany
    apply Exec.Settled.of_value data
    intro s hs
    refine (cachedRecord_mirror ino record hs).mono ?_ (fun _ _ ht ↦ ht)
    rintro found t ⟨⟨v, v', hv, hfound⟩, ht⟩
    exact ⟨(loadRecord_settled ino record).eq hv hu hfound hdata, ht⟩
  · refine ⟨none, fun s hs ↦ (cachedRecord_mirror ino record hs).mono ?_ (fun _ _ ht ↦ ht)⟩
    rintro data t ⟨hdata, -⟩
    exact absurd ⟨data, hdata⟩ hany

theorem readRecordChunks_settled (ino : ℕ) (chunks : List Chunk) :
    (readRecordChunks ino chunks).Settled (Mirrors m) := by
  induction chunks with
  | nil => exact .pure _
  | cons c rest ih => exact .bind (cachedRecord_settled _ _) fun _ ↦ .bind ih fun _ ↦ .pure _

/-- The bytes of a file are settled by the host file. -/
theorem readData_settled (ino offset count : ℕ) : (readData ino offset count).Settled (Mirrors m) := by
  unfold readData
  refine .bind (getInode_settled ino) fun inode ↦ .ite (.pure _) (.ite (.pure _) (.ite ?_ (.ite ?_ ?_)))
  · exact inlineSlice_settled _ _ _
  · refine .bind (.read m.recordBytes fun s h ↦ ?_) fun _ ↦ readRecordChunks_settled _ _
    unfold recordBytes
    rw [h.kin.recordBlocks]
  · exact readDataRaw_settled _ _ _

/-- The entries of a directory are settled by the host file. -/
theorem parseDir_settled (ino : ℕ) : (parseDir ino).Settled (Mirrors m) := by
  unfold parseDir
  refine .bind (getInode_settled ino) fun inode ↦ .ite (.throw _) ?_
  split_ifs
  · exact .bind (readData_settled _ _ _) fun _ ↦ .ofExcept _
  · exact .bind (.pure _) fun _ ↦ .ofExcept _

/-- Memory mirrors the file as before, and every inode in memory stays there as it is. -/
def Still (m s t : Inner) : Prop :=
  Mirrors m s → Mirrors m t ∧ ∀ k i, s.inodes.find? k = some i → t.inodes.find? k = some i

instance (m : Inner) : IsPreorder Inner (Still m) where
  refl _ h := ⟨h, fun _ _ hi ↦ hi⟩
  trans _ _ _ hst htu h :=
    ⟨(htu (hst h).1).1, fun k i hi ↦ (htu (hst h).1).2 k i ((hst h).2 k i hi)⟩

/-- An inode that stays in memory is still the one of the file. -/
theorem still_of_calm {t : Inner} (hpreserves : Exec.Preserves (Mirrors m) s t) (hcalm : Calm s t) : Still m s t := by
  intro h
  have ht := hpreserves h
  refine ⟨ht, fun k i hi ↦ ?_⟩
  obtain ⟨j, hj, -⟩ := hcalm.inodes k i hi
  rw [(h.inodes k i hi).eq (ht.inodes k j hj)]
  exact hj

theorem Settled.still {α : Type} {x : Fs α} (h : x.Settled (Mirrors m)) (hcalm : x.Respects Calm) :
    x.Respects (Still m) := by
  intro s
  refine ((h.respects s).and (hcalm s)).mono ?_ ?_
  · rintro _ t ⟨hp, hc⟩
    exact still_of_calm hp hc
  · rintro _ t ⟨hp, hc⟩
    exact still_of_calm hp hc

theorem reads_still : Reads (Still m) where
  block b := Settled.still (mirror_get b) (onCache_calm _)
  inode ino := Settled.still (getInode_settled ino) (getInode_calm ino)
  record ino record := Settled.still (cachedRecord_settled ino record) (cachedRecord_calm ino record)

/-! ## Calls that would write -/

/-- A call that asks for the right to write first does nothing else. -/
theorem refused {α : Type} (h : s.writable = false) (f : Unit → Fs α) :
    (requireWrite >>= f) s = .err (Error.fromErrno Error.EROFS) s := by
  unfold requireWrite
  rw [bind_assoc, Exec.bind_eq_of_ok (Exec.read_apply _ s), h]
  rfl

theorem refused_still {α : Type} (f : Unit → Fs α) : (requireWrite >>= f).Respects (Still m) := by
  intro s
  refine Exec.holds_of_forall (fun _ t hok h ↦ ?_) (fun _ t herr h ↦ ?_)
  · rw [refused h.kin.refuses f] at hok
    cases hok
  · rw [refused h.kin.refuses f] at herr
    cases herr
    exact ⟨h, fun _ _ hi ↦ hi⟩

/-- The tables of open files and orphans and the permission switch play no part. -/
theorem still_retable {t : Inner} (ht : t = { s with
      openCount := t.openCount, orphans := t.orphans, checkPerm := t.checkPerm }) : Still m s t := by
  intro h
  rw [ht]
  exact ⟨⟨⟨h.kin.refuses, h.kin.frozen, h.kin.clean, h.kin.file, h.kin.sb, h.kin.env, h.kin.recordBlocks⟩, h.inodes,
    h.record⟩, fun _ _ hi ↦ hi⟩

theorem invalidateRecordCache_still (ino : ℕ) :
    (invalidateRecordCache ino).Respects (Still m) := by
  apply Exec.Respects.modify
  intro s h
  refine ⟨⟨⟨h.kin.refuses, h.kin.frozen, h.kin.clean, h.kin.file, h.kin.sb, h.kin.env, h.kin.recordBlocks⟩, h.inodes,
    fun c hc ↦ h.record c ?_⟩, fun _ _ hi ↦ hi⟩
  exact (Option.filter_eq_some_iff.mp hc).1

/-- An inode is not dropped: its contents cannot be cleared. -/
theorem dropInode_still (ino : ℕ) : (dropInode ino).Respects (Still m) := by
  have hrefused : ∀ f : Unit → Fs Unit,
      (truncateData ino 0 >>= f).Respects (Still m) := by
    intro f
    unfold truncateData
    rw [bind_assoc]
    exact refused_still _
  unfold dropInode
  exact .bind (invalidateRecordCache_still ino) fun _ ↦ .bind (reads_still.inode ino) fun _ ↦ hrefused _

theorem incOpen_still (ino : ℕ) : (incOpen ino).Respects (Still m) := by
  unfold incOpen addU32
  refine .bind (.read _) fun count ↦ .bind (.ite .abort (.pure _)) fun count ↦ .modify fun s ↦ ?_
  exact still_retable rfl

theorem decOpen_still (ino : ℕ) : (decOpen ino).Respects (Still m) := by
  unfold decOpen
  refine .bind .get fun s ↦ ?_
  cases s.openCount.find? ino with
  | none => exact .pure _
  | some count =>
    refine .ite (.modify fun _ ↦ still_retable rfl) (.bind (.modify fun _ ↦ still_retable rfl) fun _ ↦ .ite ?_ (.pure _))
    refine .bind (.modify fun _ ↦ still_retable rfl) fun _ ↦ .bind (.attempt (reads_still.inode ino)) fun found ↦ ?_
    exact .ite (dropInode_still ino) (.pure _)

/-- Writing back lets the held record go and does nothing else. -/
theorem flushCache_readOnly (h : s.ReadOnly) (order : IterOrder) :
    flushCache order s = .ok () { s with recordCache := none } := by
  unfold flushCache
  rw [Exec.bind_eq_of_ok (flushRecordCache_clean h)]
  have hflush := BlockCache.flush_frozen h.frozen order
  unfold onCache Exec.zoom
  dsimp only [Inner.disk] at hflush ⊢
  rw [hflush]

theorem flushAll_readOnly (h : s.ReadOnly) (order : FlushOrder) : flushAll order s = .ok () s := by
  unfold flushAll
  rw [Exec.bind_eq_of_ok (Exec.read_apply _ s), if_pos h.refuses]
  rfl

theorem flushCache_still (order : IterOrder) : (flushCache order).Respects (Still m) := by
  intro s
  refine Exec.holds_of_forall (fun _ t hok h ↦ ?_) (fun _ t herr h ↦ ?_)
  · rw [flushCache_readOnly h.readOnly order] at hok
    cases hok
    exact ⟨h.unhold.mono fun hnone ↦ by rw [hnone]; exact heldClean_none, fun _ _ hi ↦ hi⟩
  · rw [flushCache_readOnly h.readOnly order] at herr
    cases herr

theorem hostCall_still : (onImage Image.hostCall).Respects (Still m) := by
  intro s
  rw [onImage, Exec.holds_zoom]
  refine (Image.hostCall_locked s.image).mono ?_ ?_
  all_goals
    intro _ img hlocked h
    have hkin : Kin m (s.withDisk ⟨s.cache, img⟩) := h.kin.redisk (h.kin.frozen.reimage hlocked)
    exact ⟨⟨hkin, h.inodes, h.record⟩, fun _ _ hi ↦ hi⟩

theorem flushAll_still (order : FlushOrder) : (flushAll order).Respects (Still m) := by
  intro s
  refine Exec.holds_of_forall (fun _ t hok h ↦ ?_) (fun _ t herr h ↦ ?_)
  · rw [flushAll_readOnly h.readOnly order] at hok
    cases hok
    exact ⟨h, fun _ _ hi ↦ hi⟩
  · rw [flushAll_readOnly h.readOnly order] at herr
    cases herr

end Inner

end LinuxFile
