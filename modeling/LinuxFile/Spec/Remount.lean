import LinuxFile.Spec.Reload
import LinuxFile.Spec.Returns
import LinuxFile.Spec.TidyRuns

/-!
# Opening an image again

A completed flush leaves both copies of the superblock, the inode table and everything the inodes name on disk.
Opening the image reads the superblock, which keeps the first extents of the inode table only, replays the journal,
reads the allocator's snapshot and scans the table. None of this writes, unless the journal holds whole blocks.
-/

namespace LinuxFile

open Ledger

/-! ## Reading the host file -/

namespace Image

/-- The same bytes, through another handle. -/
structure SameFile (img img' : Image) : Prop where
  bytes : img'.bytes = img.bytes
  len : img'.len = img.len

instance : IsPreorder Image SameFile where
  refl _ := ⟨rfl, rfl⟩
  trans _ _ _ hab hbc := ⟨hbc.bytes.trans hab.bytes, hbc.len.trans hab.len⟩

theorem SameFile.block {img img' : Image} (h : SameFile img img') (b : ℕ) : img'.block b = img.block b := by
  unfold Image.block
  rw [h.bytes]

theorem SameFile.ok {img img' : Image} (h : SameFile img img') (hok : img.Ok) : img'.Ok :=
  ⟨by rw [h.len]; exact hok.aligned, by rw [h.len]; exact hok.bounded⟩

theorem hostCall_sameFile : hostCall.Respects SameFile := by
  intro img
  unfold Exec.Holds hostCall
  cases img.faults with
  | nil => exact ⟨rfl, rfl⟩
  | cons answer rest => cases answer <;> exact ⟨rfl, rfl⟩

theorem openFile_sameFile (writable : Bool) : (openFile writable).Respects SameFile :=
  .bind hostCall_sameFile fun _ ↦ .bind hostCall_sameFile fun _ ↦ .modify fun _ ↦ ⟨rfl, rfl⟩

theorem readBlock_sameFile (b : ℕ) : (readBlock b).Respects SameFile := by
  unfold readBlock
  exact .bind (.read _) fun _ ↦ .ite (.throw _) (.bind hostCall_sameFile fun _ ↦ .read _)

/-- The answers of the host are used up in order. -/
def Spends (img img' : Image) : Prop := img'.faults <:+ img.faults

instance : IsPreorder Image Spends where
  refl _ := List.suffix_refl _
  trans _ _ _ hab hbc := hbc.trans hab

theorem hostCall_spends : hostCall.Respects Spends := by
  intro img
  unfold Exec.Holds hostCall Spends
  cases h : img.faults with
  | nil =>
    change img.faults <:+ []
    rw [h]
  | cons answer rest =>
    cases answer with
    | none => exact List.suffix_cons none rest
    | some kind => exact List.suffix_cons (some kind) rest

theorem readBlock_spends (b : ℕ) : (readBlock b).Respects Spends := by
  unfold readBlock
  exact .bind (.read _) fun _ ↦ .ite (.throw _) (.bind hostCall_spends fun _ ↦ .read _)

theorem growTo_spends (n : ℕ) : (growTo n).Respects Spends := by
  have hset : ∀ m, (setLen m).Respects Spends := by
    intro m
    unfold setLen
    refine .bind (.read _) fun _ ↦ .ite (.throw _) (.bind hostCall_spends fun _ ↦ .modify fun img ↦ ?_)
    exact List.suffix_refl img.faults
  unfold growTo
  exact .bind (.read _) fun _ ↦ .ite (.pure ()) (hset _)

theorem readExactAt_spec (img : Image) (off count : ℕ) :
    (readExactAt off count).Holds img
      (fun data img' ↦ data = (List.range' off count).map img.bytes ∧ SameFile img img') (fun _ _ ↦ True) := by
  unfold readExactAt
  rw [Exec.holds_bind, Exec.holds_read]
  split_ifs
  · trivial
  · refine (hostCall_sameFile img).bind ?_ (fun _ _ _ ↦ trivial)
    intro _ img' hsame
    rw [Exec.holds_read, hsame.bytes]
    exact ⟨rfl, hsame⟩

theorem readExactAt_answers {img : Image} (hfaults : img.faults = []) {off count : ℕ} (hin : off + count ≤ img.len) :
    readExactAt off count img = .ok ((List.range' off count).map img.bytes) img := by
  unfold readExactAt
  rw [Exec.bind_apply, Exec.read_apply]
  dsimp only
  rw [if_neg (by omega), Exec.bind_eq_of_ok (hostCall_answers hfaults)]
  rfl

theorem ofBytes_range (img : Image) (b : ℕ) :
    Buf.ofBytes blockSize ((List.range' (b * blockSize) blockSize).map img.bytes) = img.block b := by
  apply Buf.ext_of_lt
  intro i hi
  have hlen : i < ((List.range' (b * blockSize) blockSize).map img.bytes).length := by
    rw [List.length_map, List.length_range']
    exact hi
  rw [block_byte img b hi, Buf.ofBytes, Buf.put_byte_of_mem hi (Nat.zero_le i) (by rw [Nat.zero_add]; exact hlen),
    Nat.sub_zero, List.getD_eq_getElem _ _ hlen, List.getElem_map, List.getElem_range', Nat.one_mul]

end Image

theorem Allocator.readSnapshot_sameFile (start nbytes count : ℕ) : ∀ (i : ℕ) (acc : Bytes),
    (readSnapshot start nbytes count i acc).Respects Image.SameFile := by
  induction count with
  | zero => exact fun i acc ↦ .pure _
  | succ count ih =>
    intro i acc
    unfold readSnapshot
    exact .bind (Image.readBlock_sameFile _) fun _ ↦ .ite (.pure _) (ih _ _)

theorem Allocator.readAllocBlocks_sameFile (start : ℕ) : (readAllocBlocks start).Respects Image.SameFile := by
  unfold readAllocBlocks
  refine .ite (.throw _) (.bind (Image.readBlock_sameFile _) fun hdr ↦ .ite (.throw _) ?_)
  exact .bind (readSnapshot_sameFile _ _ _ _ _) fun _ ↦ .ofExcept _

/-! ## Replay -/

namespace Journal

/-- What `replay` reads. -/
def areaOf (img : Image) (sb : Superblock) : Bytes :=
  (List.range' (Superblock.journalStart * blockSize) (sb.journalBlocks * blockSize)).map img.bytes

/-- The accepted transactions hold no whole blocks, as those of `flush_all` do. -/
def Inert (img : Image) (sb : Superblock) : Prop :=
  ∀ ops ∈ parseTxs sb.journalCommitted (sb.journalBlocks * blockSize + 1) (areaOf img sb), ∀ op ∈ ops,
    ∀ b data, op = .block b data → data.length ≠ blockSize

/-- A journal that does not start with its magic has no transactions. -/
theorem inert_of_byte {img : Image} {sb : Superblock} (h : img.bytes (Superblock.journalStart * blockSize) ≠ 0x4A) :
    Inert img sb := by
  have hmagic : (areaOf img sb).take 4 ≠ journalMagic := by
    intro hmagic
    unfold areaOf at hmagic
    cases hn : sb.journalBlocks * blockSize with
    | zero =>
      rw [hn] at hmagic
      cases hmagic
    | succ n =>
      rw [hn, List.range'_succ, List.map_cons, List.take_succ_cons] at hmagic
      exact h (List.cons.inj hmagic).1
  have hnone : ∀ fuel, parseTxs sb.journalCommitted fuel (areaOf img sb) = [] := by
    intro fuel
    cases fuel with
    | zero => rfl
    | succ fuel =>
      unfold parseTxs
      rw [if_pos hmagic]
      exact ite_self _
  intro ops hops
  rw [hnone] at hops
  cases hops

theorem applyOp_inert {op : Op} (h : ∀ b data, op = .block b data → data.length ≠ blockSize) : applyOp op = pure () := by
  cases op with
  | inode ino data => rfl
  | block b data => exact if_neg (h b data rfl)

theorem applyOps_inert {img : Image} {sb : Superblock} (h : Inert img sb) :
    (Exec.forEach (fun ops ↦ Exec.forEach applyOp ops)
      (parseTxs sb.journalCommitted (sb.journalBlocks * blockSize + 1) (areaOf img sb)) : Exec Error Image Unit) =
      pure () :=
  Exec.forEach_of_pure fun ops hops ↦ Exec.forEach_of_pure fun op hop ↦ applyOp_inert (h ops hops op hop)

theorem replay_sameFile {img : Image} {sb : Superblock} (h : Inert img sb) :
    (replay sb).Holds img (fun _ img' ↦ Image.SameFile img img') (fun _ _ ↦ True) := by
  unfold replay
  dsimp only
  split_ifs
  · exact refl_of Image.SameFile img
  · refine (Image.readExactAt_spec img _ _).bind ?_ (fun _ _ _ ↦ trivial)
    rintro _ img₁ ⟨rfl, hsame⟩
    have hops := applyOps_inert h
    unfold areaOf at hops
    rw [hops, pure_bind]
    exact hsame

/-- An inert journal changes nothing. -/
theorem replay_inert {img : Image} {sb : Superblock} (h : Inert img sb) (hfaults : img.faults = [])
    (hin : Superblock.journalStart * blockSize + sb.journalBlocks * blockSize ≤ img.len) :
    ∃ count, replay sb img = .ok count img := by
  unfold replay
  dsimp only
  split_ifs
  · exact ⟨0, rfl⟩
  · have hops := applyOps_inert h
    unfold areaOf at hops
    rw [Exec.bind_eq_of_ok (Image.readExactAt_answers hfaults hin), hops, pure_bind]
    exact ⟨_, rfl⟩

end Journal

/-! ## The mounted state -/

namespace Inner

theorem readSuperblock_reads {img : Image} {sb : Superblock} (hblock : img.block 0 = sb.encode) (hsb : sb.InRange) :
    readSuperblock.Holds img (fun found img' ↦ found = sb.truncated ∧ Image.SameFile img img') (fun _ _ ↦ True) := by
  unfold readSuperblock
  refine (Image.readExactAt_spec img _ _).bind ?_ (fun _ _ _ ↦ trivial)
  rintro _ img₁ ⟨rfl, hsame⟩
  have hbuf : Buf.ofBytes superblockSize ((List.range' 0 superblockSize).map img.bytes) = sb.encode := by
    rw [← hblock, ← Image.ofBytes_range img 0, Nat.zero_mul]
    rfl
  dsimp only
  rw [hbuf, Superblock.decode_encode_truncated sb hsb]
  exact ⟨rfl, hsame⟩

/-- `loadMount` from the superblock on. -/
def mountWith (writable : Bool) (cacheBlocks : ℕ) (sync : SyncMode) (env : Env) (sb : Superblock) :
    Exec Error Image Inner := do
  let _ ← Journal.replay sb
  let alloc ←
    if sb.allocBlock ≠ 0 then Allocator.readAllocBlocks sb.allocBlock
    else pure (Allocator.new sb.firstData sb.totalBlocks)
  let image ← Exec.get
  pure (mounted image sb alloc writable cacheBlocks sync env)

variable {writable : Bool} {cacheBlocks : ℕ} {sync : SyncMode} {env : Env}

theorem loadMount_eq : loadMount writable cacheBlocks sync env =
    (Image.openFile writable >>= fun _ ↦ readSuperblock >>= mountWith writable cacheBlocks sync env) := rfl

theorem mountWith_reads {img : Image} {sb : Superblock} (hjournal : Journal.Inert img sb) :
    (mountWith writable cacheBlocks sync env sb).Holds img
      (fun m img' ↦ img' = m.image ∧ Image.SameFile img m.image ∧
        m = mounted m.image sb m.alloc writable cacheBlocks sync env) (fun _ _ ↦ True) := by
  unfold mountWith
  refine (Journal.replay_sameFile hjournal).bind ?_ (fun _ _ _ ↦ trivial)
  intro _ img₁ hsame
  have hrest : ∀ alloc img₂, Image.SameFile img₁ img₂ →
      (Exec.get >>= fun image ↦ pure (mounted image sb alloc writable cacheBlocks sync env) :
        Exec Error Image Inner).Holds img₂
      (fun m img' ↦ img' = m.image ∧ Image.SameFile img m.image ∧
        m = mounted m.image sb m.alloc writable cacheBlocks sync env) (fun _ _ ↦ True) :=
    fun alloc img₂ hsame₂ ↦ ⟨rfl, trans_of Image.SameFile hsame hsame₂, rfl⟩
  split_ifs
  · exact (Allocator.readAllocBlocks_sameFile _ img₁).bind (fun alloc img₂ h ↦ hrest alloc img₂ h) fun _ _ _ ↦ trivial
  · exact hrest _ img₁ (refl_of Image.SameFile img₁)

/-- What a mount has read, before the table is scanned. -/
theorem loadMount_reads {img : Image} {sb : Superblock} (hblock : img.block 0 = sb.encode) (hsb : sb.InRange)
    (hjournal : Journal.Inert img sb.truncated) :
    (loadMount writable cacheBlocks sync env).Holds img
      (fun m img' ↦ img' = m.image ∧ Image.SameFile img m.image ∧
        m = mounted m.image sb.truncated m.alloc writable cacheBlocks sync env) (fun _ _ ↦ True) := by
  rw [loadMount_eq]
  refine (Image.openFile_sameFile writable img).bind ?_ (fun _ _ _ ↦ trivial)
  intro _ img₁ hsame₁
  refine (readSuperblock_reads ((hsame₁.block 0).trans hblock) hsb).bind ?_ (fun _ _ _ ↦ trivial)
  rintro _ img₂ ⟨rfl, hsame₂⟩
  have hsame : Image.SameFile img img₂ := trans_of Image.SameFile hsame₁ hsame₂
  have hinert : Journal.Inert img₂ sb.truncated := by
    unfold Journal.Inert Journal.areaOf
    rw [hsame.bytes]
    exact hjournal
  refine (mountWith_reads hinert).mono ?_ (fun _ _ _ ↦ trivial)
  rintro m img' ⟨himage, hsame₃, hm⟩
  exact ⟨himage, trans_of Image.SameFile hsame hsame₃, hm⟩

end Inner

/-! ## A cache that holds no changes -/

/-- Every cached block is a clean copy of the one in the image. -/
structure CachedImage.Pristine (d : CachedImage) : Prop where
  ok : d.image.Ok
  clean : ∀ b e, d.cache.map.find? b = some e → e.dirty = false ∧ e.data = d.image.block b

/-- From a pristine state nothing is written. -/
def CachedImage.Unwritten (d d' : CachedImage) : Prop :=
  d.Pristine → d'.Pristine ∧ Image.Grown d.image d'.image ∧ Image.Spends d.image d'.image

instance : IsPreorder CachedImage CachedImage.Unwritten where
  refl d h := ⟨h, .refl d.image, refl_of Image.Spends d.image⟩
  trans _ _ _ hab hbc h := by
    obtain ⟨hb, hgrown, hspends⟩ := hab h
    obtain ⟨hc, hgrown', hspends'⟩ := hbc hb
    exact ⟨hc, hgrown.trans hgrown', trans_of Image.Spends hspends hspends'⟩

namespace CachedImage

variable {d : CachedImage}

theorem Pristine.view (h : d.Pristine) (b : ℕ) : d.view b = d.image.block b := by
  cases he : d.cache.map.find? b with
  | none => exact view_of_none he
  | some e => exact (view_of_some he).trans (h.clean b e he).2

theorem Pristine.not_dirty (h : d.Pristine) (b : ℕ) : ¬d.DirtyAt b := by
  rintro ⟨e, he, hdirty⟩
  rw [(h.clean b e he).1] at hdirty
  cases hdirty

theorem Pristine.grown (h : d.Pristine) {img : Image} (hgrown : Image.Grown d.image img) :
    Pristine { d with image := img } where
  ok := hgrown.ok h.ok
  clean b e he := by
    rw [hgrown.block]
    exact h.clean b e he

/-- Fewer or other clean copies. -/
theorem Pristine.recache (h : d.Pristine) {cache : BlockCache}
    (hcache : ∀ b e, cache.map.find? b = some e → d.cache.map.find? b = some e ∨ e = ⟨d.image.block b, false⟩) :
    Pristine { d with cache := cache } where
  ok := h.ok
  clean b e he := by
    rcases hcache b e he with hold | rfl
    · exact h.clean b e hold
    · exact ⟨rfl, rfl⟩

end CachedImage

namespace BlockCache

open CachedImage

variable {d : CachedImage}

theorem evictFrom_pristine (h : d.Pristine) (blocks : List ℕ) :
    (evictFrom blocks).Holds d (fun _ d' ↦ d'.Pristine ∧ d'.image = d.image) (fun _ _ ↦ False) := by
  induction blocks with
  | nil => exact ⟨h.recache fun _ _ he ↦ Or.inl he, rfl⟩
  | cons old rest ih =>
    unfold evictFrom
    rw [Exec.holds_bind, Exec.holds_read]
    cases he : d.cache.map.find? old with
    | none => exact ih
    | some entry =>
      dsimp only
      rw [Exec.holds_bind, modifyCache, Exec.holds_modify, if_neg (by rw [(h.clean old entry he).1]; decide)]
      refine ⟨h.recache fun b e hb ↦ ?_, rfl⟩
      rw [KeyMap.find?_erase] at hb
      split_ifs at hb
      exact Or.inl hb

theorem makeRoom_pristine (h : d.Pristine) :
    makeRoom.Holds d (fun _ d' ↦ d'.Pristine ∧ d'.image = d.image) (fun _ _ ↦ False) := by
  unfold makeRoom evictOne
  rw [Exec.holds_bind, Exec.holds_read]
  split_ifs
  · rw [Exec.holds_bind, Exec.holds_read]
    exact evictFrom_pristine h _
  · exact ⟨h, rfl⟩

theorem fetch_pristine (h : d.Pristine) (b : ℕ) :
    (fetch b).Holds d
      (fun data d' ↦ data = d.image.block b ∧ ∃ img, d' = { d with image := img } ∧ Image.Grown d.image img ∧
        Image.Spends d.image img)
      (fun _ d' ↦ ∃ img, d' = { d with image := img } ∧ Image.Grown d.image img ∧ Image.Spends d.image img) := by
  unfold fetch
  rw [Exec.holds_bind, Exec.holds_read]
  split_ifs with hin
  · rw [onImage, Exec.holds_zoom]
    exact ((Image.readBlock_spec d.image b hin).and (Image.readBlock_spends b d.image)).mono
      (fun _ img hread ↦ ⟨hread.1.1, img, rfl, hread.1.2, hread.2⟩) fun _ img he ↦ ⟨img, rfl, he.1.2, he.2⟩
  · rw [Exec.holds_bind, onImage, Exec.holds_zoom]
    refine ((Image.growTo_spec d.image _).and (Image.growTo_spends _ d.image)).mono (fun _ img hgrown ↦ ?_)
      fun _ img he ↦ ⟨img, rfl, he.1.2, he.2⟩
    exact ⟨(Image.block_eq_zero (h.ok.mul_le_len hin)).symm, img, rfl, hgrown.1.1, hgrown.2⟩

/-- Reading a block writes nothing back when nothing is dirty. -/
theorem get_unwritten (b : ℕ) : (get b).Respects Unwritten := by
  intro d
  by_cases h : d.Pristine
  · unfold get
    rw [Exec.holds_bind, Exec.holds_read]
    cases hhit : d.cache.map.find? b with
    | some entry =>
      exact fun _ ↦ ⟨h.recache fun _ _ he ↦ Or.inl he, .refl d.image, refl_of Image.Spends d.image⟩
    | none =>
      refine (makeRoom_pristine h).bind ?_ (fun _ _ he ↦ he.elim)
      rintro _ d₁ ⟨h₁, himage⟩
      refine (fetch_pristine h₁ b).bind ?_ ?_
      · rintro data _ ⟨rfl, img, rfl, hgrown, hspends⟩ _
        have hfilled := h₁.grown hgrown
        refine ⟨hfilled.recache fun c e he ↦ ?_, by rw [← himage]; exact ⟨hgrown, hspends⟩⟩
        change (d₁.cache.map.insert b ⟨d₁.image.block b, false⟩).find? c = some e at he
        rw [KeyMap.find?_insert] at he
        split_ifs at he with hc
        · cases he
          exact Or.inr (by rw [hc, hgrown.block])
        · exact Or.inl he
      · rintro _ _ ⟨img, rfl, hgrown, hspends⟩ _
        exact ⟨h₁.grown hgrown, by rw [← himage]; exact ⟨hgrown, hspends⟩⟩
  · exact Exec.holds_of_forall (fun _ _ _ h' ↦ absurd h' h) (fun _ _ _ h' ↦ absurd h' h)

end BlockCache

/-! ## The first extents of the table -/

theorem Contiguous.left {first : ℕ} {a b : List Extent} (h : Contiguous first (a ++ b)) : Contiguous first a := by
  induction a generalizing first with
  | nil => trivial
  | cons e rest ih =>
    obtain ⟨hlog, hpos, hlt, hphys, hcomp, hrest⟩ := h
    exact ⟨hlog, hpos, hlt, hphys, hcomp, ih hrest⟩

namespace Superblock

variable {sb : Superblock}

theorem decodeBody_of_ok {buf : Buf superblockSize} {sb : Superblock} (h : decode buf = .ok sb) :
    sb = decodeBody buf := by
  unfold decode at h
  split_ifs at h
  cases h
  rfl

theorem truncated_append (sb : Superblock) :
    sb.inodeTableExtents = sb.truncated.inodeTableExtents ++ sb.inodeTableExtents.drop maxTableExtents :=
  (List.take_append_drop _ _).symm

/-- The slots of the first extents are where they were. -/
theorem truncated_slot (sb : Superblock) (h : Contiguous 0 sb.inodeTableExtents) {ino : ℕ}
    (hino : ino < inodeTableCapacity sb.truncated) :
    ∃ place, mapInodeSlot sb.truncated ino = .ok place ∧ mapInodeSlot sb ino = .ok place := by
  have hleft : Contiguous 0 sb.truncated.inodeTableExtents := by
    rw [truncated_append] at h
    exact h.left
  obtain ⟨phys, hphys⟩ := exists_slot hleft hino
  refine ⟨_, hphys, ?_⟩
  unfold mapInodeSlot at hphys ⊢
  rw [truncated_append sb, mapExtents_append]
  cases hmap : mapExtents sb.truncated.inodeTableExtents (ino / inodesPerBlock) with
  | none =>
    rw [hmap] at hphys
    cases hphys
  | some p =>
    rw [hmap] at hphys
    exact hphys

end Superblock

/-! ## Scanning the table -/

namespace Inner

variable {s t m : Inner} {writable : Bool} {cacheBlocks : ℕ} {sync : SyncMode} {env : Env}

/-- Only the cache differs, and nothing was written. -/
def Unwritten (s t : Inner) : Prop := OnlyCache s t ∧ CachedImage.Unwritten s.disk t.disk

instance : IsPreorder Inner Unwritten where
  refl s := ⟨refl_of OnlyCache s, refl_of CachedImage.Unwritten s.disk⟩
  trans _ _ _ hab hbc := ⟨trans_of OnlyCache hab.1 hbc.1, trans_of CachedImage.Unwritten hab.2 hbc.2⟩

theorem blockRead_unwritten (x : Fs Block) (h : BlockRead x) : x.Respects Unwritten := by
  obtain ⟨b, rfl⟩ := h
  intro s
  have hread := BlockCache.get_unwritten b s.disk
  refine (onCache_onlyCache _ s).and ?_ |>.mono (fun _ _ ht ↦ ht) (fun _ _ ht ↦ ht)
  rw [onCache, Exec.holds_zoom]
  exact hread

theorem scanInode_made (acc : ℕ × List ℕ) (ino : ℕ) : (scanInode acc ino).Made BlockRead := by
  unfold scanInode
  refine .bind (.attempt (readInodeRaw_made ino)) fun found ↦ ?_
  split <;> exact .pure _

theorem scan_made (items : List ℕ) (acc : ℕ × List ℕ) : (Exec.foldE scanInode acc items).Made BlockRead :=
  .foldE scanInode_made items acc

/-- Only scanned numbers are found free. -/
theorem scan_range (items : List ℕ) (acc : ℕ × List ℕ) (s : Inner) :
    (Exec.foldE scanInode acc items).Holds s (fun found _ ↦ ∀ k ∈ found.2, k ∈ acc.2 ∨ k ∈ items)
      (fun _ _ ↦ True) := by
  refine (Exec.holds_foldE (fun rest (next : ℕ × List ℕ) _ ↦ rest ⊆ items ∧ ∀ k ∈ next.2, k ∈ acc.2 ∨ k ∈ items) ?_
    items ⟨fun _ h ↦ h, fun _ h ↦ Or.inl h⟩).mono (fun _ _ h ↦ h.2) fun _ _ he ↦ he
  rintro ino rest next t ⟨hrest, hnext⟩
  have hmem : ino ∈ items := hrest List.mem_cons_self
  have hrest' : rest ⊆ items := fun _ h ↦ hrest (List.mem_cons_of_mem _ h)
  unfold scanInode
  refine (Exec.holds_of_forall (fun _ _ _ ↦ trivial) fun _ _ _ ↦ trivial :
    (Exec.attempt (readInodeRaw ino)).Holds t (fun _ _ ↦ True) (fun _ _ ↦ True)).bind ?_ fun _ _ _ ↦ trivial
  intro found u _
  split
  · exact ⟨hrest', hnext⟩
  · rw [Exec.holds_pure]
    refine ⟨hrest', fun k hk ↦ ?_⟩
    dsimp only at hk
    split_ifs at hk
    · rcases List.mem_append.mp hk with hk | hk
      · exact hnext k hk
      · exact Or.inr (List.mem_singleton.mp hk ▸ hmem)
    · exact hnext k hk

/-- The numbers a scan goes through. -/
def scannedNumbers (sb : Superblock) : List ℕ := List.range' 1 (min sb.nextInode (inodeTableCapacity sb) - 1)

theorem mem_scannedNumbers {sb : Superblock} {k : ℕ} :
    k ∈ scannedNumbers sb ↔ 0 < k ∧ k < sb.nextInode ∧ k < inodeTableCapacity sb := by
  unfold scannedNumbers
  rw [List.mem_range'_1]
  omega

/-- What the scan found in `u` is noted. -/
def noteFree (found : ℕ × List ℕ) (u : Inner) : Inner :=
  { u with
    sb := { u.sb with inodeCount := found.1, freeInodeCount := found.2.length }
    freeInodes := found.2 }

theorem rebuildFreeInodes_eq : rebuildFreeInodes = (Exec.read (·.sb) >>= fun sb ↦
    Exec.foldE scanInode (0, []) (scannedNumbers sb) >>= fun found ↦ Exec.modify (noteFree found)) := rfl

theorem rebuildFreeInodes_reads (s : Inner) :
    rebuildFreeInodes.Holds s (fun _ t ↦ ∃ found u, t = noteFree found u ∧ Unwritten s u ∧
      ∀ k ∈ found.2, k ∈ scannedNumbers s.sb) (fun _ _ ↦ True) := by
  rw [rebuildFreeInodes_eq, Exec.holds_bind, Exec.holds_read]
  have hscan := ((scan_made (scannedNumbers s.sb) (0, [])).respects blockRead_unwritten s).and
    (scan_range (scannedNumbers s.sb) (0, []) s)
  refine hscan.bind ?_ (fun _ _ _ ↦ trivial)
  rintro found u ⟨hunwritten, hfound⟩
  rw [Exec.holds_modify]
  exact ⟨found, u, rfl, hunwritten, fun k hk ↦ (hfound k hk).resolve_left List.not_mem_nil⟩

/-- The scan always ends: what cannot be read is taken for free. -/
theorem rebuildFreeInodes_returns (s : Inner) : ∃ t, rebuildFreeInodes s = .ok () t := by
  have hscan : (Exec.foldE scanInode (0, []) (scannedNumbers s.sb)).Returns :=
    (scan_made _ _).returns fun x hx ↦ by
      obtain ⟨b, rfl⟩ := hx
      exact .zoom (BlockCache.get_returns b)
  have herr : (Exec.foldE scanInode (0, []) (scannedNumbers s.sb)).Holds s (fun _ _ ↦ True) (fun _ _ ↦ False) := by
    refine Exec.holds_foldE (fun _ _ _ ↦ True) ?_ _ trivial
    intro ino rest acc t _
    unfold scanInode
    rw [Exec.holds_bind, Exec.holds_attempt]
    refine Exec.holds_of_forall (fun found u _ ↦ ?_) fun e u _ ↦ ?_
    · split <;> exact trivial
    · exact trivial
  rw [rebuildFreeInodes_eq, Exec.bind_apply, Exec.read_apply]
  dsimp only
  rw [Exec.bind_apply]
  cases hrun : Exec.foldE scanInode (0, []) (scannedNumbers s.sb) s with
  | ok found u => exact ⟨noteFree found u, rfl⟩
  | err e u => exact (herr.of_err hrun).elim
  | panic => exact absurd hrun (hscan s)

/-- A filesystem opened from an image with the superblock `base`. -/
structure Reopened (img : Image) (base : Superblock) (m : Inner) : Prop where
  pristine : m.disk.Pristine
  bytes : m.image.bytes = img.bytes
  len_le : img.len ≤ m.image.len
  sb : m.sb = { base.truncated with inodeCount := m.sb.inodeCount, freeInodeCount := m.sb.freeInodeCount }
  free : ∀ k ∈ m.freeInodes, k ∈ scannedNumbers base.truncated

theorem mounted_pristine {img : Image} (hok : img.Ok) (sb : Superblock) (alloc : Allocator) :
    (mounted img sb alloc writable cacheBlocks sync env).disk.Pristine where
  ok := hok
  clean _ _ he := nomatch he

/-- `open` from the mounted state on. -/
def scanMounted (inner : Inner) : Exec Error Image Inner := fun _ ↦
  match rebuildFreeInodes inner with
  | .ok _ s => .ok s s.image
  | .err e s => .err e s.image
  | .panic => .panic

theorem scanMounted_ok {base : Inner} {img rest : Image} :
    scanMounted base img = .ok m rest ↔ rebuildFreeInodes base = .ok () m ∧ rest = m.image := by
  unfold scanMounted
  cases hrun : rebuildFreeInodes base with
  | ok _ u =>
    dsimp only
    constructor
    · intro h
      cases h
      exact ⟨rfl, rfl⟩
    · rintro ⟨h, rfl⟩
      cases h
      rfl
  | err e u =>
    constructor
    · intro h
      cases h
    · rintro ⟨h, -⟩
      cases h
  | panic =>
    constructor
    · intro h
      cases h
    · rintro ⟨h, -⟩
      cases h

theorem openImage_eq : openImage writable cacheBlocks sync env =
    (loadMount writable cacheBlocks sync env >>= scanMounted) := rfl

/-- `open` after the superblock has been read. -/
theorem openImage_of_superblock {img img₁ img₂ : Image} {sb : Superblock}
    (hfile : Image.openFile writable img = .ok () img₁) (hread : readSuperblock img₁ = .ok sb img₂) :
    openImage writable cacheBlocks sync env img =
      (mountWith writable cacheBlocks sync env sb >>= scanMounted) img₂ := by
  rw [openImage_eq, loadMount_eq, Exec.bind_apply, Exec.bind_apply, hfile, Exec.bind_apply]
  dsimp only
  rw [Exec.bind_apply, hread]

theorem ofBytes_superblock (img : Image) :
    Buf.ofBytes superblockSize ((List.range' 0 superblockSize).map img.bytes) = img.block 0 := by
  rw [← Image.ofBytes_range img 0, Nat.zero_mul]
  rfl

/-- Reading a superblock that decodes, from a host that answers. -/
theorem readSuperblock_decodes {img : Image} (hfaults : img.faults = []) (hlen : superblockSize ≤ img.len)
    {sb : Superblock} (hdecode : Superblock.decode (img.block 0) = .ok sb) : readSuperblock img = .ok sb img := by
  unfold readSuperblock
  rw [Exec.bind_apply, Image.readExactAt_answers hfaults (by rwa [Nat.zero_add])]
  dsimp only
  rw [ofBytes_superblock, hdecode]
  rfl

theorem openImage_ok {img rest : Image} (h : openImage writable cacheBlocks sync env img = .ok m rest) :
    ∃ base img', loadMount writable cacheBlocks sync env img = .ok base img' ∧ rebuildFreeInodes base = .ok () m := by
  rw [openImage_eq, Exec.bind_ok_iff] at h
  obtain ⟨base, img', hload, hscan⟩ := h
  exact ⟨base, img', hload, (scanMounted_ok.mp hscan).1⟩

theorem openImage_reads {img rest : Image} {sb : Superblock} (hok : img.Ok) (hblock : img.block 0 = sb.encode)
    (hsb : sb.InRange) (hjournal : Journal.Inert img sb.truncated) (h : openImage writable cacheBlocks sync env img = .ok m rest) :
    Reopened img sb m := by
  obtain ⟨base, img', hload, hscan⟩ := openImage_ok h
  obtain ⟨-, hsame, hbase⟩ := (loadMount_reads hblock hsb hjournal).of_ok hload
  obtain ⟨found, u, rfl, ⟨honly, hunwritten⟩, hfree⟩ := (rebuildFreeInodes_reads base).of_ok hscan
  have hpristine : base.disk.Pristine := by
    rw [hbase]
    exact mounted_pristine (hsame.ok hok) _ _
  have hsb₀ : base.sb = sb.truncated := by rw [hbase]; rfl
  have hsb₁ : u.sb = base.sb := by rw [honly]
  obtain ⟨hpristine', hgrown, -⟩ := hunwritten hpristine
  refine ⟨hpristine', hgrown.bytes.trans hsame.bytes, hsame.len.symm.trans_le hgrown.len_le, ?_, fun k hk ↦ ?_⟩
  · change ({ u.sb with inodeCount := _, freeInodeCount := _ } : Superblock) = _
    rw [hsb₁, hsb₀]
    rfl
  · rw [← hsb₀]
    exact hfree k hk

/-- The slot in the table of the opened filesystem. -/
theorem Reopened.slot {img : Image} {base : Superblock} (h : Reopened img base m) {raw : Buf inodeSize} {k : ℕ}
    (hbytes : img.bytes = t.image.bytes) (htable : base.inodeTableExtents = t.sb.inodeTableExtents)
    (hcontiguous : Contiguous 0 t.sb.inodeTableExtents) (hsettled : ∀ b, ¬t.disk.DirtyAt b) (hslot : t.SlotIs k raw)
    (hk : k < inodeTableCapacity base.truncated) :
    ∃ phys off, mapInodeSlot m.sb k = .ok (phys, off) ∧ (m.disk.view phys).sub off inodeSize = raw := by
  obtain ⟨phys, off, hmap, hcopies⟩ := hslot
  obtain ⟨place, hplace, hold⟩ := Superblock.truncated_slot base (by rw [htable]; exact hcontiguous) hk
  have hsame : mapInodeSlot t.sb k = mapInodeSlot base k := by
    unfold mapInodeSlot
    rw [htable]
  rw [hsame, hold] at hmap
  cases hmap
  have hm : mapInodeSlot m.sb k = mapInodeSlot base.truncated k := by
    rw [h.sb]
    rfl
  have hblock : m.image.block phys = t.image.block phys := by
    unfold Image.block
    rw [h.bytes, hbytes]
  refine ⟨phys, off, hm.trans hplace, ?_⟩
  rw [h.pristine.view, show m.disk.image = m.image from rfl, hblock]
  exact hcopies.2 (hsettled phys)

/-! ## After a completed flush -/

/-- A filesystem after a completed flush, whose journal holds no whole blocks. -/
structure Flat (t : Inner) : Prop where
  tidy : t.Tidy
  clean : t.dirtyInodes = KeyMap.empty
  settled : ∀ b, ¬t.disk.DirtyAt b
  recorded : t.SbRecorded
  journal : Journal.Inert t.image t.sb

theorem Tidy.flat (h : s.Tidy) {order : FlushOrder} (hflush : flushAll order s = .ok () t)
    (hjournal : Journal.Inert t.image t.sb) : t.Flat := by
  obtain ⟨-, hclean, -, hsettled⟩ := (flushAll_syncs h.sound h.writable order).of_ok hflush
  exact ⟨((flushAll_stays h order).of_ok hflush).1.1, hclean, hsettled,
    (flushAll_records h.sound h.writable order).of_ok hflush, hjournal⟩

variable {img rest : Image}

theorem Flat.decodes (h : t.Flat) :
    Superblock.decode (t.image.block 0) = .ok (Superblock.decodeBody (t.image.block 0)) := by
  obtain ⟨total, htotal, hprimary, -⟩ := h.recorded
  have hrange : ({ t.sb with totalBlocks := total } : Superblock).InRange :=
    { h.tidy.inRange with totalBlocks := htotal }
  have hdecode := Superblock.decode_encode_truncated _ hrange
  rw [← hprimary] at hdecode
  rw [← Superblock.decodeBody_of_ok hdecode]
  exact hdecode

/-- What `open` finds in the image of a flushed filesystem. -/
theorem Flat.reopened (h : t.Flat) (himage : Image.SameFile t.image img)
    (hopen : openImage writable cacheBlocks sync env img = .ok m rest) :
    ∃ base, Reopened img base m ∧ base.inodeTableExtents = t.sb.inodeTableExtents ∧
      base.nextInode = t.sb.nextInode := by
  obtain ⟨total, htotal, hprimary, -⟩ := h.recorded
  have hrange : ({ t.sb with totalBlocks := total } : Superblock).InRange :=
    { h.tidy.inRange with totalBlocks := htotal }
  have hjournal : Journal.Inert img ({ t.sb with totalBlocks := total } : Superblock).truncated := by
    have hbase := h.journal
    unfold Journal.Inert Journal.areaOf at hbase ⊢
    rw [himage.bytes]
    exact hbase
  have hok := himage.ok h.tidy.sound.inv.geometry.image
  exact ⟨_, openImage_reads hok ((himage.block 0).trans hprimary) hrange hjournal hopen, rfl, rfl⟩

/-- The slot of an inode of the flushed filesystem, if the table it is opened with has it. -/
theorem Flat.slot (h : t.Flat) (himage : Image.SameFile t.image img) {base : Superblock}
    (hm : Reopened img base m) (htable : base.inodeTableExtents = t.sb.inodeTableExtents) {k : ℕ} {i : Inode}
    (hi : t.inodes.find? k = some i) (hk : k < inodeTableCapacity base.truncated) :
    ∃ phys off, mapInodeSlot m.sb k = .ok (phys, off) ∧ (m.disk.view phys).sub off inodeSize = i.encode := by
  have hinv := h.tidy.sound.inv
  have hclean : t.dirtyInodes.contains k = false := by
    rw [h.clean]
    rfl
  exact hm.slot himage.bytes htable hinv.geometry.table h.settled (hinv.onDisk.stored k i hi hclean).slot hk

/-! ## What the scan finds -/

/-- The host answers every read of a scan. -/
def ScanAnswered : List ℕ → Inner → Prop
  | [], _ => True
  | ino :: rest, s => Answers (readInodeRaw ino) s ∧ ∀ t, (readInodeRaw ino).Ends s t → ScanAnswered rest t

/-- Reading the slot, now or after other reads, tells whether the number is in use. -/
def Tells (s : Inner) (k : ℕ) (used : Bool) : Prop :=
  ∀ u, Looked s u → (readInodeRaw k).Holds u (fun found v ↦ found.isSome = used ∧ Looked u v) (fun e _ ↦ e.IsHost)

theorem scan_finds {base : Inner} {used : ℕ → Bool} : ∀ (items : List ℕ) (acc : ℕ × List ℕ) (u : Inner),
    Looked base u → (∀ k ∈ items, Tells base k (used k)) → ScanAnswered items u →
    (Exec.foldE scanInode acc items).Holds u
      (fun found _ ↦ found.2 = acc.2 ++ items.filter (fun k ↦ decide (firstUserIno ≤ k) && !used k)) (fun _ _ ↦ True)
  | [], acc, u, _, _, _ => by
    rw [List.filter_nil, List.append_nil]
    exact rfl
  | ino :: items, acc, u, hlooked, htells, hanswered => by
    obtain ⟨hanswer, hnext⟩ := hanswered
    have htell := htells ino List.mem_cons_self u hlooked
    rcases hanswer with ⟨found, v, hread⟩ | ⟨e, v, hread, hno⟩
    · obtain ⟨hused, hv⟩ := htell.of_ok hread
      have hrest := fun next ↦ scan_finds items next v (hlooked.trans hv)
        (fun k hk ↦ htells k (List.mem_cons_of_mem _ hk)) (hnext v (Or.inl ⟨found, hread⟩))
      have hattempt : Exec.attempt (readInodeRaw ino) u = .ok (.ok found) v := by
        unfold Exec.attempt
        rw [hread]
      have hstep : scanInode acc ino u = .ok (if found.isSome then acc.1 + 1 else acc.1,
          acc.2 ++ [ino].filter (fun k ↦ decide (firstUserIno ≤ k) && !used k)) v := by
        unfold scanInode
        rw [Exec.bind_eq_of_ok hattempt, List.filter_singleton, ← hused]
        cases found with
        | some i => simp
        | none => by_cases hino : firstUserIno ≤ ino <;> simp [hino]
      unfold Exec.foldE
      rw [Exec.holds_bind_of_ok hstep]
      refine (hrest _).mono (fun found' _ hfound ↦ ?_) fun _ _ _ ↦ trivial
      calc found'.2
          = (acc.2 ++ [ino].filter (fun k ↦ decide (firstUserIno ≤ k) && !used k)) ++
              items.filter (fun k ↦ decide (firstUserIno ≤ k) && !used k) := hfound
        _ = acc.2 ++ (ino :: items).filter (fun k ↦ decide (firstUserIno ≤ k) && !used k) := by
            rw [List.append_assoc, ← List.filter_append, List.singleton_append]
    · exact absurd (htell.of_err hread) hno

/-- The inode is in use and has a mode. -/
def inUse (t : Inner) (k : ℕ) : Bool := (t.inodes.find? k).any (fun i ↦ i.mode != 0)

/-- A fresh mount of the file sees what the flushed filesystem has stored. -/
theorem Flat.keepsBlocks (h : t.Flat) {base : Inner} (hcache : base.cache.map = KeyMap.empty)
    (hbytes : base.image.bytes = t.image.bytes) (ranges : List (ℕ × ℕ)) : KeepsBlocks ranges t base := by
  intro b _ P hP
  have hblock : base.image.block b = t.image.block b := by
    unfold Image.block
    rw [hbytes]
  refine ⟨fun e he ↦ ?_, fun _ ↦ ?_⟩
  · change base.cache.map.find? b = some e at he
    rw [hcache] at he
    cases he
  · change P (base.image.block b)
    rw [hblock]
    exact hP.2 (h.settled b)

theorem Flat.tells (h : t.Flat) {base : Inner} (hcache : base.cache.map = KeyMap.empty) (hok : base.image.Ok)
    (hbytes : base.image.bytes = t.image.bytes) {sb : Superblock} (hsb : base.sb = sb.truncated)
    (htable : sb.inodeTableExtents = t.sb.inodeTableExtents) (hnext : sb.nextInode = t.sb.nextInode) {k : ℕ}
    (hk : k ∈ scannedNumbers base.sb) : Tells base k (t.inUse k) := by
  rw [hsb] at hk
  obtain ⟨hpos, hlow, hcapacity⟩ := mem_scannedNumbers.mp hk
  have hinv := h.tidy.sound.inv
  have hkeep := h.keepsBlocks hcache hbytes
  have hslot : ∀ raw, t.SlotIs k raw → base.SlotIs k raw := by
    rintro raw ⟨phys, off, hmap, hcopies⟩
    obtain ⟨place, hplace, hold⟩ := Superblock.truncated_slot sb
      (by rw [htable]; exact hinv.geometry.table) hcapacity
    have hsame : mapInodeSlot t.sb k = mapInodeSlot sb k := by
      unfold mapInodeSlot
      rw [htable]
    rw [hsame, hold] at hmap
    cases hmap
    exact ⟨phys, off, by rw [hsb]; exact hplace,
      hkeep [(phys, 1)] phys (by rw [cover_cons, span_eq_one (by dsimp only; omega)]; omega) _ hcopies⟩
  intro u hu
  have hslot' : ∀ raw, t.SlotIs k raw → u.SlotIs k raw := by
    intro raw hraw
    obtain ⟨d, rfl, hquiet⟩ := hu
    exact SlotAll.step (t := base.withDisk d) (hslot raw hraw) rfl hquiet fun _ hb ↦ hb.elim
  have husb : u.sb = base.sb := by
    obtain ⟨d, rfl, -⟩ := hu
    rfl
  have hbound : ¬(k = 0 ∨ inodeTableCapacity u.sb ≤ k) := by
    rw [husb, hsb]
    omega
  unfold inUse
  cases hi : t.inodes.find? k with
  | none =>
    have hdead := hinv.onDisk.dead k hpos (by rw [← hnext]; exact hlow) hi
    have hvacant : u.Vacant k := Or.inr (Or.inr ((hslot' _ hdead).mono fun raw hraw ↦ by
      rw [hraw]
      exact zero_unused k))
    refine (readInodeRaw_vacant (hu.ok hok) hvacant).mono (fun found v hread ↦ ?_) fun _ _ he ↦ he
    rw [hread.1]
    exact ⟨rfl, hread.2⟩
  | some i =>
    have hclean : t.dirtyInodes.contains k = false := by
      rw [h.clean]
      rfl
    have hstored := hinv.onDisk.stored k i hi hclean
    have hxattr : u.XattrStored i := (hstored.xattr.keep (hkeep _)).keep (hu.keeps _)
    have hino : i.ino = k := (hinv.numbered.keys k i hi).2.2
    refine (readInodeRaw_stored (hu.ok hok) hino hbound (hslot' _ hstored.slot) hxattr (hinv.xattrBlock_lt hi)).mono
      (fun found v hread ↦ ⟨?_, hread.2⟩) fun _ _ he ↦ he
    rw [Option.any_some]
    rcases hread.1 with ⟨hmode, rfl⟩ | ⟨hmode, j, rfl, -⟩
    · rw [hmode]
      rfl
    · rw [Option.isSome_some, eq_comm, bne_iff_ne]
      exact hmode

/-- After the mount the free numbers are those of the table that are not in use. -/
theorem Flat.freeInodes (h : t.Flat) (himage : Image.SameFile t.image img)
    (hanswered : ∀ base img', loadMount writable cacheBlocks sync env img = .ok base img' →
      ScanAnswered (scannedNumbers base.sb) base)
    (hopen : openImage writable cacheBlocks sync env img = .ok m rest) :
    m.freeInodes = (scannedNumbers m.sb).filter (fun k ↦ decide (firstUserIno ≤ k) && !t.inUse k) := by
  obtain ⟨total, htotal, hprimary, -⟩ := h.recorded
  set sb : Superblock := { t.sb with totalBlocks := total } with hsb
  have hrange : sb.InRange := { h.tidy.inRange with totalBlocks := htotal }
  have hjournal : Journal.Inert img sb.truncated := by
    have hbase := h.journal
    unfold Journal.Inert Journal.areaOf at hbase ⊢
    rw [himage.bytes]
    exact hbase
  obtain ⟨base, img', hload, hscan⟩ := openImage_ok hopen
  obtain ⟨-, hsame, hbase⟩ := (loadMount_reads ((himage.block 0).trans hprimary) hrange hjournal).of_ok hload
  have hbase_sb : base.sb = sb.truncated := by rw [hbase]; rfl
  have hcache : base.cache.map = KeyMap.empty := by rw [hbase]; rfl
  have hok : base.image.Ok := hsame.ok (himage.ok h.tidy.sound.inv.geometry.image)
  have hfinds := scan_finds (scannedNumbers base.sb) (0, []) base (Looked.refl base)
    (fun k hk ↦ (h.tells hcache hok (hsame.bytes.trans himage.bytes) hbase_sb rfl rfl hk : Tells base k (t.inUse k)))
    (hanswered base img' hload)
  rw [rebuildFreeInodes_eq, Exec.bind_apply, Exec.read_apply] at hscan
  dsimp only at hscan
  rw [Exec.bind_ok_iff] at hscan
  obtain ⟨found, u, hfold, hnote⟩ := hscan
  cases hnote
  have honly := ((scan_made (scannedNumbers base.sb) (0, [])).respects blockRead_onlyCache).of_ok hfold
  have hsb' : u.sb = base.sb := by rw [honly]
  have hnumbers : scannedNumbers (noteFree found u).sb = scannedNumbers base.sb := by
    rw [← hsb']
    rfl
  rw [hnumbers]
  exact hfinds.of_ok hfold

end Inner

end LinuxFile
