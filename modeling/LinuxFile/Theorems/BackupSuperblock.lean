import LinuxFile.Library.Agree
import LinuxFile.Spec.Syncing
import LinuxFile.Theorems.PersistedAllocator

/-!
# The copy of the superblock behind the journal

`open` looks for the copy where the first block says the journal ends. If the first block does not decode, nothing
else in it can be trusted either: the copy is found exactly when the four bytes of the journal length still point to
one.
-/

namespace LinuxFile

namespace Image

/-- The images may differ in their first block. -/
structure SameRest (img img' : Image) : Prop where
  bytes : ∀ i, blockSize ≤ i → img'.bytes i = img.bytes i
  len : img'.len = img.len
  faults : img'.faults = img.faults
  hostWritable : img'.hostWritable = img.hostWritable

variable {img img' : Image}

theorem SameRest.symm (h : SameRest img img') : SameRest img' img where
  bytes i hi := (h.bytes i hi).symm
  len := h.len.symm
  faults := h.faults.symm
  hostWritable := h.hostWritable.symm

theorem SameRest.block (h : SameRest img img') {b : ℕ} (hb : 0 < b) : img'.block b = img.block b := by
  apply Buf.ext_of_lt
  intro i hi
  rw [block_byte img' b hi, block_byte img b hi]
  exact h.bytes _ ((Nat.le_mul_of_pos_left blockSize hb).trans (Nat.le_add_right _ _))

theorem hostCall_overlooks : hostCall.Overlooks SameRest := by
  intro img img' h
  unfold Exec.Agree hostCall
  rw [h.faults]
  cases img.faults with
  | nil => exact ⟨rfl, h⟩
  | cons fault rest =>
    cases fault with
    | none => exact ⟨rfl, h.bytes, h.len, rfl, h.hostWritable⟩
    | some kind => exact rfl

theorem readBlock_overlooks {b : ℕ} (hb : 0 < b) : (readBlock b).Overlooks SameRest := by
  apply Exec.Overlooks.bind (.read fun _ _ h ↦ h.len.symm)
  intro len
  exact .ite (.throw _) (.bind hostCall_overlooks fun _ ↦ .read fun _ _ h ↦ (h.block hb).symm)

theorem readExactAt_overlooks {off : ℕ} (hoff : blockSize ≤ off) (count : ℕ) :
    (readExactAt off count).Overlooks SameRest := by
  apply Exec.Overlooks.bind (.read fun _ _ h ↦ h.len.symm)
  intro len
  apply Exec.Overlooks.ite (.throw _)
  apply Exec.Overlooks.bind hostCall_overlooks
  intro _
  apply Exec.Overlooks.read
  intro img img' h
  apply List.map_congr_left
  intro i hi
  exact (h.bytes i (hoff.trans (List.mem_range'_1.mp hi).1)).symm

theorem setLen_overlooks (n : ℕ) : (setLen n).Overlooks SameRest := by
  apply Exec.Overlooks.bind (.read fun _ _ h ↦ h.hostWritable.symm)
  intro writable
  apply Exec.Overlooks.ite (.throw _)
  apply Exec.Overlooks.bind hostCall_overlooks
  intro _
  apply Exec.Overlooks.modify
  intro img img' h
  refine ⟨fun i hi ↦ ?_, rfl, h.faults, h.hostWritable⟩
  simp only [setLenBytes, h.bytes i hi]

theorem writeAllAt_overlooks (data : Bytes) (off : ℕ) : (writeAllAt data off).Overlooks SameRest := by
  have grow : (growTo (off + data.length)).Overlooks SameRest :=
    .bind (.read fun _ _ h ↦ h.len.symm) fun len ↦ .ite (.pure ()) (setLen_overlooks _)
  apply Exec.Overlooks.bind (.read fun _ _ h ↦ h.len.symm)
  intro len
  apply Exec.Overlooks.bind (.when grow)
  intro _
  apply Exec.Overlooks.bind (.read fun _ _ h ↦ h.hostWritable.symm)
  intro writable
  apply Exec.Overlooks.ite (.throw _)
  apply Exec.Overlooks.bind hostCall_overlooks
  intro _
  apply Exec.Overlooks.modify
  intro img img' h
  refine ⟨fun i hi ↦ ?_, h.len, h.faults, h.hostWritable⟩
  simp only [writeBytes, h.len, h.bytes i hi]

end Image

theorem Journal.replay_overlooks (sb : Superblock) : (replay sb).Overlooks Image.SameRest := by
  have apply_op : ∀ op, (applyOp op).Overlooks Image.SameRest := by
    intro op
    cases op with
    | inode ino data => exact .pure ()
    | block b data => exact .ite (Image.writeAllAt_overlooks _ _) (.pure ())
  unfold replay
  apply Exec.Overlooks.ite (.pure 0)
  apply Exec.Overlooks.bind (Image.readExactAt_overlooks (le_of_eq (Nat.one_mul _).symm) _)
  intro buf
  exact .bind (.forEach (fun ops ↦ .forEach apply_op ops) _) fun _ ↦ .pure _

theorem Allocator.readSnapshot_overlooks {start : ℕ} (hstart : 0 < start) (nbytes count : ℕ) : ∀ (i : ℕ) (acc : Bytes),
    (readSnapshot start nbytes count i acc).Overlooks Image.SameRest := by
  induction count with
  | zero => exact fun i acc ↦ .pure _
  | succ count ih =>
    intro i acc
    exact .bind (Image.readBlock_overlooks (by omega)) fun _ ↦ .ite (.pure _) (ih _ _)

theorem Allocator.readAllocBlocks_overlooks (start : ℕ) : (readAllocBlocks start).Overlooks Image.SameRest := by
  unfold readAllocBlocks
  by_cases hzero : start = 0
  · rw [if_pos hzero]
    exact .throw _
  · have hstart : 0 < start := Nat.pos_of_ne_zero hzero
    rw [if_neg hzero]
    apply Exec.Overlooks.bind (Image.readBlock_overlooks hstart)
    intro hdr
    exact .ite (.throw _) (.bind (readSnapshot_overlooks hstart _ _ _ _) fun _ ↦ .ofExcept _)

/-- The superblocks agree on everything but the two counts that `open` finds anew. -/
def Superblock.SameUse (a b : Superblock) : Prop :=
  b = { a with inodeCount := b.inodeCount, freeInodeCount := b.freeInodeCount }

theorem Superblock.magic_of_decode {buf : Buf superblockSize} {sb : Superblock} (h : decode buf = .ok sb) :
    buf.slice 0 8 = magicBytes := by
  unfold decode at h
  split_ifs at h with _ hmagic
  exact not_not.mp hmagic

instance : IsPreorder Superblock Superblock.SameUse where
  refl _ := rfl
  trans _ _ _ hab hbc := by
    unfold Superblock.SameUse at *
    rw [hbc, hab]

theorem Superblock.SameUse.symm {a b : Superblock} (h : SameUse a b) : SameUse b a := by
  unfold SameUse at *
  rw [h]

namespace Image

/-- The image on a host that fails nothing. -/
def reliable (img : Image) : Image := { img with faults := [] }

/-- The same image with another first block. -/
def damaged (img : Image) (bad : Block) : Image := img.reliable.writeBytes 0 (bad.slice 0 blockSize)

/-- The block lies in the image and decodes to this superblock. -/
def HoldsCopy (img : Image) (b : ℕ) (sb : Superblock) : Prop :=
  b * blockSize + blockSize ≤ img.len ∧ ∃ found, Superblock.decode (img.block b) = .ok found ∧ sb.SameUse found

variable {img : Image}

theorem damaged_sameRest (img : Image) (bad : Block) : SameRest img.reliable (img.damaged bad) where
  bytes i hi := by
    have hout : ¬(i < img.len ∧ 0 ≤ i ∧ i < 0 + (bad.slice 0 blockSize).length) := by
      rw [Buf.slice_length]
      omega
    exact if_neg hout
  len := rfl
  faults := rfl
  hostWritable := rfl

theorem damaged_block (hlen : blockSize ≤ img.len) (bad : Block) : (img.damaged bad).block 0 = bad := by
  apply Buf.ext_of_lt
  intro i hi
  have hlength : (bad.slice 0 blockSize).length = blockSize := Buf.slice_length _ _ _
  have hin : 0 * blockSize + i < img.len ∧ 0 ≤ 0 * blockSize + i ∧
      0 * blockSize + i < 0 + (bad.slice 0 blockSize).length := by omega
  rw [block_byte _ 0 hi]
  refine (if_pos hin).trans ?_
  rw [Nat.zero_mul, Nat.zero_add, Nat.sub_zero, Buf.slice_getD bad hi, Nat.zero_add]

end Image

namespace Inner

variable {s t : Inner} {writable : Bool} {cacheBlocks : ℕ} {sync : SyncMode} {env : Env} {img img' : Image}
  {sb found : Superblock} {bad : Block}

/-- `open` succeeds and uses the superblock `sb`. -/
def OpensWith (writable : Bool) (cacheBlocks : ℕ) (sync : SyncMode) (env : Env) (sb : Superblock) (img : Image) :
    Prop :=
  ∃ m rest, openImage writable cacheBlocks sync env img = .ok m rest ∧ sb.SameUse m.sb

/-- What `open` reads between the superblock and the inode table. -/
def mountAlloc (sb : Superblock) : Exec Error Image Allocator := do
  let _ ← Journal.replay sb
  if sb.allocBlock ≠ 0 then Allocator.readAllocBlocks sb.allocBlock
  else pure (Allocator.new sb.firstData sb.totalBlocks)

theorem mountWith_eq : mountWith writable cacheBlocks sync env sb =
    (mountAlloc sb >>= fun alloc ↦ Exec.get >>= fun image ↦
      pure (mounted image sb alloc writable cacheBlocks sync env)) := by
  unfold mountWith mountAlloc
  rw [bind_assoc]
  apply congrArg
  funext _
  split_ifs <;> rfl

theorem mountAlloc_overlooks (sb : Superblock) : (mountAlloc sb).Overlooks Image.SameRest :=
  .bind (Journal.replay_overlooks sb) fun _ ↦ .ite (Allocator.readAllocBlocks_overlooks _) (.pure _)

/-- The journal and the allocator of this superblock can be read. -/
def Mounts (sb : Superblock) (img : Image) : Prop := ∃ alloc rest, mountAlloc sb img = .ok alloc rest

theorem Mounts.sameRest (h : Mounts sb img) (hsame : Image.SameRest img img') : Mounts sb img' := by
  obtain ⟨alloc, rest, hrun⟩ := h
  obtain ⟨rest', hrun', -⟩ := (mountAlloc_overlooks sb).of_ok hsame hrun
  exact ⟨alloc, rest', hrun'⟩

theorem Mounts.sameUse (h : Mounts sb img) (hsame : sb.SameUse found) : Mounts found img := by
  have heq : mountAlloc found = mountAlloc sb := by
    rw [hsame]
    rfl
  unfold Mounts
  rw [heq]
  exact h

theorem openFile_reliable (hfaults : img.faults = []) :
    Image.openFile writable img = .ok () { img with hostWritable := writable } := by
  unfold Image.openFile
  rw [Exec.bind_eq_of_ok (Image.hostCall_answers hfaults), Exec.bind_eq_of_ok (Image.hostCall_answers hfaults)]
  rfl

/-- The first block does not decode: the superblock is the one in the block that it points to. -/
theorem readSuperblock_backup {e : Error} (hfaults : img.faults = []) (hlen : superblockSize ≤ img.len)
    (hbad : Superblock.decode (img.block 0) = .error e) {rest : Image} :
    readSuperblock img = .ok found rest ↔
      (1 + (img.block 0).getU32 16) * blockSize + blockSize ≤ img.len ∧
        Superblock.decode (img.block (1 + (img.block 0).getU32 16)) = .ok found ∧ rest = img := by
  have hcopy : readSuperblock img = (Image.readBlock (1 + (img.block 0).getU32 16) >>= fun buf ↦
      Exec.ofExcept (Superblock.decode buf)) img := by
    unfold readSuperblock
    rw [Exec.bind_apply, Image.readExactAt_answers hfaults (by rwa [Nat.zero_add])]
    dsimp only
    rw [ofBytes_superblock, hbad]
    rfl
  rw [hcopy]
  by_cases hin : (1 + (img.block 0).getU32 16) * blockSize + blockSize ≤ img.len
  · rw [Exec.bind_eq_of_ok (Image.readBlock_answers hfaults hin), and_iff_right hin]
    cases Superblock.decode (img.block (1 + (img.block 0).getU32 16)) with
    | error e =>
      constructor
      · intro hrest
        cases hrest
      · intro hok
        cases hok.1
    | ok sb =>
      constructor
      · intro hrest
        cases hrest
        exact ⟨rfl, rfl⟩
      · rintro ⟨hok, rfl⟩
        cases hok
        rfl
  · constructor
    · intro hrest
      unfold Image.readBlock at hrest
      rw [bind_assoc, Exec.bind_apply, Exec.read_apply] at hrest
      dsimp only at hrest
      rw [if_pos (by omega)] at hrest
      cases hrest
    · intro hok
      exact absurd hok.1 hin

theorem scan_sameUse {base m : Inner} (hscan : rebuildFreeInodes base = .ok () m) : base.sb.SameUse m.sb := by
  obtain ⟨numbers, u, rfl, hunwritten, -⟩ := (rebuildFreeInodes_reads base).of_ok hscan
  have hcache := hunwritten.1
  unfold OnlyCache at hcache
  unfold Superblock.SameUse noteFree
  rw [hcache]

/-- `open` once the superblock is found. -/
theorem opensWith_iff {img₁ : Image} (hfile : Image.openFile writable img = .ok () img₁) :
    OpensWith writable cacheBlocks sync env sb img ↔
      ∃ found img₂, readSuperblock img₁ = .ok found img₂ ∧ sb.SameUse found ∧ Mounts found img₂ := by
  constructor
  · rintro ⟨m, rest, hopen, hsb⟩
    obtain ⟨base, img', hload, hscan⟩ := openImage_ok hopen
    rw [loadMount_eq, Exec.bind_eq_of_ok hfile, Exec.bind_ok_iff] at hload
    obtain ⟨found, img₂, hread, hmount⟩ := hload
    rw [mountWith_eq, Exec.bind_ok_iff] at hmount
    obtain ⟨alloc, img₃, hrun, hbase⟩ := hmount
    cases hbase
    exact ⟨found, img₂, hread, trans_of Superblock.SameUse hsb (scan_sameUse hscan).symm, alloc, _, hrun⟩
  · rintro ⟨found, img₂, hread, hsb, alloc, img₃, hrun⟩
    obtain ⟨m, hscan⟩ := rebuildFreeInodes_returns (mounted img₃ found alloc writable cacheBlocks sync env)
    refine ⟨m, m.image, ?_, trans_of Superblock.SameUse hsb (scan_sameUse hscan)⟩
    have hend : scanMounted (mounted img₃ found alloc writable cacheBlocks sync env) img₃ = .ok m m.image :=
      scanMounted_ok.mpr ⟨hscan, rfl⟩
    rw [openImage_of_superblock hfile hread, mountWith_eq, bind_assoc, Exec.bind_eq_of_ok hrun]
    exact hend

theorem opensWith_reliable (hlen : superblockSize ≤ img.len) (hdecode : Superblock.decode (img.block 0) = .ok sb) :
    OpensWith writable cacheBlocks sync env sb img.reliable ↔
      Mounts sb { img.reliable with hostWritable := writable } := by
  set ready : Image := { img.reliable with hostWritable := writable } with hready
  have hfirst : ready.block 0 = img.block 0 := rfl
  rw [← hfirst] at hdecode
  have hlength : superblockSize ≤ ready.len := hlen
  rw [opensWith_iff (openFile_reliable rfl), ← hready, readSuperblock_decodes rfl hlength hdecode]
  constructor
  · rintro ⟨found, img₂, hfound, -, hmounts⟩
    cases hfound
    exact hmounts
  · intro hmounts
    exact ⟨sb, _, rfl, refl_of Superblock.SameUse sb, hmounts⟩

/-- The image with a first block that does not decode opens as the image does if that block points to a copy. -/
theorem opensWith_damaged (hlen : superblockSize ≤ img.len) (hdecode : Superblock.decode (img.block 0) = .ok sb)
    {e : Error} (hbad : Superblock.decode bad = .error e) :
    OpensWith writable cacheBlocks sync env sb (img.damaged bad) ↔
      OpensWith writable cacheBlocks sync env sb img.reliable ∧ img.HoldsCopy (1 + bad.getU32 16) sb := by
  set broken : Image := { img.damaged bad with hostWritable := writable } with hbroken
  have hsame : Image.SameRest { img.reliable with hostWritable := writable } broken := by
    have hrest := Image.damaged_sameRest img bad
    exact ⟨hrest.bytes, hrest.len, hrest.faults, rfl⟩
  have hfirst : broken.block 0 = bad := Image.damaged_block hlen bad
  have hblock : broken.block (1 + bad.getU32 16) = img.block (1 + bad.getU32 16) := hsame.block (by omega)
  have hread : ∀ found rest, readSuperblock broken = .ok found rest ↔
      (1 + bad.getU32 16) * blockSize + blockSize ≤ img.len ∧
        Superblock.decode (img.block (1 + bad.getU32 16)) = .ok found ∧ rest = broken := by
    intro found rest
    have hfirstBad : Superblock.decode (broken.block 0) = .error e := by
      rw [hfirst]
      exact hbad
    have hfaults : broken.faults = [] := rfl
    have hcopy : readSuperblock broken = .ok found rest ↔ _ := readSuperblock_backup hfaults hlen hfirstBad
    rwa [hfirst, hblock] at hcopy
  rw [opensWith_reliable hlen hdecode, opensWith_iff (openFile_reliable rfl)]
  constructor
  · rintro ⟨found, img₂, hfound, huse, hmounts⟩
    obtain ⟨hin, hcopy, rfl⟩ := (hread found img₂).mp hfound
    exact ⟨(hmounts.sameUse huse.symm).sameRest hsame.symm, hin, found, hcopy, huse⟩
  · rintro ⟨hmounts, hin, found, hcopy, huse⟩
    exact ⟨found, broken, (hread found broken).mpr ⟨hin, hcopy, rfl⟩, huse, (hmounts.sameRest hsame).sameUse huse⟩

/-- What `flush_all` leaves: a superblock and its copy behind the journal. -/
theorem Reached.copied {order : FlushOrder} (hs : s.Reached) (hflush : flushAll order s = .ok () t) :
    superblockSize ≤ t.image.len ∧ ∃ sb, Superblock.decode (t.image.block 0) = .ok sb ∧
      (∃ total, sb = ({ t.sb with totalBlocks := total } : Superblock).truncated) ∧
      t.image.HoldsCopy (1 + t.sb.journalBlocks) sb := by
  have htidy := hs.tidy
  have hend := ((flushAll_stays htidy order).of_ok hflush).1.1
  obtain ⟨total, htotal, hprimary, hbackup⟩ := (flushAll_records htidy.sound htidy.writable order).of_ok hflush
  have hrange : ({ t.sb with totalBlocks := total } : Superblock).InRange := { hend.inRange with totalBlocks := htotal }
  have hdecode := Superblock.decode_encode_truncated _ hrange
  have hdata := hend.sound.inv.geometry.data
  have hinside := hend.sound.inv.geometry.inside
  have hroom : (1 + t.sb.journalBlocks) * blockSize + blockSize ≤ t.image.len := by
    rw [hdata] at hinside
    linarith
  refine ⟨(Nat.le_add_left _ _).trans hroom, _, by rw [hprimary]; exact hdecode, ⟨total, rfl⟩, hroom, _, ?_,
    refl_of Superblock.SameUse _⟩
  rw [← hdecode, ← hbackup]
  rfl

/-- The image of a completed flush opens: replay has nothing to write back, and the allocator is read. -/
theorem Reached.opens {order : FlushOrder} (hs : s.Reached) (hflush : flushAll order s = .ok () t)
    (hdecode : Superblock.decode (t.image.block 0) = .ok sb) (hjournal : Journal.Inert t.image t.sb)
    (hlength : (s.flushSpace order).alloc.encode.length < u32Limit) :
    OpensWith writable cacheBlocks sync env sb t.image.reliable := by
  obtain ⟨u, h⟩ := hs.shrinks hflush
  obtain ⟨hlen, _, hdecode', ⟨total, rfl⟩, hroom, -⟩ := hs.copied hflush
  rw [hdecode] at hdecode'
  cases hdecode'
  have halloc : (s.flushSpace order).alloc = u.alloc := congrArg Space.alloc h.space.symm
  rw [halloc] at hlength
  set sb : Superblock := ({ t.sb with totalBlocks := total } : Superblock).truncated with hsb
  set ready : Image := { t.image.reliable with hostWritable := writable } with hready
  have hplaced : sb.allocBlock ≠ 0 := h.placed
  have hinert : Journal.Inert ready sb := hjournal
  have hin : Superblock.journalStart * blockSize + sb.journalBlocks * blockSize ≤ ready.len := by
    rw [← Nat.add_mul]
    exact (Nat.le_add_right _ _).trans hroom
  obtain ⟨count, hreplay⟩ := Journal.replay_inert hinert rfl hin
  have hsame : Image.SameFile t.image ready := ⟨rfl, rfl⟩
  have hread := h.reads hlength hsame rfl
  refine (opensWith_reliable hlen hdecode).mpr ⟨u.alloc, ready, ?_⟩
  unfold mountAlloc
  rw [Exec.bind_eq_of_ok hreplay, if_pos hplaced]
  exact hread

/-- After `flush_all`, whatever replaces the first block and does not decode: `open` succeeds with the superblock from
before exactly when the number at bytes 16 to 19 of the new block leads to a copy, as the old one does, and the image
opened before. It did if the journal holds no whole blocks and the allocator fits its length field. -/
theorem backup_recovers_iff (writable : Bool) (cacheBlocks : ℕ) (sync : SyncMode) (env : Env) {order : FlushOrder}
    (hs : s.Reached) (hflush : flushAll order s = .ok () t) :
    ∃ sb, Superblock.decode (t.image.block 0) = .ok sb ∧ ∀ bad e, Superblock.decode bad = .error e →
      (OpensWith writable cacheBlocks sync env sb (t.image.damaged bad) ↔
        OpensWith writable cacheBlocks sync env sb t.image.reliable ∧ t.image.HoldsCopy (1 + bad.getU32 16) sb) ∧
      (bad.getU32 16 = t.sb.journalBlocks → t.image.HoldsCopy (1 + bad.getU32 16) sb) ∧
      (Journal.Inert t.image t.sb → (s.flushSpace order).alloc.encode.length < u32Limit →
        OpensWith writable cacheBlocks sync env sb t.image.reliable) := by
  obtain ⟨hlen, sb, hdecode, -, hcopy⟩ := hs.copied hflush
  refine ⟨sb, hdecode, fun bad e hbad ↦ ⟨opensWith_damaged hlen hdecode hbad, fun hplace ↦ ?_, hs.opens hflush hdecode⟩⟩
  rw [hplace]
  exact hcopy

theorem decode_error_of_magic (h : bad.slice 0 8 ≠ magicBytes) : ∃ e, Superblock.decode bad = .error e := by
  cases hbad : Superblock.decode bad with
  | ok found => exact absurd (Superblock.magic_of_decode hbad) h
  | error e => exact ⟨e, rfl⟩

/-- The sample filesystem is flushed, its journal and allocator can be read, and its journal is empty. -/
def flushedSample : Bool :=
  sampleImage.okAnd fun _ s ↦ (flushAll FlushOrder.inOrder s).okAnd fun _ t ↦
    (mountAlloc (Superblock.decodeBody (t.image.block 0)) { t.image.reliable with hostWritable := true }).okAnd
      (fun _ _ ↦ true) && (decide (t.sb.journalBlocks = 8) && decide ((t.image.block 1).slice 0 8 ≠ magicBytes))

theorem flushedSample_opens : ∃ s t sb, s.Reached ∧ flushAll FlushOrder.inOrder s = .ok () t ∧
    Superblock.decode (t.image.block 0) = .ok sb ∧ OpensWith true 8 .none sampleEnv sb t.image.reliable ∧
    t.sb.journalBlocks = 8 ∧ (t.image.block 1).slice 0 8 ≠ magicBytes := by
  have htest : flushedSample = true := by
    decide +kernel
  obtain ⟨_, s, hs, hflushed⟩ := Outcome.exists_of_okAnd htest
  obtain ⟨_, t, ht, hrest⟩ := Outcome.exists_of_okAnd hflushed
  rw [Bool.and_eq_true, Bool.and_eq_true] at hrest
  obtain ⟨alloc, rest, hrun, -⟩ := Outcome.exists_of_okAnd hrest.1
  have hreached : s.Reached := .created hs
  obtain ⟨hlen, sb, hdecode, -⟩ := hreached.copied ht
  rw [← Superblock.decodeBody_of_ok hdecode] at hrun
  exact ⟨s, t, sb, hreached, ht, hdecode, (opensWith_reliable hlen hdecode).mpr ⟨alloc, rest, hrun⟩,
    of_decide_eq_true hrest.2.1, of_decide_eq_true hrest.2.2⟩

/-- A first block that has nothing left but the length of the journal. -/
theorem backup_recovers_sample : ∃ s t sb e bad, s.Reached ∧ flushAll FlushOrder.inOrder s = .ok () t ∧
    Superblock.decode (t.image.block 0) = .ok sb ∧ Superblock.decode bad = .error e ∧
    OpensWith true 8 .none sampleEnv sb (t.image.damaged bad) := by
  obtain ⟨s, t, sb, hs, hflush, hdecode, hopens, hjournal, -⟩ := flushedSample_opens
  have hmagic : ((Buf.zero blockSize).putU32 16 8).slice 0 8 ≠ magicBytes := by
    decide +kernel
  obtain ⟨e, hbad⟩ := decode_error_of_magic hmagic
  obtain ⟨sb', hdecode', hrecovers⟩ := backup_recovers_iff true 8 .none sampleEnv hs hflush
  rw [hdecode] at hdecode'
  cases hdecode'
  obtain ⟨hiff, hcopy, -⟩ := hrecovers _ e hbad
  have hplace : ((Buf.zero blockSize).putU32 16 8).getU32 16 = t.sb.journalBlocks := by
    rw [hjournal]
    decide +kernel
  exact ⟨s, t, sb, e, _, hs, hflush, hdecode, hbad, hiff.mpr ⟨hopens, hcopy hplace⟩⟩

/-- A first block of zeros: the copy is looked for in the journal. -/
theorem zeroed_superblock_is_lost : ∃ s t sb e, s.Reached ∧ flushAll FlushOrder.inOrder s = .ok () t ∧
    Superblock.decode (t.image.block 0) = .ok sb ∧ OpensWith true 8 .none sampleEnv sb t.image.reliable ∧
    Superblock.decode (Buf.zero blockSize) = .error e ∧
    ¬OpensWith true 8 .none sampleEnv sb (t.image.damaged (Buf.zero blockSize)) := by
  obtain ⟨s, t, sb, hs, hflush, hdecode, hopens, -, hempty⟩ := flushedSample_opens
  have hmagic : (Buf.zero blockSize).slice 0 8 ≠ magicBytes := by
    decide +kernel
  obtain ⟨e, hbad⟩ := decode_error_of_magic hmagic
  have hplace : 1 + (Buf.zero blockSize).getU32 16 = 1 := by
    decide +kernel
  refine ⟨s, t, sb, e, hs, hflush, hdecode, hopens, hbad, fun hdamaged ↦ ?_⟩
  obtain ⟨-, found, hfound, -⟩ := ((opensWith_damaged (hs.copied hflush).1 hdecode hbad).mp hdamaged).2
  rw [hplace] at hfound
  exact hempty (Superblock.magic_of_decode hfound)

end Inner

end LinuxFile
