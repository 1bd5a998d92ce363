import LinuxFile.Operations
import LinuxFile.Spec.ReadOnly
import LinuxFile.Theorems.Orphans

/-!
# Read-only mounts

Whatever a program asks of a filesystem that was opened for reading, the image keeps every byte, nothing waits to be
written, and files and directories give the answers they gave before.
-/

namespace LinuxFile

open LinuxFile.Inner

/-- The calls of a program: the operations, and the switch for the permission checks. -/
inductive Request where
  | operation (op : Operation)
  | checkPermissions (enable : Bool)

namespace Request

def exec : Request → Fs Unit
  | operation op => op.exec
  | checkPermissions enable => Exec.modify (fun s ↦ { s with checkPerm := enable })

end Request

theorem Operation.discard_still {α : Type} {m : Inner} {x : Fs α} (h : x.Respects (Still m)) :
    (Operation.discard x).Respects (Still m) := .bind h fun _ ↦ .pure ()

/-- No operation gets past the check for the right to write. -/
theorem Operation.exec_still (m : Inner) (op : Operation) : op.exec.Respects (Still m) := by
  cases op with
  | readData ino offset count => exact discard_still (reads_still.readData ino offset count)
  | writeData ino offset buf => exact discard_still (refused_still _)
  | truncateData ino newSize => exact refused_still _
  | setInodeCompression ino compression => exact refused_still _
  | readDirEntries ino => exact discard_still (reads_still.parseDir ino)
  | walk args depth cwd path => exact discard_still (reads_still.walk args depth cwd path)
  | createChild parent name mode uid gid rdev creds => exact discard_still (refused_still _)
  | unlinkName parent name rmdir creds => exact refused_still _
  | linkInto target parent name creds => exact refused_still _
  | rename oldParent oldName newParent newName creds => exact refused_still _
  | chmod ino mode creds => exact refused_still _
  | chown ino uid gid creds => exact refused_still _
  | setTimes ino times => exact refused_still _
  | stat ino => exact discard_still (.bind (reads_still.inode ino) fun _ ↦ .pure _)
  | getxattr ino name => exact discard_still (.bind (reads_still.inode ino) fun _ ↦ .ofOption _ _)
  | setxattr ino name value flags => exact refused_still _
  | listxattr ino => exact discard_still (.bind (reads_still.inode ino) fun _ ↦ .pure _)
  | removexattr ino name => exact refused_still _
  | incOpen ino => exact incOpen_still ino
  | decOpen ino => exact decOpen_still ino
  | dropInode ino => exact dropInode_still ino
  | flushCache order => exact flushCache_still order
  | flushCacheData order => exact .bind (flushCache_still order) fun _ ↦ hostCall_still
  | flushAll order => exact flushAll_still order
  | sync order => exact .bind (flushAll_still order) fun _ ↦ hostCall_still

theorem Request.exec_still (m : Inner) (request : Request) : request.exec.Respects (Still m) := by
  cases request with
  | operation op => exact op.exec_still m
  | checkPermissions enable => exact .modify fun _ ↦ still_retable rfl

namespace Inner

variable {m s u : Inner}

/-- A whole run of a mount whose memory mirrors the file. -/
theorem run_mirrors {calls : List (Inner × Request)} (hrun : Exec.Runs Request.exec u calls s) (hu : Mirrors m u) :
    Mirrors m s ∧ ∀ call ∈ calls, Mirrors m call.1 ∧
      ∀ k i, call.1.inodes.find? k = some i → s.inodes.find? k = some i := by
  have hstep : ∀ {request s t}, (Request.exec request).Ends s t → Still m s t := by
    intro request s t hends
    rcases hends with ⟨value, hok⟩ | ⟨error, herr⟩
    · exact (request.exec_still m).of_ok hok
    · exact (request.exec_still m).of_err herr
  have hall : ∀ {u s calls}, Exec.Runs Request.exec u calls s → Still m u s := by
    intro u s calls hrun
    induction hrun with
    | nil u => exact refl_of (Still m) u
    | cons hends hrest ih => exact trans_of (Still m) (hstep hends) ih
  refine ⟨(hall hrun hu).1, ?_⟩
  induction hrun with
  | nil u => exact fun call hcall ↦ absurd hcall List.not_mem_nil
  | cons hends hrest ih =>
    intro call hcall
    rcases List.mem_cons.mp hcall with rfl | hcall
    · exact ⟨hu, (trans_of (Still m) (hstep hends) (hall hrest) hu).2⟩
    · exact ih (hstep hends hu).1 call hcall

/-- Two states in which a call, when it returns, returns the same answer. -/
def SameAnswer {α : Type} (x : Fs α) (s t : Inner) : Prop :=
  ∀ a b s' t', x s = .ok a s' → x t = .ok b t' → a = b

/-- Between `u` and `s` no inode, no contents and no directory has changed. -/
structure Unchanged (u s : Inner) : Prop where
  memory : ∀ k i, u.inodes.find? k = some i → s.inodes.find? k = some i
  inode : ∀ ino, SameAnswer (getInode ino) u s
  data : ∀ ino offset count, SameAnswer (readData ino offset count) u s
  entries : ∀ ino, SameAnswer (parseDir ino) u s

theorem Mirrors.unchanged (hu : Mirrors m u) (hs : Mirrors m s)
    (hmemory : ∀ k i, u.inodes.find? k = some i → s.inodes.find? k = some i) : Unchanged u s where
  memory := hmemory
  inode ino _ _ _ _ ha hb := (getInode_settled ino).eq hu hs ha hb
  data ino offset count _ _ _ _ ha hb := (readData_settled ino offset count).eq hu hs ha hb
  entries ino _ _ _ _ ha hb := (parseDir_settled ino).eq hu hs ha hb

/-! ## Opening -/

variable {cacheBlocks : ℕ} {sync : SyncMode} {env : Env}

theorem readSuperblock_locked : readSuperblock.Respects Image.Locked := by
  unfold readSuperblock
  refine .bind (Image.readExactAt_locked _ _) fun buf ↦ ?_
  dsimp only
  cases Superblock.decode (Buf.ofBytes superblockSize buf) with
  | ok sb => exact .pure sb
  | error e => exact .bind (Image.readBlock_locked _) fun _ ↦ .ofExcept _

/-- What is mounted read-only before the table is scanned. -/
theorem mountWith_locked (sb : Superblock) (img : Image) : (mountWith false cacheBlocks sync env sb).Holds img
    (fun base img' ↦ Image.Locked img img' ∧
      ∃ alloc, base = mounted img' sb alloc false cacheBlocks sync env)
    (fun _ img' ↦ Image.Locked img img') := by
  have hrest : ∀ alloc img', Image.Locked img img' →
      (Exec.get >>= fun image ↦ pure (mounted image sb alloc false cacheBlocks sync env) :
        Exec Error Image Inner).Holds img'
      (fun base img' ↦ Image.Locked img img' ∧
        ∃ alloc, base = mounted img' sb alloc false cacheBlocks sync env)
      (fun _ img' ↦ Image.Locked img img') := fun alloc img' h ↦ ⟨h, alloc, rfl⟩
  unfold mountWith
  refine (Journal.replay_locked sb img).bind (fun _ img₁ h₁ ↦ ?_) (fun _ _ h ↦ h)
  split_ifs
  · exact (Allocator.readAllocBlocks_locked _).next h₁ (fun alloc img₂ h₂ ↦ hrest alloc img₂ h₂) fun _ _ h ↦ h
  · exact hrest _ img₁ h₁

/-- Scanning the table only reads blocks. -/
theorem rebuildFreeInodes_mirrors (h : Mirrors s s) : rebuildFreeInodes.Holds s
    (fun _ t ↦ ∃ found u, t = noteFree found u ∧ OnlyCache s u ∧ Mirrors s u) (fun _ _ ↦ True) := by
  have hblock : ∀ x, BlockRead x → x.Respects (Exec.Preserves (Mirrors s)) := by
    rintro _ ⟨b, rfl⟩
    exact (mirror_get b).respects
  have hmade := scan_made (scannedNumbers s.sb) (0, [])
  rw [rebuildFreeInodes_eq, Exec.holds_bind, Exec.holds_read]
  refine ((hmade.respects blockRead_onlyCache s).and (hmade.respects hblock s)).bind ?_ (fun _ _ _ ↦ trivial)
  rintro found u ⟨honly, hmirrors⟩
  rw [Exec.holds_modify]
  exact ⟨found, u, rfl, honly, hmirrors h⟩

theorem mounted_mirrors {img : Image} (hlocked : img.hostWritable = false) (sb : Superblock) (alloc : Allocator) :
    Mirrors (mounted img sb alloc false cacheBlocks sync env) (mounted img sb alloc false cacheBlocks sync env) where
  kin := ⟨rfl, ⟨hlocked, fun _ _ he ↦ nomatch he⟩, rfl, refl_of Image.SameFile img, rfl, rfl, rfl⟩
  inodes _ _ hi := nomatch hi
  record := heldClean_none

/-- Opening for reading leaves the image as it is, also when it fails. -/
theorem openImage_mirrors (image : Image) : (openImage false cacheBlocks sync env).Holds image
    (fun m _ ↦ Image.SameFile image m.image ∧ Mirrors m m) (fun _ image' ↦ Image.SameFile image image') := by
  rw [openImage_eq, loadMount_eq, bind_assoc]
  refine (Image.openFile_locks image).bind ?_ (fun _ _ h ↦ h)
  rintro _ img₁ ⟨hlocked, hfile⟩
  rw [bind_assoc]
  refine (readSuperblock_locked img₁).bind (fun sb img₂ h₂ ↦ ?_)
    (fun _ _ h ↦ trans_of Image.SameFile hfile (h hlocked).2)
  refine (mountWith_locked sb img₂).bind ?_
    (fun _ _ h ↦ trans_of Image.SameFile hfile (trans_of Image.Locked h₂ h hlocked).2)
  rintro base img₃ ⟨h₃, alloc, rfl⟩
  obtain ⟨hlocked₃, hfile₃⟩ := trans_of Image.Locked h₂ h₃ hlocked
  have hbase : Mirrors (mounted img₃ sb alloc false cacheBlocks sync env) _ := mounted_mirrors hlocked₃ sb alloc
  obtain ⟨m, hm⟩ := rebuildFreeInodes_returns (mounted img₃ sb alloc false cacheBlocks sync env)
  obtain ⟨found, u, rfl, honly, hu⟩ := (rebuildFreeInodes_mirrors hbase).of_ok hm
  rw [Exec.holds_iff_of_ok (scanMounted_ok.mpr ⟨hm, rfl⟩)]
  have hinodes : u.inodes = KeyMap.empty := by
    rw [honly]
    rfl
  have hrecord : u.recordCache = none := by
    rw [honly]
    rfl
  refine ⟨trans_of Image.SameFile hfile (trans_of Image.SameFile hfile₃ hu.kin.file), ?_, fun k i hi ↦ ?_, ?_⟩
  · exact ⟨hu.kin.refuses, hu.kin.frozen, hu.kin.clean, refl_of Image.SameFile u.image, rfl, rfl, rfl⟩
  · change u.inodes.find? k = some i at hi
    rw [hinodes] at hi
    exact nomatch hi
  · change HeldClean _ u.recordCache
    rw [hrecord]
    exact heldClean_none

/-! ## Runs -/

/-- A filesystem that was opened for reading from `image` changes nothing, whatever calls are made on it: the image
keeps its bytes and its length, no block, inode or record waits to be written, synchronizing and dropping write
nothing, and no inode, contents or directory differs from what it was at an earlier call. An opening that fails leaves
the image alone, too. -/
theorem openImage_readOnly (image : Image) (cacheBlocks : ℕ) (sync : SyncMode) (env : Env) :
    (openImage false cacheBlocks sync env).Holds image
      (fun m _ ↦ ∀ calls s, Exec.Runs Request.exec m calls s →
        Image.SameFile image s.image ∧ s.ReadOnly ∧
        (∀ order, flushAll order s = .ok () s) ∧
        (∀ order, flushCache order s = .ok () { s with recordCache := none }) ∧
        ∀ call ∈ calls, Unchanged call.1 s)
      (fun _ image' ↦ Image.SameFile image image') := by
  refine (openImage_mirrors image).mono ?_ (fun _ _ h ↦ h)
  rintro m _ ⟨hfile, hm⟩ calls s hrun
  obtain ⟨hs, hcalls⟩ := run_mirrors hrun hm
  have hreadOnly : s.ReadOnly := hs.readOnly
  refine ⟨trans_of Image.SameFile hfile hs.kin.file, hreadOnly, flushAll_readOnly hreadOnly,
    flushCache_readOnly hreadOnly, fun call hcall ↦ ?_⟩
  obtain ⟨hcall, hmemory⟩ := hcalls call hcall
  exact Mirrors.unchanged hcall hs hmemory

/-- The flushed filesystem, as far as it can be mounted for reading. -/
def lockedSample (s : Inner) : Bool :=
  (flushAll FlushOrder.inOrder s).okAnd fun _ t ↦
    t.image.faults.isEmpty && decide (superblockSize ≤ t.image.len) &&
      t.image.bytes (Superblock.journalStart * blockSize) != 0x4A &&
      (mountWith false 8 .none sampleEnv (Superblock.decodeBody (t.image.block 0))
        { t.image with hostWritable := false }).okAnd fun _ _ ↦ true

theorem lockedSample_opens (hs : s.Tidy) (h : lockedSample s = true) :
    ∃ (t m : Inner) (rest : Image), flushAll FlushOrder.inOrder s = .ok () t ∧
      openImage false 8 .none sampleEnv t.image = .ok m rest := by
  obtain ⟨_, t, hflush, ht⟩ := Outcome.exists_of_okAnd h
  rw [Bool.and_eq_true, Bool.and_eq_true, Bool.and_eq_true, bne_iff_ne] at ht
  obtain ⟨⟨⟨hfaults, hlen⟩, hjournal⟩, hmount⟩ := ht
  obtain ⟨base, img, hmount, -⟩ := Outcome.exists_of_okAnd hmount
  obtain ⟨m, hscan⟩ := rebuildFreeInodes_returns base
  have hno : t.image.faults = [] := List.isEmpty_iff.mp hfaults
  have hdecodes := (hs.flat hflush (Journal.inert_of_byte hjournal)).decodes
  let host : Image := { t.image with hostWritable := false }
  have hhost : host.faults = [] := hno
  have hread := readSuperblock_decodes hhost (of_decide_eq_true hlen) hdecodes
  refine ⟨t, m, m.image, hflush, ?_⟩
  rw [openImage_of_superblock (openFile_answers hno false) hread, Exec.bind_eq_of_ok hmount]
  exact scanMounted_ok.mpr ⟨hscan, rfl⟩

/-- No calls before the image is opened for reading. -/
def lockedRun : {ops : List Operation // (sampleCalls ops).okAnd (fun calls s ↦
    (calls.all fun call ↦ call.2.regular call.1) && lockedSample s) = true} := ⟨[], by decide +kernel⟩

/-- Calls that are refused, and a flush. -/
def readOnlyCalls : List Request :=
  [.operation (.setTimes rootIno ⟨some ⟨7, 0⟩, none, none⟩),
    .operation (.unlinkName rootIno [0x61] false Creds.root), .operation (.flushAll FlushOrder.inOrder)]

/-- A new filesystem is opened again for reading; the calls are refused or do nothing. -/
theorem openImage_readOnly_sample : ∃ (t m : Inner) (rest : Image) (calls : List (Inner × Request)) (s : Inner),
    openImage false 8 .none sampleEnv t.image = .ok m rest ∧
    Exec.Runs Request.exec m calls s ∧ calls.map Prod.snd = readOnlyCalls ∧ Image.SameFile t.image s.image ∧
    s.ReadOnly ∧ ∀ call ∈ calls, Unchanged call.1 s := by
  obtain ⟨-, -, s, -, -, -, hs, htest⟩ := sampleCalls_reached lockedRun.2
  obtain ⟨t, m, rest, -, hopen⟩ := lockedSample_opens hs.tidy htest
  have hall := (openImage_readOnly t.image 8 .none sampleEnv).of_ok hopen
  have hm : m.writable = false := (hall [] m (.nil m)).2.1.refuses
  have htimes : (Operation.setTimes rootIno ⟨some ⟨7, 0⟩, none, none⟩).exec m =
      .err (Error.fromErrno Error.EROFS) m := refused hm _
  have hunlink : (Operation.unlinkName rootIno [0x61] false Creds.root).exec m =
      .err (Error.fromErrno Error.EROFS) m := refused hm _
  have hrun : Exec.Runs Request.exec m (readOnlyCalls.map fun request ↦ (m, request)) m :=
    .cons (Or.inr ⟨_, htimes⟩) <| .cons (Or.inr ⟨_, hunlink⟩) <|
      .cons (Or.inl ⟨(), (hall [] m (.nil m)).2.2.1 FlushOrder.inOrder⟩) (.nil m)
  obtain ⟨hfile, hreadOnly, -, -, hunchanged⟩ := hall _ m hrun
  exact ⟨t, m, rest, _, m, hopen, hrun, rfl, hfile, hreadOnly, hunchanged⟩

end Inner

end LinuxFile
