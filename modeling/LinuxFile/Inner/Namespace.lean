import LinuxFile.Inner.Directory

/-!
# Names, links and attributes

The operations that create, remove and move names, and the life of an inode that no name or open
file refers to any more.
-/

namespace LinuxFile.Inner

/-! ## The end of an inode -/

/-- Zero the table slot of an inode number that has one. -/
def zeroSlot (ino : ℕ) : Fs Unit := do
  let sb ← Exec.read (·.sb)
  if ino < inodeTableCapacity sb then do
    let slot ← Exec.ofExcept (mapInodeSlot sb ino)
    onCache (BlockCache.getMut slot.1 (fun block ↦
      block.put slot.2 (List.replicate inodeSize 0)))
  else pure ()

def dropInode (ino : ℕ) : Fs Unit := do
  invalidateRecordCache ino
  let inode ← getInode ino
  truncateData ino 0
  Exec.when (inode.xattrBlock ≠ 0) (freeBlocks inode.xattrBlock 1)
  Exec.when (inode.extentTree ≠ 0 ∧ inode.dataKind = .extentTree)
    (freeBlocks inode.extentTree (max inode.extentTreeBlocks 1))
  Exec.modify (fun s ↦
    { s with inodes := s.inodes.erase ino, dirtyInodes := s.dirtyInodes.erase ino })
  zeroSlot ino
  Exec.when (firstUserIno ≤ ino) (Exec.modify (fun s ↦
    { s with
      freeInodes := s.freeInodes ++ [ino]
      sb := { s.sb with freeInodeCount := s.freeInodes.length + 1 } }))
  Exec.modify (fun s ↦ { s with sb := { s.sb with inodeCount := s.sb.inodeCount - 1 } })

def incOpen (ino : ℕ) : Fs Unit := do
  let count ← Exec.read (fun s ↦ (s.openCount.find? ino).getD 0)
  let count ← addU32 count 1
  Exec.modify (fun s ↦ { s with openCount := s.openCount.insert ino count })

def decOpen (ino : ℕ) : Fs Unit := do
  let s ← Exec.get
  match s.openCount.find? ino with
  | none => pure ()
  | some count =>
    if count - 1 ≠ 0 then
      Exec.modify (fun s ↦ { s with openCount := s.openCount.insert ino (count - 1) })
    else do
      Exec.modify (fun s ↦ { s with openCount := s.openCount.erase ino })
      if s.orphans.contains ino then do
        Exec.modify (fun s ↦ { s with orphans := s.orphans.erase ino })
        -- an inode that cannot be read counts as one without links
        let found ← Exec.attempt (getInode ino)
        let nlink := match found with
          | .ok i => i.nlink
          | .error _ => 0
        if nlink = 0 then dropInode ino else pure ()
      else pure ()

/-! ## Creating and removing names -/

/-- Add one link; the counter is a 32-bit number. -/
def addLink (ino : ℕ) (touch : Timespec → Inode → Inode) : Fs Unit := do
  let inode ← getInode ino
  let nlink ← addU32 inode.nlink 1
  let now ← Exec.read (·.env.now)
  getInodeMut ino (fun i ↦ touch now { i with nlink := nlink })

def dropLink (ino : ℕ) (touch : Timespec → Inode → Inode) : Fs Unit := do
  let now ← Exec.read (·.env.now)
  getInodeMut ino (fun i ↦ touch now { i with nlink := i.nlink - 1 })

def createChild (parent : ℕ) (name : Bytes) (mode : UInt16) (uid gid : UInt32) (rdev : UInt64)
    (creds : Creds) : Fs ℕ := do
  requireWrite
  Exec.ofExcept (validateName name)
  let dir ← getInode parent
  if dir.isDir = false then Exec.throw (Error.enotdir "not a directory")
  else do
    accessOk dir creds .write
    let found ← dirLookup parent name
    if found.isSome then Exec.throw (Error.eexist "file exists")
    else do
      let ino ← allocInode mode uid gid
      getInodeMut ino (fun child ↦
        { child with rdev := rdev, nlink := if child.isDir then 2 else child.nlink })
      Exec.when ((FileType.fromMode mode).isDir = true) (do
        let child ← getInode ino
        writeDirEntries ino child [⟨ino, .directory, dotName⟩, ⟨parent, .directory, dotdotName⟩]
        addLink parent (fun now i ↦ i.touchMtime now))
      dirInsert parent name ino (FileType.fromMode mode)
      pure ino

/-- Whether a directory has entries besides `.` and `..`. -/
def hasExtra (entries : List DirEntry) : Bool :=
  entries.any (fun e ↦ e.name != dotName && e.name != dotdotName)

/-- In a sticky directory only the owner of the file or of the directory may remove a name. -/
def checkSticky (parent : ℕ) (name : Bytes) (dir : Inode) (creds : Creds) : Fs Unit := do
  let checkPerm ← Exec.read (·.checkPerm)
  if checkPerm = true ∧ dir.mode &&& sIsvtx ≠ 0 ∧ creds.isSuperuser = false then do
    let found ← dirLookup parent name
    let entry ← Exec.ofOption (Error.enoent "no such file or directory") found
    let child ← getInode entry.1
    if creds.fsuid ≠ dir.uid ∧ creds.fsuid ≠ child.uid then
      Exec.throw (Error.eacces "sticky bit")
    else pure ()
  else pure ()

/-- `rmdir` takes empty directories, `unlink` everything else. -/
def checkRemovable (rmdir : Bool) (ino : ℕ) (ft : FileType) : Fs Unit :=
  if rmdir then
    if ft.isDir = false then Exec.throw (Error.enotdir "not a directory")
    else do
      let entries ← parseDir ino
      if hasExtra entries then Exec.throw Error.enotempty else pure ()
  else if ft.isDir then Exec.throw (Error.eisdir "is a directory")
  else pure ()

/-- An inode whose last name is gone is dropped, or kept as an orphan while it is open. -/
def releaseIfUnlinked (ino : ℕ) : Fs Unit := do
  let child ← getInode ino
  let opens ← Exec.read (fun s ↦ (s.openCount.find? ino).getD 0)
  if child.nlink = 0 then
    if opens = 0 then dropInode ino
    else Exec.modify (fun s ↦ { s with orphans := s.orphans.insert ino () })
  else pure ()

def unlinkName (parent : ℕ) (name : Bytes) (rmdir : Bool) (creds : Creds) : Fs Unit := do
  requireWrite
  Exec.ofExcept (validateName name)
  let dir ← getInode parent
  accessOk dir creds .write
  checkSticky parent name dir creds
  let found ← dirLookup parent name
  let entry ← Exec.ofOption (Error.enoent "no such file or directory") found
  checkRemovable rmdir entry.1 entry.2
  let _ ← dirRemove parent name
  Exec.when (entry.2.isDir = true) (dropLink parent (fun _ i ↦ i))
  dropLink entry.1 (fun now i ↦ i.touchCtime now)
  releaseIfUnlinked entry.1

def linkInto (target parent : ℕ) (name : Bytes) (creds : Creds) : Fs Unit := do
  requireWrite
  Exec.ofExcept (validateName name)
  let t ← getInode target
  if t.isDir then Exec.throw (Error.eperm "hard link to directory")
  else do
    let dir ← getInode parent
    accessOk dir creds .write
    let found ← dirLookup parent name
    if found.isSome then Exec.throw (Error.eexist "file exists")
    else do
      dirInsert parent name target t.fileType
      addLink target (fun now i ↦ i.touchCtime now)

/-! ## Moving names -/

/-- The climb of `is_ancestor` from `child` towards the root, at most `guard` steps. -/
def climbs (dir : ℕ) : ℕ → ℕ → Fs Bool
  | 0, child => pure (child == dir)
  | guard + 1, child =>
    if child = rootIno then pure (child == dir)
    else if child = dir then pure true
    else do
      let found ← dirLookup child dotdotName
      match found with
      | some (p, _) => climbs dir guard p
      | none => pure (child == dir)

def isAncestor (dir child : ℕ) : Fs Bool := climbs dir 4096 child

/-- Remove what stands at the target of a rename. Answers `false` when both names already are the
same inode. -/
def replaceTarget (newParent : ℕ) (newName : Bytes) (src : ℕ × FileType) (creds : Creds) :
    Fs Bool := do
  let found ← dirLookup newParent newName
  match found with
  | none => pure true
  | some (destIno, destFt) =>
    if src.1 = destIno then pure false
    else if src.2.isDir ≠ destFt.isDir then
      if src.2.isDir then Exec.throw (Error.enotdir "target is not a directory")
      else Exec.throw (Error.eisdir "target is a directory")
    else do
      Exec.when (destFt.isDir = true) (do
        let entries ← parseDir destIno
        if hasExtra entries then Exec.throw Error.enotempty else pure ())
      unlinkName newParent newName destFt.isDir creds
      pure true

/-- Point the `..` entry of a moved directory at its new parent. -/
def moveDotdot (src oldParent newParent : ℕ) : Fs Unit := do
  let entries ← parseDir src
  let inode ← getInode src
  writeDirEntries src inode (entries.map (fun e ↦
    if e.name = dotdotName then { e with ino := newParent } else e))
  dropLink oldParent (fun _ i ↦ i)
  addLink newParent (fun _ i ↦ i)

def rename (oldParent : ℕ) (oldName : Bytes) (newParent : ℕ) (newName : Bytes) (creds : Creds) :
    Fs Unit := do
  requireWrite
  Exec.ofExcept (validateName oldName)
  Exec.ofExcept (validateName newName)
  let od ← getInode oldParent
  let nd ← getInode newParent
  accessOk od creds .write
  accessOk nd creds .write
  let found ← dirLookup oldParent oldName
  let src ← Exec.ofOption (Error.enoent "no such file or directory") found
  if oldParent = newParent ∧ oldName = newName then pure ()
  else do
    let inside ← if src.2.isDir then isAncestor src.1 newParent else pure false
    if inside then Exec.throw (Error.einval "rename into descendant")
    else do
      let proceed ← replaceTarget newParent newName src creds
      Exec.when (proceed = true) (do
        let _ ← dirRemove oldParent oldName
        dirInsert newParent newName src.1 src.2
        Exec.when (src.2.isDir = true ∧ oldParent ≠ newParent) (moveDotdot src.1 oldParent newParent))

/-! ## Attributes -/

def chmod (ino : ℕ) (mode : UInt16) (creds : Creds) : Fs Unit := do
  requireWrite
  let inode ← getInode ino
  let s ← Exec.get
  if s.checkPerm = true ∧ creds.isSuperuser = false ∧ creds.fsuid ≠ inode.uid then
    Exec.throw (Error.eperm "chmod")
  else
    getInodeMut ino (fun i ↦
      { i with mode := (i.mode &&& sIfmt) ||| (mode &&& modePerm) }.touchCtime s.env.now)

/-- Who may give a file away: only the superuser changes the owner, and an owner may pick any of
its own groups. -/
def mayChown (inode : Inode) (uid gid : Option UInt32) (creds : Creds) : Bool :=
  (match uid with
  | some u => u == inode.uid
  | none => true) &&
  (match gid with
  | some g => creds.fsuid == inode.uid && (g == creds.fsgid || creds.groups.contains g)
  | none => true)

def chown (ino : ℕ) (uid gid : Option UInt32) (creds : Creds) : Fs Unit := do
  requireWrite
  let inode ← getInode ino
  let s ← Exec.get
  if s.checkPerm = true ∧ creds.isSuperuser = false ∧ mayChown inode uid gid creds = false then
    Exec.throw (Error.eperm "chown")
  else
    getInodeMut ino (fun i ↦
      { i with uid := uid.getD i.uid, gid := gid.getD i.gid }.touchCtime s.env.now)

def getxattr (ino : ℕ) (name : Bytes) : Fs Bytes := do
  let inode ← getInode ino
  let found := inode.xattr.find? (fun a ↦ a.1 == name)
  Exec.ofOption (Error.fromErrno Error.ENODATA) (found.map Prod.snd)

def setxattr (ino : ℕ) (name value : Bytes) (flags : UInt32) : Fs Unit := do
  requireWrite
  if name = [] ∨ 255 < name.length then Exec.throw (Error.einval "xattr name")
  else do
    let inode ← getInode ino
    let found := inode.xattr.any (fun a ↦ a.1 == name)
    if flags &&& xattrCreate ≠ 0 ∧ found = true then Exec.throw (Error.eexist "xattr exists")
    else if flags &&& xattrReplace ≠ 0 ∧ found = false then
      Exec.throw (Error.fromErrno Error.ENODATA)
    else do
      let now ← Exec.read (·.env.now)
      getInodeMut ino (fun i ↦
        { i with
          xattr :=
            match i.xattr.findIdx? (fun (a : Bytes × Bytes) ↦ a.1 == name) with
            | some k => i.xattr.set k (name, value)
            | none => i.xattr ++ [(name, value)] }.touchCtime now)

def removexattr (ino : ℕ) (name : Bytes) : Fs Unit := do
  requireWrite
  let inode ← getInode ino
  let now ← Exec.read (·.env.now)
  let kept := inode.xattr.filter (fun a ↦ a.1 != name)
  if kept.length = inode.xattr.length then do
    -- the inode has been marked dirty before the name is missed
    getInodeMut ino id
    Exec.throw (Error.fromErrno Error.ENODATA)
  else getInodeMut ino (fun i ↦ { i with xattr := kept }.touchCtime now)

end LinuxFile.Inner
