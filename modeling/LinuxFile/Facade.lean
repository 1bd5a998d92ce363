import LinuxFile.Context

/-!
# The filesystem as a whole

The calls of the crate's `LinuxFile` handle, made as the superuser from the root directory. A call takes
the lock for one section after another; `open_opts` resolves the path in a first section and counts the
new open file in a second.
-/

namespace LinuxFile

def OpenOptions.asFlags (o : OpenOptions) : UInt32 :=
  (if o.read && o.write then oRdwr else if o.write then oWronly else oRdonly) |||
    (if o.append then oAppend else 0) ||| (if o.truncate then oTrunc else 0) |||
    (if o.create then oCreat else 0) ||| (if o.createNew then oExcl else 0) |||
    (if o.nofollow then oNofollow else 0) ||| (if o.directory then oDirectory else 0)

namespace Facade

/-- `open_opts` on an inode that exists. -/
def openExisting (opts : OpenOptions) (ino : ℕ) : Fs Unit :=
  if opts.createNew then Exec.throw (Error.eexist "file exists")
  else do
    let inode ← Inner.getInode ino
    if opts.directory = true ∧ inode.isDir = false then Exec.throw (Error.enotdir "not a directory")
    else if inode.isDir = true ∧ opts.write = true ∧ opts.directory = false then
      Exec.throw (Error.eisdir "is a directory")
    else if opts.truncate then
      if inode.isFile = false then Exec.throw (Error.einval "truncate on non-file")
      else Inner.truncateData ino 0
    else pure ()

/-- The inode `open_opts` opens, found or created. -/
def openTarget (opts : OpenOptions) (resolved : Resolved) : Fs ℕ :=
  match resolved.ino with
  | some ino => do
    openExisting opts ino
    pure ino
  | none =>
    if opts.create = false ∧ opts.createNew = false then
      Exec.throw (Error.enoent "no such file or directory")
    else
      Inner.createChild resolved.parent resolved.name (sIfreg ||| applyUmask opts.mode 0o022)
        Creds.root.fsuid Creds.root.fsgid 0 Creds.root

/-- The walk `open_opts` starts with. -/
def openWalk (depth : ℕ) (path : UnixPath) (opts : OpenOptions) : Fs Resolved :=
  Inner.walk ⟨rootIno, !opts.nofollow, Creds.root⟩ depth rootIno path

def openOpts (depth : ℕ) (path : UnixPath) (opts : OpenOptions) : Fs File := do
  let resolved ← openWalk depth path opts
  let ino ← openTarget opts resolved
  -- the lock is given up here and taken again by `File::new`
  Inner.incOpen ino
  pure ⟨ino, opts.asFlags, 0⟩

/-! ## Names of inodes -/

/-- `stat` and `canonicalize` up to the inode: the path is resolved, a last link followed. -/
def resolve (depth : ℕ) (path : UnixPath) : Fs ℕ := do
  let resolved ← Inner.walk ⟨rootIno, true, Creds.root⟩ depth rootIno path
  Exec.ofOption (Error.enoent "no such file or directory") resolved.ino

/-- The loop of `path_of`: the names from `cur` up to the root, behind those found before. -/
def climbNames : ℕ → ℕ → List Bytes → Fs (List Bytes)
  | 0, _, components => pure components
  | rounds + 1, cur, components =>
    if cur = rootIno then pure components
    else do
      let up ← Inner.dirLookup cur dotdotName
      let parent := (up.map Prod.fst).getD rootIno
      let entries ← Inner.parseDir parent
      let entry ← Exec.ofOption (Error.enoent "orphaned inode")
        (entries.find? (fun e ↦ e.ino == cur && e.name != dotName && e.name != dotdotName))
      climbNames rounds parent (components ++ [entry.name])

def pathOf (target : ℕ) : Fs UnixPath :=
  if target = rootIno then pure [slash]
  else do
    let components ← climbNames 4096 target []
    pure (components.reverse.foldl UnixPath.push [slash])

def canonicalize (depth : ℕ) (path : UnixPath) : Fs UnixPath := do
  let ino ← resolve depth path
  -- the lock is given up here and taken again by `path_of`
  pathOf ino

end Facade

/-- `File::try_clone`: a new open file on the same inode. -/
def File.tryClone (f : File) : Fs File := do
  Inner.incOpen f.ino
  pure { f with pos := 0 }

end LinuxFile
