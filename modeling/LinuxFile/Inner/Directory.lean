import LinuxFile.Inner.Data

/-!
# Directories

A directory's entries are the data of its inode: a magic, a count, and per entry the inode number,
the name's length, a type byte and the name, padded to four bytes.
-/

namespace LinuxFile

structure DirEntry where
  ino : ℕ
  fileType : FileType
  name : Bytes
  deriving DecidableEq, Repr

def dirFt : FileType → UInt8
  | .file => 1
  | .directory => 2
  | .charDevice => 3
  | .blockDevice => 4
  | .fifo => 5
  | .socket => 6
  | .symlink => 7

def fromDirFt (v : UInt8) : FileType :=
  if v = 2 then .directory
  else if v = 3 then .charDevice
  else if v = 4 then .blockDevice
  else if v = 5 then .fifo
  else if v = 6 then .socket
  else if v = 7 then .symlink
  else .file

/-- `DIR1`. -/
def dirMagic : Bytes := [0x44, 0x49, 0x52, 0x31]

/-- Zero bytes after a name of `n` bytes. -/
def namePad (n : ℕ) : ℕ := (4 - n % 4) % 4

def encodeEntry (e : DirEntry) : Bytes :=
  leBytes 8 e.ino ++ leBytes 2 e.name.length ++ [dirFt e.fileType, 0] ++ e.name ++
    List.replicate (namePad e.name.length) 0

def encodeDir (entries : List DirEntry) : Bytes :=
  dirMagic ++ leBytes 4 entries.length ++ entries.flatMap encodeEntry

/-- Read `count` entries. The padding of the last name may be missing. -/
def decodeEntries : ℕ → Bytes → Except Error (List DirEntry)
  | 0, _ => .ok []
  | count + 1, rest =>
    if rest.length < 12 then .error (Error.eio "corrupt directory entry")
    else
      let nlen := leNat ((rest.drop 8).take 2)
      if rest.length < 12 + nlen then .error (Error.eio "corrupt directory name")
      else
        match decodeEntries count (rest.drop (12 + nlen + namePad nlen)) with
        | .error e => .error e
        | .ok entries =>
          .ok (⟨leNat (rest.take 8), fromDirFt (rest.getD 10 0), (rest.drop 12).take nlen⟩ :: entries)

/-- What `decode_dir` returns when there is memory for what it reserves. -/
def decodeDir (buf : Bytes) : Except Error (List DirEntry) :=
  if buf = [] then .ok []
  else if buf.length < 8 ∨ buf.take 4 ≠ dirMagic then .error (Error.eio "corrupt directory")
  else decodeEntries (leNat ((buf.drop 4).take 4)) (buf.drop 8)

/-- How the program stops without returning. -/
inductive Stop where
  /-- A slice reaches past the end of its buffer: a panic. -/
  | outOfBounds
  /-- `Vec::with_capacity` gets no memory: the process is aborted. -/
  | outOfMemory
  deriving DecidableEq, Repr

/-- A slice of `len` bytes at `off`. -/
def sliceAt (buf : Bytes) (off len : ℕ) : Except Stop Bytes :=
  if off + len ≤ buf.length then .ok ((buf.drop off).take len) else .error .outOfBounds

/-- The loop of `decode_dir`: `n` entries are still to come, the cursor is at `off`. -/
def scanEntries (buf : Bytes) : ℕ → ℕ → List DirEntry → Except Stop (Except Error (List DirEntry))
  | 0, _, out => .ok (.ok out)
  | n + 1, off, out =>
    if off + 12 > buf.length then .ok (.error (Error.eio "corrupt directory entry"))
    else do
      let ino ← sliceAt buf off 8
      let nlen ← sliceAt buf (off + 8) 2
      let ft ← sliceAt buf (off + 10) 1
      let off := off + 12
      let nlen := leNat nlen
      if off + nlen > buf.length then .ok (.error (Error.eio "corrupt directory name"))
      else do
        let name ← sliceAt buf off nlen
        scanEntries buf n (off + nlen + namePad nlen) (out ++ [⟨leNat ino, fromDirFt (ft.getD 0 0), name⟩])

/-- `decode_dir` with its cursor, in a process that has memory for a vector of `room` entries. -/
def scanDir (room : ℕ) (buf : Bytes) : Except Stop (Except Error (List DirEntry)) :=
  if buf = [] then .ok (.ok [])
  else if buf.length < 8 then .ok (.error (Error.eio "corrupt directory"))
  else do
    let magic ← sliceAt buf 0 4
    if magic ≠ dirMagic then .ok (.error (Error.eio "corrupt directory"))
    else do
      let n ← sliceAt buf 4 4
      -- The room for all entries is reserved before the first one is looked at.
      if room < leNat n then .error .outOfMemory
      else scanEntries buf (leNat n) 8 []

namespace Inner

def parseDir (ino : ℕ) : Fs (List DirEntry) := do
  let inode ← getInode ino
  if inode.isDir = false then Exec.throw (Error.enotdir "not a directory")
  else do
    let raw ← if 0 < inode.size then readData ino 0 inode.size else pure []
    Exec.ofExcept (decodeDir (resizeBytes raw inode.size))

/-- Replace the contents of a directory. -/
def writeDirEntries (ino : ℕ) (inode : Inode) (entries : List DirEntry) : Fs Unit := do
  putInode ino inode
  markDirty ino
  truncateData ino 0
  let _ ← writeData ino 0 (encodeDir entries)
  pure ()

def dirLookup (dirIno : ℕ) (name : Bytes) : Fs (Option (ℕ × FileType)) := do
  let entries ← parseDir dirIno
  pure ((entries.find? (fun e ↦ e.name == name)).map (fun e ↦ (e.ino, e.fileType)))

def touchDir (ino : ℕ) : Fs Unit := do
  let now ← Exec.read (·.env.now)
  getInodeMut ino (fun i ↦ i.touchMtime now)

def dirInsert (dirIno : ℕ) (name : Bytes) (child : ℕ) (ft : FileType) : Fs Unit := do
  Exec.ofExcept (validateName name)
  let entries ← parseDir dirIno
  if entries.any (fun e ↦ e.name == name) then Exec.throw (Error.eexist "file exists")
  else do
    let inode ← getInode dirIno
    writeDirEntries dirIno inode (entries ++ [⟨child, ft, name⟩])
    touchDir dirIno

def dirRemove (dirIno : ℕ) (name : Bytes) : Fs (ℕ × FileType) := do
  let entries ← parseDir dirIno
  let entry ← Exec.ofOption (Error.enoent "no such file or directory")
    (entries.find? (fun e ↦ e.name == name))
  let inode ← getInode dirIno
  writeDirEntries dirIno inode (entries.eraseP (fun e ↦ e.name == name))
  touchDir dirIno
  pure (entry.ino, entry.fileType)

end Inner

end LinuxFile
