import LinuxFile.Context
import LinuxFile.Inner.Mount
import LinuxFile.Inner.Stat

/-!
# Calls on open files

The calls of the crate's `File`. Each takes the lock once; a read or a write also moves the file's own position.
The loops of the standard library that read a file to its end and write a whole buffer are here as well, since the
calls by path go through them.
-/

namespace LinuxFile

namespace File

def requireRead (f : File) : Fs Unit := if f.readable then pure () else Exec.throw Error.ebadf

def requireWrite (f : File) : Fs Unit := if f.writable then pure () else Exec.throw Error.ebadf

def readAt (f : File) (count offset : ℕ) : Fs Bytes := do
  f.requireRead
  Inner.readData f.ino offset count

def writeAt (f : File) (buf : Bytes) (offset : ℕ) : Fs ℕ := do
  f.requireWrite
  Inner.writeData f.ino offset buf

/-- `Read for File`: the bytes read, at most `count`, and the file behind them. -/
def read (f : File) (count : ℕ) : Fs (Bytes × File) := do
  f.requireRead
  let data ← Inner.readData f.ino f.pos count
  let pos ← addU64 f.pos data.length
  pure (data, { f with pos := pos })

/-- `Write for File`. With `O_APPEND` the size is read and the bytes are written under one lock. -/
def write (f : File) (buf : Bytes) : Fs (ℕ × File) := do
  f.requireWrite
  let off ←
    if f.flags &&& oAppend ≠ 0 then do
      let inode ← Inner.getInode f.ino
      pure inode.size
    else pure f.pos
  let n ← Inner.writeData f.ino off buf
  let pos ← addU64 off n
  pure (n, { f with pos := pos })

def setLen (f : File) (size : ℕ) : Fs Unit := do
  f.requireWrite
  Inner.truncateData f.ino size

def stat (f : File) : Fs Stat := Inner.statIno f.ino

def setPermissions (f : File) (mode : UInt16) : Fs Unit := Inner.chmod f.ino mode Creds.root

def syncAll (order : FlushOrder) : Fs Unit := Inner.sync order

def syncData (order : IterOrder) : Fs Unit := Inner.flushCacheData order

def flush (order : IterOrder) : Fs Unit := Inner.flushCache order

/-- `Drop for File`, whose errors are lost. -/
def drop (f : File) : Fs Unit := do
  let _ ← Exec.attempt (Inner.decOpen f.ino)
  pure ()

/-- Use a file and drop it, also when the use fails. -/
def during {α : Type} (f : File) (x : Fs α) : Fs α := do
  let result ← Exec.attempt x
  f.drop
  Exec.ofExcept (result.mapError Error.viaIo)

/-! ## Loops of the standard library -/

/-- `read_to_end` with a buffer of `sizes n` bytes in the round `n`; it stops at the first empty read. -/
def readToEnd (sizes : ℕ → ℕ) : ℕ → ℕ → File → Fs Bytes
  | 0, _, _ => Exec.abort
  | rounds + 1, n, f => do
    let part ← f.read (sizes n)
    if part.1 = [] then pure []
    else do
      let rest ← readToEnd sizes rounds (n + 1) part.2
      pure (part.1 ++ rest)

/-- `write_all`. -/
def writeAll : ℕ → File → Bytes → Fs File
  | 0, _, _ => Exec.abort
  | rounds + 1, f, buf =>
    if buf = [] then pure f
    else do
      let written ← f.write buf
      if written.1 = 0 then
        Exec.throw (.fs .writeZero (Error.kindToErrno .writeZero) "failed to write whole buffer")
      else writeAll rounds written.2 (buf.drop written.1)

end File

namespace OpenOptions

def new : OpenOptions where
  read := false
  write := false
  append := false
  truncate := false
  create := false
  createNew := false
  mode := 0o666
  nofollow := false
  directory := false

/-- The builder's `append`, which asks for writing too. -/
def setAppend (o : OpenOptions) (append : Bool) : OpenOptions :=
  { o with append := append, write := o.write || append }

/-- The builder's `create_new`, which asks for creation too. -/
def setCreateNew (o : OpenOptions) (createNew : Bool) : OpenOptions :=
  { o with createNew := createNew, create := o.create || createNew }

end OpenOptions

end LinuxFile
