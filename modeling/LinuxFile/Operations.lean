import LinuxFile.Inner.Mount
import LinuxFile.Inner.Stat
import LinuxFile.Inner.Walk
import LinuxFile.Library.Runs

/-!
# The operations of a mount

Everything the crate does to a mounted filesystem, from whatever handle or context, is a sequence of these
calls made under the lock.
-/

namespace LinuxFile

inductive Operation where
  | readData (ino offset count : ℕ)
  | writeData (ino offset : ℕ) (buf : Bytes)
  | truncateData (ino newSize : ℕ)
  | setInodeCompression (ino : ℕ) (compression : Compression)
  | readDirEntries (ino : ℕ)
  | walk (args : Inner.WalkArgs) (depth cwd : ℕ) (path : UnixPath)
  | createChild (parent : ℕ) (name : Bytes) (mode : UInt16) (uid gid : UInt32) (rdev : UInt64)
      (creds : Creds)
  | unlinkName (parent : ℕ) (name : Bytes) (rmdir : Bool) (creds : Creds)
  | linkInto (target parent : ℕ) (name : Bytes) (creds : Creds)
  | rename (oldParent : ℕ) (oldName : Bytes) (newParent : ℕ) (newName : Bytes) (creds : Creds)
  | chmod (ino : ℕ) (mode : UInt16) (creds : Creds)
  | chown (ino : ℕ) (uid gid : Option UInt32) (creds : Creds)
  | setTimes (ino : ℕ) (times : FileTimes)
  | stat (ino : ℕ)
  | getxattr (ino : ℕ) (name : Bytes)
  | setxattr (ino : ℕ) (name value : Bytes) (flags : UInt32)
  | listxattr (ino : ℕ)
  | removexattr (ino : ℕ) (name : Bytes)
  | incOpen (ino : ℕ)
  | decOpen (ino : ℕ)
  | dropInode (ino : ℕ)
  | flushCache (order : IterOrder)
  | flushCacheData (order : IterOrder)
  | flushAll (order : FlushOrder)
  | sync (order : FlushOrder)

namespace Operation

open LinuxFile.Inner

/-- The answers of the calls do not matter here. -/
def discard {α : Type} (x : Fs α) : Fs Unit := do
  let _ ← x
  pure ()

def exec : Operation → Fs Unit
  | readData ino offset count => discard (Inner.readData ino offset count)
  | writeData ino offset buf => discard (Inner.writeData ino offset buf)
  | truncateData ino newSize => Inner.truncateData ino newSize
  | setInodeCompression ino compression => Inner.setInodeCompression ino compression
  | readDirEntries ino => discard (parseDir ino)
  | walk args depth cwd path => discard (Inner.walk args depth cwd path)
  | createChild parent name mode uid gid rdev creds =>
    discard (Inner.createChild parent name mode uid gid rdev creds)
  | unlinkName parent name rmdir creds => Inner.unlinkName parent name rmdir creds
  | linkInto target parent name creds => Inner.linkInto target parent name creds
  | rename oldParent oldName newParent newName creds =>
    Inner.rename oldParent oldName newParent newName creds
  | chmod ino mode creds => Inner.chmod ino mode creds
  | chown ino uid gid creds => Inner.chown ino uid gid creds
  | setTimes ino times => Inner.setTimes ino times
  | stat ino => discard (statIno ino)
  | getxattr ino name => discard (Inner.getxattr ino name)
  | setxattr ino name value flags => Inner.setxattr ino name value flags
  | listxattr ino => discard (Inner.listxattr ino)
  | removexattr ino name => Inner.removexattr ino name
  | incOpen ino => Inner.incOpen ino
  | decOpen ino => Inner.decOpen ino
  | dropInode ino => Inner.dropInode ino
  | flushCache order => Inner.flushCache order
  | flushCacheData order => Inner.flushCacheData order
  | flushAll order => Inner.flushAll order
  | sync order => Inner.sync order

end Operation

namespace Inner

/-- A filesystem that has just been created or opened. -/
inductive Mounted : Inner → Prop
  | created {opts : CreateOptions} {env : Env} {uuid : Buf 16} {faults : List (Option ErrorKind)}
      {order : FlushOrder} {s : Inner} (h : create opts env uuid faults order = .ok () s) : Mounted s
  | opened {writable : Bool} {cacheBlocks : ℕ} {sync : SyncMode} {env : Env} {image rest : Image} {s : Inner}
      (h : openImage writable cacheBlocks sync env image = .ok s rest) : Mounted s

/-- The states of a mount: any calls after creating or opening it, returned or failed. -/
def Reachable (s : Inner) : Prop :=
  ∃ first calls, Mounted first ∧ Exec.Runs Operation.exec first calls s

end Inner

end LinuxFile
