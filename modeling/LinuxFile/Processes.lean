import LinuxFile.Facade
import LinuxFile.Library.Runs

/-!
# The processes of one mount

A program holds files of its own and any number of contexts, all on the same mounted filesystem. One
step is one call; a call that fails leaves what it has done, and a panic ends the run.
-/

namespace LinuxFile

/-- The mounted filesystem, the contexts on it and the program's own open files. The contexts share
`fs`; the copy each of them carries is put in when it makes a call. -/
structure World where
  fs : Inner
  contexts : List Context
  files : List File

namespace World

def onFs {α : Type} (x : Fs α) : Exec Error World α :=
  Exec.zoom (·.fs) (fun fs w ↦ { w with fs := fs }) x

/-- A call of the context with the number `k`; without such a context nothing is called. -/
def inContext (k : ℕ) (x : Ctx Unit) : Exec Error World Unit := fun w ↦
  match w.contexts[k]? with
  | none => .ok () w
  | some c =>
    Exec.zoom (fun w ↦ { c with fs := w.fs })
      (fun c w ↦ { w with fs := c.fs, contexts := w.contexts.set k c }) x w

/-- A call on the file with the number `n`; without such a file nothing is called. -/
def onFile (n : ℕ) (x : File → Exec Error World Unit) : Exec Error World Unit := do
  let w ← Exec.get
  match w.files[n]? with
  | none => pure ()
  | some f => x f

def keepFile (f : File) : Exec Error World Unit :=
  Exec.modify (fun w ↦ { w with files := f :: w.files })

end World

/-- The calls that open and close files and the ones that make and remove names. -/
inductive Act where
  | openOpts (path : UnixPath) (opts : OpenOptions)
  | openat (k : ℕ) (dirfd : ℤ) (path : UnixPath) (flags : UInt32) (mode : UInt16)
  | clone (n : ℕ)
  | tryClone (n : ℕ)
  | drop (n : ℕ)
  | dup (k : ℕ) (fd : ℤ)
  | dup2 (k : ℕ) (old new : ℤ)
  | close (k : ℕ) (fd : ℤ)
  | unlink (parent : ℕ) (name : Bytes) (rmdir : Bool) (creds : Creds)
  | create (parent : ℕ) (name : Bytes) (mode : UInt16) (uid gid : UInt32) (rdev : UInt64) (creds : Creds)
  deriving DecidableEq

namespace Act

/-- The effect of a call; walks have room for `depth` nested links. -/
def exec (depth : ℕ) : Act → Exec Error World Unit
  | openOpts path opts => do
    let f ← World.onFs (Facade.openOpts depth path opts)
    World.keepFile f
  | openat k dirfd path flags mode => World.inContext k (do
    let _ ← Context.openat depth dirfd path flags mode
    pure ())
  -- the derived `Clone` copies the fields and tells the filesystem nothing
  | clone n => World.onFile n World.keepFile
  | tryClone n => World.onFile n (fun f ↦ do
    let g ← World.onFs f.tryClone
    World.keepFile g)
  | drop n => World.onFile n (fun f ↦ do
    Exec.modify (fun w ↦ { w with files := w.files.eraseIdx n })
    let _ ← Exec.attempt (World.onFs (Inner.decOpen f.ino))
    pure ())
  | dup k fd => World.inContext k (do
    let _ ← Context.dup fd
    pure ())
  | dup2 k old new => World.inContext k (do
    let _ ← Context.dup2 old new
    pure ())
  | close k fd => World.inContext k (Context.close fd)
  | unlink parent name rmdir creds => World.onFs (Inner.unlinkName parent name rmdir creds)
  | create parent name mode uid gid rdev creds => World.onFs (do
    let _ ← Inner.createChild parent name mode uid gid rdev creds
    pure ())

/-- Calls made one after another, each listed with the state it is made in. -/
def Run (depth : ℕ) (w : World) (calls : List (World × Act)) (v : World) : Prop :=
  Exec.Runs (exec depth) w calls v

end Act

end LinuxFile
