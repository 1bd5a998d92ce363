import LinuxFile.Operations
import LinuxFile.Processes

/-!
# Who holds the mounted filesystem

`LinuxFile` values, contexts and open files share one `Inner` through a reference count. A `LinuxFile` that is dropped
flushes if its reference is the only one; an open file that is dropped never does. A context drops its `LinuxFile`
first and its descriptors after that.
-/

namespace LinuxFile

/-- A mounted filesystem with its contexts and open files, and the `LinuxFile` values outside contexts. -/
structure Shared where
  world : World
  handles : ℕ

namespace Shared

/-- The `LinuxFile` values, those of the contexts included. -/
def linuxFiles (w : Shared) : ℕ := w.handles + w.world.contexts.length

/-- The open files, those behind descriptors included. -/
def openFiles (w : Shared) : ℕ := w.world.files.length + (w.world.contexts.map (fun c ↦ c.fds.length)).sum

/-- `Arc::strong_count`. -/
def strongCount (w : Shared) : ℕ := w.linuxFiles + w.openFiles

def onWorld (x : Exec Error World Unit) : Exec Error Shared Unit :=
  Exec.zoom (·.world) (fun world w ↦ { w with world := world }) x

def onFs (x : Fs Unit) : Exec Error Shared Unit := onWorld (World.onFs x)

/-- `LinuxFile::drop`: the value still has its reference. What `flush_all` answers is ignored. -/
def dropLinuxFile (order : FlushOrder) : Exec Error Shared Unit := do
  let w ← Exec.get
  Exec.when (w.strongCount = 1) (do
    let _ ← Exec.attempt (onFs (Inner.flushAll order))
    pure ())

/-- `File::drop`. -/
def dropFile (f : File) : Exec Error Shared Unit := do
  let _ ← Exec.attempt (onFs (Inner.decOpen f.ino))
  pure ()

/-- A context is dropped field by field: its `LinuxFile`, then the files behind its descriptors. -/
def dropFields (k : ℕ) (order : FlushOrder) (c : Context) : Exec Error Shared Unit := do
  dropLinuxFile order
  Exec.modify (fun w ↦ { w with world := { w.world with contexts := w.world.contexts.eraseIdx k } })
  Exec.forEach (fun e ↦ dropFile e.2.file) c.fds

end Shared

/-- The calls that `LinuxFile` values answer outside contexts. -/
def Act.byHandle : Act → Bool
  | .openOpts _ _ | .unlink _ _ _ _ | .create _ _ _ _ _ _ _ => true
  | .openat _ _ _ _ _ | .clone _ | .tryClone _ | .drop _ | .dup _ _ | .dup2 _ _ _ | .close _ _ => false

/-- What can happen to the holders. A call needs somebody to make it, and nothing happens without. -/
inductive ShareAct where
  | operate (op : Operation)
  | act (a : Act)
  | cloneFs
  | newContext (creds : Creds)
  | dropFs (order : FlushOrder)
  | dropContext (k : ℕ) (order : FlushOrder)

namespace ShareAct

open Shared

/-- The effect of a call; walks have room for `depth` nested links. -/
def exec (depth : ℕ) : ShareAct → Exec Error Shared Unit
  | operate op => do
    let w ← Exec.get
    Exec.when (0 < w.strongCount) (onFs op.exec)
  | act a => do
    let w ← Exec.get
    Exec.when (a.byHandle = true → 0 < w.handles) (onWorld (a.exec depth))
  | cloneFs => Exec.modify (fun w ↦ if 0 < w.handles then { w with handles := w.handles + 1 } else w)
  | newContext creds => Exec.modify (fun w ↦
    if 0 < w.handles then
      { world := { w.world with contexts := w.world.contexts ++ [Context.new w.world.fs creds] }
        handles := w.handles - 1 }
    else w)
  | dropFs order => do
    let w ← Exec.get
    Exec.when (0 < w.handles) (do
      dropLinuxFile order
      Exec.modify (fun w ↦ { w with handles := w.handles - 1 }))
  | dropContext k order => do
    let w ← Exec.get
    match w.world.contexts[k]? with
    | none => pure ()
    | some c => dropFields k order c

/-- Calls made one after another, each listed with the state it is made in. -/
def Run (depth : ℕ) (w : Shared) (calls : List (Shared × ShareAct)) (v : Shared) : Prop :=
  Exec.Runs (exec depth) w calls v

end ShareAct

end LinuxFile
