import LinuxFile.FileCalls
import LinuxFile.Library.PlainFile

/-!
# Several open files

The calls on open files as data. Programs hold any number of open files, each with a position of its own, some of them
on the same inode, and use them in turn.
-/

namespace LinuxFile

/-- A call on one open file. -/
inductive FileCall where
  | read (count : ℕ)
  | write (buf : Bytes)
  | seek (target : SeekFrom)
  | readAt (count offset : ℕ)
  | writeAt (buf : Bytes) (offset : ℕ)
  | setLen (size : ℕ)

/-- What the caller is told. -/
inductive FileAnswer where
  | bytes (data : Bytes)
  | count (n : ℕ)
  | done
  deriving DecidableEq

namespace FileCall

/-- The answer, and the file with its new position. -/
def exec (f : File) : FileCall → Fs (FileAnswer × File)
  | read count => do
    let r ← f.read count
    pure (.bytes r.1, r.2)
  | write buf => do
    let r ← f.write buf
    pure (.count r.1, r.2)
  | seek target => do
    let pos ← f.seek target
    pure (.count pos, { f with pos := pos })
  | readAt count offset => do
    let data ← f.readAt count offset
    pure (.bytes data, f)
  | writeAt buf offset => do
    let n ← f.writeAt buf offset
    pure (.count n, f)
  | setLen size => do
    f.setLen size
    pure (.done, f)

end FileCall

/-- A call on the open file with the given number, and what came of it. -/
structure Turn where
  file : ℕ
  call : FileCall
  answer : Except Error FileAnswer

/-- Make calls that all return. -/
def Turn.play : List (ℕ × FileCall) → (ℕ → File) → Fs (List Turn × (ℕ → File))
  | [], files => pure ([], files)
  | (k, call) :: rest, files => do
    let r ← call.exec (files k)
    let later ← play rest (Function.update files k r.2)
    pure (⟨k, call, .ok r.1⟩ :: later.1, later.2)

/-- Calls on open files one after another. A call that fails leaves its file as it was; none is failed by the host. -/
inductive Turns : Inner → (ℕ → File) → List Turn → Inner → (ℕ → File) → Prop
  | nil (s : Inner) (files : ℕ → File) : Turns s files [] s files
  | done {s t u : Inner} {files files' : ℕ → File} {k : ℕ} {call : FileCall} {answer : FileAnswer} {f : File}
      {rest : List Turn} (h : call.exec (files k) s = .ok (answer, f) t)
      (hrest : Turns t (Function.update files k f) rest u files') : Turns s files (⟨k, call, .ok answer⟩ :: rest) u files'
  | failed {s t u : Inner} {files files' : ℕ → File} {k : ℕ} {call : FileCall} {e : Error} {rest : List Turn}
      (h : call.exec (files k) s = .err e t) (hhost : ¬e.IsHost) (hrest : Turns t files rest u files') :
      Turns s files (⟨k, call, .error e⟩ :: rest) u files'

end LinuxFile
