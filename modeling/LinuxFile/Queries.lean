import LinuxFile.PathCalls

/-!
# The calls that only look

The calls by path that change nothing, as data, with what each of them answers.
-/

namespace LinuxFile

inductive Query where
  | find (path : UnixPath) (follow : Bool)
  | stat (path : UnixPath) (follow : Bool)
  | readLink (path : UnixPath)
  | readDir (path : UnixPath)
  | getxattr (path : UnixPath) (name : Bytes)
  | listxattr (path : UnixPath)
  | read (path : UnixPath) (sizes : ℕ → ℕ) (rounds : ℕ)

/-- What a caller is told. -/
inductive Answer where
  | inode (ino : ℕ)
  | attributes (ino : ℕ) (mode : UInt16) (nlink : ℕ) (uid gid : UInt32) (size : ℕ)
  | bytes (data : Bytes)
  | entries (entries : List DirEntry)
  | names (names : List Bytes)
  deriving DecidableEq

def Stat.answer (st : Stat) : Answer := .attributes st.ino st.mode st.nlink st.uid st.gid st.size

namespace Query

/-- The call itself; a buffer that a file is read through is never empty. -/
def exec (depth : ℕ) : Query → Fs Answer
  | find path follow => .inode <$> Facade.find depth path follow
  | stat path follow => Stat.answer <$> Facade.onPath depth path follow Inner.statIno
  | readLink path => .bytes <$> Facade.readLink depth path
  | readDir path => .entries <$> Facade.readDir depth path
  | getxattr path name => .bytes <$> Facade.getxattr depth path name
  | listxattr path => .names <$> Facade.listxattr depth path
  | read path sizes rounds => .bytes <$> Facade.read depth (fun n ↦ sizes n + 1) rounds path

/-- One call after the other, whatever they answer. -/
def runAll (depth : ℕ) : List Query → Fs (List (Except Error Answer))
  | [] => pure []
  | query :: rest => do
    let first ← Exec.attempt (query.exec depth)
    let others ← runAll depth rest
    pure (first :: others)

end Query

end LinuxFile
