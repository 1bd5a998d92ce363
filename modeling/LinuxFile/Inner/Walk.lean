import LinuxFile.Inner.Namespace

/-!
# Path walk

A symbolic link met on the way is followed by walking its target with the rest of the path put
behind it. Each such walk starts its own hop counter, so the counter never reaches its limit and a
loop of links is followed until the stack is used up; `depth` is the number of nested walks the
stack has room for.
-/

namespace LinuxFile

structure Resolved where
  parent : ℕ
  name : Bytes
  ino : Option ℕ
  deriving DecidableEq, Repr

namespace Inner

/-- The target of a link followed by the components after it. -/
def joinRest (target : UnixPath) (rest : List Component) : UnixPath :=
  rest.foldl (fun buf c ↦
    match c with
    | .normal n => UnixPath.push buf n
    | .parentDir => UnixPath.push buf dotdotName
    | .curDir => buf
    | .rootDir => [slash]) target

/-- What a walk is asked for besides the path. -/
structure WalkArgs where
  root : ℕ
  followLast : Bool
  creds : Creds

/-- The loop over the components; `follow` walks the target of a link. -/
def walkFrom (args : WalkArgs) (follow : ℕ → UnixPath → Fs Resolved) (hops : ℕ) :
    ℕ → List Component → Fs Resolved
  | dir, [] => pure ⟨dir, [], some dir⟩
  | _, .rootDir :: rest => walkFrom args follow hops args.root rest
  | dir, .curDir :: rest => walkFrom args follow hops dir rest
  | dir, .parentDir :: rest => do
    let inode ← getInode dir
    accessOk inode args.creds .exec
    let up ←
      if dir ≠ args.root then do
        let found ← dirLookup dir dotdotName
        pure ((found.map Prod.fst).getD dir)
      else pure dir
    if rest = [] then pure ⟨up, dotdotName, some up⟩
    else walkFrom args follow hops up rest
  | dir, .normal name :: rest => do
    let inode ← getInode dir
    if inode.isDir = false then Exec.throw (Error.enotdir "not a directory")
    else do
      accessOk inode args.creds .exec
      let found ← dirLookup dir name
      match found with
      | none =>
        if rest = [] then pure ⟨dir, name, none⟩
        else Exec.throw (Error.enoent "no such file or directory")
      | some (ino, _) => do
        let child ← getInode ino
        if child.isSymlink = true ∧ (rest ≠ [] ∨ args.followLast = true) then
          if symloopMax < hops + 1 then Exec.throw Error.eloop
          else do
            let target ← readData ino 0 child.size
            follow dir (joinRest (resizeBytes target child.size) rest)
        else if rest = [] then pure ⟨dir, name, some ino⟩
        else walkFrom args follow hops ino rest

def walk (args : WalkArgs) : ℕ → ℕ → UnixPath → Fs Resolved
  | 0, _, _ => Exec.abort
  | depth + 1, cwd, path =>
    if path = [] then Exec.throw (Error.einval "empty path")
    else
      let dir := if UnixPath.isAbsolute path then args.root else cwd
      let comps := UnixPath.components path
      if comps = [] then pure ⟨args.root, [], some dir⟩
      else walkFrom args (fun cwd path ↦ walk args depth cwd path) 0 dir comps

end Inner

end LinuxFile
