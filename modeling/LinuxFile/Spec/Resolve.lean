import LinuxFile.Inner.Walk
import LinuxFile.Spec.Checks

/-!
# Path walks on the namespace

What a walk finds is a function of the namespace: `Nodes.walk` is that function.
-/

namespace LinuxFile

open LinuxFile.Inner (WalkArgs joinRest)

instance (n : Node) (perm : Bool) (creds : Creds) (acc : Access) : Decidable (n.allows perm creds acc) :=
  inferInstanceAs (Decidable (perm = true → checkAccess n.mode n.uid n.gid creds acc = true))

namespace Nodes

/-- The directory that `..` leads to; nothing leads out of the root. -/
def parentOf (f : Nodes) (root dir : ℕ) : Option ℕ :=
  if dir ≠ root then (f.dir dir).map fun entries ↦ ((entryNamed entries dotdotName).map Prod.fst).getD dir
  else some dir

/-- The loop over the components of a path. -/
def walkFrom (f : Nodes) (perm : Bool) (args : WalkArgs) (follow : ℕ → UnixPath → Option Resolved) :
    ℕ → List Component → Option Resolved
  | dir, [] => some ⟨dir, [], some dir⟩
  | _, .rootDir :: rest => f.walkFrom perm args follow args.root rest
  | dir, .curDir :: rest => f.walkFrom perm args follow dir rest
  | dir, .parentDir :: rest => do
    let n ← f dir
    if n.allows perm args.creds .exec then do
      let up ← f.parentOf args.root dir
      if rest = [] then some ⟨up, dotdotName, some up⟩ else f.walkFrom perm args follow up rest
    else none
  | dir, .normal name :: rest => do
    let n ← f dir
    if n.allows perm args.creds .exec then do
      let entries ← f.dir dir
      match entryNamed entries name with
      | none => if rest = [] then some ⟨dir, name, none⟩ else none
      | some (ino, _) => do
        let c ← f ino
        if (FileType.fromMode c.mode).isSymlink = true ∧ (rest ≠ [] ∨ args.followLast = true) then
          follow dir (joinRest c.bytes rest)
        else if rest = [] then some ⟨dir, name, some ino⟩
        else f.walkFrom perm args follow ino rest
    else none

section Steps

variable {f : Nodes} {perm : Bool} {args : WalkArgs} {follow : ℕ → UnixPath → Option Resolved} {dir : ℕ} {n : Node}

theorem walkFrom_none (h : f dir = none) (c : Component) (hc : c = .parentDir ∨ ∃ name, c = .normal name)
    (rest : List Component) : f.walkFrom perm args follow dir (c :: rest) = none := by
  rcases hc with rfl | ⟨name, rfl⟩
  · unfold walkFrom
    rw [h]
    rfl
  · unfold walkFrom
    rw [h]
    rfl

theorem walkFrom_parentDir (h : f dir = some n) (rest : List Component) :
    f.walkFrom perm args follow dir (.parentDir :: rest) =
      if n.allows perm args.creds .exec then
        (f.parentOf args.root dir).bind fun up ↦
          if rest = [] then some ⟨up, dotdotName, some up⟩ else f.walkFrom perm args follow up rest
      else none := by
  conv_lhs => unfold walkFrom
  rw [h]
  rfl

theorem walkFrom_normal (h : f dir = some n) (name : Bytes) (rest : List Component) :
    f.walkFrom perm args follow dir (.normal name :: rest) =
      if n.allows perm args.creds .exec then
        (f.dir dir).bind fun entries ↦
          match entryNamed entries name with
          | none => if rest = [] then some ⟨dir, name, none⟩ else none
          | some (ino, _) => (f ino).bind fun c ↦
            if (FileType.fromMode c.mode).isSymlink = true ∧ (rest ≠ [] ∨ args.followLast = true) then
              follow dir (joinRest c.bytes rest)
            else if rest = [] then some ⟨dir, name, some ino⟩
            else f.walkFrom perm args follow ino rest
      else none := by
  conv_lhs => unfold walkFrom
  rw [h]
  rfl

end Steps

/-- The place a path leads to, if there is one within `depth` nested links. -/
def walk (f : Nodes) (perm : Bool) (args : WalkArgs) : ℕ → ℕ → UnixPath → Option Resolved
  | 0, _, _ => none
  | depth + 1, cwd, path =>
    if path = [] then none
    else
      let dir := if UnixPath.isAbsolute path then args.root else cwd
      if UnixPath.components path = [] then some ⟨args.root, [], some dir⟩
      else f.walkFrom perm args (f.walk perm args depth) dir (UnixPath.components path)

end Nodes

end LinuxFile
