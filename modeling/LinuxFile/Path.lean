import LinuxFile.Format

/-!
# Unix paths over raw bytes
-/

namespace LinuxFile

def nameMax : ℕ := 255
def symloopMax : ℕ := 40

/-- The byte `/`. -/
def slash : UInt8 := 0x2F

def dotName : Bytes := [0x2E]
def dotdotName : Bytes := [0x2E, 0x2E]

abbrev UnixPath := Bytes

inductive Component where
  | rootDir
  | curDir
  | parentDir
  | normal (name : Bytes)
  deriving DecidableEq, Repr

/-- `rposition`: the last place whose byte has the property. -/
def rposition (f : UInt8 → Bool) (bytes : Bytes) : Option ℕ :=
  (bytes.reverse.findIdx? f).map (fun i ↦ bytes.length - 1 - i)

namespace UnixPath

def isAbsolute (p : UnixPath) : Bool := p.head? == some slash

def isRoot (p : UnixPath) : Bool := p == [slash]

def parent (p : UnixPath) : Option UnixPath :=
  if isRoot p = true ∨ p = [] then none
  else
    (rposition (· != slash) p).bind fun last ↦
      (rposition (· == slash) (p.take (last + 1))).map fun cut ↦
        if cut = 0 then [slash] else p.take cut

def trimTrailingSlashes (b : Bytes) : Bytes :=
  b.take (b.length - (b.reverse.takeWhile (· == slash)).length)

def fileName (p : UnixPath) : Option Bytes :=
  if isRoot p then none
  else
    let bytes := trimTrailingSlashes p
    if bytes = [] then none
    else
      match rposition (· == slash) bytes with
      | some i => some (bytes.drop (i + 1))
      | none => some bytes

def classify (part : Bytes) : Component :=
  if part = dotName then .curDir else if part = dotdotName then .parentDir else .normal part

def trimLeadingSlashes (b : Bytes) : Bytes := b.dropWhile (· == slash)

/-- The components after a leading root: leading slashes are trimmed before each part. -/
def parts : ℕ → Bytes → List Component
  | 0, _ => []
  | fuel + 1, bytes =>
    let bytes := trimLeadingSlashes bytes
    if bytes = [] then []
    else
      classify (bytes.takeWhile (· != slash)) :: parts fuel (bytes.dropWhile (· != slash))

def components (p : UnixPath) : List Component :=
  if isAbsolute p then .rootDir :: parts (p.length + 1) (trimLeadingSlashes p)
  else parts (p.length + 1) p

/-- `UnixPathBuf::push`. -/
def push (buf path : UnixPath) : UnixPath :=
  if isAbsolute path then path
  else if buf ≠ [] ∧ buf.getLast? ≠ some slash then buf ++ [slash] ++ path
  else buf ++ path

def join (p other : UnixPath) : UnixPath := if isAbsolute other then other else push p other

end UnixPath

def validateName (name : Bytes) : Except Error Unit :=
  if name = [] ∨ name = dotName ∨ name = dotdotName then .error (Error.einval "invalid filename")
  else if nameMax < name.length then .error Error.enametoolong
  else if 0 ∈ name ∨ slash ∈ name then .error (Error.fromErrno Error.EINVAL)
  else .ok ()

end LinuxFile
