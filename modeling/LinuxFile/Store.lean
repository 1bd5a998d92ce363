import LinuxFile.Format

/-!
# Host-file image

The image is the host file: its bytes and its length, with every byte past the length zero. Calls
into the host may fail; `faults` lists the answers the host will give, a missing entry standing
for success. A refused call leaves the file as it was.
-/

namespace LinuxFile

structure Image where
  bytes : ℕ → UInt8
  len : ℕ
  zero_of_le : ∀ i, len ≤ i → bytes i = 0
  /-- Answers of the host to the coming calls; `some kind` refuses the call. -/
  faults : List (Option ErrorKind)
  /-- The host file was opened for writing. -/
  hostWritable : Bool

namespace Image

/-- The host refuses lengths from here on (the length of a file is a signed 64-bit number). -/
def maxHostLen : ℕ := 2 ^ 63

/-- One call into the host. -/
def hostCall : Exec Error Image Unit := fun img ↦
  match img.faults with
  | [] => .ok () img
  | none :: rest => .ok () { img with faults := rest }
  | some kind :: rest => .err (.host kind) { img with faults := rest }

def setLenBytes (img : Image) (n : ℕ) : Image where
  bytes i := if i < n then img.bytes i else 0
  len := n
  zero_of_le _ hi := if_neg (Nat.not_lt.mpr hi)
  faults := img.faults
  hostWritable := img.hostWritable

def writeBytes (img : Image) (off : ℕ) (data : Bytes) : Image where
  bytes i := if i < img.len ∧ off ≤ i ∧ i < off + data.length then data.getD (i - off) 0
    else img.bytes i
  len := img.len
  zero_of_le i hi := by rw [if_neg (by omega), img.zero_of_le i hi]
  faults := img.faults
  hostWritable := img.hostWritable

/-- `File::set_len`. -/
def setLen (n : ℕ) : Exec Error Image Unit := do
  let writable ← Exec.read (·.hostWritable)
  if maxHostLen ≤ n ∨ writable = false then Exec.throw (.host .invalidInput)
  else do
    hostCall
    Exec.modify (fun img ↦ img.setLenBytes n)

/-- The empty host file, before it is given its first length. -/
def fresh (faults : List (Option ErrorKind)) : Image where
  bytes _ := 0
  len := 0
  zero_of_le _ _ := rfl
  faults := faults
  hostWritable := true

/-- `Image::create`: open a new host file, then set its length. -/
def create (initialLen : ℕ) : Exec Error Image Unit := do
  hostCall
  setLen initialLen

/-- `Image::open`: open an existing host file and ask for its length. -/
def openFile (writable : Bool) : Exec Error Image Unit := do
  hostCall
  hostCall
  Exec.modify (fun img ↦ { img with hostWritable := writable })

/-- The length `grow_to` asks the host for: `newLen` rounded up to a whole MiB. -/
def alignedLen (newLen : ℕ) : ℕ := max ((newLen + 2 ^ 20 - 1) / 2 ^ 20 * 2 ^ 20) newLen

def growTo (newLen : ℕ) : Exec Error Image Unit := do
  let len ← Exec.read (·.len)
  if newLen ≤ len then pure ()
  else setLen (alignedLen newLen)

def shrinkTo (newLen : ℕ) : Exec Error Image Unit := do
  let len ← Exec.read (·.len)
  if len ≤ newLen then pure ()
  else setLen newLen

def readExactAt (off count : ℕ) : Exec Error Image Bytes := do
  let len ← Exec.read (·.len)
  if len < off + count then Exec.throw (Error.eio "read past end of image")
  else do
    hostCall
    Exec.read (fun img ↦ (List.range' off count).map img.bytes)

def writeAllAt (data : Bytes) (off : ℕ) : Exec Error Image Unit := do
  let len ← Exec.read (·.len)
  Exec.when (len < off + data.length) (growTo (off + data.length))
  let writable ← Exec.read (·.hostWritable)
  if writable = false then Exec.throw (.host .other)
  else do
    hostCall
    Exec.modify (fun img ↦ img.writeBytes off data)

/-- The bytes of one block as they stand in the file. -/
def block (img : Image) (b : ℕ) : Block := Buf.ofFun blockSize (fun i ↦ img.bytes (b * blockSize + i))

def readBlock (b : ℕ) : Exec Error Image Block := do
  let len ← Exec.read (·.len)
  if len < b * blockSize + blockSize then Exec.throw (Error.eio "read past end of image")
  else do
    hostCall
    Exec.read (fun img ↦ img.block b)

def writeBlock (b : ℕ) (data : Block) : Exec Error Image Unit :=
  writeAllAt (data.slice 0 blockSize) (b * blockSize)

/-- `File::sync_all` and `File::sync_data`: nothing the model sees changes. -/
def sync : Exec Error Image Unit := hostCall

def syncData : Exec Error Image Unit := hostCall

end Image

end LinuxFile
