import LinuxFile.Spec.Calm
import LinuxFile.Theorems.Sample

/-!
# Filesystems held in memory

An inode table without slots and inline contents throughout: every read is answered from the inodes in
memory and leaves the state as it is. These are the states on which the results about path walks are
evaluated.
-/

namespace LinuxFile

namespace Inner

/-- Nothing is read from the image. -/
structure Resident (s : Inner) : Prop where
  noTable : s.sb.inodeTableExtents = []
  inline : ∀ ino i, s.inodes.find? ino = some i → i.dataKind = .inline ∧ i.size = i.inlineData.length

variable {s : Inner}

theorem getInode_hit {ino : ℕ} {i : Inode} (h : s.inodes.find? ino = some i) :
    getInode ino s = .ok i s := by
  unfold getInode
  rw [Exec.bind_apply, Exec.read_apply, h]
  rfl

theorem Resident.getInode_miss (h : s.Resident) {ino : ℕ} (hmiss : s.inodes.find? ino = none) :
    getInode ino s = .err (Error.eio s!"missing inode {ino}") s := by
  have hcap : inodeTableCapacity s.sb ≤ ino := by
    unfold inodeTableCapacity
    rw [h.noTable]
    exact Nat.zero_le _
  have hraw : readInodeRaw ino s = .ok none s := by
    unfold readInodeRaw
    rw [Exec.bind_apply, Exec.read_apply]
    dsimp only
    rw [if_pos (Or.inr hcap)]
    rfl
  unfold getInode
  rw [Exec.bind_apply, Exec.read_apply, hmiss]
  dsimp only
  unfold loadInode
  rw [Exec.bind_eq_of_ok hraw]
  rfl

/-- A read of an inode changes nothing. -/
theorem Resident.of_getInode (h : s.Resident) {ino : ℕ} {i : Inode} {t : Inner}
    (hget : getInode ino s = .ok i t) : t = s ∧ s.inodes.find? ino = some i := by
  cases hfind : s.inodes.find? ino with
  | some j =>
    rw [getInode_hit hfind] at hget
    cases hget
    exact ⟨rfl, rfl⟩
  | none =>
    rw [h.getInode_miss hfind] at hget
    cases hget

theorem Resident.readData_hit (h : s.Resident) {ino : ℕ} {i : Inode} (hi : s.inodes.find? ino = some i)
    (count : ℕ) : readData ino 0 count s = .ok (i.inlineData.take (min i.size count)) s := by
  obtain ⟨hkind, hsize⟩ := h.inline ino i hi
  unfold readData
  rw [Exec.bind_eq_of_ok (getInode_hit hi)]
  dsimp only
  by_cases hzero : i.size ≤ 0
  · rw [if_pos hzero]
    have hmin : min i.size count = 0 := by omega
    rw [hmin, List.take_zero]
    rfl
  rw [if_neg hzero, Nat.sub_zero]
  by_cases hnone : min i.size count = 0
  · rw [if_pos hnone, hnone, List.take_zero]
    rfl
  rw [if_neg hnone, if_pos hkind]
  unfold inlineSlice
  rw [if_neg (by omega), List.drop_zero]
  rfl

theorem Resident.of_readData (h : s.Resident) {ino count : ℕ} {data : Bytes} {t : Inner}
    (hread : readData ino 0 count s = .ok data t) : t = s := by
  cases hfind : s.inodes.find? ino with
  | some i =>
    rw [h.readData_hit hfind] at hread
    cases hread
    rfl
  | none =>
    unfold readData at hread
    rw [Exec.bind_apply, h.getInode_miss hfind] at hread
    cases hread

/-- The entries of a directory in memory. -/
def residentEntries (s : Inner) (dir : ℕ) : Except Error (List DirEntry) :=
  match s.inodes.find? dir with
  | none => .error (Error.eio s!"missing inode {dir}")
  | some i => if i.isDir = false then .error (Error.enotdir "not a directory") else decodeDir i.inlineData

theorem Resident.parseDir_eq (h : s.Resident) (dir : ℕ) :
    parseDir dir s = Exec.ofExcept (residentEntries s dir) s := by
  unfold parseDir residentEntries
  cases hfind : s.inodes.find? dir with
  | none =>
    rw [Exec.bind_apply, h.getInode_miss hfind]
    rfl
  | some i =>
    rw [Exec.bind_eq_of_ok (getInode_hit hfind)]
    dsimp only
    by_cases hdir : i.isDir = false
    · rw [if_pos hdir, if_pos hdir]
      rfl
    rw [if_neg hdir, if_neg hdir]
    have hsize := (h.inline dir i hfind).2
    by_cases hpos : 0 < i.size
    · rw [if_pos hpos, Exec.bind_eq_of_ok (h.readData_hit hfind _), min_self, hsize, List.take_length]
      unfold resizeBytes
      rw [List.take_length, Nat.sub_self, List.replicate_zero, List.append_nil]
    · rw [if_neg hpos, Exec.bind_eq_of_ok (Exec.pure_apply _ _)]
      have hnil : i.inlineData = [] := List.eq_nil_of_length_eq_zero (by omega)
      unfold resizeBytes
      rw [hsize, hnil]
      rfl

/-- The inode a name stands for in a directory in memory. -/
def residentEntry (s : Inner) (dir : ℕ) (name : Bytes) : Option (ℕ × FileType) :=
  match residentEntries s dir with
  | .ok entries => (entries.find? (fun e ↦ e.name == name)).map (fun e ↦ (e.ino, e.fileType))
  | .error _ => none

theorem Resident.of_dirLookup (h : s.Resident) {dir : ℕ} {name : Bytes}
    {found : Option (ℕ × FileType)} {t : Inner} (hlookup : dirLookup dir name s = .ok found t) :
    t = s ∧ found = residentEntry s dir name := by
  unfold dirLookup at hlookup
  unfold residentEntry
  rw [Exec.bind_apply, h.parseDir_eq] at hlookup
  cases hentries : residentEntries s dir with
  | error e =>
    rw [hentries] at hlookup
    cases hlookup
  | ok entries =>
    rw [hentries] at hlookup
    cases hlookup
    exact ⟨rfl, rfl⟩

/-- A directory of a filesystem held in memory. -/
def residentDir (ino : ℕ) (mode : UInt16) (entries : List DirEntry) : Inode :=
  { Inode.new ⟨0, 0⟩ ino (sIfdir ||| mode) 0 0 with
    size := (encodeDir entries).length
    inlineData := encodeDir entries }

/-- The filesystem that holds these inodes in memory and checks permissions. -/
def resident (inodes : KeyMap Inode) : Inner :=
  { blank sampleOptions sampleEnv (Buf.zero 16) [] with inodes := inodes, checkPerm := true }

theorem resident_ok {inodes : KeyMap Inode}
    (h : ∀ e ∈ inodes.entries, e.2.dataKind = .inline ∧ e.2.size = e.2.inlineData.length) :
    (resident inodes).Resident where
  noTable := rfl
  inline ino i hi := h (ino, i) (KeyMap.find?_eq_some_iff.mp hi)

end Inner

end LinuxFile
