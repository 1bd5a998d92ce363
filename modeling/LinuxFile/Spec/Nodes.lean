import LinuxFile.Spec.Calm
import LinuxFile.Spec.FileTruncate
import Mathlib.Logic.Function.Basic

/-!
# The files as a caller sees them

A caller sees of an inode its attributes and its bytes, not where they are stored. `Inner.node` reads this
off a sound state. The primitive calls of the filesystem either leave all nodes as they are, or change one of
them; everything about directories and names is derived from these facts.
-/

namespace LinuxFile

/-- What a caller sees of an inode. -/
structure Node where
  mode : UInt16
  nlink : ℕ
  uid : UInt32
  gid : UInt32
  xattr : List (Bytes × Bytes)
  bytes : Bytes
  deriving DecidableEq

def Node.isDir (n : Node) : Bool := (FileType.fromMode n.mode).isDir

/-- The entries of a directory that can be read. -/
def Node.entries (n : Node) : Option (List DirEntry) :=
  if n.isDir then (decodeDir n.bytes).toOption else none

theorem Node.entries_of_file {n : Node} (h : n.isDir = false) : n.entries = none := by
  unfold Node.entries
  rw [h]
  rfl

theorem Node.entries_of_dir {n : Node} (h : n.isDir = true) : n.entries = (decodeDir n.bytes).toOption := by
  unfold Node.entries
  rw [h]
  rfl

/-- The nodes of a filesystem by number. -/
abbrev Nodes := ℕ → Option Node

/-- The entries of directory `k`. -/
def Nodes.dir (f : Nodes) (k : ℕ) : Option (List DirEntry) := (f k).bind Node.entries

theorem Nodes.dir_of_some {f : Nodes} {k : ℕ} {n : Node} (h : f k = some n) : f.dir k = n.entries := by
  unfold Nodes.dir
  rw [h]
  rfl

theorem Nodes.dir_of_none {f : Nodes} {k : ℕ} (h : f k = none) : f.dir k = none := by
  unfold Nodes.dir
  rw [h]
  rfl

/-- The inode and type a name stands for. -/
def entryNamed (entries : List DirEntry) (name : Bytes) : Option (ℕ × FileType) :=
  (entries.find? (fun e ↦ e.name == name)).map (fun e ↦ (e.ino, e.fileType))

/-- The inode with its contents. -/
def Inode.toNode (i : Inode) (bytes : Bytes) : Node := ⟨i.mode, i.nlink, i.uid, i.gid, i.xattr, bytes⟩

/-- The two inodes hold the same data in the same places. -/
def Inode.SameBody (i i' : Inode) : Prop :=
  i' = { i with
    mode := i'.mode
    nlink := i'.nlink
    uid := i'.uid
    gid := i'.gid
    atime := i'.atime
    mtime := i'.mtime
    ctime := i'.ctime
    btime := i'.btime
    rdev := i'.rdev
    xattr := i'.xattr }

namespace Inner

variable {s t u : Inner} {i i' : Inode} {ino k : ℕ}

def node (s : Inner) : Nodes := fun k ↦ (s.inodes.find? k).map (fun i ↦ i.toNode (s.contents k))

theorem node_of_mem (h : s.inodes.find? k = some i) : s.node k = some (i.toNode (s.contents k)) := by
  unfold node
  rw [h]
  rfl

theorem node_eq_none : s.node k = none ↔ s.inodes.find? k = none := by
  unfold node
  exact Option.map_eq_none_iff

theorem mem_of_node {n : Node} (h : s.node k = some n) :
    ∃ i, s.inodes.find? k = some i ∧ n = i.toNode (s.contents k) := by
  unfold node at h
  obtain ⟨i, hi, hn⟩ := Option.map_eq_some_iff.mp h
  exact ⟨i, hi, hn.symm⟩

/-! ## Unchanged nodes -/

theorem SameData.toNode (h : SameData s k i t i') (bytes : Bytes) : i'.toNode bytes = i.toNode bytes := by
  rcases h.stowed with rfl | ⟨hstowed, -, -⟩
  · rfl
  · rw [hstowed.same]
    rfl

theorem SameFiles.node (h : SameFiles s t) : t.node = s.node := by
  funext k
  cases hk : s.inodes.find? k with
  | none => rw [node_eq_none.mpr hk, node_eq_none.mpr (h.none k hk)]
  | some i =>
    obtain ⟨i', hi', hdata⟩ := h.some k i hk
    rw [node_of_mem hk, node_of_mem hi', h.contents k, hdata.toNode]

theorem Edited.node_ne (h : Edited s ino t) (hk : k ≠ ino) : t.node k = s.node k := by
  cases hfind : s.inodes.find? k with
  | none => rw [node_eq_none.mpr hfind, node_eq_none.mpr (h.none k hk hfind)]
  | some i =>
    obtain ⟨i', hi', hdata⟩ := h.others k i hk hfind
    rw [node_of_mem hfind, node_of_mem hi', h.contents hk, hdata.toNode]

/-- A sound state with the given nodes, everything outside inodes, blocks and caches as before. -/
structure Becomes (s : Inner) (nodes : Nodes) (t : Inner) : Prop where
  sound : t.Sound
  shell : SameShell s t
  node : t.node = nodes

theorem Sound.becomes (h : s.Sound) : Becomes s s.node s := ⟨h, SameShell.refl s, rfl⟩

theorem SameFiles.becomes (h : SameFiles s t) (ht : t.Sound) : Becomes s s.node t := ⟨ht, h.shell, h.node⟩

theorem Becomes.trans {f g : Nodes} (hst : Becomes s f t) (htu : Becomes t g u) : Becomes s g u :=
  ⟨htu.sound, hst.shell.trans htu.shell, htu.node⟩

theorem Becomes.congr {f g : Nodes} (h : Becomes s f t) (hfg : f = g) : Becomes s g t := hfg ▸ h

theorem Sound.looks (h : s.Sound) (hlook : Looked s t) : Becomes s s.node t :=
  (h.sameFiles_looked hlook).becomes (h.looked hlook)

/-- One node changes when one file is edited. -/
theorem Edited.becomes (h : Edited s ino t) (hmem : t.inodes.find? ino = some i') :
    Becomes s (Function.update s.node ino (some (i'.toNode (t.contents ino)))) t where
  sound := h.sound
  shell := h.shell
  node := by
    funext k
    by_cases hk : k = ino
    · rw [hk, Function.update_self, node_of_mem hmem]
    · rw [Function.update_of_ne hk, h.node_ne hk]

/-! ## Looking at inodes and directories -/

/-- Reading an inode by a number that has been given out. -/
theorem Sound.getInode_finds (h : s.Sound) (hk : k < s.sb.nextInode) :
    (getInode k).Holds s (fun i t ↦ s.inodes.find? k = some i ∧ t = s)
      (fun e t ↦ e.IsHost ∨ s.inodes.find? k = none ∧ Becomes s s.node t) := by
  cases hmem : s.inodes.find? k with
  | some i =>
    rw [Exec.holds_iff_of_ok (getInode_mem hmem)]
    exact ⟨rfl, rfl⟩
  | none =>
    have hvacant : s.Vacant k := by
      rcases Nat.eq_zero_or_pos k with hzero | hpos
      · exact Or.inl hzero
      · refine Or.inr (Or.inr ((h.inv.onDisk.dead k hpos hk hmem).mono fun raw hraw ↦ ?_))
        rw [hraw]
        exact zero_unused k
    unfold getInode loadInode
    rw [Exec.holds_bind, Exec.holds_read, hmem]
    refine (readInodeRaw_vacant h.inv.geometry.image hvacant).bind ?_ (fun _ _ he ↦ Or.inl he)
    rintro _ t ⟨rfl, hlook⟩
    exact Or.inr ⟨rfl, h.looks hlook⟩

theorem contents_length (h : s.inodes.find? k = some i) : (s.contents k).length = i.size := by
  rw [contents_of_mem h, List.length_map, List.length_range]

/-- Reading a whole file. -/
theorem Sound.readAll (h : s.Sound) (hmem : s.inodes.find? k = some i) :
    (readData k 0 i.size).Holds s (fun data t ↦ data = s.contents k ∧ Becomes s s.node t)
      (fun e _ ↦ e.IsHost) := by
  refine (readData_reads h hmem 0 i.size).mono ?_ (fun _ _ he ↦ he)
  rintro data t ⟨rfl, hsound, hsame⟩
  refine ⟨?_, hsame.becomes hsound⟩
  rw [contents_of_mem hmem, Nat.sub_zero, Nat.min_self, List.range_eq_range']

theorem parseDir_reads (h : s.Sound) (hk : k < s.sb.nextInode) :
    (parseDir k).Holds s (fun es t ↦ s.node.dir k = some es ∧ Becomes s s.node t)
      (fun e t ↦ e.IsHost ∨ s.node.dir k = none ∧ Becomes s s.node t) := by
  unfold parseDir
  refine (h.getInode_finds hk).bind ?_ ?_
  · rintro i t ⟨hmem, ht⟩
    rw [ht, Nodes.dir_of_some (node_of_mem hmem)]
    by_cases hdir : i.isDir = false
    · rw [if_pos hdir]
      exact Or.inr ⟨Node.entries_of_file hdir, h.becomes⟩
    · have hisDir : (i.toNode (s.contents k)).isDir = true := Bool.eq_true_of_not_eq_false hdir
      rw [if_neg hdir, Node.entries_of_dir hisDir]
      have hlen := contents_length hmem
      have hdecode : ∀ data t, data = s.contents k ∧ Becomes s s.node t →
          (Exec.ofExcept (decodeDir (resizeBytes data i.size))).Holds t (fun es t ↦
            (decodeDir (s.contents k)).toOption = some es ∧ Becomes s s.node t) (fun e t ↦
            e.IsHost ∨ (decodeDir (s.contents k)).toOption = none ∧ Becomes s s.node t) := by
        rintro data t ⟨rfl, ht⟩
        rw [← hlen, resizeBytes_self]
        cases decodeDir (s.contents k) with
        | ok es => exact ⟨rfl, ht⟩
        | error e => exact Or.inr ⟨rfl, ht⟩
      by_cases hpos : 0 < i.size
      · rw [if_pos hpos]
        exact (h.readAll hmem).bind hdecode (fun _ _ he ↦ Or.inl he)
      · rw [if_neg hpos]
        exact hdecode [] s ⟨(List.length_eq_zero_iff.mp (by omega)).symm, h.becomes⟩
  · rintro e t (he | ⟨hnone, ht⟩)
    · exact Or.inl he
    · exact Or.inr ⟨Nodes.dir_of_none (node_eq_none.mpr hnone), ht⟩

theorem dirLookup_reads (h : s.Sound) (hk : k < s.sb.nextInode) (name : Bytes) :
    (dirLookup k name).Holds s
      (fun found t ↦ (∃ es, s.node.dir k = some es ∧ found = entryNamed es name) ∧ Becomes s s.node t)
      (fun e t ↦ e.IsHost ∨ s.node.dir k = none ∧ Becomes s s.node t) := by
  unfold dirLookup
  refine (parseDir_reads h hk).bind ?_ (fun _ _ he ↦ he)
  rintro es t ⟨hes, ht⟩
  exact ⟨⟨es, hes, rfl⟩, ht⟩

/-! ## Changing attributes -/

/-- A change of attributes keeps the bytes of the file. -/
theorem Sound.touches (h : s.Sound) (hmem : s.inodes.find? ino = some i) (hbody : i.SameBody i') :
    Becomes s (Function.update s.node ino (some (i'.toNode (s.contents ino))))
      { s with inodes := s.inodes.insert ino i', dirtyInodes := s.dirtyInodes.insert ino () } := by
  have hwf := h.wf hmem
  have hext : i'.extents = i.extents := by rw [hbody]
  have hkind : i'.dataKind = i.dataKind := by rw [hbody]
  have hdata : i'.inlineData = i.inlineData := by rw [hbody]
  have hsize : i'.size = i.size := by rw [hbody]
  have huses : i'.usesCompression = i.usesCompression := by rw [hbody]; rfl
  have hranges : i'.ranges = i.ranges := by rw [hbody]; rfl
  have hwf' : i'.Wf := by
    rw [hbody]
    exact ⟨fun e he ↦ (hwf.extents e he).congr fun hne ↦ hne, hwf.clear, hwf.tree, hwf.size_le, hwf.inline⟩
  have hrewritten := h.rewrite hmem hwf' (by rw [hbody]) hranges hext fun huse hne ↦ by
    rw [huses, hkind]
    exact ⟨huse, hne⟩
  have hheld : ∀ c, s.recordCache = some c → c.ino = ino →
      HeldOk { s with inodes := s.inodes.insert ino i', dirtyInodes := s.dirtyInodes.insert ino () } c := by
    intro c hc hcino
    have hok := h.held c hc
    obtain ⟨j, hj, hjuses, hjkind⟩ := hok.owner
    rw [hcino, hmem] at hj
    cases hj
    refine ⟨⟨i', ?_, huses.trans hjuses, hkind ▸ hjkind⟩, hok.length, fun hclean j hj q hq hlt ↦ ?_⟩
    · rw [hcino]
      exact hrewritten.find
    · rw [hcino, hrewritten.find] at hj
      cases hj
      rw [hsize] at hlt
      exact (hok.clean hclean i (hcino ▸ hmem) q hq hlt).trans (storedByte_extents hext _).symm
  have hedited := hrewritten.edited h rfl (fun hk ↦ by
    rw [hdata, hsize]
    exact h.inline ino i hmem (hkind ▸ hk)) hheld
  refine (hedited.becomes hrewritten.find).congr ?_
  congr 3
  rw [contents_of_mem hrewritten.find, contents_of_mem hmem, hsize]
  apply List.map_congr_left
  intro p _
  exact fileByte_inode hext hkind hdata ino p

theorem getInodeMut_touches (h : s.Sound) (hk : k < s.sb.nextInode) {change : Inode → Inode} {g : Node → Node}
    (hbody : ∀ i : Inode, i.SameBody (change i))
    (hg : ∀ (i : Inode) bytes, (change i).toNode bytes = g (i.toNode bytes)) :
    (getInodeMut k change).Holds s
      (fun _ t ↦ ∃ n, s.node k = some n ∧ Becomes s (Function.update s.node k (some (g n))) t)
      (fun e t ↦ e.IsHost ∨ s.node k = none ∧ Becomes s s.node t) := by
  unfold getInodeMut
  refine (h.getInode_finds hk).bind ?_ ?_
  · rintro i t ⟨hmem, ht⟩
    rw [ht]
    exact ⟨_, node_of_mem hmem, (h.touches hmem (hbody i)).congr (by rw [hg])⟩
  · rintro e t (he | ⟨hnone, ht⟩)
    · exact Or.inl he
    · exact Or.inr ⟨node_eq_none.mpr hnone, ht⟩

/-! ## Changing contents -/

/-- A call that edits one file and leaves the attributes of all. -/
theorem Edited.becomes_calm (h : Edited s ino t) (hcalm : Calm s t) {n : Node} (hn : s.node ino = some n) :
    Becomes s (Function.update s.node ino (some { n with bytes := t.contents ino })) t := by
  obtain ⟨i, hmem, rfl⟩ := mem_of_node hn
  obtain ⟨i', hmem', hsame⟩ := hcalm.inodes ino i hmem
  refine (h.becomes hmem').congr ?_
  congr 2
  unfold Inode.toNode
  rw [hsame.mode, hsame.nlink, hsame.uid, hsame.gid, hsame.xattr]

/-- Any contents may be there after a write; the attributes and the other files are as before. -/
theorem writeData_changes (h : s.Sound) (hwritable : s.writable = true) {n : Node} (hn : s.node ino = some n)
    {off : ℕ} (buf : Bytes) :
    (writeData ino off buf).Holds s
      (fun _ t ↦ ∃ bytes, Becomes s (Function.update s.node ino (some { n with bytes := bytes })) t)
      (fun e t ↦ e.IsHost ∨ Becomes s s.node t) := by
  obtain ⟨i, hmem, rfl⟩ := mem_of_node hn
  by_cases hempty : buf = []
  · unfold writeData
    rw [Exec.holds_bind_of_ok (requireWrite_ok hwritable), if_pos hempty]
    refine ⟨s.contents ino, h.becomes.congr ?_⟩
    rw [← Function.update_eq_self ino s.node, hn, Function.update_idem]
    rfl
  · by_cases hstop : off + buf.length ≤ maxFileSize
    · refine ((writeData_writes h hwritable hmem hempty hstop).and (writeData_calm ino off buf s)).mono ?_
        (fun _ _ he ↦ Or.inl he.1)
      rintro _ t ⟨⟨-, i', hwritten⟩, hcalm⟩
      exact ⟨_, hwritten.edited.becomes_calm hcalm hn⟩
    · unfold writeData
      rw [Exec.holds_bind_of_ok (requireWrite_ok hwritable), if_neg hempty, if_pos (by omega)]
      exact Or.inr h.becomes

/-- Writing a file from its start on, over nothing. -/
theorem writeData_fills (h : s.Sound) (hwritable : s.writable = true) {n : Node} (hn : s.node ino = some n)
    (hbytes : n.bytes = []) {buf : Bytes} (hne : buf ≠ []) (hlen : buf.length ≤ maxFileSize) :
    (writeData ino 0 buf).Holds s
      (fun _ t ↦ Becomes s (Function.update s.node ino (some { n with bytes := buf })) t)
      (fun e _ ↦ e.IsHost) := by
  obtain ⟨i, hmem, rfl⟩ := mem_of_node hn
  have hsize : i.size = 0 := by
    rw [← contents_length hmem]
    exact List.length_eq_zero_iff.mpr hbytes
  refine ((writeData_writes h hwritable hmem hne (by omega)).and (writeData_calm ino 0 buf s)).mono ?_
    (fun _ _ he ↦ he.1)
  rintro _ t ⟨⟨-, i', hwritten⟩, hcalm⟩
  refine (hwritten.edited.becomes_calm hcalm hn).congr ?_
  have hsize' : i'.size = buf.length := by rw [hwritten.size, hsize]; omega
  have hcontents : t.contents ino = buf := by
    rw [contents_of_mem hwritten.find, hsize']
    apply List.ext_getElem
    · rw [List.length_map, List.length_range]
    · intro p hp hp'
      rw [List.getElem_map, List.getElem_range, hwritten.inside p (Nat.zero_le p) (by omega), Nat.sub_zero,
        List.getD_eq_getElem _ _ hp']
  rw [hcontents]

theorem truncateData_empties (h : s.Sound) (hwritable : s.writable = true) {n : Node} (hn : s.node ino = some n) :
    (truncateData ino 0).Holds s
      (fun _ t ↦ Becomes s (Function.update s.node ino (some { n with bytes := [] })) t ∧ t.recordCache = none)
      (fun e _ ↦ e.IsHost) := by
  obtain ⟨i, hmem, rfl⟩ := mem_of_node hn
  refine ((truncateData_cuts h hwritable hmem (Nat.zero_le _)).and (truncateData_calm ino 0 s)).mono ?_
    (fun _ _ he ↦ he.1)
  rintro _ t ⟨⟨i', hcut⟩, hcalm⟩
  refine ⟨(hcut.edited.becomes_calm hcalm hn).congr ?_, hcut.record⟩
  have hcontents : t.contents ino = [] := by
    rw [contents_of_mem hcut.find, hcut.size]
    rfl
  rw [hcontents]

theorem truncateData_changes (h : s.Sound) (hwritable : s.writable = true) {n : Node} (hn : s.node ino = some n)
    (size : ℕ) :
    (truncateData ino size).Holds s
      (fun _ t ↦ ∃ bytes, Becomes s (Function.update s.node ino (some { n with bytes := bytes })) t)
      (fun e t ↦ e.IsHost ∨ Becomes s s.node t) := by
  obtain ⟨i, hmem, rfl⟩ := mem_of_node hn
  by_cases hsize : size ≤ maxFileSize
  · refine ((truncateData_cuts h hwritable hmem hsize).and (truncateData_calm ino size s)).mono ?_
      (fun _ _ he ↦ Or.inl he.1)
    rintro _ t ⟨⟨i', hcut⟩, hcalm⟩
    exact ⟨_, hcut.edited.becomes_calm hcalm hn⟩
  · unfold truncateData
    rw [Exec.holds_bind_of_ok (requireWrite_ok hwritable), if_pos (by omega)]
    exact Or.inr h.becomes

theorem encodeDir_ne_nil (entries : List DirEntry) : encodeDir entries ≠ [] := by
  unfold encodeDir dirMagic
  simp

/-- A directory with other entries. What does not fit into a file leaves the directory empty. -/
theorem writeDirEntries_writes (h : s.Sound) (hwritable : s.writable = true) (hmem : s.inodes.find? ino = some i)
    {n : Node} (hn : s.node ino = some n) (entries : List DirEntry) :
    (writeDirEntries ino i entries).Holds s
      (fun _ t ↦ (encodeDir entries).length ≤ maxFileSize ∧
        Becomes s (Function.update s.node ino (some { n with bytes := encodeDir entries })) t)
      (fun e t ↦ e.IsHost ∨ maxFileSize < (encodeDir entries).length ∧
        Becomes s (Function.update s.node ino (some { n with bytes := [] })) t) := by
  have hsame : i.SameBody i := rfl
  have htouched := (h.touches hmem hsame).congr (g := s.node) (by
    rw [← node_of_mem hmem, Function.update_eq_self])
  unfold writeDirEntries
  set v := { s with inodes := s.inodes.insert ino i, dirtyInodes := s.dirtyInodes.insert ino () } with hv
  change Exec.Holds (truncateData ino 0 >>= fun _ ↦ writeData ino 0 (encodeDir entries) >>= fun _ ↦ pure ()) v _ _
  have hnode : v.node ino = some n := by rw [htouched.node, hn]
  refine (truncateData_empties htouched.sound hwritable hnode).bind ?_ (fun _ _ he ↦ Or.inl he)
  rintro _ t ⟨ht, -⟩
  have hcut := htouched.trans ht
  rw [htouched.node] at hcut
  have hempty : t.node ino = some { n with bytes := [] } := by rw [ht.node, Function.update_self]
  by_cases hlen : (encodeDir entries).length ≤ maxFileSize
  · refine (writeData_fills ht.sound (by rw [ht.shell.writable]; exact hwritable) hempty rfl
      (encodeDir_ne_nil entries) hlen).bind ?_ (fun _ _ he ↦ Or.inl he)
    intro _ u hu
    refine ⟨hlen, (hcut.trans hu).congr ?_⟩
    rw [ht.node, Function.update_idem, htouched.node]
  · unfold writeData
    rw [Exec.holds_bind, Exec.holds_bind_of_ok (requireWrite_ok (by rw [ht.shell.writable]; exact hwritable)),
      if_neg (encodeDir_ne_nil entries), if_pos (by omega)]
    exact Or.inr ⟨by omega, hcut⟩

end Inner

end LinuxFile
