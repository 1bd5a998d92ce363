import LinuxFile.Spec.Reader
import LinuxFile.Spec.TreeCalls

/-!
# Runs as runs of a tree

Every call keeps the tree or makes one step of it, and the tree of a run from a new filesystem stays consistent.
-/

namespace LinuxFile

namespace Inner

variable {s t u : Inner} {i : Inode} {k : ℕ}

/-! ## Calls that leave the tree as it is -/

/-- A computation that keeps the tree. -/
def KeepsTree {α : Type} (x : Fs α) (s : Inner) : Prop :=
  Acts x s (fun _ g ↦ g.tree = s.tree) (fun g ↦ g.tree = s.tree)

theorem KeepsTree.tree {α : Type} {x : Fs α} (h : KeepsTree x s) :
    x.Holds s (fun _ t ↦ t.tree = s.tree) (fun e t ↦ e.IsHost ∨ t.tree = s.tree) := by
  refine Exec.Holds.mono h (fun _ _ ht ↦ ht.2) ?_
  rintro e t (he | ht)
  · exact Or.inl he
  · exact Or.inr ht.2

theorem keepsTree_of_node {α : Type} {x : Fs α}
    (h : x.Holds s (fun _ t ↦ Becomes s s.node t) (fun e t ↦ e.IsHost ∨ Becomes s s.node t)) : KeepsTree x s := by
  refine Exec.Holds.mono h ?_ ?_
  · intro _ t ht
    exact ⟨ht.kept, tree_of_node ht.node⟩
  · rintro e t (he | ht)
    · exact Or.inl he
    · exact Or.inr ⟨ht.kept, tree_of_node ht.node⟩

/-- Editing a node outside its entries, its type and its link count. -/
theorem getInodeMut_keepsTree (h : s.Sound) (hk : k < s.sb.nextInode) {change : Inode → Inode} (g : Node → Node)
    (hbody : ∀ i : Inode, i.SameBody (change i))
    (hg : ∀ (i : Inode) bytes, (change i).toNode bytes = g (i.toNode bytes))
    (hentries : ∀ n, (g n).entries = n.entries)
    (htype : ∀ n, FileType.fromMode (g n).mode = FileType.fromMode n.mode) (hlinks : ∀ n, (g n).nlink = n.nlink) :
    KeepsTree (getInodeMut k change) s := by
  refine (getInodeMut_acts h hk hbody hg).mono ?_ ?_
  · rintro _ f ⟨rfl, -⟩
    exact Nodes.tree_edit _ _ (fun n _ ↦ hentries n) htype hlinks
  · rintro f ⟨rfl, -⟩
    rfl

theorem fromMode_congr {mode mode' : UInt16} (h : mode &&& sIfmt = mode' &&& sIfmt) :
    FileType.fromMode mode = FileType.fromMode mode' := by
  unfold FileType.fromMode
  rw [h]

theorem chmod_keepsTree (h : s.Sound) (hwritable : s.writable = true) (hk : k < s.sb.nextInode) (mode : UInt16)
    (creds : Creds) : KeepsTree (chmod k mode creds) s := by
  unfold chmod
  apply Acts.requireWrite hwritable
  refine Acts.getInode h hk (fun _ ↦ rfl) fun i hi ↦ ?_
  unfold Acts
  rw [Exec.holds_bind, Exec.holds_get]
  split_ifs
  · exact Or.inr ⟨h.kept, rfl⟩
  · have htype : ∀ n : Node, FileType.fromMode ((n.mode &&& sIfmt) ||| (mode &&& modePerm)) = FileType.fromMode n.mode :=
      fun n ↦ fromMode_congr (chmod_format n.mode mode)
    refine getInodeMut_keepsTree h hk (fun n ↦ { n with mode := (n.mode &&& sIfmt) ||| (mode &&& modePerm) })
      (fun _ ↦ rfl) (fun _ _ ↦ rfl) (fun n ↦ ?_) htype fun _ ↦ rfl
    unfold Node.entries Node.isDir
    rw [htype n]

theorem chown_keepsTree (h : s.Sound) (hwritable : s.writable = true) (hk : k < s.sb.nextInode) (uid gid : Option UInt32)
    (creds : Creds) : KeepsTree (chown k uid gid creds) s := by
  unfold chown
  apply Acts.requireWrite hwritable
  refine Acts.getInode h hk (fun _ ↦ rfl) fun i hi ↦ ?_
  unfold Acts
  rw [Exec.holds_bind, Exec.holds_get]
  split_ifs
  · exact Or.inr ⟨h.kept, rfl⟩
  · exact getInodeMut_keepsTree h hk (fun n ↦ { n with uid := uid.getD n.uid, gid := gid.getD n.gid })
      (fun _ ↦ rfl) (fun _ _ ↦ rfl) (fun _ ↦ rfl) (fun _ ↦ rfl) fun _ ↦ rfl

theorem statIno_keepsTree (h : s.Sound) (hk : k < s.sb.nextInode) : KeepsTree (statIno k) s :=
  Acts.getInode h hk (fun _ ↦ rfl) fun _ _ ↦ Acts.pure h rfl

theorem listxattr_keepsTree (h : s.Sound) (hk : k < s.sb.nextInode) : KeepsTree (listxattr k) s :=
  Acts.getInode h hk (fun _ ↦ rfl) fun _ _ ↦ Acts.pure h rfl

theorem getxattr_keepsTree (h : s.Sound) (hk : k < s.sb.nextInode) (name : Bytes) : KeepsTree (getxattr k name) s := by
  refine Acts.getInode h hk (fun _ ↦ rfl) fun i _ ↦ ?_
  dsimp only
  cases (i.xattr.find? (fun a ↦ a.1 == name)).map Prod.snd with
  | none => exact Acts.throw h rfl
  | some value => exact Acts.pure h rfl

theorem setTimes_keepsTree (h : s.Sound) (hwritable : s.writable = true) (hk : k < s.sb.nextInode) (times : FileTimes) :
    KeepsTree (setTimes k times) s := by
  unfold setTimes
  apply Acts.requireWrite hwritable
  apply Acts.read
  exact getInodeMut_keepsTree h hk id (fun _ ↦ rfl) (fun _ _ ↦ rfl) (fun _ ↦ rfl) (fun _ ↦ rfl) fun _ ↦ rfl

theorem setxattr_keepsTree (h : s.Sound) (hwritable : s.writable = true) (hk : k < s.sb.nextInode) (name value : Bytes)
    (flags : UInt32) : KeepsTree (setxattr k name value flags) s := by
  unfold setxattr
  apply Acts.requireWrite hwritable
  split_ifs
  · exact Acts.throw h rfl
  refine Acts.getInode h hk (fun _ ↦ rfl) fun i hi ↦ ?_
  dsimp only
  split_ifs
  · exact Acts.throw h rfl
  · exact Acts.throw h rfl
  · apply Acts.read
    exact getInodeMut_keepsTree h hk (fun n ↦ { n with xattr := putXattr name value n.xattr })
      (fun _ ↦ rfl) (fun _ _ ↦ rfl) (fun _ ↦ rfl) (fun _ ↦ rfl) fun _ ↦ rfl

theorem removexattr_keepsTree (h : s.Sound) (hwritable : s.writable = true) (hk : k < s.sb.nextInode) (name : Bytes) :
    KeepsTree (removexattr k name) s := by
  unfold removexattr
  apply Acts.requireWrite hwritable
  refine Acts.getInode h hk (fun _ ↦ rfl) fun i hi ↦ ?_
  apply Acts.read
  dsimp only
  split_ifs
  · have hdirty : KeepsTree (getInodeMut k id) s :=
      getInodeMut_keepsTree h hk id (fun _ ↦ rfl) (fun _ _ ↦ rfl) (fun _ ↦ rfl) (fun _ ↦ rfl) fun _ ↦ rfl
    exact hdirty.bind fun _ t ht hsame ↦ Acts.throw ht.sound hsame
  · exact getInodeMut_keepsTree h hk (fun n ↦ { n with xattr := i.xattr.filter (fun a ↦ a.1 != name) })
      (fun _ ↦ rfl) (fun _ _ ↦ rfl) (fun _ ↦ rfl) (fun _ ↦ rfl) fun _ ↦ rfl

theorem readData_keepsTree (h : s.Sound) (hk : k < s.sb.nextInode) (off count : ℕ) :
    KeepsTree (readData k off count) s := by
  cases hmem : s.inodes.find? k with
  | some i =>
    refine keepsTree_of_node ((readData_reads h hmem off count).mono ?_ fun _ _ he ↦ Or.inl he)
    rintro data t ⟨-, hsound, hsame⟩
    exact hsame.becomes hsound
  | none =>
    unfold readData
    refine Acts.getInode h hk (fun _ ↦ rfl) fun i hi ↦ ?_
    rw [hmem] at hi
    cases hi

theorem parseDir_keepsTree (h : s.Sound) (hk : k < s.sb.nextInode) : KeepsTree (parseDir k) s := by
  refine keepsTree_of_node ((parseDir_reads h hk).mono (fun _ _ hq ↦ hq.2) ?_)
  rintro e t (he | ⟨-, ht⟩)
  · exact Or.inl he
  · exact Or.inr ht

theorem walk_keepsTree (h : s.Sound) (hbelow : s.NamesBelow) {args : WalkArgs} {cwd : ℕ}
    (hroot : args.root < s.sb.nextInode) (hcwd : cwd < s.sb.nextInode) (depth : ℕ) (path : UnixPath) :
    KeepsTree (walk args depth cwd path) s := by
  refine (walk_computes depth cwd path s h hbelow hroot hcwd).mono ?_ ?_
  · rintro r g ⟨rfl, -⟩
    rfl
  · rintro g ⟨rfl, -⟩
    rfl

/-- The bytes of a file are no part of the tree. -/
theorem Becomes.tree_of_file {n : Node} (hn : s.node k = some n) (hfile : n.isDir = false) {bytes : Bytes}
    (h : Becomes s (Function.update s.node k (some { n with bytes := bytes })) t) : t.tree = s.tree := by
  unfold Inner.tree
  rw [h.node, ← Nodes.edit_of_some hn (fun n ↦ { n with bytes := bytes })]
  refine Nodes.tree_edit _ _ (fun n' hn' ↦ ?_) (fun _ ↦ rfl) fun _ ↦ rfl
  rw [hn] at hn'
  cases hn'
  rw [Node.entries_of_file hfile]
  exact Node.entries_of_file hfile

theorem rewrites_keepsTree {α : Type} {x : Fs α} {n : Node} (hn : s.node k = some n) (hfile : n.isDir = false)
    (h : x.Holds s (fun _ t ↦ ∃ bytes, Becomes s (Function.update s.node k (some { n with bytes := bytes })) t)
      (fun e t ↦ e.IsHost ∨ Becomes s s.node t)) : KeepsTree x s := by
  refine Exec.Holds.mono h ?_ ?_
  · rintro _ t ⟨bytes, ht⟩
    exact ⟨ht.kept, ht.tree_of_file hn hfile⟩
  · rintro e t (he | ht)
    · exact Or.inl he
    · exact Or.inr ⟨ht.kept, tree_of_node ht.node⟩

theorem writeData_keepsTree (h : s.Sound) (hwritable : s.writable = true) (hk : k < s.sb.nextInode) (hfile : s.NoDir k)
    (off : ℕ) (buf : Bytes) : KeepsTree (writeData k off buf) s := by
  cases hn : s.node k with
  | some n => exact rewrites_keepsTree hn (hfile n hn) (writeData_changes h hwritable hn buf)
  | none =>
    unfold writeData
    apply Acts.requireWrite hwritable
    split_ifs
    · exact Acts.pure h rfl
    · exact Acts.throw h rfl
    · refine Acts.getInode h hk (fun _ ↦ rfl) fun i hi ↦ ?_
      rw [node_of_mem hi] at hn
      cases hn

theorem flushRecordCache_acts (h : s.Sound) :
    Acts flushRecordCache s (fun _ g ↦ g = s.node) (fun g ↦ g = s.node) := by
  refine Exec.Holds.mono (flushRecordCache_flushes h) ?_ fun _ _ he ↦ Or.inl he
  intro _ t ht
  have hbecomes := ht.same.becomes ht.sound
  exact ⟨hbecomes.kept, hbecomes.node⟩

theorem truncateData_keepsTree (h : s.Sound) (hwritable : s.writable = true) (hk : k < s.sb.nextInode)
    (hfile : s.NoDir k) (size : ℕ) : KeepsTree (truncateData k size) s := by
  cases hn : s.node k with
  | some n => exact rewrites_keepsTree hn (hfile n hn) (truncateData_changes h hwritable hn size)
  | none =>
    unfold truncateData
    apply Acts.requireWrite hwritable
    by_cases hbig : maxFileSize < size
    · rw [if_pos hbig]
      exact Acts.throw h rfl
    · rw [if_neg hbig]
      refine ((flushRecordCache_acts h).mono (fun _ _ hg ↦ hg) fun _ hg ↦ congrArg Nodes.tree hg).bind ?_
      intro _ t ht hnode
      refine Acts.getInode ht.sound (ht.next hk) (fun _ ↦ congrArg Nodes.tree hnode) fun i hi ↦ ?_
      rw [← hnode, node_of_mem hi] at hn
      cases hn

theorem setInodeCompression_keepsTree (h : s.Sound) (hwritable : s.writable = true) (hk : k < s.sb.nextInode)
    (compression : Compression) : KeepsTree (setInodeCompression k compression) s := by
  cases hmem : s.inodes.find? k with
  | some i =>
    exact keepsTree_of_node
      ((setInodeCompression_node h hwritable hmem compression).mono (fun _ _ ht ↦ ht) fun _ _ he ↦ Or.inl he)
  | none =>
    unfold setInodeCompression
    apply Acts.requireWrite hwritable
    refine ((flushRecordCache_acts h).mono (fun _ _ hg ↦ hg) fun _ hg ↦ congrArg Nodes.tree hg).bind ?_
    intro _ t ht hnode
    apply Acts.read
    unfold getInodeMut
    refine Acts.getInode ht.sound (ht.next hk) (fun _ ↦ congrArg Nodes.tree hnode) fun i hi ↦ ?_
    have hnone := node_eq_none.mpr hmem
    rw [← hnode, node_of_mem hi] at hnone
    cases hnone

theorem flushCache_keepsTree (h : s.Sound) (order : IterOrder) : KeepsTree (flushCache order) s := by
  unfold flushCache
  refine ((flushRecordCache_acts h).mono (fun _ _ hg ↦ hg) fun _ hg ↦ congrArg Nodes.tree hg).bind ?_
  intro _ t ht hnode
  unfold Acts
  rw [holds_onCache]
  refine (BlockCache.flush_spec order t.disk).mono ?_ (fun _ _ he ↦ Or.inl he)
  rintro _ d ⟨hquiet, -⟩
  have hbecomes := ht.sound.looks ⟨d, rfl, hquiet⟩
  exact ⟨hbecomes.kept, congrArg Nodes.tree (hbecomes.node.trans hnode)⟩

theorem hostCall_keepsTree (h : s.Sound) : KeepsTree (onImage Image.hostCall) s :=
  keepsTree_of_node ((hostCall_looked s).mono (fun _ _ ht ↦ h.looks ht) fun _ _ he ↦ Or.inl he)

theorem flushCacheData_keepsTree (h : s.Sound) (order : IterOrder) : KeepsTree (flushCacheData order) s :=
  (flushCache_keepsTree h order).bind fun _ _ ht hsame ↦
    (hostCall_keepsTree ht.sound).mono (fun _ _ hg ↦ hg.trans hsame) fun _ hg ↦ hg.trans hsame

/-! ## Counting handles -/

theorem incOpen_tree (k : ℕ) (s : Inner) :
    (incOpen k).Holds s (fun _ t ↦ t.tree = s.tree) (fun _ t ↦ t.tree = s.tree) := by
  unfold incOpen
  rw [Exec.holds_bind, Exec.holds_read, Exec.holds_bind]
  apply holds_addU32
  intro _
  rw [Exec.holds_modify]
  rfl

theorem dropInode_tree (h : s.Sound) (hwritable : s.writable = true) (hk : k < s.sb.nextInode) :
    (dropInode k).Holds s (fun _ t ↦ s.tree.kind k ≠ none ∧ t.tree = s.tree.forget k)
      (fun e t ↦ e.IsHost ∨ s.tree.kind k = none ∧ t.tree = s.tree) := by
  refine (dropInode_drops h hwritable hk).mono ?_ ?_
  · rintro _ t ⟨⟨n, hn⟩, hdrops⟩
    refine ⟨?_, ?_⟩
    · rw [tree, Nodes.tree_kind hn]
      exact Option.some_ne_none _
    · unfold tree
      rw [hdrops.node]
      exact Nodes.tree_forget _ _
  · rintro e t (he | ⟨hnone, ht⟩)
    · exact Or.inl he
    · exact Or.inr ⟨Nodes.tree_kind_none.mpr hnone, tree_of_node ht.node⟩

theorem decOpen_tree (h : s.Tidy) (hk : k < s.sb.nextInode) :
    (decOpen k).Holds s (fun _ t ↦ Tree.Released k s.tree t.tree) (fun e t ↦ e.IsHost ∨ t.tree = s.tree) := by
  unfold decOpen
  rw [Exec.holds_bind, Exec.holds_get]
  cases hcount : s.openCount.find? k with
  | none => exact .stays
  | some count =>
    dsimp only
    split_ifs with hlast horphan
    · exact .stays
    · obtain ⟨-, n, hn⟩ := h.orphans k horphan
      obtain ⟨i, hi, rfl⟩ := mem_of_node hn
      set v : Inner := { s with openCount := s.openCount.erase k, orphans := s.orphans.erase k } with hv
      have hmem : v.inodes.find? k = some i := hi
      have hget : Exec.attempt (getInode k) v = .ok (.ok i) v := by
        unfold Exec.attempt
        rw [getInode_mem hmem]
      have hsound : v.Sound := h.sound.aside _ _ s.checkPerm
      rw [Exec.holds_bind, Exec.holds_modify, Exec.holds_bind, Exec.holds_modify, Exec.holds_bind_of_ok hget]
      dsimp only
      by_cases hlinks : i.nlink = 0
      · rw [if_pos hlinks]
        refine (dropInode_tree hsound h.writable hk).mono ?_ ?_
        · rintro _ t ⟨hkind, ht⟩
          rw [ht]
          exact .goes hkind ((Nodes.tree_nlink hn).trans hlinks)
        · rintro e t (he | ⟨-, ht⟩)
          · exact Or.inl he
          · exact Or.inr ht
      · rw [if_neg hlinks]
        exact .stays
    · exact .stays

/-! ## Writing back -/

/-- Directories that hold their data inline have no extent tree left. -/
def DirsSettled (s : Inner) : Prop := ∀ k i, s.inodes.find? k = some i → i.isDir = true → ¬Stranded i

/-- Two namespaces that differ in the bytes of files only. -/
theorem tree_congr_files {f g : Nodes}
    (h : ∀ k, f k = g k ∨ ∃ (n : Node) (bytes : Bytes), g k = Option.some n ∧ n.isDir = false ∧
      f k = Option.some { n with bytes := bytes }) : f.tree = g.tree := by
  apply Tree.ext
  · funext k name
    change (f.dir k).bind _ = (g.dir k).bind _
    rcases h k with hsame | ⟨n, bytes, hg, hfile, hf⟩
    · unfold Nodes.dir
      rw [hsame]
    · rw [Nodes.dir_of_some hg, Nodes.dir_of_some hf, Node.entries_of_file hfile]
      have hfile' : ({ n with bytes := bytes } : Node).isDir = false := hfile
      rw [Node.entries_of_file hfile']
  · funext k
    change (f k).map _ = (g k).map _
    rcases h k with hsame | ⟨n, bytes, hg, -, hf⟩
    · rw [hsame]
    · rw [hg, hf]
      rfl
  · funext k
    change ((f k).map _).getD 0 = ((g k).map _).getD 0
    rcases h k with hsame | ⟨n, bytes, hg, -, hf⟩
    · rw [hsame]
    · rw [hg, hf]
      rfl

theorem Syncs.tree (h : Syncs s t) (hdirs : s.DirsSettled) : t.tree = s.tree := by
  apply tree_congr_files
  intro k
  cases hi : s.inodes.find? k with
  | none =>
    left
    rw [node_eq_none.mpr hi, node_eq_none.mpr (h.none k hi)]
  | some i =>
    obtain ⟨bytes, hnode, hbytes⟩ := h.some k i hi
    rcases hbytes with rfl | ⟨hstranded, -⟩
    · left
      rw [hnode, node_of_mem hi]
    · right
      refine ⟨i.toNode (s.contents k), bytes, node_of_mem hi, ?_, hnode⟩
      exact Bool.eq_false_iff.mpr fun hdir ↦ hdirs k i hi hdir hstranded

theorem flushAll_tree (h : s.Tidy) (hdirs : s.DirsSettled) (order : FlushOrder) :
    (flushAll order).Holds s (fun _ t ↦ t.tree = s.tree) (fun e t ↦ e.IsHost ∨ t.tree = s.tree) := by
  refine (flushAll_syncs h.sound h.writable order).mono ?_ ?_
  · rintro _ t ⟨ht, -⟩
    exact ht.tree hdirs
  · rintro e t (he | ht)
    · exact Or.inl he
    · exact Or.inr (ht.tree hdirs)

theorem sync_tree (h : s.Tidy) (hdirs : s.DirsSettled) (order : FlushOrder) :
    (sync order).Holds s (fun _ t ↦ t.tree = s.tree) (fun e t ↦ e.IsHost ∨ t.tree = s.tree) := by
  have hflush := (flushAll_tree h hdirs order).and (flushAll_stays h order)
  refine Exec.Holds.bind hflush ?_ fun _ _ he ↦ he.1
  rintro _ t ⟨ht, hon, -⟩
  refine (hostCall_keepsTree hon.1.sound).tree.mono (fun _ _ hu ↦ hu.trans ht) ?_
  rintro e u (he | hu)
  · exact Or.inl he
  · exact Or.inr (hu.trans ht)

end Inner

/-! ## Runs -/

namespace Tree

variable {t u : Tree} {k : ℕ}

/-- Each step keeps the counts, and the dots of every directory. -/
theorem Does.consistent {op : Operation} (h : Does op t u) (ht : t.Consistent)
    (hdrop : ∀ ino, op = .dropInode ino → t.nlink ino = 0) : u.Consistent := by
  cases h with
  | keeps => exact ht
  | creates hvacant hnew => exact ht.make hvacant.dir hvacant.valid hvacant.free hnew _
  | links hvacant hkind hfile => exact ht.linkFile hvacant.dir hvacant.valid hvacant.free hkind hfile
  | unlinks htake _ hrel => exact hrel.consistent (htake.unlink ht)
  | renamesSame => exact ht
  | renames hold hproper hvacant _ => exact ht.move hold hproper hvacant.dir hvacant.valid hvacant.free
  | @replaces oldParent newParent oldName newName creds v w t r hold hproper htake hother _ _ hrel =>
    have hvacant := htake.vacant ht hrel
    have hne : ¬(oldParent = newParent ∧ oldName = newName) := by
      rintro ⟨rfl, rfl⟩
      rw [htake.found] at hold
      exact hother (congrArg Prod.fst (Option.some.inj hold)).symm
    have hlook : r.look oldParent oldName = some v := by
      rw [htake.look_ne ht hrel hne]
      exact hold
    exact (hrel.consistent (htake.unlink ht)).move hlook hproper hvacant.dir hvacant.valid hvacant.free
  | closes hrel => exact hrel.consistent ht
  | drops hkind =>
    have hrel : Released _ t _ := .goes hkind (hdrop _ rfl)
    exact hrel.consistent ht

end Tree

namespace Operation

open LinuxFile.Inner

variable {s t : Inner} {op : Operation}

/-- What a call needs for the tree to stay one: the 32-bit count of a directory has room for an entry more, an inode is
dropped when its last name is gone, and no directory is written back from a stale extent tree. -/
def Fits (s : Inner) : Operation → Prop
  | createChild parent .. | linkInto _ parent .. => s.node.Roomy parent
  | rename _ _ newParent .. => s.node.Roomy newParent
  | dropInode ino => s.tree.nlink ino = 0
  | flushAll _ | sync _ => s.DirsSettled
  | _ => True

/-- A call that keeps the tree does what the tree allows it. -/
theorem keeps_does {α : Type} {x : Fs α} (hop : op.shapes = false) (h : KeepsTree x s) :
    (discard x).Holds s (fun _ t ↦ Tree.Does op s.tree t.tree) (fun e t ↦ e.IsHost ∨ t.tree = s.tree) := by
  refine Exec.Holds.bind h ?_ ?_
  · rintro _ t ⟨-, ht⟩
    change Tree.Does op s.tree t.tree
    rw [show t.tree = s.tree from ht]
    exact .keeps hop
  · rintro e t (he | ⟨-, ht⟩)
    · exact Or.inl he
    · exact Or.inr ht

theorem keeps_does' {x : Fs Unit} (hop : op.shapes = false)
    (h : x.Holds s (fun _ t ↦ t.tree = s.tree) (fun e t ↦ e.IsHost ∨ t.tree = s.tree)) :
    x.Holds s (fun _ t ↦ Tree.Does op s.tree t.tree) (fun e t ↦ e.IsHost ∨ t.tree = s.tree) := by
  refine h.mono ?_ fun _ _ he ↦ he
  intro _ t ht
  rw [ht]
  exact .keeps hop

/-- Every call that returns makes a step of the tree; one that fails, but not on the host, leaves the tree alone. -/
theorem exec_tree (h : s.Tidy) (htree : s.tree.Consistent) (hop : op.Regular s) (hfits : op.Fits s) :
    op.exec.Holds s (fun _ t ↦ Tree.Does op s.tree t.tree) (fun e t ↦ e.IsHost ∨ t.tree = s.tree) := by
  have hnum := hop.numbers
  have hw := h.writable
  cases op with
  | readData ino offset count =>
    exact keeps_does rfl (readData_keepsTree h.sound (hnum ino (by simp [numbers])) offset count)
  | writeData ino offset buf =>
    exact keeps_does rfl
      (writeData_keepsTree h.sound hw (hnum ino (by simp [numbers])) (hop.target ino rfl) offset buf)
  | truncateData ino size =>
    exact keeps_does' rfl
      (truncateData_keepsTree h.sound hw (hnum ino (by simp [numbers])) (hop.target ino rfl) size).tree
  | setInodeCompression ino compression =>
    exact keeps_does' rfl (setInodeCompression_keepsTree h.sound hw (hnum ino (by simp [numbers])) compression).tree
  | readDirEntries ino => exact keeps_does rfl (parseDir_keepsTree h.sound (hnum ino (by simp [numbers])))
  | walk args depth cwd path =>
    exact keeps_does rfl (walk_keepsTree h.sound h.namesBelow (hnum _ (by simp [numbers])) (hnum _ (by simp [numbers]))
      depth path)
  | createChild parent name mode uid gid rdev creds =>
    refine Exec.Holds.bind
      (createChild_tree h htree (hnum parent (by simp [numbers])) hfits name mode uid gid rdev creds) ?_ fun _ _ he ↦ he
    rintro ino t ⟨hvacant, hnew, ht⟩
    change Tree.Does _ s.tree t.tree
    rw [ht]
    exact .creates hvacant hnew
  | unlinkName parent name rmdir creds =>
    refine (unlinkName_tree h htree (hnum parent (by simp [numbers])) name rmdir creds).mono ?_ fun _ _ he ↦ he
    rintro _ t ⟨entry, htake, hkind, hrel⟩
    exact .unlinks htake hkind hrel
  | linkInto target parent name creds =>
    refine (linkInto_tree h htree (hnum target (by simp [numbers])) (hnum parent (by simp [numbers])) hfits name
      creds).mono ?_ fun _ _ he ↦ he
    rintro _ t ⟨ft, hvacant, hkind, hfile, ht⟩
    rw [ht]
    exact .links hvacant hkind hfile
  | rename oldParent oldName newParent newName creds =>
    exact rename_tree h htree (hnum oldParent (by simp [numbers])) (hnum newParent (by simp [numbers])) hfits oldName
      newName creds
  | chmod ino mode creds =>
    exact keeps_does' rfl (chmod_keepsTree h.sound hw (hnum ino (by simp [numbers])) mode creds).tree
  | chown ino uid gid creds =>
    exact keeps_does' rfl (chown_keepsTree h.sound hw (hnum ino (by simp [numbers])) uid gid creds).tree
  | setTimes ino times => exact keeps_does' rfl (setTimes_keepsTree h.sound hw (hnum ino (by simp [numbers])) times).tree
  | stat ino => exact keeps_does rfl (statIno_keepsTree h.sound (hnum ino (by simp [numbers])))
  | getxattr ino name => exact keeps_does rfl (getxattr_keepsTree h.sound (hnum ino (by simp [numbers])) name)
  | listxattr ino => exact keeps_does rfl (listxattr_keepsTree h.sound (hnum ino (by simp [numbers])))
  | setxattr ino name value flags =>
    exact keeps_does' rfl (setxattr_keepsTree h.sound hw (hnum ino (by simp [numbers])) name value flags).tree
  | removexattr ino name =>
    exact keeps_does' rfl (removexattr_keepsTree h.sound hw (hnum ino (by simp [numbers])) name).tree
  | incOpen ino => exact keeps_does' rfl ((incOpen_tree ino s).mono (fun _ _ ht ↦ ht) fun _ _ ht ↦ Or.inr ht)
  | decOpen ino =>
    exact (decOpen_tree h (hnum ino (by simp [numbers]))).mono (fun _ _ ht ↦ .closes ht) fun _ _ he ↦ he
  | dropInode ino =>
    refine (dropInode_tree h.sound hw (hnum ino (by simp [numbers]))).mono ?_ ?_
    · rintro _ t ⟨hkind, ht⟩
      rw [ht]
      exact .drops hkind
    · rintro e t (he | ⟨-, ht⟩)
      · exact Or.inl he
      · exact Or.inr ht
  | flushCache order => exact keeps_does' rfl (flushCache_keepsTree h.sound order).tree
  | flushCacheData order => exact keeps_does' rfl (flushCacheData_keepsTree h.sound order).tree
  | flushAll order => exact keeps_does' rfl (flushAll_tree h hfits order)
  | sync order => exact keeps_does' rfl (sync_tree h hfits order)

end Operation

namespace Inner

variable {s t : Inner} {calls : List (Inner × Operation)}

/-- A state whose namespace is a tree. -/
structure Rooted (s : Inner) : Prop where
  tidy : s.Tidy
  tree : s.tree.Consistent

/-- The conditions on a call of a run. -/
structure Orderly (call : Inner × Operation) : Prop where
  regular : call.2.Regular call.1
  unhurt : call.1.Unhurt call.2
  fits : call.2.Fits call.1

theorem Rooted.does (h : s.Rooted) {op : Operation} (hop : Orderly (s, op)) {u : Tree}
    (hdoes : Tree.Does op s.tree u) : u.Consistent := by
  apply hdoes.consistent h.tree
  intro ino heq
  have hfits := hop.fits
  rw [heq] at hfits
  exact hfits

/-- An orderly call keeps the tree, whether it returns or fails. -/
theorem Rooted.called (h : s.Rooted) {op : Operation} (hop : Orderly (s, op)) :
    op.exec.Holds s (fun _ t ↦ t.Rooted) (fun _ t ↦ t.Rooted) := by
  have htidy := h.tidy.called hop.regular hop.unhurt
  have htree := Operation.exec_tree h.tidy h.tree hop.regular hop.fits
  refine Exec.holds_of_forall (fun value t ht ↦ ?_) (fun e t ht ↦ ?_)
  · exact ⟨htidy.of_ok ht, h.does hop (htree.of_ok ht)⟩
  · have hsame : t.tree = s.tree := (htree.of_err ht).resolve_left (hop.unhurt e t ht)
    refine ⟨htidy.of_err ht, ?_⟩
    rw [hsame]
    exact h.tree

theorem Rooted.checked (h : s.Rooted) (enable : Bool) : Rooted { s with checkPerm := enable } :=
  ⟨h.tidy.checked enable, h.tree⟩

end Inner

/-! ## A new filesystem -/

instance (name : Bytes) : Decidable (Proper name) :=
  inferInstanceAs (Decidable (name ≠ dotName ∧ name ≠ dotdotName))

namespace Tree

/-- The tree of a root without entries. -/
def bare : Tree where
  look k name := if k = rootIno ∧ ¬Proper name then some (rootIno, .directory) else none
  kind k := if k = rootIno then some .directory else none
  nlink k := if k = rootIno then 2 else 0

theorem bare_look {k : ℕ} {name : Bytes} {v : ℕ × FileType} (h : bare.look k name = some v) :
    k = rootIno ∧ ¬Proper name ∧ v = (rootIno, .directory) := by
  have hif : (if k = rootIno ∧ ¬Proper name then some (rootIno, FileType.directory) else none) = some v := h
  split_ifs at hif with hcond
  exact ⟨hcond.1, hcond.2, (Option.some.inj hif).symm⟩

theorem bare_kind {k : ℕ} {ft : FileType} (h : bare.kind k = some ft) : k = rootIno ∧ ft = .directory := by
  have hif : (if k = rootIno then some FileType.directory else none) = some ft := h
  split_ifs at hif with hcond
  exact ⟨hcond, (Option.some.inj hif).symm⟩

theorem bare_root : bare.kind rootIno = some .directory := rfl

theorem bare_dots {name : Bytes} (h : ¬Proper name) : bare.look rootIno name = some (rootIno, .directory) :=
  if_pos ⟨rfl, h⟩

theorem bare_names (k : ℕ) : bare.names k = ∅ := by
  apply Set.eq_empty_of_forall_notMem
  rintro p ⟨hproper, ft, hlook⟩
  exact (bare_look hlook).2.1 hproper

theorem bare_subdirs (k : ℕ) : bare.subdirs k = ∅ := by
  apply Set.eq_empty_of_forall_notMem
  rintro name ⟨hproper, c, hlook⟩
  exact (bare_look hlook).2.1 hproper

theorem bare_consistent : bare.Consistent where
  finite := by
    apply (Set.toFinite {(rootIno, dotName), (rootIno, dotdotName)}).subset
    rintro ⟨k, name⟩ hlook
    obtain ⟨v, hv⟩ := Option.ne_none_iff_exists'.mp hlook
    obtain ⟨hk, hname, -⟩ := bare_look hv
    unfold Proper at hname
    have hdots : name = dotName ∨ name = dotdotName := by tauto
    rcases hdots with hdot | hdot
    · exact Or.inl (Prod.ext hk hdot)
    · exact Or.inr (Prod.ext hk hdot)
  root := bare_root
  top := bare_dots not_proper_dotdot
  owner k name v hlook := by
    rw [(bare_look hlook).1]
    exact bare_root
  dot k hk := by
    rw [(bare_kind hk).1]
    exact bare_dots not_proper_dot
  dotdot k hk := by
    rw [(bare_kind hk).1]
    exact ⟨rootIno, bare_dots not_proper_dotdot⟩
  entry p name c ft hlook hproper := absurd hproper (bare_look hlook).2.1
  up p name c hlook hproper := absurd hproper (bare_look hlook).2.1
  once p name name' c ft hlook _ hproper := absurd hproper (bare_look hlook).2.1
  files k ft hk hft := absurd (bare_kind hk).2 hft
  directories k hk := by
    rw [bare_names, bare_subdirs, Set.ncard_empty, Set.ncard_empty, (bare_kind hk).1]
    rfl

end Tree

namespace Inner

variable {s t : Inner} {calls : List (Inner × Operation)}

theorem rootEntries_named {name : Bytes} :
    entryNamed rootEntries name = if ¬Proper name then some (rootIno, .directory) else none := by
  unfold entryNamed rootEntries Proper
  rw [List.find?_cons, List.find?_cons]
  by_cases hdot : name = dotName
  · rw [hdot]
    rfl
  · by_cases hdotdot : name = dotdotName
    · rw [hdotdot]
      rfl
    · have hdot' : (dotName == name) = false := beq_eq_false_iff_ne.mpr (Ne.symm hdot)
      have hdotdot' : (dotdotName == name) = false := beq_eq_false_iff_ne.mpr (Ne.symm hdotdot)
      rw [hdot', hdotdot', if_neg (not_not.mpr ⟨hdot, hdotdot⟩)]
      rfl

theorem Created.tree {opts : CreateOptions} {env : Env} {live : KeyMap Inode} (h : Created opts env t live) :
    t.tree = Tree.bare := by
  unfold Inner.tree
  rw [h.node]
  apply Tree.ext
  · funext k name
    change ((Function.update (fun _ ↦ none) rootIno (some rootNode) k : Option Node).bind Node.entries).bind
      (fun entries ↦ entryNamed entries name) = if k = rootIno ∧ ¬Proper name then _ else _
    by_cases hk : k = rootIno
    · rw [hk, Function.update_self, Option.bind_some, rootNode_entries, Option.bind_some, rootEntries_named]
      simp
    · rw [Function.update_of_ne hk, if_neg fun hand ↦ hk hand.1]
      rfl
  · funext k
    change (Function.update (fun _ ↦ none) rootIno (some rootNode) k).map _ = if k = rootIno then _ else _
    by_cases hk : k = rootIno
    · rw [hk, Function.update_self, if_pos rfl]
      rfl
    · rw [Function.update_of_ne hk, if_neg hk]
      rfl
  · funext k
    change ((Function.update (fun _ ↦ none) rootIno (some rootNode) k).map Node.nlink).getD 0 = if k = rootIno then _ else _
    by_cases hk : k = rootIno
    · rw [hk, Function.update_self, if_pos rfl]
      rfl
    · rw [Function.update_of_ne hk, if_neg hk]
      rfl

theorem create_rooted {opts : CreateOptions} {env : Env} {uuid : Buf 16} {faults : List (Option ErrorKind)}
    {order : FlushOrder} (h : create opts env uuid faults order = .ok () s) : s.Rooted := by
  obtain ⟨live, hcreated⟩ := Exec.Holds.of_ok (create_spec opts env uuid faults order) h
  refine ⟨hcreated.tidy, ?_⟩
  rw [hcreated.tree]
  exact Tree.bare_consistent

/-- The states that orderly calls lead to from a new filesystem, with permission checks switched on and off in
between. -/
inductive Charted : Inner → Prop
  | created {opts : CreateOptions} {env : Env} {uuid : Buf 16} {faults : List (Option ErrorKind)}
      {order : FlushOrder} {s : Inner} (h : create opts env uuid faults order = .ok () s) : Charted s
  | called {s t : Inner} {op : Operation} (hs : Charted s) (hop : Orderly (s, op)) (h : op.exec.Ends s t) : Charted t
  | checked {s : Inner} (hs : Charted s) (enable : Bool) : Charted { s with checkPerm := enable }

theorem Charted.rooted (h : s.Charted) : s.Rooted := by
  induction h with
  | created h => exact create_rooted h
  | called hs hop h ih => exact (ih.called hop).of_ends h
  | checked hs enable ih => exact ih.checked enable

theorem Charted.runs (h : s.Charted) (hrun : Exec.Runs Operation.exec s calls t)
    (hcalls : ∀ call ∈ calls, Orderly call) : t.Charted := by
  induction hrun with
  | nil s => exact h
  | cons hends hrest ih =>
    exact ih (h.called (hcalls _ List.mem_cons_self) hends) fun call hcall ↦ hcalls call (List.mem_cons_of_mem _ hcall)

end Inner

end LinuxFile
