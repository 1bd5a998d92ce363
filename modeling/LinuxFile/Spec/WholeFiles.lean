import LinuxFile.Spec.Queries

/-!
# Whole files by path

A file that is created or truncated and then written has the bytes written; every path that led somewhere leads
there still, and no other file has changed. A whole file that is read gives the bytes of the inode at the path's end.
-/

namespace LinuxFile

open LinuxFile.Inner

/-- Other bytes in what is no directory leave the tree as it is. -/
theorem Nodes.tree_refill {f : Nodes} {k : ℕ} {n : Node} (hn : f k = some n) (hfile : n.isDir = false) (bytes : Bytes) :
    Nodes.tree (Function.update f k (some { n with bytes := bytes })) = f.tree := by
  rw [← Nodes.edit_of_some hn fun n ↦ { n with bytes := bytes }]
  refine Nodes.tree_edit _ _ (fun n' hn' ↦ ?_) (fun _ ↦ rfl) fun _ ↦ rfl
  rw [hn] at hn'
  cases hn'
  rw [Node.entries_of_file hfile]
  exact Node.entries_of_file hfile

theorem Node.isDir_of_type {n : Node} {ft : FileType} (h : FileType.fromMode n.mode = ft) (hne : ft ≠ .directory) :
    n.isDir = false := by
  unfold Node.isDir FileType.isDir
  rw [h]
  exact beq_eq_false_iff_ne.mpr hne

namespace Inner

variable {α β : Type} {s t u : Inner} {k : ℕ} {n : Node} {depth : ℕ} {path : UnixPath} {bytes bytes' : Bytes}

/-- The path leads to the file `k`, as it did unless the file is new, and the file has these bytes; every path that led
somewhere leads there still, and no other file has changed. -/
structure Filled (s : Inner) (depth : ℕ) (path : UnixPath) (bytes : Bytes) (k : ℕ) (t : Inner) : Prop where
  rooted : t.Rooted
  leads : t.node.leads depth path true = some k
  origin : s.node.leads depth path true = some k ∨ s.node k = none
  node : ∃ n, t.node k = some n ∧ FileType.fromMode n.mode = .file ∧ n.bytes = bytes
  keeps : s.node.KeepsPaths t.node
  others : ∀ j m, j ≠ k → s.node j = some m → m.isDir = false → t.node j = some m

theorem Filled.congr (h : Filled s depth path bytes k t) (hu : Onward t u) (hnode : u.node = t.node) :
    Filled s depth path bytes k u where
  rooted := h.rooted.kept hu hnode
  leads := by
    rw [hnode]
    exact h.leads
  origin := h.origin
  node := by
    rw [hnode]
    exact h.node
  keeps := by
    rw [hnode]
    exact h.keeps
  others := by
    rw [hnode]
    exact h.others

theorem Filled.named (h : Filled s depth path bytes k t) : ∃ n, t.node k = some n ∧ n.nlink ≠ 0 := by
  obtain ⟨n, hn, htype, -⟩ := h.node
  exact ⟨n, hn, h.rooted.nlink_ne_zero h.leads hn⟩

theorem Filled.refill (h : Filled s depth path bytes k t) (hn : t.node k = some n) (hu : Onward t u)
    (hnode : u.node = Function.update t.node k (some { n with bytes := bytes' })) :
    Filled s depth path bytes' k u := by
  obtain ⟨n', hn', htype, -⟩ := h.node
  rw [hn] at hn'
  cases hn'
  have hfile := Node.isDir_of_type htype (by decide)
  have hkeeps : t.node.KeepsPaths u.node := by
    rw [hnode]
    apply Nodes.Grows.keepsPaths
    apply (Nodes.Grows.refl t.node).refill hn hfile
    intro m hm
    rw [hn] at hm
    cases hm
    rw [htype]
    rfl
  have hself : u.node k = some { n with bytes := bytes' } := by rw [hnode, Function.update_self]
  refine ⟨⟨hu.1, ?_⟩, hkeeps.leads h.leads, h.origin, ⟨_, hself, htype, rfl⟩, h.keeps.trans hkeeps, ?_⟩
  · unfold Inner.tree
    rw [hnode, Nodes.tree_refill hn hfile]
    exact h.rooted.tree
  · intro j m hj hm hdir
    rw [hnode, Function.update_of_ne hj]
    exact h.others j m hj hm hdir

/-! ## Opening -/

theorem Leaves.getInode_none {f : Inode → Fs β} {R : β → Inner → Prop} {E : Inner → Prop} (h : s.Tidy)
    (hk : k < s.sb.nextInode) (hn : s.node k = none) (hE : ∀ t, t.node = s.node → E t) :
    Leaves (Inner.getInode k >>= f) s R E := by
  refine Exec.Holds.bind (h.sound.getInode_finds hk) ?_ ?_
  · rintro i t ⟨hi, -⟩
    rw [node_of_mem hi] at hn
    cases hn
  · rintro e t (he | ⟨-, ht⟩)
    · exact Or.inl he
    · exact Or.inr ⟨⟨h.kept ht.kept ht.node, ht.shell.sb ▸ le_rfl⟩, hE t ht.node⟩

/-- The options of `create_file`. -/
def createOptions : OpenOptions := { OpenOptions.new with write := true, create := true, truncate := true }

theorem openExisting_empties (h : s.Tidy) (hk : k < s.sb.nextInode) :
    Leaves (Facade.openExisting createOptions k) s
      (fun _ t ↦ ∃ n, s.node k = some n ∧ FileType.fromMode n.mode = .file ∧
        t.node = Function.update s.node k (some { n with bytes := [] })) (fun t ↦ t.node = s.node) := by
  unfold Facade.openExisting
  rw [if_neg (show ¬createOptions.createNew = true by decide)]
  cases hn : s.node k with
  | none => exact Leaves.getInode_none h hk hn fun _ ht ↦ ht
  | some n =>
    refine Leaves.getInode hn fun i hi heq ↦ ?_
    have htype : i.fileType = FileType.fromMode n.mode := by
      rw [heq]
      rfl
    rw [if_neg (fun hdir ↦ absurd hdir.1 (by decide))]
    by_cases hdir : i.isDir = true ∧ createOptions.write = true ∧ createOptions.directory = false
    · rw [if_pos hdir]
      exact Leaves.throw h rfl
    rw [if_neg hdir, if_pos (show createOptions.truncate = true by decide)]
    by_cases hfile : i.isFile = false
    · rw [if_pos hfile]
      exact Leaves.throw h rfl
    rw [if_neg hfile]
    have hkind : FileType.fromMode n.mode = .file := by
      rw [← htype]
      exact beq_iff_eq.mp (Bool.not_eq_false _ ▸ hfile)
    have hnodir : s.NoDir k := fun m hm ↦ by
      rw [hn] at hm
      cases hm
      exact Node.isDir_of_type hkind (by decide)
    refine (Leaves.of_stays (truncateData_stays h hk hnodir 0) (truncateData_empties h.sound h.writable hn)).mono ?_ ?_
    · rintro _ t - ⟨ht, -⟩
      exact ⟨n, rfl, hkind, ht.node⟩
    · exact fun _ hf ↦ hf.elim

theorem Rooted.filled (h : s.Rooted) (hk : s.node.leads depth path true = some k) (hn : s.node k = some n)
    (htype : FileType.fromMode n.mode = .file) : Filled s depth path n.bytes k s :=
  ⟨h, hk, Or.inl hk, ⟨n, hn, htype, rfl⟩, .refl _, fun _ _ _ hm _ ↦ hm⟩

theorem Makes.filled {parent ino : ℕ} {name : Bytes} {mode : UInt16} {uid gid : UInt32}
    (h : Makes s parent name (newNode mode uid gid) ino t) (ht : t.Rooted) (hroom : s.node.Roomy parent) {r : Resolved}
    (hfound : s.node.found depth path true = some r) (hfree : r.ino = none) (hparent : r.parent = parent)
    (hname : r.name = name) (htype : FileType.fromMode mode = .file) : Filled s depth path [] ino t := by
  obtain ⟨n, hn, hmode, hsame⟩ := h.self
  have hnew : n = newNode mode uid gid := hsame (Node.isDir_of_type (n := newNode mode uid gid) htype (by decide))
  have hlink : (FileType.fromMode (newNode mode uid gid).mode).isSymlink = false := by
    change (FileType.fromMode mode).isSymlink = false
    rw [htype]
    rfl
  have hleads := Nodes.leads_of_found (h.found ht.tidy hroom hfound hfree hparent hname (Or.inr hlink))
  refine ⟨ht, hleads, Or.inr h.unused, ⟨n, hn, ?_, ?_⟩,
    (h.grows ht.tidy hroom).keepsPaths, fun _ _ hj hm hfile ↦ h.others hj hm hfile⟩
  · rw [hnew]
    exact htype
  · rw [hnew]
    rfl

/-- The inode `create_file` opens. -/
theorem openTarget_empties (h : s.Rooted) (hspace : s.Spacious) {r : Resolved}
    (hfound : s.node.found depth path true = some r) (ht : Onward s t) (hbelow : Resolved.Below r t)
    (hnode : t.node = s.node) :
    Leaves (Facade.openTarget createOptions r) t (fun k u ↦ Filled s depth path [] k u) (fun u ↦ u.node = s.node) := by
  unfold Facade.openTarget
  cases hino : r.ino with
  | some k =>
    have hleads : s.node.leads depth path true = some k := (Nodes.leads_of_found hfound).trans hino
    refine Leaves.bind ((openExisting_empties ht.1 (hbelow.2 k hino)).mono (fun _ _ _ hu ↦ hu) ?_) ?_
    · exact fun u hu ↦ hu.trans hnode
    · rintro _ u hu ⟨n, hn, htype, hempty⟩
      rw [hnode] at hn
      have hbase := (h.filled hleads hn htype).congr ht hnode
      refine Leaves.pure hu.1 (hbase.refill ?_ hu hempty)
      rw [hnode]
      exact hn
  | none =>
    dsimp only
    rw [if_neg (by decide)]
    have hroom : t.node.Roomy r.parent := by
      rw [hnode]
      exact hspace r.parent
    refine (createChild_leaves (h.kept ht hnode) hbelow.1 hroom r.name _ _ _ _ Creds.root).mono ?_ ?_
    · rintro ino u - ⟨hu, hmakes⟩
      obtain ⟨hvalid, hunused, hnumber, hmade⟩ := hmakes
      rw [hnode] at hunused hmade
      have hmakes : Makes s r.parent r.name (newNode (sIfreg ||| applyUmask createOptions.mode 0o022) 0 0) ino u :=
        ⟨hvalid, hunused, hnumber, hmade⟩
      exact hmakes.filled hu (hspace r.parent) hfound hino rfl rfl (by decide)
    · exact fun u hu ↦ hu.trans hnode

theorem createFile_leaves (h : s.Rooted) (hspace : s.Spacious) (depth : ℕ) (path : UnixPath) :
    Leaves (Facade.createFile depth path) s
      (fun f t ↦ (f.writable = true ∧ f.flags &&& oAppend = 0 ∧ f.pos = 0) ∧ Filled s depth path [] f.ino t)
      (fun t ↦ t.node = s.node) := by
  unfold Facade.createFile Facade.openOpts
  refine Leaves.bind ((lookUp_leaves h depth path true).mono (fun _ _ _ hr ↦ hr) fun _ ht ↦ ht.1) ?_
  rintro r t ht ⟨hbelow, hnode, hfound⟩
  refine (openTarget_empties h hspace hfound ht hbelow hnode).bind ?_
  intro k u hu hfilled
  refine Leaves.bind ((incOpen_leaves hu.1 k).mono (fun _ _ _ hv ↦ hv) fun _ hf ↦ hf.elim) ?_
  intro _ v hv hsame
  have hwrite : (createOptions.asFlags &&& oAccmode != oRdonly) = true := by decide
  have hflags : createOptions.asFlags &&& oAppend = 0 := by decide
  exact Leaves.pure hv.1 ⟨⟨hwrite, hflags, rfl⟩, hfilled.congr hv hsame.node⟩

/-- `fs::write`: if it fails, but not on the host, nothing has changed. -/
theorem write_leaves (h : s.Rooted) (hspace : s.Spacious) (depth : ℕ) (path : UnixPath) {contents : Bytes}
    (hlen : contents.length ≤ maxFileSize) :
    Leaves (Facade.write depth path contents) s (fun _ t ↦ ∃ k, Filled s depth path contents k t)
      (fun t ↦ t.node = s.node) := by
  unfold Facade.write
  refine (createFile_leaves h hspace depth path).bind ?_
  rintro f t ht ⟨⟨hwrite, hflags, hpos⟩, hfilled⟩
  obtain ⟨n, hn, htype, hbytes⟩ := hfilled.node
  have hfile := Node.isDir_of_type htype (by decide)
  have hall : Leaves (do let _ ← File.writeAll (contents.length + 1) f contents; pure () : Fs Unit) t
      (fun _ u ↦ Filled s depth path contents f.ino u) (fun _ ↦ False) := by
    refine (File.writeAll_fills ht.1 hwrite hflags hpos hn hfile hbytes hlen).bind ?_
    intro _ u hu hnode
    exact Leaves.pure hu.1 (hfilled.refill hn hu hnode)
  refine (File.during_leaves hall ?_ ?_).mono (fun _ _ _ hu ↦ hu) fun _ hf ↦ hf.elim
  · exact fun _ u _ hu ↦ hu.named
  · exact fun _ u v hv hu hnode ↦ ⟨f.ino, hu.congr hv hnode⟩

/-! ## Reading -/

/-- The path leads nowhere, or to an inode that is gone. -/
def Missing (s : Inner) (depth : ℕ) (path : UnixPath) : Prop :=
  ∀ k, s.node.leads depth path true = some k → s.node k = none

/-- `fs::read`, which changes nothing. -/
theorem read_leaves (h : s.Rooted) (depth : ℕ) {sizes : ℕ → ℕ} (hsizes : ∀ m, 0 < sizes m) (rounds : ℕ)
    (path : UnixPath) :
    Leaves (Facade.read depth sizes rounds path) s
      (fun data t ↦ t.node = s.node ∧ ∃ k n, s.node.leads depth path true = some k ∧ s.node k = some n ∧ data = n.bytes)
      (fun t ↦ t.node = s.node ∧ s.Missing depth path) :=
  (h.visitor.read hsizes h.tidy.unmoved (Or.inl trivial)).leaves

/-! ## Attributes by path -/

/-- The calls that work on the inode their path leads to. -/
theorem onPath_leaves {x : ℕ → Fs α} {Q : α → Inner → Prop} {E : Inner → Prop} (h : s.Rooted) (depth : ℕ)
    (path : UnixPath) (follow : Bool) (hlost : ∀ t, t.node = s.node → s.node.leads depth path follow = none → E t)
    (hx : ∀ k t, Onward s t → t.node = s.node → s.node.leads depth path follow = some k → Leaves (x k) t Q E) :
    Leaves (Facade.onPath depth path follow x) s Q E := by
  unfold Facade.onPath
  refine Leaves.bind ((find_leaves h depth path follow).mono (fun _ _ _ hk ↦ hk) fun t ht ↦ hlost t ht.1 ht.2) ?_
  rintro k t ht ⟨hnode, hk⟩
  exact hx k t ht hnode hk

theorem statIno_leaves (h : s.Tidy) (hn : s.node k = some n) :
    Leaves (statIno k) s
      (fun st t ↦ t.node = s.node ∧ st.mode = n.mode ∧ st.nlink = n.nlink ∧ st.uid = n.uid ∧ st.gid = n.gid ∧
        st.size = n.bytes.length) (fun _ ↦ False) := by
  unfold statIno
  refine Leaves.getInode hn fun i hi heq ↦ ?_
  subst heq
  exact Leaves.pure h ⟨rfl, rfl, rfl, rfl, rfl, (contents_length hi).symm⟩

theorem chmod_leaves (h : s.Tidy) (hn : s.node k = some n) (mode : UInt16) :
    Leaves (chmod k mode Creds.root) s
      (fun _ t ↦ t.node = Function.update s.node k
        (some { n with mode := (n.mode &&& sIfmt) ||| (mode &&& modePerm) })) (fun _ ↦ False) := by
  refine Leaves.of_stays (chmod_stays h (h.live_lt hn) mode Creds.root) ?_
  obtain ⟨i, hi, rfl⟩ := mem_of_node hn
  unfold Inner.chmod
  rw [Exec.holds_bind_of_ok (requireWrite_ok h.writable), Exec.holds_bind_of_ok (getInode_mem hi), Exec.holds_bind,
    Exec.holds_get, if_neg fun hno ↦ absurd hno.2.1 (by decide)]
  refine Exec.Holds.mono (getInodeMut_touches (g := fun n ↦ { n with mode := (n.mode &&& sIfmt) ||| (mode &&& modePerm) })
    h.sound (h.live_lt hn) ?_ ?_) ?_ ?_
  · exact fun _ ↦ rfl
  · exact fun _ _ ↦ rfl
  · rintro _ t ⟨n, hn', ht⟩
    rw [hn] at hn'
    cases hn'
    exact ht.node
  · rintro e t (he | ⟨hnone, -⟩)
    · exact he
    · rw [hn] at hnone
      cases hnone

/-! ## Copies -/

/-- Permissions do not say where a path leads. -/
theorem matches_chmod {f : Nodes} (hn : f k = some n) (mode : UInt16) : f.Matches
    (Function.update f k (some { n with mode := (n.mode &&& sIfmt) ||| (mode &&& modePerm) })) := by
  have htype : FileType.fromMode ((n.mode &&& sIfmt) ||| (mode &&& modePerm)) = FileType.fromMode n.mode :=
    fromMode_congr (chmod_format n.mode mode)
  have hcases : ∀ j, Function.update f k (some { n with mode := (n.mode &&& sIfmt) ||| (mode &&& modePerm) }) j = f j ∨
      j = k := by
    intro j
    by_cases hj : j = k
    · exact Or.inr hj
    · exact Or.inl (Function.update_of_ne hj _ _)
  refine ⟨fun j ↦ ?_, fun j m m' hm hm' ↦ ?_, fun j ↦ ?_, fun j m m' hm hm' _ ↦ ?_⟩
  · rcases hcases j with hj | rfl
    · rw [hj]
    · rw [hn, Function.update_self]
      exact iff_of_false (Option.some_ne_none _) (Option.some_ne_none _)
  · rcases hcases j with hj | rfl
    · rw [hj, hm] at hm'
      cases hm'
      rfl
    · rw [hn] at hm
      rw [Function.update_self] at hm'
      cases hm
      cases hm'
      exact htype
  · rcases hcases j with hj | rfl
    · unfold Nodes.dir
      rw [hj]
    · unfold Nodes.dir
      rw [hn, Function.update_self, Option.bind_some, Option.bind_some]
      unfold Node.entries Node.isDir
      rw [htype]
  · rcases hcases j with hj | rfl
    · rw [hj, hm] at hm'
      cases hm'
      rfl
    · rw [hn] at hm
      rw [Function.update_self] at hm'
      cases hm
      cases hm'
      rfl

theorem bytes_le (h : s.Tidy) (hn : s.node k = some n) : n.bytes.length ≤ maxFileSize := by
  obtain ⟨i, hi, rfl⟩ := mem_of_node hn
  exact (contents_length hi).trans_le (h.sound.wf hi).size_le

/-- What `fs::copy` leaves of the inode `n`: the target has its bytes and permissions, and no other file has changed. -/
structure Copied (s : Inner) (depth : ℕ) (target : UnixPath) (n : Node) (t : Inner) : Prop where
  rooted : t.Rooted
  keeps : ∀ more other follow k, s.node.leads more other follow = some k → t.node.leads more other follow = some k
  found : ∃ j m, t.node.leads depth target true = some j ∧ t.node j = some m ∧ FileType.fromMode m.mode = .file ∧
    m.bytes = n.bytes ∧ m.mode &&& modePerm = n.mode &&& modePerm ∧
    ∀ i m, i ≠ j → s.node i = some m → m.isDir = false → t.node i = some m

theorem chmod_perm (old mode : UInt16) : ((old &&& sIfmt) ||| (mode &&& modePerm)) &&& modePerm = mode &&& modePerm := by
  have hbits : sIfmt &&& modePerm = 0 := rfl
  have hvec := congrArg UInt16.toBitVec hbits
  apply UInt16.toBitVec_inj.mp
  ext i hi
  have hbit := congrArg (fun b : BitVec 16 ↦ b[i]) hvec
  simp only [UInt16.toBitVec_and, UInt16.toBitVec_or, BitVec.getElem_and, BitVec.getElem_or] at hbit ⊢
  cases hperm : modePerm.toBitVec[i] with
  | false => simp
  | true =>
    have hzero : sIfmt.toBitVec[i] = false := by simpa [hperm] using hbit
    simp [hzero]

theorem tree_chmod {f : Nodes} (hn : f k = some n) (mode : UInt16) :
    Nodes.tree (Function.update f k (some { n with mode := (n.mode &&& sIfmt) ||| (mode &&& modePerm) })) = f.tree := by
  have htype : ∀ n : Node, FileType.fromMode ((n.mode &&& sIfmt) ||| (mode &&& modePerm)) = FileType.fromMode n.mode :=
    fun n ↦ fromMode_congr (chmod_format n.mode mode)
  rw [← Nodes.edit_of_some hn fun n ↦ { n with mode := (n.mode &&& sIfmt) ||| (mode &&& modePerm) }]
  refine Nodes.tree_edit _ _ (fun n' hn' ↦ ?_) htype fun _ ↦ rfl
  unfold Node.entries Node.isDir
  rw [htype n']

/-- The last step of a copy. -/
theorem Filled.chmod (h : Filled s depth path bytes k t) {m : Node} (hm : t.node k = some m) (hu : Onward t u)
    {mode : UInt16} (hnode : u.node = Function.update t.node k
      (some { m with mode := (m.mode &&& sIfmt) ||| (mode &&& modePerm) })) (hbytes : bytes = n.bytes)
    (hperm : mode &&& modePerm = n.mode &&& modePerm) : Copied s depth path n u := by
  have hmatch : t.node.Matches u.node := by
    rw [hnode]
    exact matches_chmod hm mode
  obtain ⟨m', hm', htype, hbytes'⟩ := h.node
  rw [hm] at hm'
  cases hm'
  have hleads : ∀ more other follow, u.node.leads more other follow = t.node.leads more other follow := by
    intro more other follow
    unfold Nodes.leads Nodes.found
    rw [Nodes.walk_root hmatch h.rooted.root_dir true true more]
  refine ⟨⟨hu.1, ?_⟩, ?_, k, _, (hleads _ _ _).trans h.leads, by rw [hnode, Function.update_self], ?_, ?_, ?_, ?_⟩
  · unfold Inner.tree
    rw [hnode, tree_chmod hm]
    exact h.rooted.tree
  · intro more other follow j hj
    rw [hleads]
    exact h.keeps.leads hj
  · exact (fromMode_congr (chmod_format m.mode mode)).trans htype
  · exact hbytes'.trans hbytes
  · exact (chmod_perm m.mode mode).trans hperm
  · intro i m hi hm hfile
    rw [hnode, Function.update_of_ne hi]
    exact h.others i m hi hm hfile

/-- `fs::copy`. -/
theorem copy_leaves (h : s.Rooted) (hspace : s.Spacious) (depth : ℕ) {sizes : ℕ → ℕ} (hsizes : ∀ m, 0 < sizes m)
    (rounds : ℕ) (source target : UnixPath) :
    Leaves (Facade.copy depth sizes rounds source target) s
      (fun len t ↦ ∃ k n, s.node.leads depth source true = some k ∧ s.node k = some n ∧ len = n.bytes.length ∧
        Copied s depth target n t) (fun t ↦ t.node = s.node) := by
  unfold Facade.copy
  refine Leaves.bind ((read_leaves h depth hsizes rounds source).mono (fun _ _ _ ht ↦ ht) fun _ ht ↦ ht.1) ?_
  rintro data t ht ⟨hnode, k, n, hk, hn, hdata⟩
  have hstat : Leaves (Facade.stat depth source) t (fun st u ↦ u.node = s.node ∧ st.mode = n.mode)
      (fun u ↦ u.node = s.node) := by
    refine onPath_leaves (h.kept ht hnode) depth source true (fun _ hu _ ↦ hu.trans hnode) fun j u hu hsame hj ↦ ?_
    rw [hnode, hk] at hj
    cases hj
    have hnu : u.node k = some n := by rw [hsame, hnode, hn]
    refine (statIno_leaves hu.1 hnu).mono ?_ fun _ hf ↦ hf.elim
    rintro st v - ⟨hv, hmode, -⟩
    exact ⟨hv.trans (hsame.trans hnode), hmode⟩
  refine hstat.bind ?_
  rintro st u hu ⟨hsame, hmode⟩
  have hrooted : u.Rooted := h.kept (ht.trans hu) hsame
  have hspace' : u.Spacious := by
    intro parent
    rw [hsame]
    exact hspace parent
  have hlen : data.length ≤ maxFileSize := by
    rw [hdata]
    exact bytes_le h.tidy hn
  refine Leaves.bind ((write_leaves hrooted hspace' depth target hlen).mono (fun _ _ _ hv ↦ hv) ?_) ?_
  · exact fun _ hv ↦ hv.trans hsame
  rintro _ v hv ⟨j, hfilled⟩
  have hchmod : Leaves (Facade.chmod depth target st.permissions) v (fun _ w ↦ Copied u depth target n w)
      (fun w ↦ w.node = s.node) := by
    unfold Facade.chmod
    refine onPath_leaves hfilled.rooted depth target true ?_ ?_
    · intro w _ hnone
      rw [hfilled.leads] at hnone
      cases hnone
    · intro i w hw hnode' hi
      rw [hfilled.leads] at hi
      cases hi
      have hfilled' := hfilled.congr hw hnode'
      obtain ⟨m, hm, -, -⟩ := hfilled'.node
      refine (chmod_leaves hw.1 hm st.permissions).mono ?_ fun _ hf ↦ hf.elim
      intro _ w' hw' hlast
      apply hfilled'.chmod hm hw' hlast hdata
      unfold Stat.permissions
      rw [hmode, UInt16.and_assoc, UInt16.and_self]
  refine hchmod.bind ?_
  intro _ w hw hcopied
  obtain ⟨hrooted', hkeeps, hfound⟩ := hcopied
  rw [hsame] at hkeeps hfound
  exact Leaves.pure hw.1 ⟨k, n, hk, hn, congrArg List.length hdata, hrooted', hkeeps, hfound⟩

end Inner

end LinuxFile
