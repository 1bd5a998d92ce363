import LinuxFile.Spec.Effects

/-!
# What creating and linking a name leaves

A new inode gets its entries and its links before its name. A link is an entry first and a count second.
-/

namespace LinuxFile

namespace Nodes

/-- The name can be created: it is valid and new in a directory. -/
structure MayCreate (f : Nodes) (parent : ℕ) (name : Bytes) : Prop where
  valid : validateName name = .ok ()
  fresh : ∃ entries, f.dir parent = some entries ∧ entryNamed entries name = none

/-- The nodes with a new inode, which is not named yet. -/
def born (f : Nodes) (parent ino : ℕ) (n : Node) : Nodes :=
  let g := edit (Function.update f ino (some n)) ino (fun n ↦ { n with nlink := if n.isDir then 2 else n.nlink })
  if n.isDir = true then
    (g.list ino [⟨ino, .directory, dotName⟩, ⟨parent, .directory, dotdotName⟩]).links parent (· + 1)
  else g

/-- One more entry fits into the directory. -/
def Fits (f : Nodes) (parent : ℕ) (name : Bytes) : Prop :=
  ∀ entries, f.dir parent = some entries → ∀ ino ft,
    (encodeDir (entries ++ [⟨ino, ft, name⟩])).length ≤ maxFileSize

theorem dir_born {f : Nodes} {parent ino : ℕ} (hnew : f ino = none) {entries : List DirEntry}
    (hdir : f.dir parent = some entries) (n : Node) : (f.born parent ino n).dir parent = some entries := by
  have hne : parent ≠ ino := by
    rintro rfl
    rw [dir_of_none hnew] at hdir
    cases hdir
  have hupdate : Nodes.dir (Function.update f ino (some n)) parent = some entries := by
    unfold dir
    rw [Function.update_of_ne hne]
    exact hdir
  unfold born
  dsimp only
  split_ifs
  · rw [dir_links, dir_list_of_ne hne, dir_edit_of_ne hne, hupdate]
  · rw [dir_edit_of_ne hne, hupdate]

end Nodes

theorem encodeEntry_length_le {e : DirEntry} (h : e.name.length ≤ nameMax) : (encodeEntry e).length ≤ 271 := by
  rw [encodeEntry_length]
  unfold namePad
  unfold nameMax at h
  omega

/-- A directory of so many entries with names of legal length fits into a file. -/
theorem encodeDir_length_le {entries : List DirEntry} (hnames : ∀ e ∈ entries, e.name.length ≤ nameMax)
    (hcount : entries.length ≤ 2 ^ 32) : (encodeDir entries).length ≤ maxFileSize := by
  have hbody : (entries.flatMap encodeEntry).length ≤ entries.length * 271 := by
    clear hcount
    induction entries with
    | nil => exact le_rfl
    | cons e entries ih =>
      have hhead := encodeEntry_length_le (hnames e List.mem_cons_self)
      have htail := ih fun e he ↦ hnames e (List.mem_cons_of_mem _ he)
      rw [List.flatMap_cons, List.length_append, List.length_cons]
      omega
  have hmax : maxFileSize = 17592186044416 := by decide
  unfold encodeDir
  rw [List.length_append, List.length_append, leBytes_length]
  have hmagic : dirMagic.length = 4 := rfl
  omega

namespace Inner

variable {s t : Inner} {parent ino : ℕ} {name : Bytes} {mode : UInt16} {uid gid : UInt32}

/-! ## Creating -/

theorem createFind_acts (h : s.Sound) (hwritable : s.writable = true) (hparent : parent < s.sb.nextInode) (name : Bytes)
    (creds : Creds) :
    Acts (createFind parent name creds) s (fun _ g ↦ g = s.node ∧ s.node.MayCreate parent name)
      (fun g ↦ g = s.node) := by
  unfold createFind
  apply Acts.requireWrite hwritable
  refine Acts.validName h (fun _ ↦ rfl) fun hvalid ↦ ?_
  refine Acts.getInode h hparent (fun _ ↦ rfl) fun dir hdir ↦ ?_
  by_cases hfile : dir.isDir = false
  · rw [if_pos hfile]
    exact Acts.throw h rfl
  rw [if_neg hfile]
  refine Acts.accessOk h hdir (fun _ ↦ rfl) fun _ ↦ ?_
  refine Acts.dirLookup h hparent (fun _ ↦ rfl) fun entries t ht hsame hentries ↦ ?_
  cases hfound : entryNamed entries name with
  | some entry => exact Acts.throw ht.sound hsame
  | none => exact Acts.pure ht.sound ⟨hsame, hvalid, entries, hentries, hfound⟩

/-- A new inode with its name. -/
structure Made (s : Inner) (parent : ℕ) (name : Bytes) (mode : UInt16) (uid gid : UInt32) (ino : ℕ) (t : Inner) :
    Prop where
  unused : s.node ino = none
  low : firstUserIno ≤ ino
  number : ino < t.sb.nextInode
  orphans : t.orphans = s.orphans
  openCount : t.openCount = s.openCount
  node : ∃ entries, s.node.dir parent = some entries ∧ entryNamed entries name = none ∧
    t.node = (s.node.born parent ino (newNode mode uid gid)).list parent
      (entries ++ [⟨ino, FileType.fromMode mode, name⟩])

theorem Steady.orphans (h : Steady s t) : t.orphans = s.orphans := by rw [h.shell]

theorem Steady.openCount (h : Steady s t) : t.openCount = s.openCount := by rw [h.shell]

theorem newNode_isDir (mode : UInt16) (uid gid : UInt32) :
    (newNode mode uid gid).isDir = (FileType.fromMode mode).isDir := rfl

theorem dots_fit (ino parent : ℕ) :
    (encodeDir [⟨ino, .directory, dotName⟩, ⟨parent, .directory, dotdotName⟩]).length ≤ maxFileSize := by
  apply encodeDir_length_le _ (by simp)
  intro e he
  rcases List.mem_pair.mp he with rfl | rfl
  · exact show dotName.length ≤ nameMax by decide
  · exact show dotdotName.length ≤ nameMax by decide

/-- After the inode has been installed: its links, its entries, and its name. -/
theorem createTail_acts (h : s.Sound) (hwritable : s.writable = true) {f : Nodes} (hnew : f ino = none)
    (hnode : s.node = Function.update f ino (some (newNode mode uid gid))) (hino : ino < s.sb.nextInode)
    (hparent : parent < s.sb.nextInode) (hmay : f.MayCreate parent name) (hfits : f.Fits parent name)
    (rdev : UInt64) :
    Acts (do
      getInodeMut ino (fun child ↦
        { child with rdev := rdev, nlink := if child.isDir then 2 else child.nlink })
      Exec.when ((FileType.fromMode mode).isDir = true) (do
        let child ← getInode ino
        writeDirEntries ino child [⟨ino, .directory, dotName⟩, ⟨parent, .directory, dotdotName⟩]
        addLink parent (fun now i ↦ i.touchMtime now))
      dirInsert parent name ino (FileType.fromMode mode)
      (pure ino : Fs ℕ)) s
      (fun ino' g ↦ ino' = ino ∧ ∃ entries, f.dir parent = some entries ∧ entryNamed entries name = none ∧
        g = (f.born parent ino (newNode mode uid gid)).list parent (entries ++ [⟨ino, FileType.fromMode mode, name⟩]))
      (fun _ ↦ False) := by
  obtain ⟨entries, hdir, hfresh⟩ := hmay.fresh
  have hlive : s.node ino ≠ none := by
    rw [hnode, Function.update_self]
    exact Option.some_ne_none _
  have hparentLive : f parent ≠ none := by
    intro hnone
    rw [Nodes.dir_of_none hnone] at hdir
    cases hdir
  have hne : parent ≠ ino := fun heq ↦ hparentLive (heq ▸ hnew)
  have hlinks : Acts (getInodeMut ino (fun child ↦
      { child with rdev := rdev, nlink := if child.isDir then 2 else child.nlink })) s
      (fun _ g ↦ g = s.node.edit ino (fun n ↦ { n with nlink := if n.isDir then 2 else n.nlink }) ∧ s.node ino ≠ none)
      (fun g ↦ g = s.node ∧ s.node ino = none) :=
    getInodeMut_acts h hino (fun _ ↦ rfl) (fun _ _ ↦ rfl)
  refine Acts.bind (hlinks.mono (fun _ _ hq ↦ hq.1) fun g hg ↦ absurd hg.2 hlive) ?_
  intro _ t ht hlinked
  have hparentLive' : t.node parent ≠ none := by
    rw [hlinked, hnode]
    apply Nodes.edit_ne_none
    rw [Function.update_of_ne hne]
    exact hparentLive
  have hwhen : Acts (Exec.when ((FileType.fromMode mode).isDir = true) (do
      let child ← getInode ino
      writeDirEntries ino child [⟨ino, .directory, dotName⟩, ⟨parent, .directory, dotdotName⟩]
      addLink parent (fun now i ↦ i.touchMtime now))) t
      (fun _ g ↦ g = f.born parent ino (newNode mode uid gid)) (fun _ ↦ False) := by
    unfold Exec.when Nodes.born
    rw [newNode_isDir]
    by_cases hisDir : (FileType.fromMode mode).isDir = true
    · rw [if_pos hisDir, if_pos hisDir]
      have hlive' : t.node ino ≠ none := by
        rw [hlinked]
        exact Nodes.edit_ne_none hlive _ _
      refine Acts.getInode ht.sound (ht.next hino) (fun hnone ↦ absurd hnone hlive') fun child hchild ↦ ?_
      refine Acts.bind ((writeDirEntries_acts ht.sound (ht.writable hwritable) hchild _).mono (fun _ _ hq ↦ hq)
        fun g hg ↦ absurd hg.1 (not_lt.mpr (dots_fit ino parent))) ?_
      intro _ u hu hlisted
      refine (addLink_acts (fun now i ↦ i.touchMtime now) (fun _ _ ↦ rfl) (fun _ _ _ ↦ rfl) hu.sound
        (hu.next (ht.next hparent))).mono (fun _ g hq ↦ ?_) fun g hg ↦ ?_
      · rw [hq.1, hlisted, hlinked, hnode]
      · have hnone := hg.2
        rw [hlisted] at hnone
        exact Nodes.edit_ne_none hparentLive' _ _ hnone
    · rw [if_neg hisDir, if_neg hisDir]
      exact Acts.pure ht.sound (by rw [hlinked, hnode])
  refine hwhen.bind fun _ u hu hborn ↦ ?_
  have hall := ht.trans hu
  have hdir' : u.node.dir parent = some entries := by
    rw [hborn]
    exact Nodes.dir_born hnew hdir _
  refine Acts.bind ((dirInsert_acts hall.sound (hall.writable hwritable) (hall.next hparent) name ino _).mono
    (fun _ _ hq ↦ hq) ?_) ?_
  · rintro g (⟨-, hbad | hbad | hbad⟩ | ⟨entries', hentries', hover, -⟩)
    · exact hbad hmay.valid
    · rw [hdir'] at hbad
      cases hbad
    · rw [Nodes.lookup_of_dir hdir'] at hbad
      exact hbad hfresh
    · rw [hdir'] at hentries'
      cases hentries'
      exact absurd hover (not_lt.mpr (hfits entries hdir ino _))
  · rintro _ v hv ⟨entries', hentries', -, -, hlisted⟩
    rw [hdir'] at hentries'
    cases hentries'
    exact Acts.pure hv.sound ⟨rfl, entries, hdir, hfresh, by rw [hlisted, hborn]⟩

theorem createEntry_makes (h : s.Tidy) (hparent : parent < s.sb.nextInode) (hmay : s.node.MayCreate parent name)
    (hfits : s.node.Fits parent name) (mode : UInt16) (uid gid : UInt32) (rdev : UInt64) :
    (createEntry parent name mode uid gid rdev).Holds s
      (fun ino t ↦ t.Sound ∧ Made s parent name mode uid gid ino t) (fun e t ↦ e.IsHost ∨ t = s) := by
  unfold createEntry
  refine (allocInode_adds h.sound mode uid gid).bind ?_ fun _ _ he ↦ he
  intro ino u hu
  have hwritable : u.writable = true := by
    rw [hu.same]
    exact h.writable
  refine Exec.Holds.mono (createTail_acts hu.sound hwritable hu.unused hu.node hu.number (hparent.trans_le hu.next)
    hmay hfits rdev) ?_ ?_
  · rintro ino' t ⟨ht, hino, hnode⟩
    refine ⟨ht.sound, by rw [hino]; exact hu.unused, by rw [hino]; exact hu.low, by rw [hino]; exact ht.next hu.number,
      ?_, ?_, by rw [hino]; exact hnode⟩
    · rw [ht.orphans, hu.same]
    · rw [ht.openCount, hu.same]
  · rintro e t (he | ⟨-, hf⟩)
    · exact Or.inl he
    · exact hf.elim

/-! ## Linking -/

/-- A name is given to an inode that is there and no directory. -/
theorem linkInto_acts (h : s.Sound) (hwritable : s.writable = true) {target : ℕ} (htarget : target < s.sb.nextInode)
    (hparent : parent < s.sb.nextInode) (name : Bytes) (creds : Creds) (hfits : s.node.Fits parent name) :
    Acts (linkInto target parent name creds) s
      (fun _ g ↦ ∃ n entries, s.node target = some n ∧ n.isDir = false ∧ s.node.dir parent = some entries ∧
        entryNamed entries name = none ∧ validateName name = .ok () ∧
        g = (s.node.list parent (entries ++ [⟨target, FileType.fromMode n.mode, name⟩])).links target (· + 1))
      (fun g ↦ g = s.node) := by
  unfold linkInto
  apply Acts.requireWrite hwritable
  refine Acts.validName h (fun _ ↦ rfl) fun hvalid ↦ ?_
  refine Acts.getInode h htarget (fun _ ↦ rfl) fun i hi ↦ ?_
  by_cases hisDir : i.isDir = true
  · rw [if_pos hisDir]
    exact Acts.throw h rfl
  rw [if_neg hisDir]
  refine Acts.getInode h hparent (fun _ ↦ rfl) fun dir hdir ↦ ?_
  refine Acts.accessOk h hdir (fun _ ↦ rfl) fun _ ↦ ?_
  refine Acts.dirLookup h hparent (fun _ ↦ rfl) fun entries t ht hsame hentries ↦ ?_
  cases hfound : entryNamed entries name with
  | some entry => exact Acts.throw ht.sound hsame
  | none =>
    have hentries' : t.node.dir parent = some entries := by
      rw [hsame]
      exact hentries
    refine Acts.bind ((dirInsert_acts ht.sound (ht.writable hwritable) (ht.next hparent) name target i.fileType).mono
      (fun _ _ hq ↦ hq) ?_) ?_
    · rintro g (⟨-, hbad | hbad | hbad⟩ | ⟨es, hes, hover, -⟩)
      · exact absurd hvalid hbad
      · rw [hentries'] at hbad
        cases hbad
      · rw [Nodes.lookup_of_dir hentries'] at hbad
        exact absurd hfound hbad
      · rw [hentries'] at hes
        cases hes
        exact absurd hover (not_lt.mpr (hfits entries hentries target _))
    · rintro _ u hu ⟨es, hes, -, -, hlisted⟩
      rw [hentries'] at hes
      cases hes
      have hall := ht.trans hu
      refine (addLink_acts (fun now i ↦ i.touchCtime now) (fun _ _ ↦ rfl) (fun _ _ _ ↦ rfl) hall.sound
        (hall.next htarget)).mono (fun _ g hq ↦ ?_) fun g hg ↦ ?_
      · refine ⟨_, entries, node_of_mem hi, Bool.eq_false_iff.mpr hisDir, hentries, hfound, hvalid, ?_⟩
        rw [hq.1, hlisted, hsame]
        rfl
      · have hnone := hg.2
        rw [hlisted, hsame] at hnone
        exact absurd hnone (Nodes.edit_ne_none (by rw [node_of_mem hi]; exact Option.some_ne_none _) _ _)

end Inner

end LinuxFile
