import LinuxFile.Operations
import LinuxFile.Spec.Tidy

/-!
# Runs over tidy states

Every operation keeps a tidy state tidy, as long as the host does not fail and no data is written into a
directory. A new filesystem is tidy, and so is every state a run of such calls reaches.
-/

namespace LinuxFile

/-- What `setxattr` does to the list of attributes. -/
def putXattr (name value : Bytes) (attrs : List (Bytes × Bytes)) : List (Bytes × Bytes) :=
  match attrs.findIdx? (fun (a : Bytes × Bytes) ↦ a.1 == name) with
  | some k => attrs.set k (name, value)
  | none => attrs ++ [(name, value)]

namespace Inner

variable {s t u : Inner} {i i' : Inode} {ino k : ℕ}

/-! ## Names -/

theorem createChild_stays (h : s.Tidy) {parent : ℕ} (hparent : parent < s.sb.nextInode) (name : Bytes)
    (mode : UInt16) (uid gid : UInt32) (rdev : UInt64) (creds : Creds) :
    Stays (createChild parent name mode uid gid rdev creds) s (fun _ _ ↦ True) := by
  unfold createChild
  refine (requireWrite_stays h).bind ?_
  rintro _ _ - rfl
  refine (Stays.ofExcept (Q := fun _ t ↦ t = _) h fun _ _ ↦ rfl).bind ?_
  rintro _ _ - rfl
  refine (getInode_stays h hparent).bind ?_
  rintro dir _ - ⟨rfl, -⟩
  split_ifs with hdir
  · exact Stays.throw h
  refine (accessOk_stays h dir creds .write).bind ?_
  rintro _ _ - rfl
  refine (dirLookup_stays h hparent name).bind ?_
  intro found t ht _
  split_ifs with hfound
  · exact Stays.throw ht.1
  refine (allocInode_stays ht.1 mode uid gid).bind ?_
  intro ino u hu hino
  have hu' := ht.trans hu
  have hlinks : Stays (getInodeMut ino (fun child ↦
      { child with rdev := rdev, nlink := if child.isDir then 2 else child.nlink })) u (fun _ _ ↦ True) :=
    getInodeMut_stays hu.1 hino (fun n ↦ { n with nlink := if n.isDir then 2 else n.nlink })
      (fun _ ↦ rfl) (fun _ _ ↦ rfl) (fun _ ↦ rfl) (fun _ ↦ rfl)
  refine hlinks.bind ?_
  intro _ v hv _
  have hv' := hu'.trans hv
  have hdirs : Stays (Exec.when ((FileType.fromMode mode).isDir = true) (do
      let child ← getInode ino
      writeDirEntries ino child [⟨ino, .directory, dotName⟩, ⟨parent, .directory, dotdotName⟩]
      addLink parent (fun now i ↦ i.touchMtime now))) v (fun _ _ ↦ True) := by
    refine Stays.when hv.1 (fun _ ↦ ?_) (fun _ ↦ trivial)
    refine (getInode_stays hv.1 (hv.lt hino)).bind ?_
    rintro child _ - ⟨rfl, hchild⟩
    have hself := hv.lt hino
    have hup := hv'.lt hparent
    have hnext := hv.1.inRange.nextInode
    refine (writeDirEntries_stays hv.1 hchild (fun e he ↦ ?_) ⟨fun e he ↦ ?_, ?_⟩).bind ?_
    · simp only [List.mem_cons, List.not_mem_nil, or_false] at he
      rcases he with rfl | rfl
      · exact ⟨hself.trans hnext, show dotName.length < 2 ^ 16 by decide⟩
      · exact ⟨hup.trans hnext, show dotdotName.length < 2 ^ 16 by decide⟩
    · simp only [List.mem_cons, List.not_mem_nil, or_false] at he
      rcases he with rfl | rfl
      · exact hself
      · exact hup
    · exact show [dotName, dotdotName].Nodup by decide
    · intro _ w hw _
      exact addLink_stays hw.1 (hw.lt hup) _ (fun _ _ ↦ rfl) (fun _ _ _ ↦ rfl)
  refine hdirs.bind ?_
  intro _ w hw _
  refine (dirInsert_stays hw.1 (hw.lt (hv'.lt hparent)) _ (hw.lt (hv.lt hino))).bind ?_
  intro _ x hx _
  exact Stays.pure hx.1 trivial

theorem checkSticky_stays (h : s.Tidy) {parent : ℕ} (hparent : parent < s.sb.nextInode) (name : Bytes)
    (dir : Inode) (creds : Creds) : Stays (checkSticky parent name dir creds) s (fun _ _ ↦ True) := by
  unfold checkSticky
  apply Stays.read
  split_ifs
  · refine (dirLookup_stays h hparent name).bind ?_
    intro found t ht hfound
    refine (Stays.ofOption (Q := fun entry u ↦ u = t ∧ entry.1 < t.sb.nextInode) ht.1
      fun entry he ↦ ⟨rfl, hfound entry he⟩).bind ?_
    rintro entry _ - ⟨rfl, hentry⟩
    refine (getInode_stays ht.1 hentry).bind ?_
    rintro child _ - ⟨rfl, -⟩
    split_ifs
    · exact Stays.throw ht.1
    · exact Stays.pure ht.1 trivial
  · exact Stays.pure h trivial

theorem checkRemovable_stays (h : s.Tidy) (hk : k < s.sb.nextInode) (rmdir : Bool) (ft : FileType) :
    Stays (checkRemovable rmdir k ft) s (fun _ _ ↦ True) := by
  unfold checkRemovable
  split_ifs
  · exact Stays.throw h
  · refine (parseDir_stays h hk).bind ?_
    intro entries t ht _
    split_ifs
    · exact Stays.throw ht.1
    · exact Stays.pure ht.1 trivial
  · exact Stays.throw h
  · exact Stays.pure h trivial

theorem releaseIfUnlinked_stays (h : s.Tidy) (hk : k < s.sb.nextInode) :
    Stays (releaseIfUnlinked k) s (fun _ _ ↦ True) := by
  unfold releaseIfUnlinked
  refine (getInode_stays h hk).bind ?_
  rintro child _ - ⟨rfl, hchild⟩
  apply Stays.read
  split_ifs with hlinks hopen
  · refine dropInode_stays h hk ?_
    rw [Bool.eq_false_iff]
    intro horphan
    have hopens := (h.orphans k horphan).1
    unfold opens at hopens
    omega
  · refine ⟨h.recount _ _ fun k' hk' ↦ ?_, trivial⟩
    obtain ⟨x, hx⟩ := KeyMap.contains_iff.mp hk'
    rw [KeyMap.find?_insert] at hx
    split_ifs at hx with hne
    · rw [hne]
      exact ⟨Nat.pos_of_ne_zero hopen, _, node_of_mem hchild⟩
    · exact h.orphans k' (KeyMap.contains_iff.mpr ⟨x, hx⟩)
  · exact Stays.pure h trivial

theorem unlinkFind_stays (h : s.Tidy) {parent : ℕ} (hparent : parent < s.sb.nextInode) (name : Bytes)
    (rmdir : Bool) (creds : Creds) :
    Stays (unlinkFind parent name rmdir creds) s (fun entry t ↦ entry.1 < t.sb.nextInode) := by
  unfold unlinkFind
  refine (requireWrite_stays h).bind ?_
  rintro _ _ - rfl
  refine (Stays.ofExcept (Q := fun _ t ↦ t = _) h fun _ _ ↦ rfl).bind ?_
  rintro _ _ - rfl
  refine (getInode_stays h hparent).bind ?_
  rintro dir _ - ⟨rfl, -⟩
  refine (accessOk_stays h dir creds .write).bind ?_
  rintro _ _ - rfl
  refine (checkSticky_stays h hparent name dir creds).bind ?_
  intro _ t ht _
  refine (dirLookup_stays ht.1 (ht.lt hparent) name).bind ?_
  intro found u hu hfound
  refine (Stays.ofOption (Q := fun entry w ↦ w = u ∧ entry.1 < u.sb.nextInode) hu.1
    fun entry he ↦ ⟨rfl, hfound entry he⟩).bind ?_
  rintro entry _ - ⟨rfl, hentry⟩
  refine (checkRemovable_stays hu.1 hentry rmdir entry.2).bind ?_
  intro _ v hv _
  exact Stays.pure hv.1 (hv.lt hentry)

theorem unlinkEntry_stays (h : s.Tidy) {parent : ℕ} (hparent : parent < s.sb.nextInode) (name : Bytes)
    {entry : ℕ × FileType} (hentry : entry.1 < s.sb.nextInode) :
    Stays (unlinkEntry parent name entry) s (fun _ _ ↦ True) := by
  unfold unlinkEntry
  refine (dirRemove_stays h hparent name).bind ?_
  intro _ w hw _
  have hparentLink : Stays (Exec.when (entry.2.isDir = true) (dropLink parent (fun _ i ↦ i))) w (fun _ _ ↦ True) :=
    Stays.when hw.1 (fun _ ↦ dropLink_stays hw.1 (hw.lt hparent) _ (fun _ _ ↦ rfl) (fun _ _ _ ↦ rfl))
      (fun _ ↦ trivial)
  refine hparentLink.bind ?_
  intro _ x hx _
  have hx' := hw.trans hx
  refine (dropLink_stays hx.1 (hx'.lt hentry) (fun now i ↦ i.touchCtime now) (fun _ _ ↦ rfl)
    (fun _ _ _ ↦ rfl)).bind ?_
  intro _ y hy _
  exact releaseIfUnlinked_stays hy.1 (hy.lt (hx'.lt hentry))

theorem unlinkName_stays (h : s.Tidy) {parent : ℕ} (hparent : parent < s.sb.nextInode) (name : Bytes)
    (rmdir : Bool) (creds : Creds) : Stays (unlinkName parent name rmdir creds) s (fun _ _ ↦ True) := by
  rw [unlinkName_eq]
  apply (unlinkFind_stays h hparent name rmdir creds).bind
  intro entry t ht hentry
  exact unlinkEntry_stays ht.1 (ht.lt hparent) name hentry

theorem linkInto_stays (h : s.Tidy) {target parent : ℕ} (htarget : target < s.sb.nextInode)
    (hparent : parent < s.sb.nextInode) (name : Bytes) (creds : Creds) :
    Stays (linkInto target parent name creds) s (fun _ _ ↦ True) := by
  unfold linkInto
  refine (requireWrite_stays h).bind ?_
  rintro _ _ - rfl
  refine (Stays.ofExcept (Q := fun _ t ↦ t = _) h fun _ _ ↦ rfl).bind ?_
  rintro _ _ - rfl
  refine (getInode_stays h htarget).bind ?_
  rintro t' _ - ⟨rfl, -⟩
  split_ifs
  · exact Stays.throw h
  refine (getInode_stays h hparent).bind ?_
  rintro dir _ - ⟨rfl, -⟩
  refine (accessOk_stays h dir creds .write).bind ?_
  rintro _ _ - rfl
  refine (dirLookup_stays h hparent name).bind ?_
  intro found t ht _
  split_ifs
  · exact Stays.throw ht.1
  refine (dirInsert_stays ht.1 (ht.lt hparent) _ (ht.lt htarget)).bind ?_
  intro _ u hu _
  exact addLink_stays hu.1 (hu.lt (ht.lt htarget)) _ (fun _ _ ↦ rfl) (fun _ _ _ ↦ rfl)

theorem climbs_stays (dir : ℕ) : ∀ (guard : ℕ) {s : Inner} {child : ℕ}, s.Tidy → child < s.sb.nextInode →
    Stays (climbs dir guard child) s (fun _ _ ↦ True)
  | 0, s, child, h, _ => Stays.pure h trivial
  | guard + 1, s, child, h, hchild => by
    unfold climbs
    split_ifs
    · exact Stays.pure h trivial
    · exact Stays.pure h trivial
    · refine (dirLookup_stays h hchild dotdotName).bind ?_
      intro found t ht hfound
      cases found with
      | none => exact Stays.pure ht.1 trivial
      | some x => exact climbs_stays dir guard ht.1 (hfound x rfl)

theorem replaceTarget_stays (h : s.Tidy) {newParent : ℕ} (hparent : newParent < s.sb.nextInode) (newName : Bytes)
    (src : ℕ × FileType) (creds : Creds) :
    Stays (replaceTarget newParent newName src creds) s (fun _ _ ↦ True) := by
  unfold replaceTarget
  refine (dirLookup_stays h hparent newName).bind ?_
  intro found t ht hfound
  cases found with
  | none => exact Stays.pure ht.1 trivial
  | some dest =>
    have hdest := hfound dest rfl
    dsimp only
    split_ifs
    · exact Stays.pure ht.1 trivial
    · exact Stays.throw ht.1
    · exact Stays.throw ht.1
    · have hempty : Stays (Exec.when (dest.2.isDir = true) (do
          let entries ← parseDir dest.1
          if hasExtra entries then Exec.throw Error.enotempty else Pure.pure ())) t (fun _ _ ↦ True) := by
        refine Stays.when ht.1 (fun _ ↦ ?_) (fun _ ↦ trivial)
        refine (parseDir_stays ht.1 hdest).bind ?_
        intro entries u hu _
        split_ifs
        · exact Stays.throw hu.1
        · exact Stays.pure hu.1 trivial
      refine hempty.bind ?_
      intro _ u hu _
      refine (unlinkName_stays hu.1 (hu.lt (ht.lt hparent)) newName dest.2.isDir creds).bind ?_
      intro _ v hv _
      exact Stays.pure hv.1 trivial

theorem moveDotdot_stays (h : s.Tidy) {src oldParent newParent : ℕ} (hsrc : src < s.sb.nextInode)
    (hold : oldParent < s.sb.nextInode) (hnew : newParent < s.sb.nextInode) :
    Stays (moveDotdot src oldParent newParent) s (fun _ _ ↦ True) := by
  unfold moveDotdot
  refine (parseDir_stays h hsrc).bind ?_
  rintro entries t ht ⟨hes, hfits, -⟩
  refine (getInode_stays ht.1 (ht.lt hsrc)).bind ?_
  rintro inode _ - ⟨rfl, hinode⟩
  have hnew' := ht.lt hnew
  refine (writeDirEntries_stays ht.1 hinode (fun e he ↦ ?_) (hes.rename (fun e ↦ ?_) fun e he ↦ ?_)).bind ?_
  · obtain ⟨e', he', rfl⟩ := List.mem_map.mp he
    split_ifs
    · exact ⟨hnew'.trans ht.1.inRange.nextInode, (hfits e' he').name⟩
    · exact hfits e' he'
  · split_ifs <;> rfl
  · split_ifs
    · exact hnew'
    · exact hes.below e he
  · intro _ u hu _
    refine (dropLink_stays hu.1 (hu.lt (ht.lt hold)) (fun _ i ↦ i) (fun _ _ ↦ rfl) (fun _ _ _ ↦ rfl)).bind ?_
    intro _ v hv _
    exact addLink_stays hv.1 (hv.lt (hu.lt hnew')) _ (fun _ _ ↦ rfl) (fun _ _ _ ↦ rfl)

/-- What `rename` does once its arguments have been checked. -/
theorem moveName_stays (h : s.Tidy) {oldParent newParent : ℕ} (hold : oldParent < s.sb.nextInode)
    (hnew : newParent < s.sb.nextInode) (oldName newName : Bytes) {src : ℕ × FileType}
    (hsrc : src.1 < s.sb.nextInode) (creds : Creds) (inside : Bool) :
    Stays (if inside then Exec.throw (Error.einval "rename into descendant") else do
      let proceed ← replaceTarget newParent newName src creds
      Exec.when (proceed = true) (do
        let _ ← dirRemove oldParent oldName
        dirInsert newParent newName src.1 src.2
        Exec.when (src.2.isDir = true ∧ oldParent ≠ newParent) (moveDotdot src.1 oldParent newParent)))
      s (fun _ _ ↦ True) := by
  split_ifs
  · exact Stays.throw h
  refine (replaceTarget_stays h hnew newName src creds).bind ?_
  intro proceed t ht _
  refine Stays.when ht.1 (fun _ ↦ ?_) (fun _ ↦ trivial)
  refine (dirRemove_stays ht.1 (ht.lt hold) oldName).bind ?_
  intro _ u hu _
  have hu' := ht.trans hu
  refine (dirInsert_stays hu.1 (hu'.lt hnew) _ (hu'.lt hsrc)).bind ?_
  intro _ v hv _
  have hv' := hu'.trans hv
  exact Stays.when hv.1 (fun _ ↦ moveDotdot_stays hv.1 (hv'.lt hsrc) (hv'.lt hold) (hv'.lt hnew))
    (fun _ ↦ trivial)

theorem rename_stays (h : s.Tidy) {oldParent newParent : ℕ} (hold : oldParent < s.sb.nextInode)
    (hnew : newParent < s.sb.nextInode) (oldName newName : Bytes) (creds : Creds) :
    Stays (rename oldParent oldName newParent newName creds) s (fun _ _ ↦ True) := by
  unfold rename
  refine (requireWrite_stays h).bind ?_
  rintro _ _ - rfl
  refine (Stays.ofExcept (Q := fun _ t ↦ t = _) h fun _ _ ↦ rfl).bind ?_
  rintro _ _ - rfl
  refine (Stays.ofExcept (Q := fun _ t ↦ t = _) h fun _ _ ↦ rfl).bind ?_
  rintro _ _ - rfl
  refine (getInode_stays h hold).bind ?_
  rintro od _ - ⟨rfl, -⟩
  refine (getInode_stays h hnew).bind ?_
  rintro nd _ - ⟨rfl, -⟩
  refine (accessOk_stays h od creds .write).bind ?_
  rintro _ _ - rfl
  refine (accessOk_stays h nd creds .write).bind ?_
  rintro _ _ - rfl
  refine (dirLookup_stays h hold oldName).bind ?_
  intro found t ht hfound
  refine (Stays.ofOption (Q := fun src u ↦ u = t ∧ src.1 < t.sb.nextInode) ht.1
    fun src hs ↦ ⟨rfl, hfound src hs⟩).bind ?_
  rintro src _ - ⟨rfl, hsrc⟩
  have hold' := ht.lt hold
  have hnew' := ht.lt hnew
  by_cases hsame : oldParent = newParent ∧ oldName = newName
  · rw [if_pos hsame]
    exact Stays.pure ht.1 trivial
  rw [if_neg hsame]
  by_cases hdir : src.2.isDir = true
  · rw [if_pos hdir]
    refine (climbs_stays src.1 4096 ht.1 hnew').bind ?_
    intro inside v hv _
    exact moveName_stays hv.1 (hv.lt hold') (hv.lt hnew') oldName newName (hv.lt hsrc) creds inside
  · rw [if_neg hdir]
    exact moveName_stays ht.1 hold' hnew' oldName newName hsrc creds false

/-! ## Attributes -/

/-- `chmod` keeps the type of a file. -/
theorem chmod_format (old mode : UInt16) : ((old &&& sIfmt) ||| (mode &&& modePerm)) &&& sIfmt = old &&& sIfmt := by
  have hbits : modePerm &&& sIfmt = 0 := rfl
  have hvec := congrArg UInt16.toBitVec hbits
  apply UInt16.toBitVec_inj.mp
  ext i hi
  have hbit := congrArg (fun b : BitVec 16 ↦ b[i]) hvec
  simp only [UInt16.toBitVec_and, UInt16.toBitVec_or, BitVec.getElem_and, BitVec.getElem_or] at hbit ⊢
  cases hf : sIfmt.toBitVec[i] with
  | false => simp
  | true =>
    have hzero : modePerm.toBitVec[i] = false := by simpa [hf] using hbit
    simp [hzero]

theorem chmod_isDir (old mode : UInt16) :
    (FileType.fromMode ((old &&& sIfmt) ||| (mode &&& modePerm))).isDir = (FileType.fromMode old).isDir := by
  unfold FileType.fromMode
  rw [chmod_format]

theorem chmod_stays (h : s.Tidy) (hk : k < s.sb.nextInode) (mode : UInt16) (creds : Creds) :
    Stays (chmod k mode creds) s (fun _ _ ↦ True) := by
  unfold chmod
  refine (requireWrite_stays h).bind ?_
  rintro _ _ - rfl
  refine (getInode_stays h hk).bind ?_
  rintro inode _ - ⟨rfl, -⟩
  apply Stays.get
  split_ifs
  · exact Stays.throw h
  · exact getInodeMut_stays h hk (fun n ↦ { n with mode := (n.mode &&& sIfmt) ||| (mode &&& modePerm) })
      (fun _ ↦ rfl) (fun _ _ ↦ rfl) (fun n ↦ chmod_isDir n.mode mode) (fun _ ↦ rfl)

theorem chown_stays (h : s.Tidy) (hk : k < s.sb.nextInode) (uid gid : Option UInt32) (creds : Creds) :
    Stays (chown k uid gid creds) s (fun _ _ ↦ True) := by
  unfold chown
  refine (requireWrite_stays h).bind ?_
  rintro _ _ - rfl
  refine (getInode_stays h hk).bind ?_
  rintro inode _ - ⟨rfl, -⟩
  apply Stays.get
  split_ifs
  · exact Stays.throw h
  · exact getInodeMut_stays h hk (fun n ↦ { n with uid := uid.getD n.uid, gid := gid.getD n.gid })
      (fun _ ↦ rfl) (fun _ _ ↦ rfl) (fun _ ↦ rfl) (fun _ ↦ rfl)

theorem statIno_stays (h : s.Tidy) (hk : k < s.sb.nextInode) : Stays (statIno k) s (fun _ _ ↦ True) :=
  (getInode_stays h hk).bind fun _ _ ht _ ↦ Stays.pure ht.1 trivial

theorem getxattr_stays (h : s.Tidy) (hk : k < s.sb.nextInode) (name : Bytes) :
    Stays (getxattr k name) s (fun _ _ ↦ True) :=
  (getInode_stays h hk).bind fun _ _ ht _ ↦ Stays.ofOption ht.1 fun _ _ ↦ trivial

theorem listxattr_stays (h : s.Tidy) (hk : k < s.sb.nextInode) : Stays (listxattr k) s (fun _ _ ↦ True) :=
  (getInode_stays h hk).bind fun _ _ ht _ ↦ Stays.pure ht.1 trivial

theorem setTimes_stays (h : s.Tidy) (hk : k < s.sb.nextInode) (times : FileTimes) :
    Stays (setTimes k times) s (fun _ _ ↦ True) := by
  unfold setTimes
  refine (requireWrite_stays h).bind ?_
  rintro _ _ - rfl
  apply Stays.read
  exact getInodeMut_stays h hk id (fun _ ↦ rfl) (fun _ _ ↦ rfl) (fun _ ↦ rfl) (fun _ ↦ rfl)

theorem setxattr_stays (h : s.Tidy) (hk : k < s.sb.nextInode) (name value : Bytes) (flags : UInt32) :
    Stays (setxattr k name value flags) s (fun _ _ ↦ True) := by
  unfold setxattr
  refine (requireWrite_stays h).bind ?_
  rintro _ _ - rfl
  split_ifs
  · exact Stays.throw h
  refine (getInode_stays h hk).bind ?_
  rintro inode _ - ⟨rfl, -⟩
  dsimp only
  split_ifs
  · exact Stays.throw h
  · exact Stays.throw h
  · apply Stays.read
    exact getInodeMut_stays h hk (fun n ↦ { n with xattr := putXattr name value n.xattr })
      (fun _ ↦ rfl) (fun _ _ ↦ rfl) (fun _ ↦ rfl) (fun _ ↦ rfl)

theorem removexattr_stays (h : s.Tidy) (hk : k < s.sb.nextInode) (name : Bytes) :
    Stays (removexattr k name) s (fun _ _ ↦ True) := by
  unfold removexattr
  refine (requireWrite_stays h).bind ?_
  rintro _ _ - rfl
  refine (getInode_stays h hk).bind ?_
  rintro inode _ - ⟨rfl, -⟩
  apply Stays.read
  dsimp only
  split_ifs
  · have hdirty : Stays (getInodeMut k id) _ (fun _ _ ↦ True) :=
      getInodeMut_stays h hk id (fun _ ↦ rfl) (fun _ _ ↦ rfl) (fun _ ↦ rfl) (fun _ ↦ rfl)
    exact hdirty.bind fun _ t ht _ ↦ Stays.throw ht.1
  · exact getInodeMut_stays h hk (fun n ↦ { n with xattr := inode.xattr.filter (fun a ↦ a.1 != name) })
      (fun _ ↦ rfl) (fun _ _ ↦ rfl) (fun _ ↦ rfl) (fun _ ↦ rfl)

/-! ## Data -/

theorem readData_stays (h : s.Tidy) (hk : k < s.sb.nextInode) (off count : ℕ) :
    Stays (readData k off count) s (fun _ _ ↦ True) := by
  cases hmem : s.inodes.find? k with
  | some i =>
    refine (readData_reads h.sound hmem off count).mono ?_ (fun _ _ he ↦ Or.inl he)
    rintro data t ⟨-, hsound, hsame⟩
    exact ⟨h.looked (hsame.becomes hsound), trivial⟩
  | none =>
    have hget := getInode_stays h hk
    unfold readData
    refine hget.bind ?_
    rintro i _ - ⟨rfl, hi⟩
    rw [hmem] at hi
    cases hi

/-- A file that is not a directory may get any contents. -/
theorem Tidy.rewritten (h : s.Tidy) {n : Node} (hdir : n.isDir = false) {bytes : Bytes}
    (ht : Becomes s (Function.update s.node k (some { n with bytes := bytes })) t) : Onward s t := by
  refine h.changed ht fun entries hentries ↦ ?_
  have hfile : Node.isDir { n with bytes := bytes } = false := hdir
  rw [Node.entries_of_file hfile] at hentries
  cases hentries

/-- The number belongs to no directory. -/
def NoDir (s : Inner) (k : ℕ) : Prop := ∀ n, s.node k = some n → n.isDir = false

theorem writeData_stays (h : s.Tidy) (hk : k < s.sb.nextInode) (hfile : s.NoDir k) (off : ℕ) (buf : Bytes) :
    Stays (writeData k off buf) s (fun _ _ ↦ True) := by
  cases hn : s.node k with
  | some n =>
    refine (writeData_changes h.sound h.writable hn buf).mono ?_ ?_
    · rintro _ t ⟨bytes, ht⟩
      exact ⟨h.rewritten (hfile n hn) ht, trivial⟩
    · rintro e t (he | ht)
      · exact Or.inl he
      · exact Or.inr (h.looked ht)
  | none =>
    unfold writeData
    refine (requireWrite_stays h).bind ?_
    rintro _ _ - rfl
    split_ifs
    · exact Stays.pure h trivial
    · exact Stays.throw h
    · refine (getInode_stays h hk).bind ?_
      rintro i _ - ⟨rfl, hi⟩
      rw [node_of_mem hi] at hn
      cases hn

theorem flushRecordCache_stays (h : s.Tidy) :
    Stays flushRecordCache s (fun _ t ↦ t.node = s.node) := by
  refine (flushRecordCache_flushes h.sound).mono ?_ (fun _ _ he ↦ Or.inl he)
  intro _ t ht
  exact ⟨h.looked (ht.same.becomes ht.sound), ht.same.node⟩

theorem truncateData_stays (h : s.Tidy) (hk : k < s.sb.nextInode) (hfile : s.NoDir k) (size : ℕ) :
    Stays (truncateData k size) s (fun _ _ ↦ True) := by
  cases hn : s.node k with
  | some n =>
    refine (truncateData_changes h.sound h.writable hn size).mono ?_ ?_
    · rintro _ t ⟨bytes, ht⟩
      exact ⟨h.rewritten (hfile n hn) ht, trivial⟩
    · rintro e t (he | ht)
      · exact Or.inl he
      · exact Or.inr (h.looked ht)
  | none =>
    unfold truncateData
    refine (requireWrite_stays h).bind ?_
    rintro _ _ - rfl
    by_cases hbig : maxFileSize < size
    · rw [if_pos hbig]
      exact Stays.throw h
    · rw [if_neg hbig]
      refine (flushRecordCache_stays h).bind ?_
      intro _ t ht hnode
      refine (getInode_stays ht.1 (ht.lt hk)).bind ?_
      rintro i _ - ⟨rfl, hi⟩
      rw [← hnode, node_of_mem hi] at hn
      cases hn

/-- The attributes a caller sees do not change with the compression. -/
theorem setInodeCompression_node (h : s.Sound) (hwritable : s.writable = true) (hmem : s.inodes.find? k = some i)
    (compression : Compression) :
    (setInodeCompression k compression).Holds s (fun _ t ↦ Becomes s s.node t) (fun e _ ↦ e.IsHost) := by
  have hattrs : (setInodeCompression k compression).Holds s
      (fun _ t ↦ ∃ i', t.inodes.find? k = some i' ∧ ∀ bytes, i'.toNode bytes = i.toNode bytes)
      (fun e _ ↦ e.IsHost) := by
    unfold setInodeCompression
    rw [Exec.holds_bind_of_ok (requireWrite_ok hwritable)]
    refine (flushRecordCache_flushes h).bind ?_ (fun _ _ he ↦ he)
    intro _ t ht
    obtain ⟨i₁, hi₁, hdata⟩ := ht.same.some k i hmem
    rw [Exec.holds_bind, Exec.holds_read, Exec.holds_iff_of_ok (getInodeMut_mem hi₁ _)]
    exact ⟨_, KeyMap.find?_insert_self _ _ _, fun bytes ↦ hdata.toNode bytes⟩
  refine ((setInodeCompression_keeps h hwritable hmem compression).and hattrs).mono ?_ (fun _ _ he ↦ he.1)
  rintro _ t ⟨⟨hedited, -, i', hi', hsize, -, hbytes, -⟩, i'', hi'', hnode⟩
  rw [hi'] at hi''
  cases hi''
  refine (hedited.becomes hi').congr ?_
  have hcontents : t.contents k = s.contents k := by
    rw [contents_of_mem hi', contents_of_mem hmem, hsize]
    apply List.map_congr_left
    intro p hp
    exact hbytes p (List.mem_range.mp hp)
  rw [hcontents, hnode, ← node_of_mem hmem, Function.update_eq_self]

theorem setInodeCompression_stays (h : s.Tidy) (hk : k < s.sb.nextInode) (compression : Compression) :
    Stays (setInodeCompression k compression) s (fun _ _ ↦ True) := by
  cases hmem : s.inodes.find? k with
  | some i =>
    refine (setInodeCompression_node h.sound h.writable hmem compression).mono ?_ (fun _ _ he ↦ Or.inl he)
    intro _ t ht
    exact ⟨h.looked ht, trivial⟩
  | none =>
    unfold setInodeCompression
    refine (requireWrite_stays h).bind ?_
    rintro _ _ - rfl
    refine (flushRecordCache_stays h).bind ?_
    intro _ t ht hnode
    apply Stays.read
    unfold getInodeMut
    refine (getInode_stays ht.1 (ht.lt hk)).bind ?_
    rintro i _ - ⟨rfl, hi⟩
    have hnone := node_eq_none.mpr hmem
    rw [← hnode, node_of_mem hi] at hnone
    cases hnone

theorem flushCache_stays (h : s.Tidy) (order : IterOrder) : Stays (flushCache order) s (fun _ _ ↦ True) := by
  unfold flushCache
  refine (flushRecordCache_stays h).bind ?_
  intro _ t ht _
  unfold Stays
  rw [holds_onCache]
  refine (BlockCache.flush_spec order t.disk).mono ?_ (fun _ _ he ↦ Or.inl he)
  rintro _ d ⟨hquiet, -⟩
  exact ⟨ht.1.looked (ht.1.sound.looks ⟨d, rfl, hquiet⟩), trivial⟩

theorem hostCall_stays (h : s.Tidy) : Stays (onImage Image.hostCall) s (fun _ _ ↦ True) :=
  (hostCall_looked s).mono (fun _ _ ht ↦ ⟨h.looked (h.sound.looks ht), trivial⟩) fun _ _ he ↦ Or.inl he

theorem flushCacheData_stays (h : s.Tidy) (order : IterOrder) : Stays (flushCacheData order) s (fun _ _ ↦ True) :=
  (flushCache_stays h order).bind fun _ _ ht _ ↦ hostCall_stays ht.1

theorem listed_zeros (next n : ℕ) {node : Node} (hbytes : node.bytes = List.replicate n 0) {entries : List DirEntry}
    (h : node.entries = some entries) : Listed next entries := by
  cases n with
  | zero => exact listed_empty next hbytes h
  | succ n =>
    unfold Node.entries at h
    split_ifs at h
    have hbad : decodeDir node.bytes = .error (Error.eio "corrupt directory") := by
      rw [hbytes]
      unfold decodeDir
      rw [if_neg (by simp), if_pos]
      by_cases hlen : (List.replicate (n + 1) (0 : UInt8)).length < 8
      · exact Or.inl hlen
      · refine Or.inr fun hmagic ↦ ?_
        have hmem : (0x44 : UInt8) ∈ (List.replicate (n + 1) (0 : UInt8)).take 4 := by
          rw [hmagic]
          exact List.mem_cons_self
        exact absurd (List.eq_of_mem_replicate (List.mem_of_mem_take hmem)) (by decide)
    rw [hbad] at h
    cases h

theorem flushAll_stays (h : s.Tidy) (order : FlushOrder) : Stays (flushAll order) s (fun _ _ ↦ True) := by
  have honward : ∀ t, Syncs s t → Onward s t := by
    intro t ht
    have hnext : t.sb.nextInode = s.sb.nextInode := by rw [ht.sb]
    have horphans : t.orphans = s.orphans := by rw [ht.same]
    have hopens : t.openCount = s.openCount := by rw [ht.same]
    refine ⟨⟨ht.sound, by rw [ht.same]; exact h.writable, ht.inRange h.inRange, fun k entries hk ↦ ?_,
      fun k hk ↦ ?_⟩, hnext.ge⟩
    · cases hi : s.inodes.find? k with
      | none =>
        rw [Nodes.dir_of_none (node_eq_none.mpr (ht.none k hi))] at hk
        cases hk
      | some i =>
        obtain ⟨bytes, hnode, hbytes⟩ := ht.some k i hi
        rw [Nodes.dir_of_some hnode] at hk
        rw [hnext]
        rcases hbytes with rfl | ⟨-, rfl⟩
        · exact h.names k entries ((Nodes.dir_of_some (node_of_mem hi)).trans hk)
        · exact listed_zeros _ i.size rfl hk
    · rw [horphans] at hk
      obtain ⟨hopen, n, hn⟩ := h.orphans k hk
      obtain ⟨i, hi, -⟩ := mem_of_node hn
      obtain ⟨bytes, hnode, -⟩ := ht.some k i hi
      unfold opens
      rw [hopens]
      exact ⟨hopen, _, hnode⟩
  refine (flushAll_syncs h.sound h.writable order).mono ?_ ?_
  · rintro _ t ⟨ht, -⟩
    exact ⟨honward t ht, trivial⟩
  · rintro e t (he | ht)
    · exact Or.inl he
    · exact Or.inr (honward t ht)

/-! ## Paths -/

/-- The numbers a walk ends at were given out. -/
def Resolved.Below (r : Resolved) (t : Inner) : Prop :=
  r.parent < t.sb.nextInode ∧ ∀ k, r.ino = some k → k < t.sb.nextInode

theorem walkFrom_stays (args : WalkArgs) {follow : ℕ → UnixPath → Fs Resolved}
    (hfollow : ∀ dir path (s : Inner), s.Tidy → args.root < s.sb.nextInode → dir < s.sb.nextInode →
      Stays (follow dir path) s Resolved.Below) (hops : ℕ) (comps : List Component) :
    ∀ (dir : ℕ) (s : Inner), s.Tidy → args.root < s.sb.nextInode → dir < s.sb.nextInode →
      Stays (walkFrom args follow hops dir comps) s Resolved.Below := by
  induction comps with
  | nil =>
    intro dir s h _ hdir
    unfold walkFrom
    refine Stays.pure h ⟨hdir, fun k hk ↦ ?_⟩
    cases hk
    exact hdir
  | cons c rest ih =>
    intro dir s h hroot hdir
    cases c with
    | rootDir =>
      unfold walkFrom
      exact ih args.root s h hroot hroot
    | curDir =>
      unfold walkFrom
      exact ih dir s h hroot hdir
    | parentDir =>
      have hgo : ∀ up (t : Inner), t.Tidy → args.root < t.sb.nextInode → up < t.sb.nextInode →
          Stays (if rest = [] then Pure.pure ⟨up, dotdotName, some up⟩ else walkFrom args follow hops up rest)
            t Resolved.Below := by
        intro up t ht hroot hup
        split_ifs
        · refine Stays.pure ht ⟨hup, fun k hk ↦ ?_⟩
          cases hk
          exact hup
        · exact ih up t ht hroot hup
      unfold walkFrom
      refine (getInode_stays h hdir).bind ?_
      rintro inode _ - ⟨rfl, -⟩
      refine (accessOk_stays h inode args.creds .exec).bind ?_
      rintro _ _ - rfl
      dsimp only
      by_cases hne : dir ≠ args.root
      · rw [if_pos hne]
        refine (dirLookup_stays h hdir dotdotName).bind ?_
        intro found t ht hfound
        refine hgo _ t ht.1 (ht.lt hroot) ?_
        cases found with
        | none => exact ht.lt hdir
        | some x => exact hfound x rfl
      · rw [if_neg hne]
        exact hgo dir _ h hroot hdir
    | normal name =>
      unfold walkFrom
      refine (getInode_stays h hdir).bind ?_
      rintro inode _ - ⟨rfl, -⟩
      by_cases hisDir : inode.isDir = false
      · rw [if_pos hisDir]
        exact Stays.throw h
      rw [if_neg hisDir]
      refine (accessOk_stays h inode args.creds .exec).bind ?_
      rintro _ _ - rfl
      refine (dirLookup_stays h hdir name).bind ?_
      intro found t ht hfound
      cases found with
      | none =>
        dsimp only
        split_ifs
        · exact Stays.pure ht.1 ⟨ht.lt hdir, fun k hk ↦ by cases hk⟩
        · exact Stays.throw ht.1
      | some x =>
        have hx := hfound x rfl
        dsimp only
        refine (getInode_stays ht.1 hx).bind ?_
        rintro child _ - ⟨rfl, -⟩
        split_ifs
        · exact Stays.throw ht.1
        · refine (readData_stays ht.1 hx 0 child.size).bind ?_
          intro target u hu _
          exact hfollow _ _ u hu.1 (hu.lt (ht.lt hroot)) (hu.lt (ht.lt hdir))
        · refine Stays.pure ht.1 ⟨ht.lt hdir, fun k hk ↦ ?_⟩
          cases hk
          exact hx
        · exact ih x.1 _ ht.1 (ht.lt hroot) hx

theorem walk_stays (args : WalkArgs) : ∀ (depth cwd : ℕ) (path : UnixPath) (s : Inner), s.Tidy →
    args.root < s.sb.nextInode → cwd < s.sb.nextInode → Stays (walk args depth cwd path) s Resolved.Below
  | 0, _, _, _, _, _, _ => Stays.abort
  | depth + 1, cwd, path, s, h, hroot, hcwd => by
    have hdir : (if UnixPath.isAbsolute path then args.root else cwd) < s.sb.nextInode := by
      split_ifs
      · exact hroot
      · exact hcwd
    unfold walk
    dsimp only
    by_cases hempty : path = []
    · rw [if_pos hempty]
      exact Stays.throw h
    rw [if_neg hempty]
    by_cases hcomps : UnixPath.components path = []
    · rw [if_pos hcomps]
      refine Stays.pure h ⟨hroot, fun k hk ↦ ?_⟩
      rw [← Option.some.inj hk]
      exact hdir
    · rw [if_neg hcomps]
      exact walkFrom_stays args (fun dir path s hs hr hd ↦ walk_stays args depth dir path s hs hr hd) 0 _ _ s h
        hroot hdir

end Inner

namespace Inner

theorem sync_stays {s : Inner} (h : s.Tidy) (order : FlushOrder) : Stays (sync order) s (fun _ _ ↦ True) :=
  (flushAll_stays h order).bind fun _ _ ht _ ↦ hostCall_stays ht.1

end Inner

namespace Operation

open LinuxFile.Inner

/-- The inode numbers an operation is called with. -/
def numbers : Operation → List ℕ
  | readData ino _ _ | writeData ino _ _ | truncateData ino _ | setInodeCompression ino _ | readDirEntries ino => [ino]
  | walk args _ cwd _ => [args.root, cwd]
  | createChild parent _ _ _ _ _ _ => [parent]
  | unlinkName parent _ _ _ => [parent]
  | linkInto target parent _ _ => [target, parent]
  | rename oldParent _ newParent _ _ => [oldParent, newParent]
  | chmod ino _ _ | chown ino _ _ _ | setTimes ino _ | stat ino => [ino]
  | getxattr ino _ | setxattr ino _ _ _ | listxattr ino | removexattr ino _ => [ino]
  | incOpen ino | decOpen ino | dropInode ino => [ino]
  | flushCache _ | flushCacheData _ | flushAll _ | sync _ => []

/-- The file whose contents an operation replaces. -/
def target : Operation → Option ℕ
  | writeData ino _ _ | truncateData ino _ => some ino
  | _ => none

/-- The inode an operation drops. -/
def victim : Operation → Option ℕ
  | dropInode ino => some ino
  | _ => none

/-- The operation is called with numbers that were given out, does not write into a directory, and does not drop
an inode that is kept for its open files. -/
structure Regular (s : Inner) (op : Operation) : Prop where
  numbers : ∀ k ∈ op.numbers, k < s.sb.nextInode
  target : ∀ k, op.target = some k → s.NoDir k
  victim : ∀ k, op.victim = some k → s.orphans.contains k = false

/-- The same as a test. -/
def regular (s : Inner) (op : Operation) : Bool :=
  op.numbers.all (fun k ↦ decide (k < s.sb.nextInode)) &&
    op.target.all (fun k ↦ !(s.inodes.find? k).any Inode.isDir) && op.victim.all (fun k ↦ !s.orphans.contains k)

theorem Regular.of_test {s : Inner} {op : Operation} (h : op.regular s = true) : op.Regular s := by
  unfold regular at h
  rw [Bool.and_eq_true, Bool.and_eq_true, List.all_eq_true] at h
  obtain ⟨⟨hnumbers, htarget⟩, hvictim⟩ := h
  refine ⟨fun k hk ↦ of_decide_eq_true (hnumbers k hk), fun k hk n hn ↦ ?_, fun k hk ↦ ?_⟩
  · obtain ⟨i, hi, rfl⟩ := mem_of_node hn
    rw [hk, Option.all_some, hi, Option.any_some, Bool.not_eq_true'] at htarget
    exact htarget
  · rw [hk, Option.all_some, Bool.not_eq_true'] at hvictim
    exact hvictim

theorem discard_stays {α : Type} {x : Fs α} {s : Inner} {Q : α → Inner → Prop} (h : Stays x s Q) :
    Stays (discard x) s (fun _ _ ↦ True) :=
  h.bind fun _ _ ht _ ↦ Stays.pure ht.1 trivial

/-- Every call keeps a tidy state tidy. -/
theorem exec_stays {s : Inner} (h : s.Tidy) {op : Operation} (hop : op.Regular s) :
    Stays op.exec s (fun _ _ ↦ True) := by
  have hnum := hop.numbers
  cases op with
  | readData ino offset count => exact discard_stays (readData_stays h (hnum ino (by simp [numbers])) offset count)
  | writeData ino offset buf =>
    exact discard_stays (writeData_stays h (hnum ino (by simp [numbers])) (hop.target ino rfl) offset buf)
  | truncateData ino size => exact truncateData_stays h (hnum ino (by simp [numbers])) (hop.target ino rfl) size
  | setInodeCompression ino compression =>
    exact setInodeCompression_stays h (hnum ino (by simp [numbers])) compression
  | readDirEntries ino => exact discard_stays (parseDir_stays h (hnum ino (by simp [numbers])))
  | walk args depth cwd path =>
    exact discard_stays (walk_stays args depth cwd path s h (hnum _ (by simp [numbers])) (hnum _ (by simp [numbers])))
  | createChild parent name mode uid gid rdev creds =>
    exact discard_stays (createChild_stays h (hnum parent (by simp [numbers])) name mode uid gid rdev creds)
  | unlinkName parent name rmdir creds =>
    exact unlinkName_stays h (hnum parent (by simp [numbers])) name rmdir creds
  | linkInto target parent name creds =>
    exact linkInto_stays h (hnum target (by simp [numbers])) (hnum parent (by simp [numbers])) name creds
  | rename oldParent oldName newParent newName creds =>
    exact rename_stays h (hnum oldParent (by simp [numbers])) (hnum newParent (by simp [numbers])) oldName newName
      creds
  | chmod ino mode creds => exact chmod_stays h (hnum ino (by simp [numbers])) mode creds
  | chown ino uid gid creds => exact chown_stays h (hnum ino (by simp [numbers])) uid gid creds
  | setTimes ino times => exact setTimes_stays h (hnum ino (by simp [numbers])) times
  | stat ino => exact discard_stays (statIno_stays h (hnum ino (by simp [numbers])))
  | getxattr ino name => exact discard_stays (getxattr_stays h (hnum ino (by simp [numbers])) name)
  | listxattr ino => exact discard_stays (listxattr_stays h (hnum ino (by simp [numbers])))
  | setxattr ino name value flags => exact setxattr_stays h (hnum ino (by simp [numbers])) name value flags
  | removexattr ino name => exact removexattr_stays h (hnum ino (by simp [numbers])) name
  | incOpen ino => exact incOpen_stays h ino
  | decOpen ino => exact decOpen_stays h (hnum ino (by simp [numbers]))
  | dropInode ino => exact dropInode_stays h (hnum ino (by simp [numbers])) (hop.victim ino rfl)
  | flushCache order => exact flushCache_stays h order
  | flushCacheData order => exact flushCacheData_stays h order
  | flushAll order => exact flushAll_stays h order
  | sync order => exact sync_stays h order

end Operation

namespace Inner

variable {s t : Inner} {i : Inode} {k : ℕ}

/-! ## Runs -/

/-- The root of a new filesystem. -/
theorem Created.sound {opts : CreateOptions} {env : Env} {t : Inner} {live : KeyMap Inode}
    (h : Created opts env t live) : t.Sound := by
  obtain ⟨flags, -, hlive⟩ := h.root
  have hroot : ∀ k i, t.inodes.find? k = some i →
      i = { newRoot env.now opts.compression.asU8 with flags := flags } := by
    intro k i hi
    rw [h.memory, hlive, KeyMap.find?_insert] at hi
    split_ifs at hi
    · exact (Option.some.inj hi).symm
    · cases hi
  refine ⟨by rw [h.memory]; exact h.inv, fun k i hi ↦ ?_, fun k i hi _ ↦ ?_, fun c hc ↦ ?_⟩
  · apply laid_of_empty
    rw [hroot k i hi]
    rfl
  · rw [hroot k i hi]
    rfl
  · rw [h.record] at hc
    cases hc

theorem contents_inline (h : s.Sound) (hmem : s.inodes.find? k = some i) (hkind : i.dataKind = .inline) :
    s.contents k = i.inlineData := by
  have hlen := h.inline k i hmem hkind
  rw [contents_of_mem hmem, ← hlen]
  apply List.ext_getElem
  · rw [List.length_map, List.length_range]
  · intro p hp hp'
    rw [List.getElem_map, List.getElem_range, fileByte_inline hkind, List.getD_eq_getElem _ _ hp']

/-- The node of an empty root directory. -/
def rootNode : Node := ⟨sIfdir ||| 0o755, 2, 0, 0, [], encodeDir rootEntries⟩

theorem rootNode_entries : rootNode.entries = some rootEntries := by decide

/-- A new filesystem is its root directory. -/
theorem Created.node {opts : CreateOptions} {env : Env} {t : Inner} {live : KeyMap Inode}
    (h : Created opts env t live) : t.node = Function.update (fun _ ↦ none) rootIno (some rootNode) := by
  obtain ⟨flags, -, hlive⟩ := h.root
  funext k
  by_cases hk : k = rootIno
  · have hfind : t.inodes.find? rootIno =
        some { newRoot env.now opts.compression.asU8 with flags := flags } := by
      rw [h.memory, hlive, KeyMap.find?_insert_self]
    have hdata : (newRoot env.now opts.compression.asU8).inlineData = encodeDir rootEntries := by
      rfl
    rw [hk, Function.update_self, node_of_mem hfind, contents_inline h.sound hfind rfl]
    change some (Node.mk _ _ _ _ _ (newRoot env.now opts.compression.asU8).inlineData) = _
    rw [hdata]
    rfl
  · rw [Function.update_of_ne hk]
    apply node_eq_none.mpr
    rw [h.memory, hlive, KeyMap.find?_insert_of_ne hk, KeyMap.find?_empty]

theorem Created.tidy {opts : CreateOptions} {env : Env} {t : Inner} {live : KeyMap Inode}
    (h : Created opts env t live) : t.Tidy := by
  obtain ⟨hwritable, -, -, -, -, -, horphans, -, hnext⟩ := h.base
  refine ⟨h.sound, hwritable, h.inRange, fun k entries hk ↦ ?_, fun k hk ↦ ?_⟩
  · rw [h.node] at hk
    unfold Nodes.dir at hk
    by_cases hroot : k = rootIno
    · rw [hroot, Function.update_self, Option.bind_some, rootNode_entries] at hk
      cases hk
      rw [hnext]
      exact ⟨by decide, by decide⟩
    · rw [Function.update_of_ne hroot] at hk
      cases hk
  · rw [horphans] at hk
    cases hk

/-- A filesystem that has just been created is tidy. -/
theorem create_tidy {opts : CreateOptions} {env : Env} {uuid : Buf 16} {faults : List (Option ErrorKind)}
    {order : FlushOrder} (h : create opts env uuid faults order = .ok () s) : s.Tidy := by
  obtain ⟨live, hcreated⟩ := Exec.Holds.of_ok (create_spec opts env uuid faults order) h
  exact hcreated.tidy

/-- The call returned, and no error of the host ended it. -/
def Answers {α : Type} (x : Fs α) (s : Inner) : Prop :=
  (∃ value t, x s = .ok value t) ∨ ∃ e t, x s = .err e t ∧ ¬e.IsHost

def answered {α : Type} : FsOutcome α → Bool
  | .ok _ _ => true
  | .err e _ => !decide e.IsHost
  | .panic => false

theorem Answers.of_test {α : Type} {x : Fs α} (h : answered (x s) = true) : Answers x s := by
  unfold Answers
  cases hx : x s with
  | ok value t => exact Or.inl ⟨value, t, rfl⟩
  | err e t =>
    rw [hx] at h
    exact Or.inr ⟨e, t, rfl, of_decide_eq_false ((Bool.not_eq_true' _).mp h)⟩
  | panic =>
    rw [hx] at h
    cases h

/-- The host fails nothing during the call. -/
def Unhurt (s : Inner) (op : Operation) : Prop := ∀ e t, op.exec s = .err e t → ¬e.IsHost

theorem Unhurt.of_returns {op : Operation} (h : ∃ value t, op.exec s = .ok value t) : s.Unhurt op := by
  obtain ⟨value, t, h⟩ := h
  intro e u he
  rw [h] at he
  cases he

theorem Tidy.called (h : s.Tidy) {op : Operation} (hop : op.Regular s) (hunhurt : s.Unhurt op) :
    op.exec.Holds s (fun _ t ↦ t.Tidy) (fun _ t ↦ t.Tidy) := by
  have hstays := Operation.exec_stays h hop
  refine Exec.holds_of_forall (fun value t ht ↦ ?_) (fun e t ht ↦ ?_)
  · exact (Exec.Holds.of_ok hstays ht).1.1
  · exact ((Exec.Holds.of_err hstays ht).resolve_left (hunhurt e t ht)).1

/-- Every state that regular calls reach in a tidy filesystem is tidy. -/
theorem Tidy.runs (h : s.Tidy) {calls : List (Inner × Operation)} (hrun : Exec.Runs Operation.exec s calls t)
    (hcalls : ∀ call ∈ calls, call.2.Regular call.1 ∧ call.1.Unhurt call.2) :
    t.Tidy ∧ ∀ call ∈ calls, call.1.Tidy :=
  hrun.invariant h hcalls fun _ _ hs hop ↦ hs.called hop.1 hop.2

/-- The states that calls lead to from a new filesystem: the calls are regular, the host fails none of them, and
permission checks are switched on and off in between. -/
inductive Reached : Inner → Prop
  | created {opts : CreateOptions} {env : Env} {uuid : Buf 16} {faults : List (Option ErrorKind)}
      {order : FlushOrder} {s : Inner} (h : create opts env uuid faults order = .ok () s) : Reached s
  | called {s t : Inner} {op : Operation} (hs : Reached s) (hop : op.Regular s) (hunhurt : s.Unhurt op)
      (h : op.exec.Ends s t) : Reached t
  | checked {s : Inner} (hs : Reached s) (enable : Bool) : Reached { s with checkPerm := enable }

theorem Reached.tidy (h : s.Reached) : s.Tidy := by
  induction h with
  | created h => exact create_tidy h
  | called hs hop hunhurt h ih => exact (ih.called hop hunhurt).of_ends h
  | checked hs enable ih => exact ih.checked enable

theorem Reached.runs (h : s.Reached) {calls : List (Inner × Operation)}
    (hrun : Exec.Runs Operation.exec s calls t)
    (hcalls : ∀ call ∈ calls, call.2.Regular call.1 ∧ call.1.Unhurt call.2) : t.Reached := by
  induction hrun with
  | nil s => exact h
  | cons hends hrest ih =>
    obtain ⟨hop, hunhurt⟩ := hcalls _ List.mem_cons_self
    exact ih (h.called hop hunhurt hends) fun call hcall ↦ hcalls call (List.mem_cons_of_mem _ hcall)

end Inner

end LinuxFile
