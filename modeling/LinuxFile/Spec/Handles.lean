import LinuxFile.Context
import LinuxFile.Spec.Calm

/-!
# Open files and inode numbers

A number is in use from the allocation of its inode to the moment the inode is dropped. Operations other
than opening and closing leave the table of open files alone, and the only one that gives a number back
is the release of an inode without names and open files.
-/

namespace LinuxFile

namespace Inner

/-- The number of open files the table counts for an inode. -/
def opens (s : Inner) (ino : ℕ) : ℕ := (s.openCount.find? ino).getD 0

/-- The number belongs to an inode: it has been handed out and not given back. -/
def InUse (s : Inner) (ino : ℕ) : Prop := ino ∉ s.freeInodes ∧ ino < s.sb.nextInode

/-- Free numbers have been handed out before, and each is listed once. -/
structure Numbers (s : Inner) : Prop where
  nodup : s.freeInodes.Nodup
  free : ∀ k ∈ s.freeInodes, firstUserIno ≤ k ∧ k < s.sb.nextInode
  next : firstUserIno ≤ s.sb.nextInode

/-- Another state of the file, with other links if `linked` holds. -/
def Inode.Later (linked : Prop) (i j : Inode) : Prop := j.mode = i.mode ∧ (¬linked → i.SameFile j)

/-- Nothing happens to the tables; the files in `P` may get other links, those in `G` may leave the
memory. -/
structure Lull (P G : ℕ → Prop) (s t : Inner) : Prop where
  freeInodes : t.freeInodes = s.freeInodes
  openCount : t.openCount = s.openCount
  orphans : t.orphans = s.orphans
  nextInode : t.sb.nextInode = s.sb.nextInode
  inodes : ∀ k i, ¬G k → s.inodes.find? k = some i →
    ∃ j, t.inodes.find? k = some j ∧ Inode.Later (P k) i j

/-- No file. -/
abbrev nothing : ℕ → Prop := fun _ ↦ False

variable {P L G H : ℕ → Prop} {s t u : Inner}

theorem Inode.Later.refl (linked : Prop) (i : Inode) : Inode.Later linked i i :=
  ⟨rfl, fun _ ↦ Inode.SameFile.refl i⟩

theorem Inode.Later.trans {linked : Prop} {i j k : Inode} (h : Inode.Later linked i j)
    (h' : Inode.Later linked j k) : Inode.Later linked i k :=
  ⟨h'.1.trans h.1, fun hl ↦ (h.2 hl).trans (h'.2 hl)⟩

theorem Inode.Later.mono {linked linked' : Prop} {i j : Inode} (h : Inode.Later linked i j)
    (hl : linked → linked') : Inode.Later linked' i j := ⟨h.1, fun hn ↦ h.2 fun h ↦ hn (hl h)⟩

theorem later_of_sameFile {linked : Prop} {i j : Inode} (h : i.SameFile j) : Inode.Later linked i j :=
  ⟨h.mode, fun _ ↦ h⟩

theorem Calm.lull (h : Calm s t) : Lull P G s t where
  freeInodes := h.freeInodes
  openCount := h.openCount
  orphans := h.orphans
  nextInode := by rw [h.sb]
  inodes k i _ hi := by
    obtain ⟨j, hj, hij⟩ := h.inodes k i hi
    exact ⟨j, hj, later_of_sameFile hij⟩

instance : IsPreorder Inner (Lull P G) where
  refl s := (refl_of Calm s).lull
  trans s t u hst htu := by
    refine ⟨htu.freeInodes.trans hst.freeInodes, htu.openCount.trans hst.openCount,
      htu.orphans.trans hst.orphans, htu.nextInode.trans hst.nextInode, fun k i hk hi ↦ ?_⟩
    obtain ⟨j, hj, hij⟩ := hst.inodes k i hk hi
    obtain ⟨l, hl, hjl⟩ := htu.inodes k j hk hj
    exact ⟨l, hl, hij.trans hjl⟩

theorem Lull.mono (h : Lull P G s t) (hP : ∀ k, P k → L k) (hG : ∀ k, G k → H k) :
    Lull L H s t := by
  refine ⟨h.freeInodes, h.openCount, h.orphans, h.nextInode, fun k i hk hi ↦ ?_⟩
  obtain ⟨j, hj, hij⟩ := h.inodes k i (fun hg ↦ hk (hG k hg)) hi
  exact ⟨j, hj, hij.mono (hP k)⟩

theorem Lull.opens (h : Lull P G s t) (ino : ℕ) : t.opens ino = s.opens ino := by
  unfold Inner.opens
  rw [h.openCount]

theorem Lull.inUse (h : Lull P G s t) {ino : ℕ} : t.InUse ino ↔ s.InUse ino := by
  unfold InUse
  rw [h.freeInodes, h.nextInode]

theorem Lull.numbers (h : Lull P G s t) (hs : s.Numbers) : t.Numbers where
  nodup := by rw [h.freeInodes]; exact hs.nodup
  free k hk := by
    rw [h.freeInodes] at hk
    rw [h.nextInode]
    exact hs.free k hk
  next := by rw [h.nextInode]; exact hs.next

theorem lull_of_calm {α : Type} {x : Fs α} (h : x.Respects Calm) : x.Respects (Lull P G) :=
  h.mono fun _ _ hst ↦ hst.lull

theorem insert_lull {ino : ℕ} {new : Inode}
    (h : ¬G ino → ∀ i, s.inodes.find? ino = some i → Inode.Later (P ino) i new) :
    Lull P G s { s with inodes := s.inodes.insert ino new } := by
  refine ⟨rfl, rfl, rfl, rfl, fun k i hk hi ↦ ?_⟩
  by_cases hne : k = ino
  · subst hne
    exact ⟨new, KeyMap.find?_insert_self _ _ _, h hk i hi⟩
  · exact ⟨i, by rw [KeyMap.find?_insert_of_ne hne]; exact hi, Inode.Later.refl _ i⟩

/-- A change to an inode in `P`. -/
theorem getInodeMut_lull {ino : ℕ} (hP : P ino) {change : Inode → Inode}
    (hmode : ∀ i : Inode, (change i).mode = i.mode) : (getInodeMut ino change).Respects (Lull P G) := by
  unfold getInodeMut
  refine Exec.Respects.bind_of (lull_of_calm (getInode_calm ino)) (getInode_found ino) ?_
  intro inode t hinode
  rw [Exec.holds_bind, markDirty, Exec.holds_modify, putInode, Exec.holds_modify]
  have hdirty : Lull P G t { t with dirtyInodes := t.dirtyInodes.insert ino () } :=
    (Calm.of_rest rfl).lull
  refine trans_of _ hdirty (insert_lull ?_)
  intro _ i hi
  have heq : some i = some inode := hi.symm.trans hinode
  cases heq
  exact ⟨hmode inode, fun hn ↦ absurd hP hn⟩

theorem dropLink_lull {ino : ℕ} (hP : P ino) {touch : Timespec → Inode → Inode}
    (hmode : ∀ now i, (touch now i).mode = i.mode) : (dropLink ino touch).Respects (Lull P G) :=
  .bind (.read _) fun _ ↦ getInodeMut_lull hP fun _ ↦ hmode _ _

theorem addLink_lull {ino : ℕ} (hP : P ino) (touch : Timespec → Inode → Inode)
    (hmode : ∀ now i, (touch now i).mode = i.mode) : (addLink ino touch).Respects (Lull P G) :=
  .bind (lull_of_calm (getInode_calm ino)) fun _ ↦ .bind (lull_of_calm (addU32_respects _ _)) fun _ ↦
    .bind (.read _) fun _ ↦ getInodeMut_lull hP fun _ ↦ hmode _ _

/-! ## The end of an inode -/

theorem zeroSlot_calm (ino : ℕ) : (zeroSlot ino).Respects Calm := by
  unfold zeroSlot
  refine .bind (.read _) fun sb ↦ .ite ?_ (.pure _)
  exact .bind (.ofExcept _) fun slot ↦ onCache_calm _

theorem invalidateRecordCache_calm (ino : ℕ) : (invalidateRecordCache ino).Respects Calm := by
  refine Exec.Respects.modify fun s ↦ holdRecord_calm fun c hc ↦ Or.inl ?_
  exact (Option.filter_eq_some_iff.mp hc).1

/-- The numbers given back by dropping an inode. -/
def freed (ino : ℕ) : List ℕ := if firstUserIno ≤ ino then [ino] else []

/-- The inode has been dropped and its number given back. -/
structure Retired (ino : ℕ) (s t : Inner) : Prop where
  freeInodes : t.freeInodes = s.freeInodes ++ freed ino
  openCount : t.openCount = s.openCount
  orphans : t.orphans = s.orphans
  nextInode : t.sb.nextInode = s.sb.nextInode
  inodes : ∀ k i, k ≠ ino → s.inodes.find? k = some i → ∃ j, t.inodes.find? k = some j ∧ i.SameFile j

/-- The number is given back by the last step, so a failure keeps it. -/
theorem dropInode_retires (ino : ℕ) (s : Inner) :
    (dropInode ino).Holds s (fun _ t ↦ Retired ino s t) (fun _ t ↦ Lull nothing (· = ino) s t) := by
  have hfree : ∀ c : Prop, [Decidable c] → ∀ start len,
      (Exec.when c (freeBlocks start len) : Fs Unit).Respects (Lull nothing (· = ino)) :=
    fun c _ start len ↦ .when fun _ ↦ lull_of_calm (freeBlocks_calm start len)
  have hforget : (Exec.modify (fun s : Inner ↦
      { s with inodes := s.inodes.erase ino, dirtyInodes := s.dirtyInodes.erase ino }) :
        Fs Unit).Respects (Lull nothing (· = ino)) := by
    refine Exec.Respects.modify fun s ↦ ⟨rfl, rfl, rfl, rfl, fun k i hk hi ↦ ⟨i, ?_, Inode.Later.refl _ i⟩⟩
    rw [KeyMap.find?_erase_of_ne hk]
    exact hi
  have hothers : ∀ t : Inner, Lull nothing (· = ino) s t → ∀ k i, k ≠ ino → s.inodes.find? k = some i →
      ∃ j, t.inodes.find? k = some j ∧ i.SameFile j := by
    intro t ht k i hk hi
    obtain ⟨j, hj, hij⟩ := ht.inodes k i hk hi
    exact ⟨j, hj, hij.2 not_false⟩
  have hlast : ∀ t : Inner, Lull nothing (· = ino) s t →
      (do
        Exec.when (firstUserIno ≤ ino) (Exec.modify (fun s : Inner ↦
          { s with
            freeInodes := s.freeInodes ++ [ino]
            sb := { s.sb with freeInodeCount := s.freeInodes.length + 1 } }))
        Exec.modify (fun s : Inner ↦
          { s with sb := { s.sb with inodeCount := s.sb.inodeCount - 1 } }) : Fs Unit).Holds t
        (fun _ u ↦ Retired ino s u) (fun _ u ↦ Lull nothing (· = ino) s u) := by
    intro t ht
    unfold Exec.when
    by_cases huser : firstUserIno ≤ ino
    · rw [if_pos huser, Exec.holds_bind, Exec.holds_modify, Exec.holds_modify]
      refine ⟨?_, ht.openCount, ht.orphans, ht.nextInode, hothers t ht⟩
      rw [freed, if_pos huser, ← ht.freeInodes]
    · rw [if_neg huser, Exec.holds_bind, Exec.holds_exec_pure, Exec.holds_modify]
      refine ⟨?_, ht.openCount, ht.orphans, ht.nextInode, hothers t ht⟩
      rw [freed, if_neg huser, List.append_nil, ← ht.freeInodes]
  unfold dropInode
  have herr : ∀ (_ : Error) u, Lull nothing (· = ino) s u → Lull nothing (· = ino) s u := fun _ _ hu ↦ hu
  refine (lull_of_calm (invalidateRecordCache_calm ino)).next (refl_of _ s) (fun _ t₁ h₁ ↦ ?_) herr
  refine (lull_of_calm (getInode_calm ino)).next h₁ (fun inode t₂ h₂ ↦ ?_) herr
  refine (lull_of_calm (truncateData_calm ino 0)).next h₂ (fun _ t₃ h₃ ↦ ?_) herr
  refine (hfree _ _ _).next h₃ (fun _ t₄ h₄ ↦ ?_) herr
  refine (hfree _ _ _).next h₄ (fun _ t₅ h₅ ↦ ?_) herr
  refine hforget.next h₅ (fun _ t₆ h₆ ↦ ?_) herr
  refine (lull_of_calm (zeroSlot_calm ino)).next h₆ (fun _ t₇ h₇ ↦ ?_) herr
  exact hlast t₇ h₇

/-- Giving back a number that is in use. -/
theorem Numbers.give_back {ino : ℕ} (hs : s.Numbers) (hino : s.InUse ino)
    (hfree : t.freeInodes = s.freeInodes ++ freed ino) (hnext : t.sb.nextInode = s.sb.nextInode) :
    t.Numbers where
  nodup := by
    rw [hfree, freed]
    split_ifs
    · rw [List.nodup_append]
      refine ⟨hs.nodup, List.nodup_singleton ino, ?_⟩
      intro a ha b hb heq
      rw [List.mem_singleton] at hb
      exact hino.1 (by rw [← hb, ← heq]; exact ha)
    · rw [List.append_nil]
      exact hs.nodup
  free k hk := by
    rw [hfree, List.mem_append] at hk
    rw [hnext]
    rcases hk with hk | hk
    · exact hs.free k hk
    · unfold freed at hk
      split_ifs at hk with huser
      · rw [List.mem_singleton] at hk
        rw [hk]
        exact ⟨huser, hino.2⟩
      · cases hk
  next := by rw [hnext]; exact hs.next

theorem inUse_of_freed {ino k : ℕ} (hfree : t.freeInodes = s.freeInodes ++ freed ino)
    (hnext : t.sb.nextInode = s.sb.nextInode) (hne : k ≠ ino) (hk : s.InUse k) : t.InUse k := by
  refine ⟨fun hmem ↦ ?_, by rw [hnext]; exact hk.2⟩
  rw [hfree, List.mem_append] at hmem
  rcases hmem with hmem | hmem
  · exact hk.1 hmem
  · unfold freed at hmem
    split_ifs at hmem
    · exact hne (List.mem_singleton.mp hmem)
    · cases hmem

/-! ## Removing a name -/

/-- What `unlink_name` does before it changes anything: the inode that the name stands for. -/
def unlinkFind (parent : ℕ) (name : Bytes) (rmdir : Bool) (creds : Creds) : Fs (ℕ × FileType) := do
  requireWrite
  Exec.ofExcept (validateName name)
  let dir ← getInode parent
  accessOk dir creds .write
  checkSticky parent name dir creds
  let found ← dirLookup parent name
  let entry ← Exec.ofOption (Error.enoent "no such file or directory") found
  checkRemovable rmdir entry.1 entry.2
  pure entry

/-- What it does afterwards. -/
def unlinkEntry (parent : ℕ) (name : Bytes) (entry : ℕ × FileType) : Fs Unit := do
  let _ ← dirRemove parent name
  Exec.when (entry.2.isDir = true) (dropLink parent (fun _ i ↦ i))
  dropLink entry.1 (fun now i ↦ i.touchCtime now)
  releaseIfUnlinked entry.1

theorem unlinkName_eq (parent : ℕ) (name : Bytes) (rmdir : Bool) (creds : Creds) :
    unlinkName parent name rmdir creds =
      unlinkFind parent name rmdir creds >>= fun entry ↦ unlinkEntry parent name entry := by
  unfold unlinkName unlinkFind unlinkEntry
  simp only [bind_assoc, pure_bind]

theorem unlinkFind_calm (parent : ℕ) (name : Bytes) (rmdir : Bool) (creds : Creds) :
    (unlinkFind parent name rmdir creds).Respects Calm := by
  unfold unlinkFind
  refine .bind requireWrite_calm fun _ ↦ .bind (.ofExcept _) fun _ ↦ .bind (getInode_calm _) fun dir ↦ ?_
  refine .bind (accessOk_respects _ _ _) fun _ ↦ .bind (checkSticky_calm _ _ _ _) fun _ ↦ ?_
  refine .bind (dirLookup_calm _ _) fun found ↦ .bind (.ofOption _ _) fun entry ↦ ?_
  exact .bind (checkRemovable_calm _ _ _) fun _ ↦ .pure _

/-- An inode that loses a name: kept while it has others, an orphan while it is open, and dropped
otherwise. -/
inductive Released (ino : ℕ) (i : Inode) (s t : Inner) : Prop
  | named (hlinks : i.nlink ≠ 0) (h : t = s)
  | orphaned (hlinks : i.nlink = 0) (hopen : 0 < s.opens ino)
      (h : t = { s with orphans := s.orphans.insert ino () })
  | dropped (hlinks : i.nlink = 0) (hclosed : s.opens ino = 0) (h : Retired ino s t)

theorem releaseIfUnlinked_spec (ino : ℕ) (s : Inner) :
    (releaseIfUnlinked ino).Holds s
      (fun _ t ↦ ∃ i u, Calm s u ∧ u.inodes.find? ino = some i ∧ Released ino i u t)
      (fun _ t ↦ Lull nothing (fun k ↦ k = ino ∧ s.opens ino = 0) s t) := by
  unfold releaseIfUnlinked
  refine ((getInode_calm ino s).and (getInode_found ino s)).bind ?_ (fun _ _ h ↦ h.1.lull)
  rintro i u ⟨hcalm, hfound⟩
  rw [Exec.holds_bind, Exec.holds_read]
  by_cases hlinks : i.nlink = 0
  · rw [if_pos hlinks]
    by_cases hclosed : (u.openCount.find? ino).getD 0 = 0
    · rw [if_pos hclosed]
      refine (dropInode_retires ino u).mono (fun _ t h ↦ ?_) (fun _ t h ↦ ?_)
      · exact ⟨i, u, hcalm, hfound, .dropped hlinks hclosed h⟩
      · have hsame : s.opens ino = 0 := by
          unfold Inner.opens
          rw [← hcalm.openCount]
          exact hclosed
        exact trans_of _ hcalm.lull (h.mono (fun _ hk ↦ hk) (fun _ hk ↦ ⟨hk, hsame⟩))
    · rw [if_neg hclosed, Exec.holds_modify]
      exact ⟨i, u, hcalm, hfound, .orphaned hlinks (Nat.pos_of_ne_zero hclosed) rfl⟩
  · rw [if_neg hlinks, Exec.holds_pure]
    exact ⟨i, u, hcalm, hfound, .named hlinks rfl⟩

theorem getInodeMut_found (ino : ℕ) (change : Inode → Inode) (s : Inner) :
    (getInodeMut ino change).Holds s
      (fun _ t ↦ ∃ i u, Calm s u ∧ u.inodes.find? ino = some i ∧
        t.inodes.find? ino = some (change i)) (fun _ _ ↦ True) := by
  unfold getInodeMut
  refine ((getInode_calm ino s).and (getInode_found ino s)).bind ?_ (fun _ _ _ ↦ trivial)
  rintro i u ⟨hcalm, hfound⟩
  rw [Exec.holds_bind, markDirty, Exec.holds_modify, putInode, Exec.holds_modify]
  exact ⟨i, u, hcalm, hfound, KeyMap.find?_insert_self _ _ _⟩

/-- A failed change has only read. -/
theorem getInodeMut_err (ino : ℕ) (change : Inode → Inode) (s : Inner) :
    (getInodeMut ino change).Holds s (fun _ _ ↦ True) (fun _ t ↦ Calm s t) := by
  unfold getInodeMut
  exact (getInode_calm ino s).bind (fun _ _ _ ↦ trivial) (fun _ _ h ↦ h)

/-- The state in which the inode's end is decided: one link less. -/
structure Delinked (parent ino : ℕ) (s v : Inner) : Prop where
  lull : Lull (fun k ↦ k = parent ∨ k = ino) nothing s v
  links : ∀ i, parent ≠ ino → s.inodes.find? ino = some i →
    ∃ j, v.inodes.find? ino = some j ∧ j.nlink = i.nlink - 1 ∧ j.mode = i.mode

/-- A removal that failed: an inode that is not open may have left the memory. -/
structure Halted (parent ino : ℕ) (s t : Inner) : Prop where
  lull : Lull (fun k ↦ k = parent ∨ k = ino) (fun k ↦ k = ino ∧ s.opens ino = 0) s t
  links : ∀ i j, parent ≠ ino → 0 < s.opens ino → s.inodes.find? ino = some i →
    t.inodes.find? ino = some j → j.nlink ≤ i.nlink

/-- The parts before the inode itself loses a link. -/
theorem Halted.of_parent {parent ino : ℕ} (h : Lull (· = parent) nothing s t) : Halted parent ino s t where
  lull := h.mono (fun _ hk ↦ Or.inl hk) (fun _ hk ↦ hk.elim)
  links i j hne _ hi hj := by
    obtain ⟨l, hl, hlater⟩ := h.inodes ino i not_false hi
    rw [hj] at hl
    cases hl
    exact (hlater.2 fun heq ↦ hne heq.symm).nlink.le

theorem removeEntry_lull (parent : ℕ) (name : Bytes) (ft : FileType) :
    (do
      let _ ← dirRemove parent name
      Exec.when (ft.isDir = true) (dropLink parent (fun _ i ↦ i)) : Fs Unit).Respects
      (Lull (· = parent) nothing) :=
  .bind (lull_of_calm (dirRemove_calm parent name)) fun _ ↦
    .when fun _ ↦ dropLink_lull (P := (· = parent)) rfl fun _ _ ↦ rfl

theorem unlinkEntry_eq (parent : ℕ) (name : Bytes) (entry : ℕ × FileType) :
    unlinkEntry parent name entry = (do
      let _ ← dirRemove parent name
      Exec.when (entry.2.isDir = true) (dropLink parent (fun _ i ↦ i)) : Fs Unit) >>= fun _ ↦ (do
        dropLink entry.1 (fun now i ↦ i.touchCtime now)
        releaseIfUnlinked entry.1) := by
  unfold unlinkEntry
  simp only [bind_assoc]

/-- The inode loses a link. -/
theorem dropLink_delinks {parent ino : ℕ} (hu : Lull (· = parent) nothing s u) :
    (dropLink ino (fun now i ↦ i.touchCtime now)).Holds u (fun _ v ↦ Delinked parent ino s v)
      (fun _ t ↦ Lull (· = parent) nothing s t) := by
  unfold dropLink
  rw [Exec.holds_bind, Exec.holds_read]
  have hwide : Lull (fun k ↦ k = parent ∨ k = ino) nothing s u :=
    hu.mono (fun k hk ↦ Or.inl hk) (fun _ h ↦ h)
  have hmut : (getInodeMut ino (fun i ↦ { i with nlink := i.nlink - 1 }.touchCtime u.env.now)).Respects
      (Lull (fun k ↦ k = parent ∨ k = ino) nothing) := getInodeMut_lull (Or.inr rfl) fun _ ↦ rfl
  refine (((hmut u).and (getInodeMut_found ino _ u)).and (getInodeMut_err ino _ u)).mono ?_ ?_
  · rintro _ v ⟨⟨hv, i₀, w, hcalm, hi₀, hv₀⟩, -⟩
    refine ⟨trans_of _ hwide hv, fun i hne hi ↦ ?_⟩
    obtain ⟨j, hj, hlater⟩ := hu.inodes ino i not_false hi
    obtain ⟨l, hl, hjl⟩ := hcalm.inodes ino j hj
    rw [hi₀] at hl
    cases hl
    have hsame := (hlater.2 fun h ↦ hne h.symm).trans hjl
    refine ⟨_, hv₀, ?_, hsame.mode⟩
    change i₀.nlink - 1 = i.nlink - 1
    rw [hsame.nlink]
  · rintro _ t ⟨-, hcalm⟩
    exact trans_of _ hu hcalm.lull

theorem unlinkEntry_spec (parent : ℕ) (name : Bytes) (entry : ℕ × FileType) (s : Inner) :
    (unlinkEntry parent name entry).Holds s
      (fun _ t ↦ ∃ i v, Delinked parent entry.1 s v ∧ v.inodes.find? entry.1 = some i ∧
        Released entry.1 i v t)
      (fun _ t ↦ Halted parent entry.1 s t) := by
  rw [unlinkEntry_eq]
  refine (removeEntry_lull parent name entry.2 s).bind (fun _ u hu ↦ ?_) (fun _ u hu ↦ .of_parent hu)
  refine (dropLink_delinks hu).bind ?_ (fun _ t ht ↦ .of_parent ht)
  intro _ v hv
  refine (releaseIfUnlinked_spec entry.1 v).mono ?_ ?_
  · rintro _ t ⟨i, w, hcalm, hi, hreleased⟩
    refine ⟨i, w, ⟨trans_of _ hv.lull hcalm.lull, fun i' hne hi' ↦ ?_⟩, hi, hreleased⟩
    obtain ⟨j, hj, hnlink, hmode⟩ := hv.links i' hne hi'
    obtain ⟨l, hl, hjl⟩ := hcalm.inodes entry.1 j hj
    exact ⟨l, hl, by rw [hjl.nlink, hnlink], by rw [hjl.mode, hmode]⟩
  · intro _ t ht
    have hopens := hv.lull.opens entry.1
    refine ⟨trans_of _ (hv.lull.mono (fun _ h ↦ h) (fun _ h ↦ h.elim)) (ht.mono (fun _ h ↦ h.elim) ?_), ?_⟩
    · intro k hk
      exact ⟨hk.1, by rw [← hopens]; exact hk.2⟩
    · intro i j hne hopen hi hj
      obtain ⟨l, hl, hnlink, -⟩ := hv.links i hne hi
      obtain ⟨m, hm, hlater⟩ := ht.inodes entry.1 l (fun h ↦ by omega) hl
      rw [hj] at hm
      cases hm
      rw [(hlater.2 not_false).nlink, hnlink]
      exact Nat.sub_le _ _

/-! ## Creating a name -/

theorem appendTable_calm (extents : List Extent) (start add : ℕ) :
    (appendTable extents start add).Respects Calm := by
  unfold appendTable
  cases extents.getLast? with
  | none => exact .pure _
  | some last => exact .ite (.bind (addU32_respects _ _) fun _ ↦ .pure _) (.pure _)

theorem growInodeTable_lull : growInodeTable.Respects (Lull P G) := by
  unfold growInodeTable
  refine .bind (lull_of_calm (onAlloc_calm _)) fun start ↦ .bind (.read _) fun extents ↦ ?_
  refine .bind (lull_of_calm (appendTable_calm _ _ _)) fun extents ↦ Exec.Respects.modify fun s ↦ ?_
  exact ⟨rfl, rfl, rfl, rfl, fun k i _ hi ↦ ⟨i, hi, Inode.Later.refl _ i⟩⟩

/-- A number has been handed out; the files in `P` may have changed. -/
structure Handed (P : ℕ → Prop) (ino : ℕ) (s t : Inner) : Prop where
  openCount : t.openCount = s.openCount
  orphans : t.orphans = s.orphans
  fresh : ¬s.InUse ino
  kept : ∀ k, s.InUse k → t.InUse k
  numbers : s.Numbers → t.Numbers ∧ t.InUse ino
  inodes : ∀ k i, k ≠ ino → s.inodes.find? k = some i →
    ∃ j, t.inodes.find? k = some j ∧ Inode.Later (P k) i j

theorem Handed.lull {ino : ℕ} (h : Handed P ino s t) (htu : Lull L G t u)
    (hP : ∀ k, k ≠ ino → L k → P k) (hG : ∀ k, k ≠ ino → ¬G k) : Handed P ino s u where
  openCount := htu.openCount.trans h.openCount
  orphans := htu.orphans.trans h.orphans
  fresh := h.fresh
  kept k hk := htu.inUse.mpr (h.kept k hk)
  numbers hs := ⟨htu.numbers (h.numbers hs).1, htu.inUse.mpr (h.numbers hs).2⟩
  inodes k i hne hi := by
    obtain ⟨j, hj, hij⟩ := h.inodes k i hne hi
    obtain ⟨l, hl, hjl⟩ := htu.inodes k j (hG k hne) hj
    exact ⟨l, hl, hij.trans (hjl.mono (hP k hne))⟩

/-- The last number of the free list. -/
theorem handed_pop {free : List ℕ} {ino : ℕ} {sb : Superblock} (hfree : s.freeInodes = free ++ [ino])
    (hsb : sb.nextInode = s.sb.nextInode) : Handed P ino s { s with freeInodes := free, sb := sb } where
  openCount := rfl
  orphans := rfl
  fresh h := h.1 (by rw [hfree]; simp)
  kept k hk := by
    refine ⟨fun hmem ↦ hk.1 ?_, ?_⟩
    · rw [hfree]
      exact List.mem_append_left _ hmem
    · change k < sb.nextInode
      rw [hsb]
      exact hk.2
  numbers hs := by
    have hnodup := hs.nodup
    rw [hfree, List.nodup_append] at hnodup
    refine ⟨⟨hnodup.1, fun k hk ↦ ?_, ?_⟩, ⟨fun hmem ↦ ?_, ?_⟩⟩
    · change firstUserIno ≤ k ∧ k < sb.nextInode
      rw [hsb]
      exact hs.free k (by rw [hfree]; exact List.mem_append_left _ hk)
    · change firstUserIno ≤ sb.nextInode
      rw [hsb]
      exact hs.next
    · exact hnodup.2.2 ino hmem ino (List.mem_singleton_self ino) rfl
    · change ino < sb.nextInode
      rw [hsb]
      exact (hs.free ino (by rw [hfree]; simp)).2
  inodes k i _ hi := ⟨i, hi, Inode.Later.refl _ i⟩

/-- The next number that was never handed out. -/
theorem handed_next {sb : Superblock} (hfree : s.freeInodes = []) (hsb : sb.nextInode = s.sb.nextInode + 1) :
    Handed P s.sb.nextInode s { s with sb := sb } where
  openCount := rfl
  orphans := rfl
  fresh h := Nat.lt_irrefl _ h.2
  kept k hk := by
    refine ⟨hk.1, ?_⟩
    change k < sb.nextInode
    have := hk.2
    omega
  numbers hs := by
    have hnext := hs.next
    refine ⟨⟨hs.nodup, fun k hk ↦ ?_, ?_⟩, ⟨fun hmem ↦ ?_, ?_⟩⟩
    · have hk' : k ∈ s.freeInodes := hk
      rw [hfree] at hk'
      cases hk'
    · change firstUserIno ≤ sb.nextInode
      omega
    · have hmem' : s.sb.nextInode ∈ s.freeInodes := hmem
      rw [hfree] at hmem'
      cases hmem'
    · change s.sb.nextInode < sb.nextInode
      omega
  inodes k i _ hi := ⟨i, hi, Inode.Later.refl _ i⟩

theorem takeInodeNumber_hands (s : Inner) :
    takeInodeNumber.Holds s (fun ino t ↦ Handed P ino s t) (fun _ t ↦ Lull P nothing s t) := by
  unfold takeInodeNumber
  rw [Exec.holds_bind, Exec.holds_read]
  cases hlast : s.freeInodes.getLast? with
  | some ino =>
    dsimp only
    rw [Exec.holds_bind, Exec.holds_modify, Exec.holds_pure]
    refine handed_pop ?_ rfl
    exact (List.dropLast_append_getLast? ino hlast).symm
  | none =>
    have hnil : s.freeInodes = [] := List.getLast?_eq_none_iff.mp hlast
    dsimp only
    rw [Exec.holds_bind, Exec.holds_read]
    have hgrow : (Exec.when (inodeTableCapacity s.sb ≤ s.sb.nextInode) growInodeTable).Respects
        (Lull P nothing) :=
      .when fun _ ↦ growInodeTable_lull
    refine hgrow.next (refl_of _ s) (fun _ t ht ↦ ?_) (fun _ _ h ↦ h)
    unfold addU64
    split_ifs
    · trivial
    · rw [Exec.holds_bind, Exec.holds_pure, Exec.holds_bind, Exec.holds_modify, Exec.holds_pure]
      have hhanded : Handed P t.sb.nextInode t { t with sb := { t.sb with nextInode := s.sb.nextInode + 1 } } :=
        handed_next (ht.freeInodes.trans hnil) (by rw [ht.nextInode])
      rw [ht.nextInode] at hhanded
      refine ⟨hhanded.openCount.trans ht.openCount, hhanded.orphans.trans ht.orphans,
        fun h ↦ hhanded.fresh (ht.inUse.mpr h), fun k hk ↦ hhanded.kept k (ht.inUse.mpr hk),
        fun hs ↦ hhanded.numbers (ht.numbers hs), fun k i _ hi ↦ ?_⟩
      exact ht.inodes k i not_false hi

theorem allocInode_hands (mode : UInt16) (uid gid : UInt32) (s : Inner) :
    (allocInode mode uid gid).Holds s
      (fun ino t ↦ Handed P ino s t ∧
        ∃ i, t.inodes.find? ino = some i ∧ i.mode = mode ∧ i.nlink = 1)
      (fun _ t ↦ Lull P nothing s t) := by
  unfold allocInode
  refine (lull_of_calm requireWrite_calm).next (refl_of _ s) (fun _ s₁ h₁ ↦ ?_) (fun _ _ h ↦ h)
  refine (takeInodeNumber_hands (P := P) s₁).bind ?_ (fun _ _ h ↦ trans_of _ h₁ h)
  intro ino t ht
  have hhanded : Handed P ino s t :=
    ⟨ht.openCount.trans h₁.openCount, ht.orphans.trans h₁.orphans,
      fun h ↦ ht.fresh (h₁.inUse.mpr h), fun k hk ↦ ht.kept k (h₁.inUse.mpr hk),
      fun hs ↦ ht.numbers (h₁.numbers hs), fun k i hne hi ↦ by
        obtain ⟨j, hj, hij⟩ := h₁.inodes k i not_false hi
        obtain ⟨l, hl, hjl⟩ := ht.inodes k j hne hj
        exact ⟨l, hl, hij.trans hjl⟩⟩
  rw [Exec.holds_bind, Exec.holds_get, Exec.holds_bind, putInode, Exec.holds_modify, Exec.holds_bind,
    markDirty, Exec.holds_modify]
  unfold addU64
  split_ifs
  · trivial
  · rw [Exec.holds_bind, Exec.holds_pure, Exec.holds_bind, Exec.holds_modify, Exec.holds_pure]
    refine ⟨?_, _, KeyMap.find?_insert_self _ _ _, rfl, rfl⟩
    refine hhanded.lull (L := P) (G := (· = ino)) ⟨rfl, rfl, rfl, rfl, fun k i hk hi ↦ ?_⟩
      (fun _ _ hk ↦ hk) (fun _ hne hk ↦ hne hk)
    exact ⟨i, (KeyMap.find?_insert_of_ne hk).trans hi, Inode.Later.refl _ i⟩

/-- What `create_child` does before it changes anything. -/
def createFind (parent : ℕ) (name : Bytes) (creds : Creds) : Fs Unit := do
  requireWrite
  Exec.ofExcept (validateName name)
  let dir ← getInode parent
  if dir.isDir = false then Exec.throw (Error.enotdir "not a directory")
  else do
    accessOk dir creds .write
    let found ← dirLookup parent name
    if found.isSome then Exec.throw (Error.eexist "file exists") else pure ()

/-- What it does afterwards. -/
def createEntry (parent : ℕ) (name : Bytes) (mode : UInt16) (uid gid : UInt32) (rdev : UInt64) :
    Fs ℕ := do
  let ino ← allocInode mode uid gid
  getInodeMut ino (fun child ↦
    { child with rdev := rdev, nlink := if child.isDir then 2 else child.nlink })
  Exec.when ((FileType.fromMode mode).isDir = true) (do
    let child ← getInode ino
    writeDirEntries ino child [⟨ino, .directory, dotName⟩, ⟨parent, .directory, dotdotName⟩]
    addLink parent (fun now i ↦ i.touchMtime now))
  dirInsert parent name ino (FileType.fromMode mode)
  pure ino

theorem createChild_eq (parent : ℕ) (name : Bytes) (mode : UInt16) (uid gid : UInt32) (rdev : UInt64)
    (creds : Creds) : createChild parent name mode uid gid rdev creds =
      createFind parent name creds >>= fun _ ↦ createEntry parent name mode uid gid rdev := by
  unfold createChild createFind createEntry
  simp only [bind_assoc]
  congr 1
  funext _
  congr 1
  funext _
  congr 1
  funext dir
  by_cases hdir : dir.isDir = false
  · rw [if_pos hdir, if_pos hdir]
    rfl
  rw [if_neg hdir, if_neg hdir, bind_assoc]
  congr 1
  funext _
  rw [bind_assoc]
  congr 1
  funext found
  cases found with
  | none => rfl
  | some entry => rfl

theorem createFind_calm (parent : ℕ) (name : Bytes) (creds : Creds) :
    (createFind parent name creds).Respects Calm := by
  unfold createFind
  refine .bind requireWrite_calm fun _ ↦ .bind (.ofExcept _) fun _ ↦ .bind (getInode_calm _) fun dir ↦ ?_
  refine .ite (.throw _) (.bind (accessOk_respects _ _ _) fun _ ↦ .bind (dirLookup_calm _ _) fun found ↦ ?_)
  exact .ite (.throw _) (.pure _)

/-- A new name has a directory to stand in. -/
theorem createFind_dir (parent : ℕ) (name : Bytes) (creds : Creds) (s : Inner) :
    (createFind parent name creds).Holds s
      (fun _ t ↦ ∃ i, t.inodes.find? parent = some i ∧ i.isDir = true) (fun _ _ ↦ True) := by
  unfold createFind
  apply Exec.holds_bind_of_forall
  intro _ t₁
  apply Exec.holds_bind_of_forall
  intro _ t₂
  refine (getInode_found parent t₂).bind ?_ (fun _ _ _ ↦ trivial)
  intro dir t₃ hdir
  by_cases hisDir : dir.isDir = false
  · rw [if_pos hisDir]
    trivial
  rw [if_neg hisDir]
  have hrest : (do
      accessOk dir creds .write
      let found ← dirLookup parent name
      if found.isSome then Exec.throw (Error.eexist "file exists") else pure () : Fs Unit).Respects Calm :=
    .bind (accessOk_respects _ _ _) fun _ ↦ .bind (dirLookup_calm _ _) fun _ ↦ .ite (.throw _) (.pure _)
  refine (hrest t₃).mono (fun _ t h ↦ ?_) (fun _ _ _ ↦ trivial)
  obtain ⟨j, hj, hij⟩ := h.inodes parent dir hdir
  refine ⟨j, hj, ?_⟩
  unfold Inode.isDir Inode.fileType at hisDir ⊢
  rw [hij.mode]
  simpa using hisDir

/-- The new inode's number was not in use, and every other number in use stays so; a failure may leave
the number handed out. -/
theorem createEntry_hands (parent : ℕ) (name : Bytes) (mode : UInt16) (uid gid : UInt32) (rdev : UInt64)
    (s : Inner) :
    (createEntry parent name mode uid gid rdev).Holds s
      (fun ino t ↦ Handed (· = parent) ino s t)
      (fun _ t ↦ Lull (· = parent) nothing s t ∨ ∃ ino, Handed (· = parent) ino s t) := by
  unfold createEntry
  refine (allocInode_hands (P := (· = parent)) mode uid gid s).bind ?_ (fun _ _ h ↦ Or.inl h)
  rintro ino t ⟨hhanded, -⟩
  have herr : ∀ (_ : Error) u, Lull (fun k ↦ k = parent ∨ k = ino) nothing t u →
      Lull (· = parent) nothing s u ∨ ∃ ino, Handed (· = parent) ino s u := by
    intro _ u hu
    exact Or.inr ⟨ino, hhanded.lull hu (fun k hne hk ↦ hk.resolve_right hne) (fun _ _ h ↦ h)⟩
  have hmut : (getInodeMut ino (fun child ↦
      { child with rdev := rdev, nlink := if child.isDir then 2 else child.nlink })).Respects
      (Lull (fun k ↦ k = parent ∨ k = ino) nothing) := getInodeMut_lull (Or.inr rfl) fun _ ↦ rfl
  have hdots : (do
      let child ← getInode ino
      writeDirEntries ino child [⟨ino, .directory, dotName⟩, ⟨parent, .directory, dotdotName⟩]
      addLink parent (fun now i ↦ i.touchMtime now) : Fs Unit).Respects
      (Lull (fun k ↦ k = parent ∨ k = ino) nothing) := by
    have h := Exec.Respects.bind (lull_of_calm (P := fun k ↦ k = parent ∨ k = ino) (G := nothing)
      (rewriteDir_calm ino [⟨ino, .directory, dotName⟩, ⟨parent, .directory, dotdotName⟩])) fun _ ↦
      addLink_lull (Or.inl rfl) (fun now i ↦ i.touchMtime now) fun _ _ ↦ rfl
    rwa [bind_assoc] at h
  refine hmut.next (refl_of _ t) (fun _ t₁ h₁ ↦ ?_) herr
  refine (Exec.Respects.when fun _ ↦ hdots).next h₁ (fun _ t₂ h₂ ↦ ?_) herr
  refine (lull_of_calm (dirInsert_calm _ _ _ _)).next h₂ (fun _ t₃ h₃ ↦ ?_) herr
  exact hhanded.lull h₃ (fun k hne hk ↦ hk.resolve_right hne) (fun _ _ h ↦ h)

/-! ## Opening and closing -/

/-- One more open file. -/
structure Opened (ino : ℕ) (s t : Inner) : Prop where
  opens : ∀ k, t.opens k = s.opens k + if k = ino then 1 else 0
  rest : t = { s with openCount := t.openCount }

theorem incOpen_opened (ino : ℕ) (s : Inner) :
    (incOpen ino).Holds s (fun _ t ↦ Opened ino s t) (fun _ _ ↦ False) := by
  unfold incOpen addU32
  rw [Exec.holds_bind, Exec.holds_read]
  split_ifs
  · trivial
  · rw [Exec.holds_bind, Exec.holds_pure, Exec.holds_modify]
    refine ⟨fun k ↦ ?_, rfl⟩
    unfold Inner.opens
    dsimp only
    rw [KeyMap.find?_insert]
    by_cases hk : k = ino
    · rw [if_pos hk, if_pos hk, hk]
      rfl
    · rw [if_neg hk, if_neg hk, Nat.add_zero]

/-- One open file less. With the last one an orphan is dropped, if nothing fails. -/
structure Closed (ino : ℕ) (s t : Inner) : Prop where
  opens : ∀ k, t.opens k = s.opens k - if k = ino then 1 else 0
  orphans : ∀ k, t.orphans.contains k = true ↔
    s.orphans.contains k = true ∧ ¬(k = ino ∧ s.opens ino = 1)
  free : t.freeInodes = s.freeInodes ∨
    (s.opens ino = 1 ∧ s.orphans.contains ino = true ∧ t.freeInodes = s.freeInodes ++ freed ino)
  nextInode : t.sb.nextInode = s.sb.nextInode
  inodes : ∀ k i, k ≠ ino → s.inodes.find? k = some i →
    ∃ j, t.inodes.find? k = some j ∧ i.SameFile j
  self : s.opens ino ≠ 1 → t.inodes = s.inodes

theorem contains_erase (m : KeyMap Unit) (ino k : ℕ) :
    (m.erase ino).contains k = true ↔ m.contains k = true ∧ k ≠ ino := by
  unfold KeyMap.contains
  rw [KeyMap.find?_erase]
  by_cases hk : k = ino
  · simp [hk]
  · simp [hk]

/-- The state in which a last file has left the tables. -/
def uncounted (ino : ℕ) (s : Inner) : Inner :=
  { s with openCount := s.openCount.erase ino, orphans := s.orphans.erase ino }

theorem Closed.of_uncounted {ino : ℕ} (hlast : s.opens ino = 1) (horphan : s.orphans.contains ino = true)
    (hopen : t.openCount = (uncounted ino s).openCount) (horphans : t.orphans = (uncounted ino s).orphans)
    (hfree : t.freeInodes = s.freeInodes ∨ t.freeInodes = s.freeInodes ++ freed ino)
    (hnext : t.sb.nextInode = s.sb.nextInode)
    (hinodes : ∀ k i, k ≠ ino → s.inodes.find? k = some i →
      ∃ j, t.inodes.find? k = some j ∧ i.SameFile j) : Closed ino s t where
  opens k := by
    unfold Inner.opens at hlast ⊢
    rw [hopen, uncounted]
    dsimp only
    rw [KeyMap.find?_erase]
    by_cases hk : k = ino
    · rw [if_pos hk, if_pos hk, hk, hlast]
      rfl
    · rw [if_neg hk, if_neg hk, Nat.sub_zero]
  orphans k := by
    rw [horphans, uncounted]
    dsimp only
    rw [contains_erase]
    tauto
  free := hfree.imp_right fun h ↦ ⟨hlast, horphan, h⟩
  nextInode := hnext
  inodes := hinodes
  self h := absurd hlast h

theorem decOpen_closed {ino : ℕ} (hopen : 0 < s.opens ino) :
    (decOpen ino).Holds s (fun _ t ↦ Closed ino s t) (fun _ t ↦ Closed ino s t) := by
  obtain ⟨count, hcount⟩ : ∃ count, s.openCount.find? ino = some count := by
    cases h : s.openCount.find? ino with
    | some count => exact ⟨count, rfl⟩
    | none =>
      unfold Inner.opens at hopen
      rw [h] at hopen
      exact absurd hopen (lt_irrefl 0)
  have hopens : s.opens ino = count := by
    unfold Inner.opens
    rw [hcount]
    rfl
  unfold decOpen
  rw [Exec.holds_bind, Exec.holds_get, hcount]
  dsimp only
  by_cases hmore : count - 1 ≠ 0
  · rw [if_pos hmore, Exec.holds_modify]
    refine ⟨fun k ↦ ?_, fun k ↦ ?_, Or.inl rfl, rfl, fun k i _ hi ↦ ⟨i, hi, Inode.SameFile.refl i⟩,
      fun _ ↦ rfl⟩
    · unfold Inner.opens
      dsimp only
      rw [KeyMap.find?_insert]
      by_cases hk : k = ino
      · rw [if_pos hk, if_pos hk, hk, hcount]
        rfl
      · rw [if_neg hk, if_neg hk, Nat.sub_zero]
    · dsimp only
      have hnot : ¬(k = ino ∧ s.opens ino = 1) := by
        rintro ⟨-, h⟩
        omega
      tauto
  rw [if_neg hmore, Exec.holds_bind, Exec.holds_modify]
  have hlast : s.opens ino = 1 := by omega
  by_cases horphan : s.orphans.contains ino = true
  · rw [if_pos horphan, Exec.holds_bind, Exec.holds_modify]
    have hcalm : ∀ t, Calm (uncounted ino s) t → Closed ino s t := by
      intro t ht
      exact .of_uncounted hlast horphan ht.openCount ht.orphans (Or.inl ht.freeInodes) (by rw [ht.sb]; rfl)
        fun k i _ hi ↦ ht.inodes k i hi
    refine (Exec.Respects.attempt (getInode_calm ino)).next (refl_of Calm (uncounted ino s))
      (fun found t ht ↦ ?_) (fun _ t ht ↦ hcalm t ht)
    have hdrop : (dropInode ino).Holds t (fun _ u ↦ Closed ino s u) (fun _ u ↦ Closed ino s u) := by
      refine (dropInode_retires ino t).mono (fun _ u hu ↦ ?_) (fun _ u hu ↦ ?_)
      · refine .of_uncounted hlast horphan (hu.openCount.trans ht.openCount) (hu.orphans.trans ht.orphans)
          (Or.inr ?_) (by rw [hu.nextInode, ht.sb]; rfl) fun k i hk hi ↦ ?_
        · rw [hu.freeInodes, ht.freeInodes]
          rfl
        · obtain ⟨j, hj, hij⟩ := ht.inodes k i hi
          obtain ⟨l, hl, hjl⟩ := hu.inodes k j hk hj
          exact ⟨l, hl, hij.trans hjl⟩
      · refine .of_uncounted hlast horphan (hu.openCount.trans ht.openCount) (hu.orphans.trans ht.orphans)
          (Or.inl (hu.freeInodes.trans ht.freeInodes)) (by rw [hu.nextInode, ht.sb]; rfl) fun k i hk hi ↦ ?_
        obtain ⟨j, hj, hij⟩ := ht.inodes k i hi
        obtain ⟨l, hl, hjl⟩ := hu.inodes k j hk hj
        exact ⟨l, hl, hij.trans (hjl.2 not_false)⟩
    split_ifs
    · exact hdrop
    · exact hcalm t ht
  · rw [if_neg horphan, Exec.holds_pure]
    refine ⟨fun k ↦ ?_, fun k ↦ ?_, Or.inl rfl, rfl, fun k i _ hi ↦ ⟨i, hi, Inode.SameFile.refl i⟩,
      fun h ↦ absurd hlast h⟩
    · unfold Inner.opens at hlast ⊢
      dsimp only
      rw [KeyMap.find?_erase]
      by_cases hk : k = ino
      · rw [if_pos hk, if_pos hk, hk, hlast]
        rfl
      · rw [if_neg hk, if_neg hk, Nat.sub_zero]
    · dsimp only
      constructor
      · intro h
        refine ⟨h, ?_⟩
        rintro ⟨rfl, -⟩
        exact horphan h
      · exact fun h ↦ h.1

/-- The last file of an inode without names. -/
theorem decOpen_drops {ino : ℕ} {i : Inode} (hlast : s.opens ino = 1)
    (horphan : s.orphans.contains ino = true) (hi : s.inodes.find? ino = some i) (hlinks : i.nlink = 0) :
    (decOpen ino).Holds s (fun _ t ↦ t.freeInodes = s.freeInodes ++ freed ino) (fun _ _ ↦ True) := by
  obtain ⟨count, hcount⟩ : ∃ count, s.openCount.find? ino = some count := by
    cases h : s.openCount.find? ino with
    | some count => exact ⟨count, rfl⟩
    | none =>
      unfold Inner.opens at hlast
      rw [h] at hlast
      cases hlast
  have hone : count = 1 := by
    unfold Inner.opens at hlast
    rw [hcount] at hlast
    exact hlast
  unfold decOpen
  rw [Exec.holds_bind, Exec.holds_get, hcount]
  dsimp only
  rw [if_neg (by omega), Exec.holds_bind, Exec.holds_modify, if_pos horphan, Exec.holds_bind,
    Exec.holds_modify, Exec.holds_bind, Exec.holds_attempt]
  have hget : getInode ino (uncounted ino s) = .ok i (uncounted ino s) := by
    unfold getInode
    rw [Exec.bind_apply, Exec.read_apply]
    unfold uncounted
    dsimp only
    rw [hi]
    rfl
  refine (Exec.holds_iff_of_ok hget).mpr ?_
  rw [if_pos hlinks]
  exact (dropInode_retires ino _).mono (fun _ t h ↦ h.freeInodes) (fun _ _ _ ↦ trivial)

end Inner

end LinuxFile
