import LinuxFile.Processes
import LinuxFile.Spec.Handles
import LinuxFile.Spec.Mount
import LinuxFile.Theorems.Sample

/-!
# Open files are counted

Files are opened by path, cloned, duplicated between descriptors and dropped, while names come and go.
The table of open files counts the live ones as long as every file that is dropped was counted before:
that is so for all of them but the copies made by the derived `Clone`. An unlinked inode is then kept
until its last file goes away, and no file refers to a number that has been given back.
-/

set_option autoImplicit false

namespace LinuxFile

namespace Inner

/-- The tables agree with the numbers of the inodes that are open. -/
structure Tracked (s : Inner) (handles : List ℕ) : Prop where
  counted : ∀ ino, s.opens ino = handles.count ino
  numbers : s.Numbers
  alive : ∀ ino ∈ handles, s.InUse ino
  orphan : ∀ ino, s.orphans.contains ino = true → ino ∈ handles
  links : ∀ ino, s.orphans.contains ino = true →
    ∃ i, s.inodes.find? ino = some i ∧ (i.isDir = false → i.nlink = 0)

variable {s t u : Inner} {handles other : List ℕ} {P G : ℕ → Prop}

theorem Tracked.perm (h : s.Tracked handles) (hperm : handles.Perm other) : s.Tracked other where
  counted ino := by rw [h.counted, hperm.count_eq]
  numbers := h.numbers
  alive ino hino := h.alive ino (hperm.mem_iff.mpr hino)
  orphan ino hino := hperm.mem_iff.mp (h.orphan ino hino)
  links := h.links

theorem Tracked.mem_iff (h : s.Tracked handles) {ino : ℕ} : ino ∈ handles ↔ 0 < s.opens ino := by
  rw [h.counted, List.count_pos_iff]

theorem isDir_of_mode {i j : Inode} (h : j.mode = i.mode) : j.isDir = i.isDir := by
  unfold Inode.isDir Inode.fileType
  rw [h]

/-- Nothing happens to the tables, and the files that get other links are directories or closed. -/
theorem Tracked.of_lull (h : s.Tracked handles) (hst : Lull P G s t) (hG : ∀ k ∈ handles, ¬G k)
    (hP : ∀ k i, P k → k ∈ handles → s.inodes.find? k = some i → i.isDir = false → i.nlink = 0 →
      ∀ j, t.inodes.find? k = some j → j.nlink = 0) : t.Tracked handles where
  counted ino := by rw [hst.opens, h.counted]
  numbers := hst.numbers h.numbers
  alive ino hino := hst.inUse.mpr (h.alive ino hino)
  orphan ino hino := by
    rw [hst.orphans] at hino
    exact h.orphan ino hino
  links ino hino := by
    rw [hst.orphans] at hino
    obtain ⟨i, hi, hlinks⟩ := h.links ino hino
    obtain ⟨j, hj, hmode, hsame⟩ := hst.inodes ino i (hG ino (h.orphan ino hino)) hi
    refine ⟨j, hj, fun hdir ↦ ?_⟩
    rw [isDir_of_mode hmode] at hdir
    by_cases hp : P ino
    · exact hP ino i hp (h.orphan ino hino) hi hdir (hlinks hdir) j hj
    · rw [(hsame hp).nlink]
      exact hlinks hdir

theorem Tracked.of_calm (h : s.Tracked handles) (hst : Calm s t) : t.Tracked handles :=
  h.of_lull (P := nothing) (G := nothing) hst.lull (fun _ _ hk ↦ hk) (fun _ _ hk ↦ hk.elim)

theorem Tracked.opened (h : s.Tracked handles) {ino : ℕ} (hino : s.InUse ino) (hst : Opened ino s t) :
    t.Tracked (ino :: handles) := by
  have hrest := hst.rest
  refine ⟨fun k ↦ ?_, ?_, fun k hk ↦ ?_, fun k hk ↦ ?_, fun k hk ↦ ?_⟩
  · rw [hst.opens, h.counted, List.count_cons]
    by_cases hk : k = ino
    · simp [hk]
    · simp [hk, Ne.symm hk]
  · rw [hrest]
    exact ⟨h.numbers.nodup, h.numbers.free, h.numbers.next⟩
  · rw [hrest]
    rcases List.mem_cons.mp hk with rfl | hk
    · exact hino
    · exact h.alive k hk
  · rw [hrest] at hk
    exact List.mem_cons_of_mem _ (h.orphan k hk)
  · rw [hrest] at hk ⊢
    exact h.links k hk

theorem Tracked.closed (h : s.Tracked handles) {ino : ℕ} (hino : ino ∈ handles) (hst : Closed ino s t) :
    t.Tracked (handles.erase ino) := by
  have hcount : ∀ k, (handles.erase ino).count k = handles.count k - if k = ino then 1 else 0 := by
    intro k
    rw [List.count_erase]
    by_cases hk : k = ino
    · simp [hk]
    · simp [hk, Ne.symm hk]
  have hmem : ∀ k, k ∈ handles.erase ino ↔ k ∈ handles ∧ ¬(k = ino ∧ s.opens ino = 1) := by
    intro k
    rw [← List.count_pos_iff, ← List.count_pos_iff, hcount, h.counted]
    by_cases hk : k = ino
    · subst hk
      simp only [if_true, true_and]
      omega
    · simp [hk]
  refine ⟨fun k ↦ ?_, ?_, fun k hk ↦ ?_, fun k hk ↦ ?_, fun k hk ↦ ?_⟩
  · rw [hst.opens, h.counted, hcount]
  · rcases hst.free with hfree | ⟨-, -, hfree⟩
    · refine ⟨by rw [hfree]; exact h.numbers.nodup, fun k hk ↦ ?_, by rw [hst.nextInode]; exact h.numbers.next⟩
      rw [hfree] at hk
      rw [hst.nextInode]
      exact h.numbers.free k hk
    · exact h.numbers.give_back (h.alive ino hino) hfree hst.nextInode
  · have hk' := (hmem k).mp hk
    have halive := h.alive k hk'.1
    rcases hst.free with hfree | ⟨hlast, -, hfree⟩
    · unfold InUse
      rw [hfree, hst.nextInode]
      exact halive
    · exact inUse_of_freed hfree hst.nextInode (fun heq ↦ hk'.2 ⟨heq, hlast⟩) halive
  · have hk' := (hst.orphans k).mp hk
    exact (hmem k).mpr ⟨h.orphan k hk'.1, hk'.2⟩
  · have hk' := (hst.orphans k).mp hk
    obtain ⟨i, hi, hlinks⟩ := h.links k hk'.1
    by_cases hself : k = ino
    · refine ⟨i, ?_, hlinks⟩
      rw [hst.self fun hlast ↦ hk'.2 ⟨hself, hlast⟩]
      exact hi
    · obtain ⟨j, hj, hij⟩ := hst.inodes k i hself hi
      refine ⟨j, hj, fun hdir ↦ ?_⟩
      rw [isDir_of_mode hij.mode] at hdir
      rw [hij.nlink]
      exact hlinks hdir

/-! ## Names -/

/-- The directory that loses a name. -/
theorem unlinkFind_dir (parent : ℕ) (name : Bytes) (rmdir : Bool) (creds : Creds) (s : Inner) :
    (unlinkFind parent name rmdir creds).Holds s
      (fun _ t ↦ ∃ i, t.inodes.find? parent = some i ∧ i.isDir = true) (fun _ _ ↦ True) := by
  unfold unlinkFind
  refine Exec.holds_bind_of_forall _ fun _ t₁ ↦ ?_
  refine Exec.holds_bind_of_forall _ fun _ t₂ ↦ ?_
  refine Exec.holds_bind_of_forall _ fun dir t₃ ↦ ?_
  refine Exec.holds_bind_of_forall _ fun _ t₄ ↦ ?_
  refine Exec.holds_bind_of_forall _ fun _ t₅ ↦ ?_
  unfold dirLookup
  rw [bind_assoc]
  refine (parseDir_dir parent t₅).bind ?_ (fun _ _ _ ↦ trivial)
  rintro entries t₆ ⟨i, hi, hdir⟩
  have hrest : (do
      let found ← pure ((entries.find? (fun e ↦ e.name == name)).map (fun e ↦ (e.ino, e.fileType)))
      let entry ← Exec.ofOption (Error.enoent "no such file or directory") found
      checkRemovable rmdir entry.1 entry.2
      pure entry : Fs (ℕ × FileType)).Respects Calm :=
    .bind (.pure _) fun _ ↦ .bind (.ofOption _ _) fun _ ↦ .bind (checkRemovable_calm _ _ _) fun _ ↦ .pure _
  refine (hrest t₆).mono (fun _ t h ↦ ?_) (fun _ _ _ ↦ trivial)
  obtain ⟨j, hj, hij⟩ := h.inodes parent i hi
  exact ⟨j, hj, by rw [isDir_of_mode hij.mode]; exact hdir⟩

/-- Removing a name keeps track: an inode is dropped only if no file is open on it. -/
theorem Tracked.unlinkName (h : s.Tracked handles) (parent : ℕ) (name : Bytes) (rmdir : Bool)
    (creds : Creds)
    (hnamed : ∀ entry t, unlinkFind parent name rmdir creds s = .ok entry t → s.InUse entry.1) :
    (unlinkName parent name rmdir creds).Holds s (fun _ t ↦ t.Tracked handles)
      (fun _ t ↦ t.Tracked handles) := by
  rw [unlinkName_eq, Exec.holds_bind]
  refine Exec.holds_of_forall (fun entry u hfind ↦ ?_)
    (fun _ u hfind ↦ h.of_calm ((unlinkFind_calm parent name rmdir creds).of_err hfind))
  have hcalm := (unlinkFind_calm parent name rmdir creds).of_ok hfind
  obtain ⟨dir, hdir, hisDir⟩ := (unlinkFind_dir parent name rmdir creds s).of_ok hfind
  have hu := h.of_calm hcalm
  have hino : u.InUse entry.1 := (hcalm.lull (P := nothing) (G := nothing)).inUse.mpr (hnamed entry u hfind)
  -- a directory is not what the links of an orphan are tracked for
  have hparent : ∀ i, u.inodes.find? parent = some i → i.isDir = false → False := by
    intro i hi hnot
    rw [hdir] at hi
    cases hi
    rw [hisDir] at hnot
    cases hnot
  refine (unlinkEntry_spec parent name entry u).mono ?_ ?_
  · rintro _ t ⟨i, v, hdelinked, hi, hreleased⟩
    have hv : v.Tracked handles := by
      refine hu.of_lull hdelinked.lull (fun _ _ hk ↦ hk) ?_
      rintro k i' (rfl | rfl) - hi' hnot hzero j hj
      · exact (hparent i' hi' hnot).elim
      · by_cases hself : parent = entry.1
        · rw [← hself] at hi'
          exact (hparent i' hi' hnot).elim
        · obtain ⟨l, hl, hnlink, -⟩ := hdelinked.links i' hself hi'
          rw [hj] at hl
          cases hl
          rw [hnlink, hzero]
    have hino' : v.InUse entry.1 := hdelinked.lull.inUse.mpr hino
    cases hreleased with
    | named hlinks heq =>
      rw [heq]
      exact hv
    | orphaned hlinks hopen heq =>
      rw [heq]
      refine ⟨hv.counted, ⟨hv.numbers.nodup, hv.numbers.free, hv.numbers.next⟩, hv.alive, ?_, ?_⟩
      · intro k hk
        by_cases hself : k = entry.1
        · rw [hself]
          exact hv.mem_iff.mpr hopen
        · refine hv.orphan k ?_
          unfold KeyMap.contains at hk ⊢
          rwa [KeyMap.find?_insert_of_ne hself] at hk
      · intro k hk
        by_cases hself : k = entry.1
        · rw [hself]
          exact ⟨i, hi, fun _ ↦ hlinks⟩
        · refine hv.links k ?_
          unfold KeyMap.contains at hk ⊢
          rwa [KeyMap.find?_insert_of_ne hself] at hk
    | dropped hlinks hclosed hretired =>
      have hout : entry.1 ∉ handles := by
        rw [hv.mem_iff]
        omega
      refine ⟨fun k ↦ ?_, hv.numbers.give_back hino' hretired.freeInodes hretired.nextInode,
        fun k hk ↦ ?_, fun k hk ↦ ?_, fun k hk ↦ ?_⟩
      · rw [← hv.counted]
        unfold Inner.opens
        rw [hretired.openCount]
      · exact inUse_of_freed hretired.freeInodes hretired.nextInode (fun heq ↦ hout (heq ▸ hk)) (hv.alive k hk)
      · rw [hretired.orphans] at hk
        exact hv.orphan k hk
      · rw [hretired.orphans] at hk
        obtain ⟨j, hj, hjl⟩ := hv.links k hk
        obtain ⟨l, hl, hsame⟩ := hretired.inodes k j (fun heq ↦ hout (heq ▸ hv.orphan k hk)) hj
        refine ⟨l, hl, fun hnot ↦ ?_⟩
        rw [isDir_of_mode hsame.mode] at hnot
        rw [hsame.nlink]
        exact hjl hnot
  · intro _ t ht
    refine hu.of_lull ht.lull ?_ ?_
    · rintro k hk ⟨rfl, hclosed⟩
      have hpos := hu.mem_iff.mp hk
      omega
    · rintro k i' (rfl | rfl) hk hi' hnot hzero j hj
      · exact (hparent i' hi' hnot).elim
      · by_cases hself : parent = entry.1
        · rw [← hself] at hi'
          exact (hparent i' hi' hnot).elim
        · have hle := ht.links i' j hself (hu.mem_iff.mp hk) hi' hj
          omega

theorem Tracked.handed (h : s.Tracked handles) {parent ino : ℕ} {dir : Inode}
    (hdir : s.inodes.find? parent = some dir) (hisDir : dir.isDir = true)
    (hst : Handed (· = parent) ino s t) : t.Tracked handles where
  counted k := by
    rw [← h.counted]
    unfold Inner.opens
    rw [hst.openCount]
  numbers := (hst.numbers h.numbers).1
  alive k hk := hst.kept k (h.alive k hk)
  orphan k hk := by
    rw [hst.orphans] at hk
    exact h.orphan k hk
  links k hk := by
    rw [hst.orphans] at hk
    obtain ⟨i, hi, hlinks⟩ := h.links k hk
    have hne : k ≠ ino := by
      intro heq
      rw [heq] at hk
      exact hst.fresh (h.alive ino (h.orphan ino hk))
    obtain ⟨j, hj, hmode, hsame⟩ := hst.inodes k i hne hi
    refine ⟨j, hj, fun hnot ↦ ?_⟩
    rw [isDir_of_mode hmode] at hnot
    have hother : k ≠ parent := by
      intro heq
      rw [heq, hdir] at hi
      cases hi
      rw [hisDir] at hnot
      cases hnot
    rw [(hsame hother).nlink]
    exact hlinks hnot

/-- A new name gets a number that no file is open on. -/
theorem Tracked.createChild (h : s.Tracked handles) (parent : ℕ) (name : Bytes) (mode : UInt16)
    (uid gid : UInt32) (rdev : UInt64) (creds : Creds) :
    (createChild parent name mode uid gid rdev creds).Holds s
      (fun ino t ↦ t.Tracked handles ∧ t.InUse ino ∧ ino ∉ handles) (fun _ t ↦ t.Tracked handles) := by
  rw [createChild_eq, Exec.holds_bind]
  refine Exec.holds_of_forall (fun _ u hfind ↦ ?_)
    (fun _ u hfind ↦ h.of_calm ((createFind_calm parent name creds).of_err hfind))
  have hcalm := (createFind_calm parent name creds).of_ok hfind
  obtain ⟨dir, hdir, hisDir⟩ := (createFind_dir parent name creds s).of_ok hfind
  have hu := h.of_calm hcalm
  refine (createEntry_hands parent name mode uid gid rdev u).mono (fun ino t ht ↦ ?_) (fun _ t ht ↦ ?_)
  · refine ⟨hu.handed hdir hisDir ht, (ht.numbers hu.numbers).2, fun hmem ↦ ?_⟩
    exact ht.fresh (hu.alive ino hmem)
  · rcases ht with ht | ⟨ino, ht⟩
    · refine hu.of_lull ht (fun _ _ hk ↦ hk) ?_
      rintro k i rfl - hi hnot
      rw [hdir] at hi
      cases hi
      rw [hisDir] at hnot
      cases hnot
    · exact hu.handed hdir hisDir ht

/-! ## Counting alone -/

theorem unlinkName_openCount (parent : ℕ) (name : Bytes) (rmdir : Bool) (creds : Creds) (s : Inner) :
    (unlinkName parent name rmdir creds).Holds s (fun _ t ↦ t.openCount = s.openCount)
      (fun _ t ↦ t.openCount = s.openCount) := by
  rw [unlinkName_eq]
  refine (unlinkFind_calm parent name rmdir creds s).bind ?_ (fun _ _ h ↦ h.openCount)
  intro entry u hu
  refine (unlinkEntry_spec parent name entry u).mono ?_ (fun _ t h ↦ h.lull.openCount.trans hu.openCount)
  rintro _ t ⟨i, v, hdelinked, -, hreleased⟩
  have hv : v.openCount = s.openCount := hdelinked.lull.openCount.trans hu.openCount
  cases hreleased with
  | named _ heq => rw [heq, hv]
  | orphaned _ _ heq => rw [heq, ← hv]
  | dropped _ _ hretired => rw [hretired.openCount, hv]

theorem createChild_openCount (parent : ℕ) (name : Bytes) (mode : UInt16) (uid gid : UInt32)
    (rdev : UInt64) (creds : Creds) (s : Inner) :
    (createChild parent name mode uid gid rdev creds).Holds s (fun _ t ↦ t.openCount = s.openCount)
      (fun _ t ↦ t.openCount = s.openCount) := by
  rw [createChild_eq]
  refine (createFind_calm parent name creds s).bind ?_ (fun _ _ h ↦ h.openCount)
  intro _ u hu
  refine (createEntry_hands parent name mode uid gid rdev u).mono ?_ ?_
  · intro _ t ht
    exact ht.openCount.trans hu.openCount
  · intro _ t ht
    rcases ht with ht | ⟨_, ht⟩
    · exact ht.openCount.trans hu.openCount
    · exact ht.openCount.trans hu.openCount

/-- The table counts the open inodes, and in a run that meets only names of inodes in use (`sound`) the
other tables agree with them too. -/
structure Kept (sound : Prop) (s : Inner) (handles : List ℕ) : Prop where
  counted : ∀ ino, s.opens ino = handles.count ino
  tracked : sound → s.Tracked handles

variable {sound : Prop}

theorem Kept.perm (h : s.Kept sound handles) (hperm : handles.Perm other) : s.Kept sound other where
  counted ino := by rw [h.counted, hperm.count_eq]
  tracked hs := (h.tracked hs).perm hperm

theorem Kept.of_openCount (h : s.Kept sound handles) (hopen : t.openCount = s.openCount)
    (htracked : sound → t.Tracked handles) : t.Kept sound handles where
  counted ino := by
    rw [← h.counted]
    unfold Inner.opens
    rw [hopen]
  tracked := htracked

theorem Kept.of_calm (h : s.Kept sound handles) (hst : Calm s t) : t.Kept sound handles :=
  h.of_openCount hst.openCount fun hs ↦ (h.tracked hs).of_calm hst

theorem Kept.unlinkName (h : s.Kept sound handles) (parent : ℕ) (name : Bytes) (rmdir : Bool)
    (creds : Creds) (hnamed : sound → ∀ entry t,
      unlinkFind parent name rmdir creds s = .ok entry t → s.InUse entry.1) :
    (unlinkName parent name rmdir creds).Holds s (fun _ t ↦ t.Kept sound handles)
      (fun _ t ↦ t.Kept sound handles) := by
  have hopen := unlinkName_openCount parent name rmdir creds s
  have htracked := fun hs ↦ (h.tracked hs).unlinkName parent name rmdir creds (hnamed hs)
  exact Exec.holds_of_forall
    (fun _ t hx ↦ h.of_openCount (hopen.of_ok hx) fun hs ↦ (htracked hs).of_ok hx)
    (fun _ t hx ↦ h.of_openCount (hopen.of_err hx) fun hs ↦ (htracked hs).of_err hx)

theorem Kept.createChild (h : s.Kept sound handles) (parent : ℕ) (name : Bytes) (mode : UInt16)
    (uid gid : UInt32) (rdev : UInt64) (creds : Creds) :
    (createChild parent name mode uid gid rdev creds).Holds s
      (fun ino t ↦ t.Kept sound handles ∧ (sound → t.InUse ino)) (fun _ t ↦ t.Kept sound handles) := by
  have hopen := createChild_openCount parent name mode uid gid rdev creds s
  have htracked := fun hs ↦ (h.tracked hs).createChild parent name mode uid gid rdev creds
  refine Exec.holds_of_forall (fun ino t hx ↦ ⟨?_, fun hs ↦ ?_⟩) (fun _ t hx ↦ ?_)
  · exact h.of_openCount (hopen.of_ok hx) fun hs ↦ ((htracked hs).of_ok hx).1
  · exact ((htracked hs).of_ok hx).2.1
  · exact h.of_openCount (hopen.of_err hx) fun hs ↦ (htracked hs).of_err hx

theorem Kept.incOpen (h : s.Kept sound handles) {ino : ℕ} (hino : sound → s.InUse ino) :
    (incOpen ino).Holds s (fun _ t ↦ t.Kept sound (ino :: handles)) (fun _ _ ↦ False) := by
  refine (incOpen_opened ino s).mono (fun _ t ht ↦ ⟨fun k ↦ ?_, fun hs ↦ ?_⟩) (fun _ _ hf ↦ hf)
  · rw [ht.opens, h.counted, List.count_cons]
    by_cases hk : k = ino
    · simp [hk]
    · simp [hk, Ne.symm hk]
  · exact (h.tracked hs).opened (hino hs) ht

theorem Kept.decOpen {ino : ℕ} (h : s.Kept sound (ino :: handles)) :
    (decOpen ino).Holds s (fun _ t ↦ t.Kept sound handles) (fun _ t ↦ t.Kept sound handles) := by
  have hopen : 0 < s.opens ino := by
    rw [h.counted, List.count_cons_self]
    exact Nat.succ_pos _
  have hclosed : ∀ t, Closed ino s t → t.Kept sound handles := by
    intro t ht
    refine ⟨fun k ↦ ?_, fun hs ↦ ?_⟩
    · rw [ht.opens, h.counted, List.count_cons]
      by_cases hk : k = ino
      · simp [hk]
      · simp [hk, Ne.symm hk]
    · have htracked := (h.tracked hs).closed (List.mem_cons_self) ht
      rwa [List.erase_cons_head] at htracked
  exact (decOpen_closed hopen).mono (fun _ t ht ↦ hclosed t ht) (fun _ t ht ↦ hclosed t ht)

/-- An inode that exists is opened by reading it, and truncating it if that is asked for. -/
theorem Kept.existing (h : s.Kept sound handles) {ino : ℕ} (hino : sound → s.InUse ino) {x : Fs Unit}
    (hx : x.Respects Calm) :
    (do
      x
      pure ino : Fs ℕ).Holds s (fun k t ↦ t.Kept sound handles ∧ (sound → t.InUse k))
      (fun _ t ↦ t.Kept sound handles) := by
  refine (hx s).bind (fun _ t ht ↦ ?_) (fun _ t ht ↦ h.of_calm ht)
  exact ⟨h.of_calm ht, fun hs ↦ (ht.lull (P := nothing) (G := nothing)).inUse.mpr (hino hs)⟩

/-! ## Opening by path -/

end Inner

namespace Facade

open LinuxFile.Inner

theorem openExisting_calm (opts : OpenOptions) (ino : ℕ) : (openExisting opts ino).Respects Calm := by
  unfold openExisting
  refine .ite (.throw _) (.bind (getInode_calm ino) fun inode ↦ .ite (.throw _) (.ite (.throw _) ?_))
  exact .ite (.ite (.throw _) (truncateData_calm ino 0)) (.pure _)

/-- The name `open_opts` finds belongs to an inode in use. -/
def Named (depth : ℕ) (path : UnixPath) (opts : OpenOptions) (s : Inner) : Prop :=
  ∀ r t ino, openWalk depth path opts s = .ok r t → r.ino = some ino → s.InUse ino

theorem openOpts_kept {sound : Prop} {s : Inner} {handles : List ℕ} (h : s.Kept sound handles)
    (depth : ℕ) (path : UnixPath) (opts : OpenOptions) (hnamed : sound → Named depth path opts s) :
    (openOpts depth path opts).Holds s (fun f t ↦ t.Kept sound (f.ino :: handles))
      (fun _ t ↦ t.Kept sound handles) := by
  have hwalk : (openWalk depth path opts).Respects Calm := walk_calm _ _ _ _
  unfold openOpts
  rw [Exec.holds_bind]
  refine Exec.holds_of_forall (fun r u hr ↦ ?_) (fun _ u hr ↦ h.of_calm (hwalk.of_err hr))
  have hcalm := hwalk.of_ok hr
  have hu := h.of_calm hcalm
  have htarget : (openTarget opts r).Holds u (fun ino t ↦ t.Kept sound handles ∧ (sound → t.InUse ino))
      (fun _ t ↦ t.Kept sound handles) := by
    unfold openTarget
    cases hino : r.ino with
    | some ino =>
      refine hu.existing (fun hs ↦ ?_) (openExisting_calm opts ino)
      exact (hcalm.lull (P := nothing) (G := nothing)).inUse.mpr (hnamed hs r u ino hr hino)
    | none =>
      dsimp only
      split_ifs
      · exact hu
      · exact hu.createChild _ _ _ _ _ _ _
  refine htarget.bind ?_ (fun _ _ ht ↦ ht)
  intro ino t ht
  exact (ht.1.incOpen ht.2).bind (fun _ _ hv ↦ hv) (fun _ _ hf ↦ hf.elim)

end Facade

namespace Context

open LinuxFile.Inner

/-- The inodes that are open in a context. -/
def inos (c : Context) : List ℕ := c.fds.map fun e ↦ e.2.file.ino

/-- The files open in the context and those open elsewhere are kept track of, and no descriptor is given
out twice. -/
structure Kept (sound : Prop) (elsewhere : List ℕ) (c : Context) : Prop where
  kept : c.fs.Kept sound (c.inos ++ elsewhere)
  keys : (c.fds.map Prod.fst).Nodup

variable {sound : Prop} {elsewhere : List ℕ} {c : Context}

theorem perm_of_find? {fd : ℤ} {e : ℤ × Fd} : ∀ {fds : List (ℤ × Fd)}, (fds.map Prod.fst).Nodup →
    fds.find? (fun e ↦ e.1 == fd) = some e → fds.Perm (e :: fds.filter fun e ↦ e.1 != fd)
  | [], _, hfind => by cases hfind
  | a :: rest, hnodup, hfind => by
    rw [List.map_cons, List.nodup_cons] at hnodup
    by_cases ha : a.1 = fd
    · rw [List.find?_cons_of_pos (by simpa using ha)] at hfind
      cases hfind
      have hrest : rest.filter (fun e ↦ e.1 != fd) = rest := by
        rw [List.filter_eq_self]
        intro e he
        have hne : e.1 ≠ fd := by
          intro heq
          exact hnodup.1 (by rw [ha, ← heq]; exact List.mem_map_of_mem he)
        simpa using hne
      rw [List.filter_cons_of_neg (by simpa using ha), hrest]
    · rw [List.find?_cons_of_neg (by simpa using ha)] at hfind
      rw [List.filter_cons_of_pos (by simpa using ha)]
      exact ((perm_of_find? hnodup.2 hfind).cons a).trans (List.Perm.swap e a _)

theorem lookupFd_eq_some {fd : ℤ} {entry : Fd} (h : c.lookupFd fd = some entry) :
    ∃ e, c.fds.find? (fun e ↦ e.1 == fd) = some e ∧ e.2 = entry := by
  unfold lookupFd at h
  exact Option.map_eq_some_iff.mp h

theorem lookupFd_eq_none_iff {fd : ℤ} : c.lookupFd fd = none ↔ fd ∉ c.fds.map Prod.fst := by
  unfold lookupFd
  rw [Option.map_eq_none_iff, List.find?_eq_none]
  constructor
  · intro h hmem
    obtain ⟨e, he, rfl⟩ := List.mem_map.mp hmem
    exact h e he (by simp)
  · intro h e he heq
    exact h (List.mem_map.mpr ⟨e, he, by simpa using heq⟩)

/-- The open inodes without those of one descriptor. -/
theorem inos_perm (h : (c.fds.map Prod.fst).Nodup) {fd : ℤ} {entry : Fd}
    (hfd : c.lookupFd fd = some entry) :
    c.inos.Perm (entry.file.ino :: (c.fds.filter fun e ↦ e.1 != fd).map fun e ↦ e.2.file.ino) := by
  obtain ⟨e, hfind, rfl⟩ := lookupFd_eq_some hfd
  exact (perm_of_find? h hfind).map fun e ↦ e.2.file.ino

/-- Either a free number is found or all that were tried are taken. -/
theorem freeFd_free (c : Context) : ∀ (fuel : ℕ) (n : ℤ), c.lookupFd (c.freeFd fuel n) = none ∨
    ∀ i < fuel, n + i ∈ c.fds.map Prod.fst
  | 0, _ => Or.inr fun _ h ↦ absurd h (Nat.not_lt_zero _)
  | fuel + 1, n => by
    unfold freeFd
    by_cases hn : (c.lookupFd n).isSome = true
    · rw [if_pos hn]
      have hmem : n ∈ c.fds.map Prod.fst := by
        by_contra hnot
        rw [lookupFd_eq_none_iff.mpr hnot] at hn
        cases hn
      refine (freeFd_free c fuel (n + 1)).imp_right fun htaken i hi ↦ ?_
      rcases Nat.eq_zero_or_pos i with rfl | hpos
      · simpa using hmem
      · have hprev := htaken (i - 1) (by omega)
        have hcast : n + 1 + ((i - 1 : ℕ) : ℤ) = n + i := by omega
        rwa [hcast] at hprev
    · rw [if_neg hn]
      exact Or.inl (by simpa using hn)

/-- There are more numbers to try than descriptors. -/
theorem lookupFd_freeFd (c : Context) (n : ℤ) : c.lookupFd (c.freeFd (c.fds.length + 1) n) = none := by
  refine (freeFd_free c (c.fds.length + 1) n).resolve_right fun htaken ↦ ?_
  have hinj : Function.Injective fun i : ℕ ↦ n + (i : ℤ) := by
    intro i j hij
    have hij' : n + (i : ℤ) = n + j := hij
    omega
  have hsub : (List.range (c.fds.length + 1)).map (fun i : ℕ ↦ n + (i : ℤ)) ⊆ c.fds.map Prod.fst := by
    intro k hk
    obtain ⟨i, hi, rfl⟩ := List.mem_map.mp hk
    exact htaken i (List.mem_range.mp hi)
  have hle := (List.subperm_of_subset (List.nodup_range.map hinj) hsub).length_le
  simp only [List.length_map, List.length_range] at hle
  omega

/-- A descriptor that was free. -/
theorem Kept.setFd (entry : Fd) (h : c.Kept sound (entry.file.ino :: elsewhere)) {fd : ℤ}
    (hfree : fd ∉ c.fds.map Prod.fst) (n : ℤ) :
    ({ c.setFd fd entry with nextFd := n } : Context).Kept sound elsewhere := by
  have hfilter : c.fds.filter (fun e ↦ e.1 != fd) = c.fds := by
    rw [List.filter_eq_self]
    intro e he
    have hne : e.1 ≠ fd := by
      intro heq
      exact hfree (by rw [← heq]; exact List.mem_map_of_mem he)
    simpa using hne
  refine ⟨?_, ?_⟩
  · refine h.kept.perm ?_
    unfold inos Context.setFd
    rw [hfilter]
    exact List.perm_middle
  · unfold Context.setFd
    rw [hfilter]
    exact List.nodup_cons.mpr ⟨hfree, h.keys⟩

theorem Kept.allocFd (entry : Fd) (h : c.Kept sound (entry.file.ino :: elsewhere)) :
    (allocFd entry).Holds c (fun _ t ↦ t.Kept sound elsewhere) (fun _ _ ↦ False) := by
  unfold Context.allocFd
  rw [Exec.holds_bind, Exec.holds_get]
  dsimp only
  split_ifs
  · trivial
  · rw [Exec.holds_bind, Exec.holds_modify, Exec.holds_pure]
    exact h.setFd entry (lookupFd_eq_none_iff.mp (lookupFd_freeFd c c.nextFd)) _

/-- A call on the filesystem that keeps track of the files. -/
theorem Kept.onFs {α : Type} (h : c.Kept sound elsewhere) {other other' : List ℕ} {x : Fs α}
    {Q : α → Inner → Prop}
    (hx : x.Holds c.fs (fun a t ↦ t.Kept sound (c.inos ++ other) ∧ Q a t)
      (fun _ t ↦ t.Kept sound (c.inos ++ other'))) :
    (onFs x).Holds c (fun a t ↦ t.Kept sound other ∧ Q a t.fs ∧ t.fds = c.fds)
      (fun _ t ↦ t.Kept sound other' ∧ t.fds = c.fds) := by
  unfold Context.onFs
  rw [Exec.holds_zoom]
  exact hx.mono (fun a t ht ↦ ⟨⟨ht.1, h.keys⟩, ht.2, rfl⟩) (fun _ t ht ↦ ⟨⟨ht, h.keys⟩, rfl⟩)

theorem Kept.getFd (h : c.Kept sound elsewhere) (fd : ℤ) :
    (getFd fd).Holds c
      (fun entry t ↦ t = c ∧ c.lookupFd fd = some entry ∧ (sound → c.fs.InUse entry.file.ino))
      (fun _ t ↦ t = c ∧ c.lookupFd fd = none) := by
  unfold Context.getFd
  rw [Exec.holds_bind, Exec.holds_get, Exec.holds_ofOption]
  refine ⟨fun entry hentry ↦ ⟨rfl, hentry, fun hs ↦ ?_⟩, fun hnone ↦ ⟨rfl, hnone⟩⟩
  refine (h.kept.tracked hs).alive _ (List.mem_append_left _ ?_)
  exact (inos_perm h.keys hentry).mem_iff.mpr List.mem_cons_self

theorem Kept.close (h : c.Kept sound elsewhere) (fd : ℤ) :
    (close fd).Holds c
      (fun _ t ↦ t.Kept sound elsewhere ∧ t.fds = c.fds.filter fun e ↦ e.1 != fd)
      (fun _ t ↦ t = c ∧ c.lookupFd fd = none) := by
  unfold Context.close
  refine (h.getFd fd).bind ?_ (fun _ t ht ↦ ht)
  rintro entry t ⟨ht, hentry, -⟩
  rw [ht, Exec.holds_bind, Exec.holds_modify, Exec.holds_bind, Exec.holds_attempt, Context.onFs,
    Exec.holds_zoom]
  have hkeys : ((c.fds.filter fun e ↦ e.1 != fd).map Prod.fst).Nodup :=
    (List.filter_sublist.map Prod.fst).nodup h.keys
  have hfs := h.kept.perm ((inos_perm h.keys hentry).append_right elsewhere)
  exact (hfs.decOpen).mono (fun _ t ht ↦ ⟨⟨ht, hkeys⟩, rfl⟩) (fun _ t ht ↦ ⟨⟨ht, hkeys⟩, rfl⟩)

/-- One more file on an inode that is open already. -/
theorem Kept.incOpen (h : c.Kept sound elsewhere) {ino : ℕ} (hino : sound → c.fs.InUse ino) :
    (Context.onFs (Inner.incOpen ino)).Holds c
      (fun _ t ↦ t.Kept sound (ino :: elsewhere) ∧ t.fds = c.fds) (fun _ _ ↦ False) := by
  unfold Context.onFs
  rw [Exec.holds_zoom]
  refine (h.kept.incOpen hino).mono (fun _ t ht ↦ ⟨⟨?_, h.keys⟩, rfl⟩) (fun _ _ hf ↦ hf)
  exact ht.perm List.perm_middle.symm

theorem Kept.dup (h : c.Kept sound elsewhere) (fd : ℤ) :
    (dup fd).Holds c (fun _ t ↦ t.Kept sound elsewhere) (fun _ t ↦ t.Kept sound elsewhere) := by
  unfold Context.dup
  refine (h.getFd fd).bind ?_ (fun _ t ht ↦ ht.1 ▸ h)
  rintro src t ⟨ht, hsrc, hino⟩
  rw [ht]
  refine (h.incOpen hino).bind ?_ (fun _ _ hf ↦ hf.elim)
  intro _ u hu
  exact (Kept.allocFd { src with file := { src.file with pos := 0 } } hu.1).mono
    (fun _ _ hv ↦ hv) (fun _ _ hf ↦ hf.elim)

theorem Kept.dup2 (h : c.Kept sound elsewhere) (old new : ℤ) :
    (dup2 old new).Holds c (fun _ t ↦ t.Kept sound elsewhere) (fun _ t ↦ t.Kept sound elsewhere) := by
  unfold Context.dup2
  rw [Exec.holds_bind, Exec.holds_get]
  by_cases hsame : old = new
  · rw [if_pos hsame]
    split_ifs
    · exact h
    · exact h
  rw [if_neg hsame]
  refine (h.getFd old).bind ?_ (fun _ t ht ↦ ht.1 ▸ h)
  rintro src t ⟨ht, hsrc, hino⟩
  rw [ht]
  refine (h.incOpen hino).bind ?_ (fun _ _ hf ↦ hf.elim)
  rintro _ u ⟨hu, hfds⟩
  have hlookup : u.lookupFd new = c.lookupFd new := by
    unfold lookupFd
    rw [hfds]
  -- the descriptor is free once the file that had it is closed
  have hfreed : (Exec.when ((c.lookupFd new).isSome = true) (Context.close new)).Holds u
      (fun _ v ↦ v.Kept sound (src.file.ino :: elsewhere) ∧ new ∉ v.fds.map Prod.fst)
      (fun _ _ ↦ False) := by
    rw [Exec.holds_when]
    constructor
    · intro hsome
      refine (hu.close new).mono ?_ ?_
      · rintro _ v ⟨hv, hvfds⟩
        refine ⟨hv, fun hmem ↦ ?_⟩
        rw [hvfds] at hmem
        obtain ⟨e, he, heq⟩ := List.mem_map.mp hmem
        have hne := (List.mem_filter.mp he).2
        rw [heq] at hne
        simp at hne
      · rintro _ v ⟨-, hnone⟩
        rw [← hlookup, hnone] at hsome
        cases hsome
    · intro hnone
      refine ⟨hu, ?_⟩
      rw [← lookupFd_eq_none_iff, hlookup]
      simpa using hnone
  refine hfreed.bind ?_ (fun _ _ hf ↦ hf.elim)
  rintro _ v ⟨hv, hfree⟩
  rw [Exec.holds_bind, Exec.holds_modify, Exec.holds_pure]
  exact Kept.setFd { src with file := { src.file with pos := 0 } } hv hfree v.nextFd

theorem openExisting_calm (opts : OpenOptions) (flags : UInt32) (ino : ℕ) :
    (openExisting opts flags ino).Respects Calm := by
  unfold openExisting
  refine .ite (.throw _) (.bind (getInode_calm ino) fun inode ↦ ?_)
  cases refusal opts flags inode with
  | some e => exact .throw e
  | none => exact .when fun _ ↦ truncateData_calm ino 0

theorem openWalk_calm (c : Context) (depth : ℕ) (dirfd : ℤ) (path : UnixPath) (opts : OpenOptions) :
    (openWalk c depth dirfd path opts).Respects Calm :=
  .bind (.ofOption _ _) fun _ ↦ walk_calm _ _ _ _

/-- The name `openat` finds belongs to an inode in use. -/
def Named (c : Context) (depth : ℕ) (dirfd : ℤ) (path : UnixPath) (opts : OpenOptions) : Prop :=
  ∀ r t ino, openWalk c depth dirfd path opts c.fs = .ok r t → r.ino = some ino → c.fs.InUse ino

theorem Kept.openat (h : c.Kept sound elsewhere) (depth : ℕ) (dirfd : ℤ) (path : UnixPath)
    (flags : UInt32) (mode : UInt16)
    (hnamed : sound → c.Named depth dirfd path (OpenOptions.fromLinuxFlags flags mode)) :
    (openat depth dirfd path flags mode).Holds c (fun _ t ↦ t.Kept sound elsewhere)
      (fun _ t ↦ t.Kept sound elsewhere) := by
  unfold Context.openat
  rw [Exec.holds_bind, Exec.holds_get]
  dsimp only
  set opts := OpenOptions.fromLinuxFlags flags mode
  have hwalk := openWalk_calm c depth dirfd path opts
  rw [Exec.holds_bind, Context.onFs, Exec.holds_zoom]
  refine Exec.holds_of_forall (fun r u hr ↦ ?_) (fun _ u hr ↦ ⟨h.kept.of_calm (hwalk.of_err hr), h.keys⟩)
  have hcalm := hwalk.of_ok hr
  have hu := h.kept.of_calm hcalm
  have htarget : (openTarget c opts flags r).Holds u
      (fun ino t ↦ t.Kept sound (c.inos ++ elsewhere) ∧ (sound → t.InUse ino))
      (fun _ t ↦ t.Kept sound (c.inos ++ elsewhere)) := by
    unfold openTarget
    cases hino : r.ino with
    | some ino =>
      refine hu.existing (fun hs ↦ ?_) (openExisting_calm opts flags ino)
      exact (hcalm.lull (P := nothing) (G := nothing)).inUse.mpr (hnamed hs r u ino hr hino)
    | none =>
      dsimp only
      split_ifs
      · exact hu
      · exact hu.createChild _ _ _ _ _ _ _
  have hcu : ({ c with fs := u } : Context).Kept sound elsewhere := ⟨hu, h.keys⟩
  refine (hcu.onFs htarget).bind ?_ (fun _ _ ht ↦ ht.1)
  rintro ino v ⟨hv, hino, -⟩
  have hget : (getInode ino).Holds v.fs
      (fun _ t ↦ t.Kept sound (v.inos ++ elsewhere) ∧ (sound → t.InUse ino))
      (fun _ t ↦ t.Kept sound (v.inos ++ elsewhere)) := by
    refine (getInode_calm ino v.fs).mono (fun _ t ht ↦ ?_) (fun _ t ht ↦ hv.kept.of_calm ht)
    exact ⟨hv.kept.of_calm ht, fun hs ↦ (ht.lull (P := nothing) (G := nothing)).inUse.mpr (hino hs)⟩
  refine (hv.onFs hget).bind ?_ (fun _ _ ht ↦ ht.1)
  rintro inode w ⟨hw, hino', -⟩
  refine (hw.incOpen hino').bind ?_ (fun _ _ hf ↦ hf.elim)
  rintro _ x ⟨hx, -⟩
  exact (Kept.allocFd ⟨⟨ino, flags, 0⟩, flags, if inode.isDir then some ino else none⟩ hx).mono
    (fun _ _ hy ↦ hy) (fun _ _ hf ↦ hf.elim)

end Context

/-! ## Runs -/

namespace World

open LinuxFile.Inner

/-- The inodes of all live files. -/
def handles (w : World) : List ℕ := w.files.map File.ino ++ w.contexts.flatMap Context.inos

/-- The files of the program and of every context are kept track of. -/
structure Kept (sound : Prop) (w : World) : Prop where
  kept : w.fs.Kept sound w.handles
  keys : ∀ c ∈ w.contexts, (c.fds.map Prod.fst).Nodup

variable {sound : Prop} {w v : World}

theorem Kept.onFs (h : w.Kept sound) {x : Fs Unit}
    (hx : x.Holds w.fs (fun _ t ↦ t.Kept sound w.handles) (fun _ t ↦ t.Kept sound w.handles)) :
    (onFs x).Holds w (fun _ t ↦ t.Kept sound) (fun _ t ↦ t.Kept sound) := by
  unfold World.onFs
  rw [Exec.holds_zoom]
  exact hx.mono (fun _ t ht ↦ ⟨ht, h.keys⟩) (fun _ t ht ↦ ⟨ht, h.keys⟩)

/-- The files of one context apart from all the others. -/
theorem handles_perm {k : ℕ} {c : Context} (hc : w.contexts[k]? = some c) :
    w.handles.Perm (c.inos ++ (w.files.map File.ino ++ (w.contexts.eraseIdx k).flatMap Context.inos)) := by
  obtain ⟨hk, rfl⟩ := List.getElem?_eq_some_iff.mp hc
  have hperm := (List.getElem_cons_eraseIdx_perm hk).symm.flatMap_right Context.inos
  rw [List.flatMap_cons] at hperm
  unfold handles
  exact (hperm.append_left _).trans (List.perm_append_comm_assoc _ _ _)

theorem inContext_kept (h : w.Kept sound) (k : ℕ) {x : Ctx Unit}
    (hx : ∀ c elsewhere, w.contexts[k]? = some c → ({ c with fs := w.fs } : Context).Kept sound elsewhere →
      x.Holds { c with fs := w.fs } (fun _ t ↦ t.Kept sound elsewhere) (fun _ t ↦ t.Kept sound elsewhere)) :
    (inContext k x).Holds w (fun _ t ↦ t.Kept sound) (fun _ t ↦ t.Kept sound) := by
  unfold Exec.Holds inContext
  cases hc : w.contexts[k]? with
  | none => exact h
  | some c =>
    dsimp only
    change (Exec.zoom _ _ x).Holds w _ _
    rw [Exec.holds_zoom]
    obtain ⟨hk, hget⟩ := List.getElem?_eq_some_iff.mp hc
    have hmem : c ∈ w.contexts := by
      rw [← hget]
      exact List.getElem_mem hk
    have hkept : ∀ t : Context,
        t.Kept sound (w.files.map File.ino ++ (w.contexts.eraseIdx k).flatMap Context.inos) →
        ({ w with fs := t.fs, contexts := w.contexts.set k t } : World).Kept sound := by
      intro t ht
      constructor
      · refine ht.kept.perm ?_
        have hset : (w.contexts.set k t)[k]? = some t := List.getElem?_set_self hk
        have hperm := handles_perm (w := { w with fs := t.fs, contexts := w.contexts.set k t }) hset
        rw [List.eraseIdx_set_eq] at hperm
        exact hperm.symm
      · intro d hd
        rcases List.mem_or_eq_of_mem_set hd with hd | rfl
        · exact h.keys d hd
        · exact ht.keys
    refine (hx c _ hc ⟨?_, h.keys c hmem⟩).mono (fun _ t ht ↦ hkept t ht) (fun _ t ht ↦ hkept t ht)
    have hperm := handles_perm hc
    exact h.kept.perm hperm

theorem onFile_kept (h : w.Kept sound) (n : ℕ) {x : File → Exec Error World Unit}
    (hx : ∀ f, w.files[n]? = some f →
      (x f).Holds w (fun _ t ↦ t.Kept sound) (fun _ t ↦ t.Kept sound)) :
    (onFile n x).Holds w (fun _ t ↦ t.Kept sound) (fun _ t ↦ t.Kept sound) := by
  unfold onFile
  rw [Exec.holds_bind, Exec.holds_get]
  cases hf : w.files[n]? with
  | none => exact h
  | some f => exact hx f hf

/-- A file that has been opened is taken over by the program. -/
theorem keepFile_kept (h : w.Kept sound) {x : Fs File}
    (hx : x.Holds w.fs (fun f t ↦ t.Kept sound (f.ino :: w.handles)) (fun _ t ↦ t.Kept sound w.handles)) :
    (do
      let f ← World.onFs x
      keepFile f : Exec Error World Unit).Holds w (fun _ t ↦ t.Kept sound) (fun _ t ↦ t.Kept sound) := by
  rw [Exec.holds_bind, World.onFs, Exec.holds_zoom]
  refine hx.mono (fun f t ht ↦ ?_) (fun _ t ht ↦ ⟨ht, h.keys⟩)
  rw [keepFile, Exec.holds_modify]
  exact ⟨ht, h.keys⟩

end World

namespace Act

open LinuxFile.Inner

/-- The names a call resolves belong to inodes in use. -/
def Named (depth : ℕ) (w : World) : Act → Prop
  | openOpts path opts => Facade.Named depth path opts w.fs
  | openat k dirfd path flags mode => ∀ c, w.contexts[k]? = some c →
    ({ c with fs := w.fs } : Context).Named depth dirfd path (OpenOptions.fromLinuxFlags flags mode)
  | unlink parent name rmdir creds => ∀ entry t,
    unlinkFind parent name rmdir creds w.fs = .ok entry t → w.fs.InUse entry.1
  | _ => True

variable {sound : Prop} {depth : ℕ} {w v : World}

/-- Every call but the derived clone keeps track of the files. -/
theorem exec_kept (h : w.Kept sound) (a : Act) (hclone : ∀ n, a ≠ clone n)
    (hnamed : sound → a.Named depth w) :
    (a.exec depth).Holds w (fun _ t ↦ t.Kept sound) (fun _ t ↦ t.Kept sound) := by
  have forget : ∀ {α : Type} {x : Ctx α} {c : Context} {elsewhere : List ℕ},
      x.Holds c (fun _ t ↦ t.Kept sound elsewhere) (fun _ t ↦ t.Kept sound elsewhere) →
      (do
        let _ ← x
        pure () : Ctx Unit).Holds c (fun _ t ↦ t.Kept sound elsewhere)
        (fun _ t ↦ t.Kept sound elsewhere) := by
    intro α x c elsewhere hx
    exact hx.bind (fun _ _ ht ↦ ht) (fun _ _ ht ↦ ht)
  cases a with
  | openOpts path opts => exact World.keepFile_kept h (Facade.openOpts_kept h.kept depth path opts hnamed)
  | openat k dirfd path flags mode =>
    refine World.inContext_kept h k fun c elsewhere hc hkept ↦ forget ?_
    exact hkept.openat depth dirfd path flags mode fun hs ↦ hnamed hs c hc
  | clone n => exact absurd rfl (hclone n)
  | tryClone n =>
    refine World.onFile_kept h n fun f hf ↦ World.keepFile_kept h ?_
    have hino : sound → w.fs.InUse f.ino := by
      intro hs
      refine (h.kept.tracked hs).alive f.ino (List.mem_append_left _ ?_)
      exact List.mem_map_of_mem (List.mem_of_getElem? hf)
    exact (h.kept.incOpen hino).bind (fun _ _ ht ↦ ht) (fun _ _ hfalse ↦ hfalse.elim)
  | drop n =>
    refine World.onFile_kept h n fun f hf ↦ ?_
    obtain ⟨hn, rfl⟩ := List.getElem?_eq_some_iff.mp hf
    rw [Exec.holds_bind, Exec.holds_modify, Exec.holds_bind, Exec.holds_attempt, World.onFs, Exec.holds_zoom]
    have hperm : w.handles.Perm (w.files[n].ino ::
        ((w.files.eraseIdx n).map File.ino ++ w.contexts.flatMap Context.inos)) :=
      ((List.getElem_cons_eraseIdx_perm hn).symm.map File.ino).append_right _
    exact ((h.kept.perm hperm).decOpen).mono (fun _ t ht ↦ ⟨ht, h.keys⟩) (fun _ t ht ↦ ⟨ht, h.keys⟩)
  | dup k fd => exact World.inContext_kept h k fun c elsewhere _ hkept ↦ forget (hkept.dup fd)
  | dup2 k old new => exact World.inContext_kept h k fun c elsewhere _ hkept ↦ forget (hkept.dup2 old new)
  | close k fd =>
    refine World.inContext_kept h k fun c elsewhere _ hkept ↦ ?_
    exact (hkept.close fd).mono (fun _ _ ht ↦ ht.1) (fun _ _ ht ↦ ht.1 ▸ hkept)
  | unlink parent name rmdir creds =>
    exact h.onFs (h.kept.unlinkName parent name rmdir creds hnamed)
  | create parent name mode uid gid rdev creds =>
    refine h.onFs ((h.kept.createChild parent name mode uid gid rdev creds).bind ?_ (fun _ _ ht ↦ ht))
    exact fun _ _ ht ↦ ht.1

theorem Run.kept {calls : List (World × Act)} (hrun : Run depth w calls v) (h : w.Kept sound)
    (hclone : ∀ call ∈ calls, ∀ n, call.2 ≠ clone n)
    (hnamed : sound → ∀ call ∈ calls, call.2.Named depth call.1) : v.Kept sound := by
  have hmeets : ∀ call ∈ calls, (∀ n, call.2 ≠ clone n) ∧ (sound → call.2.Named depth call.1) :=
    fun call hcall ↦ ⟨hclone call hcall, fun hs ↦ hnamed hs call hcall⟩
  exact (Exec.Runs.invariant hrun h hmeets fun w a hw ha ↦ exec_kept hw a ha.1 ha.2).1

end Act

namespace World

open LinuxFile.Inner

/-- No file is open, and the numbers given back are distinct numbers that were handed out. -/
structure Unopened (w : World) : Prop where
  numbers : w.fs.Numbers
  openCount : w.fs.openCount = KeyMap.empty
  orphans : w.fs.orphans = KeyMap.empty
  files : w.files = []
  fds : ∀ c ∈ w.contexts, c.fds = []

/-- A new filesystem on which nothing has been opened yet. -/
theorem unopened_of_create {opts : CreateOptions} {env : Env} {uuid : Buf 16}
    {faults : List (Option ErrorKind)} {order : FlushOrder} {w : World}
    (h : Inner.create opts env uuid faults order = .ok () w.fs) (hfiles : w.files = [])
    (hfds : ∀ c ∈ w.contexts, c.fds = []) : w.Unopened := by
  obtain ⟨live, hcreated⟩ := (create_spec opts env uuid faults order).of_ok h
  obtain ⟨-, hfree, -, -, -, hopen, horphans, -, hnext⟩ := hcreated.base
  refine ⟨⟨?_, fun k hk ↦ ?_, hnext.ge⟩, hopen, horphans, hfiles, hfds⟩
  · rw [hfree]
    exact List.nodup_nil
  · rw [hfree] at hk
    cases hk

theorem Unopened.handles {w : World} (h : w.Unopened) : w.handles = [] := by
  unfold World.handles
  rw [h.files, List.map_nil, List.nil_append, List.flatMap_eq_nil_iff]
  intro c hc
  unfold Context.inos
  rw [h.fds c hc, List.map_nil]

theorem Unopened.kept {w : World} (h : w.Unopened) (sound : Prop) : w.Kept sound := by
  have hcounted : ∀ ino, w.fs.opens ino = w.handles.count ino := by
    intro ino
    unfold Inner.opens
    rw [h.openCount, h.handles, KeyMap.find?_empty]
    rfl
  have hnone : ∀ ino, w.fs.orphans.contains ino ≠ true := by
    intro ino
    rw [h.orphans]
    unfold KeyMap.contains
    rw [KeyMap.find?_empty]
    exact Bool.false_ne_true
  refine ⟨⟨hcounted, fun _ ↦ ⟨hcounted, h.numbers, ?_, ?_, ?_⟩⟩, ?_⟩
  · intro ino hino
    rw [h.handles] at hino
    cases hino
  · exact fun ino hino ↦ absurd hino (hnone ino)
  · exact fun ino hino ↦ absurd hino (hnone ino)
  · intro c hc
    rw [h.fds c hc]
    exact List.nodup_nil

/-- No live file refers to a dropped inode or to a number that has been handed out again, and an inode
without names is dropped exactly with its last file. -/
structure Accounted (w : World) : Prop where
  alive : ∀ ino ∈ w.handles, w.fs.InUse ino
  fresh : ∀ parent name mode uid gid rdev creds ino t,
    createChild parent name mode uid gid rdev creds w.fs = .ok ino t → ino ∉ w.handles
  unlinked : ∀ parent name rmdir creds entry u t,
    unlinkFind parent name rmdir creds w.fs = .ok entry u → w.fs.InUse entry.1 → firstUserIno ≤ entry.1 →
    unlinkName parent name rmdir creds w.fs = .ok () t →
    (¬t.InUse entry.1 ∧ entry.1 ∉ w.handles) ∨
      (t.InUse entry.1 ∧ ∃ i, t.inodes.find? entry.1 = some i ∧
        (i.nlink ≠ 0 ∨ entry.1 ∈ w.handles ∧ t.orphans.contains entry.1 = true))
  closed : ∀ ino i t, ino ∈ w.handles → w.fs.orphans.contains ino = true → firstUserIno ≤ ino →
    w.fs.inodes.find? ino = some i → i.isDir = false → decOpen ino w.fs = .ok () t →
    (¬t.InUse ino ↔ w.handles.count ino = 1)

theorem not_inUse_freed {s t : Inner} {ino : ℕ} (huser : firstUserIno ≤ ino)
    (hfree : t.freeInodes = s.freeInodes ++ freed ino) : ¬t.InUse ino := by
  intro h
  refine h.1 ?_
  rw [hfree, freed, if_pos huser]
  exact List.mem_append_right _ (List.mem_singleton_self ino)

theorem Kept.accounted {w : World} (h : w.Kept True) : w.Accounted := by
  have htracked := h.kept.tracked trivial
  refine ⟨htracked.alive, ?_, ?_, ?_⟩
  · intro parent name mode uid gid rdev creds ino t hcreate
    exact ((htracked.createChild parent name mode uid gid rdev creds).of_ok hcreate).2.2
  · intro parent name rmdir creds entry u t hfind hino huser hunlink
    rw [unlinkName_eq, Exec.bind_eq_of_ok hfind] at hunlink
    have hcalm := (unlinkFind_calm parent name rmdir creds).of_ok hfind
    obtain ⟨i, v, hdelinked, hi, hreleased⟩ := (unlinkEntry_spec parent name entry u).of_ok hunlink
    have hlull := trans_of (Lull (fun k ↦ k = parent ∨ k = entry.1) nothing) hcalm.lull hdelinked.lull
    have hv := hlull.inUse.mpr hino
    have hmem : entry.1 ∈ w.handles ↔ 0 < v.opens entry.1 := by
      rw [htracked.mem_iff, hlull.opens]
    cases hreleased with
    | named hlinks heq =>
      rw [heq]
      exact Or.inr ⟨hv, i, hi, Or.inl hlinks⟩
    | orphaned hlinks hopen heq =>
      rw [heq]
      refine Or.inr ⟨hv, i, hi, Or.inr ⟨hmem.mpr hopen, ?_⟩⟩
      unfold KeyMap.contains
      rw [KeyMap.find?_insert_self]
      rfl
    | dropped hlinks hclosed hretired =>
      refine Or.inl ⟨not_inUse_freed huser hretired.freeInodes, ?_⟩
      rw [hmem]
      omega
  · intro ino i t hino horphan huser hi hdir hclose
    have hcount := htracked.counted ino
    constructor
    · intro hdropped
      by_contra hmore
      have hclosed := (decOpen_closed (htracked.mem_iff.mp hino)).of_ok hclose
      refine hdropped ?_
      have halive := htracked.alive ino hino
      rcases hclosed.free with hfree | ⟨hlast, -, -⟩
      · unfold InUse
        rw [hfree, hclosed.nextInode]
        exact halive
      · omega
    · intro hlast
      obtain ⟨j, hj, hlinks⟩ := htracked.links ino horphan
      rw [hi] at hj
      cases hj
      have hdrop := (decOpen_drops (hcount.trans hlast) horphan hi (hlinks hdir)).of_ok hclose
      exact not_inUse_freed huser hdrop

end World

namespace Act

/-- In every run without a derived clone the table counts the live files, and as long as every name that is
opened or removed belongs to an inode in use, no file outlives its inode. -/
theorem open_count_counts_files {depth : ℕ} {w v : World} {calls : List (World × Act)}
    (hstart : w.Unopened) (hrun : Run depth w calls v)
    (hclone : ∀ call ∈ calls, ∀ n, call.2 ≠ clone n) :
    (∀ ino, v.fs.opens ino = v.handles.count ino) ∧
      ((∀ call ∈ calls, call.2.Named depth call.1) → v.Accounted) := by
  have hcounted := hrun.kept (hstart.kept False) hclone fun hfalse ↦ hfalse.elim
  refine ⟨hcounted.kept.counted, fun hnamed ↦ ?_⟩
  exact (hrun.kept (hstart.kept True) hclone fun _ ↦ hnamed).accounted

/-! ## Concrete runs -/

/-- The inode is in use, as a test. -/
def inUse (s : Inner) (ino : ℕ) : Bool := !s.freeInodes.contains ino && decide (ino < s.sb.nextInode)

theorem inUse_iff {s : Inner} {ino : ℕ} : inUse s ino = true ↔ s.InUse ino := by
  unfold inUse Inner.InUse
  simp

/-- The names a call resolves belong to inodes in use, as a test. -/
def named (depth : ℕ) (w : World) : Act → Bool
  | openOpts path opts => (Facade.openWalk depth path opts w.fs).okAll fun r ↦ r.ino.all (inUse w.fs)
  | openat k dirfd path flags mode => w.contexts[k]?.all fun c ↦
    (Context.openWalk { c with fs := w.fs } depth dirfd path (OpenOptions.fromLinuxFlags flags mode)
      w.fs).okAll fun r ↦ r.ino.all (inUse w.fs)
  | unlink parent name rmdir creds =>
    (Inner.unlinkFind parent name rmdir creds w.fs).okAll fun entry ↦ inUse w.fs entry.1
  | _ => true

theorem Named.of_named {depth : ℕ} {w : World} {a : Act} (h : a.named depth w = true) : a.Named depth w := by
  cases a with
  | openOpts path opts =>
    intro r t ino hr hino
    have htest := Outcome.of_okAll h hr
    rw [hino] at htest
    exact inUse_iff.mp htest
  | openat k dirfd path flags mode =>
    intro c hc r t ino hr hino
    simp only [named, hc, Option.all_some] at h
    have htest := Outcome.of_okAll h hr
    rw [hino] at htest
    exact inUse_iff.mp htest
  | unlink parent name rmdir creds =>
    intro entry t hentry
    exact inUse_iff.mp (Outcome.of_okAll h hentry)
  | _ => trivial

/-- A program on the sample filesystem, with one context. -/
def sampleWorld (s : Inner) : World := ⟨s, [Context.new s Creds.root], []⟩

theorem sampleWorld_unopened {s : Inner} (h : sampleImage = .ok () s) : (sampleWorld s).Unopened := by
  unfold sampleImage at h
  refine World.unopened_of_create h rfl fun c hc ↦ ?_
  rw [List.mem_singleton.mp hc]
  rfl

/-- The calls of a program on the sample filesystem. -/
def samplePlay (acts : List Act) : Outcome Error World (List (World × Act)) :=
  match sampleImage with
  | .ok _ s => Exec.play (exec 1) acts (sampleWorld s)
  | _ => .panic

theorem samplePlay_runs {acts : List Act} {test : List (World × Act) → World → Bool}
    (h : (samplePlay acts).okAnd test = true) :
    ∃ w calls v, w.Unopened ∧ Run 1 w calls v ∧ calls.map Prod.snd = acts ∧ test calls v = true := by
  obtain ⟨calls, v, hplay, htest⟩ := Outcome.exists_of_okAnd h
  unfold samplePlay at hplay
  cases himage : sampleImage with
  | ok _ s =>
    rw [himage] at hplay
    obtain ⟨hrun, hacts⟩ := Exec.runs_of_play hplay
    exact ⟨_, calls, v, sampleWorld_unopened himage, hrun, hacts, htest⟩
  | err e s =>
    rw [himage] at hplay
    cases hplay
  | panic =>
    rw [himage] at hplay
    cases hplay

/-- Options of `File::open`. -/
def openRead : OpenOptions := ⟨true, false, false, false, false, false, 0o666, false, false⟩

/-- A file `a` is created, opened, unlinked while it is open, and closed. -/
def unlinkOpen : List Act :=
  [create rootIno [0x61] (sIfreg ||| 0o644) 0 0 0 Creds.root, openOpts [slash, 0x61] openRead,
    unlink rootIno [0x61] false Creds.root, drop 0]

theorem unlink_open_accounted : ∃ w calls v, Run 1 w calls v ∧ calls.map Prod.snd = unlinkOpen ∧
    (∀ ino, v.fs.opens ino = v.handles.count ino) ∧ v.Accounted := by
  have hplay : (samplePlay unlinkOpen).okAnd (fun calls _ ↦ calls.all fun call ↦
      call.2.named 1 call.1) = true := by
    decide +kernel
  obtain ⟨w, calls, v, hstart, hrun, hacts, htest⟩ := samplePlay_runs hplay
  rw [List.all_eq_true] at htest
  have hclone : ∀ call ∈ calls, ∀ n, call.2 ≠ clone n := by
    intro call hcall n heq
    have hmem : clone n ∈ unlinkOpen := by
      rw [← hacts, ← heq]
      exact List.mem_map_of_mem hcall
    simp [unlinkOpen] at hmem
  have hresult := open_count_counts_files hstart hrun hclone
  exact ⟨w, calls, v, hrun, hacts, hresult.1, hresult.2 fun call hcall ↦ .of_named (htest call hcall)⟩

/-- A copy made by the derived clone is not counted: once the file it was copied from is dropped, unlinking
the name drops the inode under it. -/
theorem clone_outlives_inode : ∃ w calls v, w.Unopened ∧ Run 1 w calls v ∧
    ∃ ino ∈ v.handles, v.fs.opens ino ≠ v.handles.count ino ∧ ¬v.fs.InUse ino := by
  have hplay : (samplePlay [create rootIno [0x61] (sIfreg ||| 0o644) 0 0 0 Creds.root,
      openOpts [slash, 0x61] openRead, clone 0, drop 0, unlink rootIno [0x61] false Creds.root]).okAnd
      (fun _ v ↦ v.handles.any fun ino ↦
        decide (v.fs.opens ino ≠ v.handles.count ino) && !inUse v.fs ino) = true := by
    decide +kernel
  obtain ⟨w, calls, v, hstart, hrun, -, htest⟩ := samplePlay_runs hplay
  obtain ⟨ino, hino, htest⟩ := List.any_eq_true.mp htest
  rw [Bool.and_eq_true, decide_eq_true_eq, Bool.not_eq_true'] at htest
  refine ⟨w, calls, v, hstart, hrun, ino, hino, htest.1, fun halive ↦ ?_⟩
  rw [inUse_iff.mpr halive] at htest
  cases htest.2

end Act

end LinuxFile
