import LinuxFile.Library.Runs
import LinuxFile.Spec.Rename
import LinuxFile.Theorems.OpenFiles

/-!
# Opening a path while other threads remove names

An open takes the lock twice: once to find or create the inode, and once to count the new file. Between the
two sections any other thread may take the lock. The inode survives a step of another thread unless that
step takes away its last name, because nothing says yet that the inode is about to be open.
-/

set_option autoImplicit false

namespace LinuxFile

/-! ## The two sections of an open -/

namespace Facade

/-- The first section of `open_opts`. -/
def openFind (depth : ℕ) (path : UnixPath) (opts : OpenOptions) : Fs ℕ := do
  let resolved ← openWalk depth path opts
  openTarget opts resolved

theorem openOpts_eq (depth : ℕ) (path : UnixPath) (opts : OpenOptions) :
    openOpts depth path opts = openFind depth path opts >>= fun ino ↦ (do
      Inner.incOpen ino
      pure ⟨ino, opts.asFlags, 0⟩) := by
  unfold openOpts openFind
  rw [bind_assoc]

end Facade

namespace Context

/-- The first section of `openat`. -/
def openFind (c : Context) (depth : ℕ) (dirfd : ℤ) (path : UnixPath) (flags : UInt32) (mode : UInt16) :
    Fs (ℕ × Inode) := do
  let resolved ← openWalk c depth dirfd path (OpenOptions.fromLinuxFlags flags mode)
  let ino ← openTarget c (OpenOptions.fromLinuxFlags flags mode) flags resolved
  let inode ← Inner.getInode ino
  pure (ino, inode)

theorem onFs_bind {α β : Type} (x : Fs α) (f : α → Fs β) :
    onFs (x >>= f) = onFs x >>= fun a ↦ onFs (f a) := by
  funext c
  unfold onFs
  rw [Exec.bind_apply]
  unfold Exec.zoom
  rw [Exec.bind_apply]
  cases x c.fs with
  | ok a s => rfl
  | err e s => rfl
  | panic => rfl

theorem openat_eq (depth : ℕ) (dirfd : ℤ) (path : UnixPath) (flags : UInt32) (mode : UInt16) :
    openat depth dirfd path flags mode = (do
      let c ← Exec.get
      let found ← onFs (openFind c depth dirfd path flags mode)
      onFs (Inner.incOpen found.1)
      allocFd ⟨⟨found.1, flags, 0⟩, flags, if found.2.isDir then some found.1 else none⟩) := by
  have hpure : ∀ {α : Type} (a : α), onFs (pure a : Fs α) = pure a := fun _ ↦ rfl
  unfold openat openFind
  simp only [onFs_bind, hpure, bind_assoc, pure_bind]

end Context

/-- A call that opens a path. -/
inductive Opener where
  | facade (path : UnixPath) (opts : OpenOptions)
  | context (c : Context) (dirfd : ℤ) (path : UnixPath) (flags : UInt32) (mode : UInt16)

namespace Opener

open LinuxFile.Inner

/-- The first section: the inode that is going to be open. -/
def find (depth : ℕ) : Opener → Fs ℕ
  | facade path opts => Facade.openFind depth path opts
  | context c dirfd path flags mode => do
    let found ← Context.openFind c depth dirfd path flags mode
    pure found.1

/-- The walk of the path. -/
def walk (depth : ℕ) : Opener → Fs Resolved
  | facade path opts => Facade.openWalk depth path opts
  | context c dirfd path flags mode =>
    Context.openWalk c depth dirfd path (OpenOptions.fromLinuxFlags flags mode)

/-- The creation of the file if the path stands for none. -/
def create (r : Resolved) : Opener → Fs ℕ
  | facade _ opts =>
    createChild r.parent r.name (sIfreg ||| applyUmask opts.mode 0o022) Creds.root.fsuid Creds.root.fsgid 0
      Creds.root
  | context c _ _ flags mode =>
    createChild r.parent r.name
      (sIfreg ||| applyUmask (OpenOptions.fromLinuxFlags flags mode).mode c.umask) c.creds.fsuid
      c.creds.fsgid 0 c.creds

/-- The path stands for the inode, found there or created there. -/
def Names (depth : ℕ) (o : Opener) (s : Inner) (ino : ℕ) : Prop :=
  ∃ r t, o.walk depth s = .ok r t ∧ (r.ino = some ino ∨ r.ino = none ∧ ∃ u, o.create r t = .ok ino u)

/-- A name that the walk finds belongs to an inode in use. -/
def Named (depth : ℕ) (o : Opener) (s : Inner) : Prop :=
  ∀ r t ino, o.walk depth s = .ok r t → r.ino = some ino → s.InUse ino

variable {depth : ℕ} {o : Opener} {s t : Inner} {r : Resolved}

theorem walk_calm (depth : ℕ) (o : Opener) : (o.walk depth).Respects Calm := by
  cases o with
  | facade path opts => exact Inner.walk_calm _ _ _ _
  | context c dirfd path flags mode => exact Context.openWalk_calm c depth dirfd path _

theorem inUse_of_calm {ino : ℕ} (hst : Calm s t) (hino : s.InUse ino) : t.InUse ino :=
  (hst.lull (P := nothing) (G := nothing)).inUse.mpr hino

theorem createChild_inUse (hs : s.Numbers) (parent : ℕ) (name : Bytes) (mode : UInt16) (uid gid : UInt32)
    (rdev : UInt64) (creds : Creds) :
    (createChild parent name mode uid gid rdev creds).Holds s (fun ino t ↦ t.InUse ino)
      (fun _ _ ↦ True) := by
  rw [createChild_eq]
  apply (createFind_calm parent name creds s).bind ?_ (fun _ _ _ ↦ trivial)
  intro _ t ht
  have hlull : Lull nothing nothing s t := ht.lull
  apply (createEntry_hands parent name mode uid gid rdev t).mono ?_ (fun _ _ _ ↦ trivial)
  intro ino u hu
  exact (hu.numbers (hlull.numbers hs)).2

/-- The path stands for an inode that exists. -/
theorem existing_holds (hnamed : o.Named depth s) (hr : o.walk depth s = .ok r t) {ino : ℕ}
    (hino : r.ino = some ino) {x : Fs Unit} (hx : x.Respects Calm) :
    (do
      x
      pure ino : Fs ℕ).Holds t (fun k u ↦ o.Names depth s k ∧ u.InUse k) (fun _ _ ↦ True) := by
  have ht : t.InUse ino := inUse_of_calm ((walk_calm depth o).of_ok hr) (hnamed r t ino hr hino)
  apply (hx t).bind ?_ (fun _ _ _ ↦ trivial)
  intro _ u hu
  exact ⟨⟨r, t, hr, Or.inl hino⟩, inUse_of_calm hu ht⟩

/-- The path stands for nothing yet. -/
theorem create_holds (hs : s.Numbers) (hr : o.walk depth s = .ok r t) (hnone : r.ino = none) :
    (o.create r).Holds t (fun k u ↦ o.Names depth s k ∧ u.InUse k) (fun _ _ ↦ True) := by
  have ht : t.Numbers := (((walk_calm depth o).of_ok hr).lull (P := nothing) (G := nothing)).numbers hs
  have hinUse : (o.create r).Holds t (fun k u ↦ u.InUse k) (fun _ _ ↦ True) := by
    cases o with
    | facade path opts => exact createChild_inUse ht _ _ _ _ _ _ _
    | context c dirfd path flags mode => exact createChild_inUse ht _ _ _ _ _ _ _
  apply Exec.holds_of_forall ?_ (fun _ _ _ ↦ trivial)
  intro ino u hcreate
  exact ⟨⟨r, t, hr, Or.inr ⟨hnone, u, hcreate⟩⟩, hinUse.of_ok hcreate⟩

/-- The first section finds an inode that the path stands for, and the inode is in use. -/
theorem find_spec (hs : s.Numbers) (hnamed : o.Named depth s) :
    (o.find depth).Holds s (fun ino t ↦ o.Names depth s ino ∧ t.InUse ino) (fun _ _ ↦ True) := by
  cases o with
  | facade path opts =>
    simp only [find, Facade.openFind]
    rw [Exec.holds_bind]
    apply Exec.holds_of_forall ?_ (fun _ _ _ ↦ trivial)
    intro r t hr
    unfold Facade.openTarget
    cases hino : r.ino with
    | some ino => exact existing_holds (o := facade path opts) hnamed hr hino (Facade.openExisting_calm opts ino)
    | none =>
      dsimp only
      split_ifs
      · trivial
      · exact create_holds (o := facade path opts) hs hr hino
  | context c dirfd path flags mode =>
    set opts := OpenOptions.fromLinuxFlags flags mode with hopts
    have htarget : ∀ r t, Context.openWalk c depth dirfd path opts s = .ok r t →
        (Context.openTarget c opts flags r).Holds t
          (fun k u ↦ (context c dirfd path flags mode).Names depth s k ∧ u.InUse k) (fun _ _ ↦ True) := by
      intro r t hr
      unfold Context.openTarget
      cases hino : r.ino with
      | some ino =>
        exact existing_holds (o := context c dirfd path flags mode) hnamed hr hino
          (Context.openExisting_calm opts flags ino)
      | none =>
        dsimp only
        split_ifs
        · trivial
        · exact create_holds (o := context c dirfd path flags mode) hs hr hino
    simp only [find, Context.openFind, bind_assoc, pure_bind]
    rw [Exec.holds_bind]
    apply Exec.holds_of_forall ?_ (fun _ _ _ ↦ trivial)
    intro r t hr
    apply (htarget r t hr).bind ?_ (fun _ _ _ ↦ trivial)
    intro ino u hu
    apply (getInode_calm ino u).bind ?_ (fun _ _ _ ↦ trivial)
    intro _ v hv
    exact ⟨hu.1, inUse_of_calm hv hu.2⟩

end Opener

/-! ## The sections of other threads -/

/-- What other threads do while they have the lock. A call that resolves a path and then changes a directory
is a walk followed by the change; an open that creates a file is a walk, a creation and, in its second
section, a count. -/
inductive Section where
  | walk (args : Inner.WalkArgs) (depth cwd : ℕ) (path : UnixPath)
  | unlink (parent : ℕ) (name : Bytes) (rmdir : Bool) (creds : Creds)
  | rename (oldParent : ℕ) (oldName : Bytes) (newParent : ℕ) (newName : Bytes) (creds : Creds)
  | create (parent : ℕ) (name : Bytes) (mode : UInt16) (uid gid : UInt32) (rdev : UInt64) (creds : Creds)
  | count (ino : ℕ)

namespace Section

open LinuxFile.Inner

def exec : Section → Fs Unit
  | walk args depth cwd path => do
    let _ ← Inner.walk args depth cwd path
    pure ()
  | unlink parent name rmdir creds => unlinkName parent name rmdir creds
  | rename oldParent oldName newParent newName creds =>
    Inner.rename oldParent oldName newParent newName creds
  | create parent name mode uid gid rdev creds => do
    let _ ← createChild parent name mode uid gid rdev creds
    pure ()
  | count ino => incOpen ino

/-- Losing an entry in `parent` does not end the inode: the entry is another inode's, the inode is open in
other files, or it has another name. -/
def Survives (ino parent : ℕ) (s : Inner) (entry : ℕ × FileType) : Prop :=
  entry.1 = ino → 0 < s.opens ino ∨ parent ≠ ino ∧ ∃ i, s.inodes.find? ino = some i ∧ 2 ≤ i.nlink

/-- The section does not take away the last name of the inode. -/
def Spares (ino : ℕ) : Inner × Section → Prop
  | (s, unlink parent name rmdir creds) => ∀ entry t,
    unlinkFind parent name rmdir creds s = .ok entry t → Survives ino parent t entry
  | (s, rename oldParent oldName newParent newName creds) => ∀ src entry t,
    renameFind oldParent oldName newParent newName creds s = .ok (.move src (some entry)) t →
      Survives ino newParent t entry
  | _ => True

variable {ino : ℕ} {s t : Inner}

/-- An inode that survives the loss of an entry stays in use. -/
theorem unlinkEntry_inUse {parent : ℕ} {name : Bytes} {entry : ℕ × FileType} (hino : s.InUse ino)
    (hsurvives : Survives ino parent s entry) :
    (unlinkEntry parent name entry).Holds s (fun _ t ↦ t.InUse ino) (fun _ t ↦ t.InUse ino) := by
  apply (unlinkEntry_spec parent name entry s).mono
  · intro _ t hdone
    obtain ⟨i, v, hdelinked, hi, hreleased⟩ := hdone
    have hv : v.InUse ino := hdelinked.lull.inUse.mpr hino
    cases hreleased with
    | named hlinks heq =>
      rw [heq]
      exact hv
    | orphaned hlinks hopen heq =>
      rw [heq]
      exact hv
    | dropped hlinks hclosed hretired =>
      by_cases hself : entry.1 = ino
      · rcases hsurvives hself with hopen | ⟨hparent, j, hj, hnlink⟩
        · rw [hself, hdelinked.lull.opens] at hclosed
          omega
        · rw [hself] at hdelinked hi
          obtain ⟨l, hl, hone, -⟩ := hdelinked.links j hparent hj
          rw [hi] at hl
          cases hl
          omega
      · exact inUse_of_freed hretired.freeInodes hretired.nextInode (Ne.symm hself) hv
  · intro _ t hhalted
    exact hhalted.lull.inUse.mpr hino

theorem createChild_kept {parent : ℕ} {name : Bytes} {mode : UInt16} {uid gid : UInt32} {rdev : UInt64}
    {creds : Creds} (hino : s.InUse ino) :
    (createChild parent name mode uid gid rdev creds).Holds s (fun k t ↦ t.InUse ino ∧ k ≠ ino)
      (fun _ t ↦ t.InUse ino) := by
  rw [createChild_eq]
  apply (createFind_calm parent name creds s).bind
  · intro _ t ht
    have hino' := Opener.inUse_of_calm ht hino
    apply (createEntry_hands parent name mode uid gid rdev t).mono
    · intro k u hu
      refine ⟨hu.kept ino hino', fun heq ↦ hu.fresh ?_⟩
      rw [heq]
      exact hino'
    · intro _ u hu
      rcases hu with hu | ⟨k, hu⟩
      · exact hu.inUse.mpr hino'
      · exact hu.kept ino hino'
  · intro _ t ht
    exact Opener.inUse_of_calm ht hino

/-- The inode stays in use through every section that does not take away its last name. -/
theorem exec_inUse (hino : s.InUse ino) (a : Section) (hspares : Spares ino (s, a)) :
    a.exec.Holds s (fun _ t ↦ t.InUse ino) (fun _ t ↦ t.InUse ino) := by
  cases a with
  | walk args depth cwd path =>
    have hwalk : (exec (walk args depth cwd path)).Respects Calm :=
      .bind (Inner.walk_calm args depth cwd path) fun _ ↦ .pure _
    exact (hwalk s).mono (fun _ t ht ↦ Opener.inUse_of_calm ht hino)
      (fun _ t ht ↦ Opener.inUse_of_calm ht hino)
  | unlink parent name rmdir creds =>
    simp only [exec]
    rw [unlinkName_eq, Exec.holds_bind]
    apply Exec.holds_of_forall
    · intro entry t hfind
      have ht := Opener.inUse_of_calm ((unlinkFind_calm parent name rmdir creds).of_ok hfind) hino
      exact unlinkEntry_inUse ht (hspares entry t hfind)
    · intro _ t hfind
      exact Opener.inUse_of_calm ((unlinkFind_calm parent name rmdir creds).of_err hfind) hino
  | rename oldParent oldName newParent newName creds =>
    have hfind := renameFind_calm oldParent oldName newParent newName creds
    simp only [exec]
    rw [rename_eq, Exec.holds_bind]
    apply Exec.holds_of_forall
    · intro plan t hr
      have ht := Opener.inUse_of_calm (hfind.of_ok hr) hino
      cases plan with
      | nothing => exact ht
      | move src replaced =>
        have hremove : (removeTarget newParent newName replaced).Holds t (fun _ u ↦ u.InUse ino)
            (fun _ u ↦ u.InUse ino) := by
          cases replaced with
          | none => exact ht
          | some entry => exact unlinkEntry_inUse ht (hspares src entry t hr)
        apply hremove.bind ?_ (fun _ _ hu ↦ hu)
        intro _ u hu
        exact (moveEntry_lull oldParent oldName newParent newName src u).mono
          (fun _ v hv ↦ hv.inUse.mpr hu) (fun _ v hv ↦ hv.inUse.mpr hu)
    · intro _ t hr
      exact Opener.inUse_of_calm (hfind.of_err hr) hino
  | create parent name mode uid gid rdev creds =>
    exact (createChild_kept hino).bind (fun _ _ ht ↦ ht.1) (fun _ _ ht ↦ ht)
  | count k =>
    apply (incOpen_opened k s).mono
    · intro _ t ht
      have hrest := ht.rest
      rw [hrest]
      exact hino
    · exact fun _ _ hfalse ↦ hfalse.elim

end Section

/-! ## Interleavings -/

namespace Opener

open LinuxFile.Inner

/-- An open that starts in `s` and returns a file on `ino` in `v`, with sections of other threads between
its own two. -/
def Interleaved (depth : ℕ) (o : Opener) (calls : List (Inner × Section)) (s : Inner) (ino : ℕ)
    (v : Inner) : Prop :=
  ∃ t u, o.find depth s = .ok ino t ∧ Exec.Runs Section.exec t calls u ∧ incOpen ino u = .ok () v

/-- If no section in between takes away the last name of the inode, the file that is returned is on an inode
that the path stood for and that was never dropped or created again. -/
theorem open_survives {depth : ℕ} {o : Opener} {calls : List (Inner × Section)} {s v : Inner} {ino : ℕ}
    (hs : s.Numbers) (hnamed : o.Named depth s) (hopen : o.Interleaved depth calls s ino v)
    (hspares : ∀ call ∈ calls, Section.Spares ino call) :
    o.Names depth s ino ∧ v.InUse ino ∧ 0 < v.opens ino ∧ ∀ call ∈ calls, call.1.InUse ino ∧
      ∀ parent name mode uid gid rdev creds k t,
        createChild parent name mode uid gid rdev creds call.1 = .ok k t → k ≠ ino := by
  obtain ⟨t, u, hfind, hruns, hcount⟩ := hopen
  obtain ⟨hnames, hino⟩ := (find_spec hs hnamed).of_ok hfind
  obtain ⟨hlast, hall⟩ := hruns.invariant (I := fun w ↦ w.InUse ino) hino hspares
    fun w a hw ha ↦ Section.exec_inUse hw a ha
  have hopened := (incOpen_opened ino u).of_ok hcount
  have hrest := hopened.rest
  refine ⟨hnames, ?_, ?_, fun call hcall ↦ ⟨hall call hcall, ?_⟩⟩
  · rw [hrest]
    exact hlast
  · rw [hopened.opens ino, if_pos rfl]
    exact Nat.succ_pos _
  · intro parent name mode uid gid rdev creds k w hcreate
    exact ((Section.createChild_kept (hall call hcall)).of_ok hcreate).2

/-- The open with the given sections in between, all of which return. -/
def race (depth : ℕ) (o : Opener) (sections : List Section) : Fs (Inner × ℕ × List (Inner × Section)) := do
  let s ← Exec.get
  let ino ← o.find depth
  let calls ← Exec.play Section.exec sections
  incOpen ino
  pure (s, ino, calls)

theorem interleaved_of_race {depth : ℕ} {o : Opener} {sections : List Section} {s v w : Inner} {ino : ℕ}
    {calls : List (Inner × Section)} (h : race depth o sections s = .ok (w, ino, calls) v) :
    w = s ∧ o.Interleaved depth calls s ino v ∧ calls.map Prod.snd = sections := by
  unfold race at h
  rw [Exec.bind_apply, Exec.get_apply] at h
  obtain ⟨ino', t, hfind, h⟩ := Exec.bind_ok_iff.mp h
  obtain ⟨calls', u, hplay, h⟩ := Exec.bind_ok_iff.mp h
  obtain ⟨_, v', hcount, h⟩ := Exec.bind_ok_iff.mp h
  cases h
  obtain ⟨hruns, hacts⟩ := Exec.runs_of_play hplay
  exact ⟨rfl, ⟨t, u, hfind, hruns, hcount⟩, hacts⟩

/-- A file `a` is created in the root directory of a new filesystem, and then opened. -/
def sampleRace (sections : List Section) : FsOutcome (Inner × ℕ × List (Inner × Section)) :=
  sampleRun (do
    let _ ← createChild rootIno [0x61] (sIfreg ||| 0o644) 0 0 0 Creds.root
    race 1 (facade [slash, 0x61] Act.openRead) sections)

theorem sampleRace_interleaved {sections : List Section}
    {test : Inner × ℕ × List (Inner × Section) → Inner → Bool}
    (h : (sampleRace sections).okAnd test = true) :
    ∃ s₀ k s ino calls v, sampleImage = .ok () s₀ ∧
      createChild rootIno [0x61] (sIfreg ||| 0o644) 0 0 0 Creds.root s₀ = .ok k s ∧
      (facade [slash, 0x61] Act.openRead).Interleaved 1 calls s ino v ∧
      calls.map Prod.snd = sections ∧ test (s, ino, calls) v = true := by
  obtain ⟨⟨w, ino, calls⟩, v, hrun, htest⟩ := Outcome.exists_of_okAnd h
  unfold sampleRace sampleRun at hrun
  cases himage : sampleImage with
  | ok _ s₀ =>
    rw [himage] at hrun
    obtain ⟨k, s, hcreate, hrace⟩ := Exec.bind_ok_iff.mp hrun
    obtain ⟨rfl, hopen, hacts⟩ := interleaved_of_race hrace
    exact ⟨s₀, k, w, ino, calls, v, rfl, hcreate, hopen, hacts, htest⟩
  | err e s₀ =>
    rw [himage] at hrun
    cases hrun
  | panic =>
    rw [himage] at hrun
    cases hrun

/-- Another thread creates a file `b` and removes it again while `a` is being opened. -/
theorem open_survives_other_unlink : ∃ s calls ino v,
    (facade [slash, 0x61] Act.openRead).Interleaved 1 calls s ino v ∧
      calls.map Prod.snd = [.create rootIno [0x62] (sIfreg ||| 0o644) 0 0 0 Creds.root,
        .unlink rootIno [0x62] false Creds.root] ∧ v.InUse ino := by
  have hrun : (sampleRace [.create rootIno [0x62] (sIfreg ||| 0o644) 0 0 0 Creds.root,
      .unlink rootIno [0x62] false Creds.root]).okAnd (fun r _ ↦
        decide (r.1.freeInodes = [] ∧ firstUserIno ≤ r.1.sb.nextInode) &&
        (Facade.openWalk 1 [slash, 0x61] Act.openRead r.1).okAll (fun w ↦ w.ino.all (Act.inUse r.1)) &&
        r.2.2.all fun call ↦ match call.2 with
          | .unlink parent name rmdir creds =>
            (unlinkFind parent name rmdir creds call.1).okAll fun entry ↦ entry.1 != r.2.1
          | .rename _ _ _ _ _ => false
          | _ => true) = true := by
    decide +kernel
  obtain ⟨s₀, k, s, ino, calls, v, -, -, hopen, hacts, htest⟩ := sampleRace_interleaved hrun
  rw [Bool.and_eq_true, Bool.and_eq_true, decide_eq_true_eq, List.all_eq_true] at htest
  obtain ⟨⟨⟨hfree, hnext⟩, hwalk⟩, hcalls⟩ := htest
  have hnumbers : s.Numbers := by
    refine ⟨?_, fun n hn ↦ ?_, hnext⟩
    · rw [hfree]
      exact List.nodup_nil
    · rw [hfree] at hn
      cases hn
  have hnamed : (facade [slash, 0x61] Act.openRead).Named 1 s := by
    intro r t n hr hn
    have htest := Outcome.of_okAll hwalk hr
    rw [hn] at htest
    exact Act.inUse_iff.mp htest
  have hspares : ∀ call ∈ calls, Section.Spares ino call := by
    intro call hcall
    have htest := hcalls call hcall
    obtain ⟨w, a⟩ := call
    cases a with
    | unlink parent name rmdir creds =>
      intro entry t hentry heq
      have hne := Outcome.of_okAll htest hentry
      rw [heq] at hne
      simp at hne
    | rename => cases htest
    | _ => trivial
  exact ⟨s, calls, ino, v, hopen, hacts, (open_survives hnumbers hnamed hopen hspares).2.1⟩

/-- Another thread removes `a` between the two sections: the file is returned on an inode that has been
dropped, and whose number is free. -/
theorem open_returns_dropped_inode : ∃ s₀ k s calls ino v, sampleImage = .ok () s₀ ∧
    createChild rootIno [0x61] (sIfreg ||| 0o644) 0 0 0 Creds.root s₀ = .ok k s ∧
    (facade [slash, 0x61] Act.openRead).Interleaved 1 calls s ino v ∧
    calls.map Prod.snd = [.unlink rootIno [0x61] false Creds.root] ∧ ino ∈ v.freeInodes ∧
    ¬v.InUse ino := by
  have hrun : (sampleRace [.unlink rootIno [0x61] false Creds.root]).okAnd
      (fun r v ↦ v.freeInodes.contains r.2.1) = true := by
    decide +kernel
  obtain ⟨s₀, k, s, ino, calls, v, himage, hcreate, hopen, hacts, htest⟩ := sampleRace_interleaved hrun
  have hfree : ino ∈ v.freeInodes := by simpa using htest
  exact ⟨s₀, k, s, calls, ino, v, himage, hcreate, hopen, hacts, hfree, fun halive ↦ halive.1 hfree⟩

end Opener

end LinuxFile
