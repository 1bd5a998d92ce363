import LinuxFile.Library.Settled
import LinuxFile.Sharing
import LinuxFile.Theorems.Sample

/-!
# When the last handle goes

A `LinuxFile` that is dropped flushes only if nobody else holds the filesystem, and an open file holds it too. A run
in which no open file outlives the last `LinuxFile` ends flushed. The descriptors of a context outlive its own.
-/

namespace LinuxFile

open Shared

variable {w v : Shared} {depth : ℕ}

namespace Shared

/-- No inode waits to be persisted. -/
def NoneDirty (s : Inner) : Prop := s.dirtyInodes = KeyMap.empty

/-- What comes after `dirty_inodes.clear()` makes no inode dirty. -/
theorem writeBack_noneDirty (order : FlushOrder) (dirty : List ℕ) (s : Inner) :
    (Inner.writeBack order dirty).Holds s (fun _ t ↦ NoneDirty t) (fun _ _ ↦ True) := by
  have cache : (Inner.onCache (BlockCache.flush order.blocks)).Respects (Exec.Preserves NoneDirty) :=
    .zoom fun _ _ h ↦ h
  have alloc : Inner.writeAllocator.Respects (Exec.Preserves NoneDirty) := by
    unfold Inner.writeAllocator
    exact .bind (.read _) fun now ↦ .bind (.modify fun _ h ↦ h) fun _ ↦ .bind (.read _) fun existing ↦
      .bind (.zoom fun _ _ h ↦ h) fun b ↦ .modify fun _ h ↦ h
  have superblock : Inner.writeSuperblock.Respects (Exec.Preserves NoneDirty) := by
    unfold Inner.writeSuperblock
    exact .bind (.read _) fun sb ↦ .bind (.zoom fun _ _ h ↦ h) fun _ ↦ .zoom fun _ _ h ↦ h
  have shrink : Inner.shrinkImage.Respects (Exec.Preserves NoneDirty) := by
    unfold Inner.shrinkImage
    exact .bind (.zoom fun _ _ h ↦ h) fun _ ↦ .modify fun _ h ↦ h
  have sync : (do
      let mode ← Exec.read (·.syncMode)
      Exec.when (mode = .full) (Inner.onImage Image.sync) : Fs Unit).Respects (Exec.Preserves NoneDirty) :=
    .bind (.read _) fun mode ↦ .when fun _ ↦ .zoom fun _ _ h ↦ h
  unfold Inner.writeBack
  apply Exec.holds_bind_of_forall
  intro _ t
  rw [Exec.holds_bind, Exec.holds_modify]
  have hrest := Exec.Respects.bind cache fun _ ↦ .bind alloc fun _ ↦ .bind superblock fun _ ↦ .bind shrink fun _ ↦ sync
  exact (hrest { t with dirtyInodes := KeyMap.empty }).mono (fun _ _ h ↦ h rfl) (fun _ _ _ ↦ trivial)

theorem noneDirty_of_flushAll {order : FlushOrder} {s fs : Inner} (hflush : Inner.flushAll order s = .ok () fs)
    (hwritable : fs.writable = true) : NoneDirty fs := by
  have hflushes : (Inner.flushAll order).Holds s (fun _ t ↦ t.writable = true → NoneDirty t) (fun _ _ ↦ True) := by
    unfold Inner.flushAll
    rw [Exec.holds_bind, Exec.holds_read]
    by_cases hs : s.writable = false
    · rw [if_pos hs]
      intro htrue
      rw [hs] at htrue
      cases htrue
    · rw [if_neg hs]
      apply Exec.holds_bind_of_forall
      intro dirty t
      exact (writeBack_noneDirty order dirty t).mono (fun _ _ h _ ↦ h) (fun _ _ he ↦ he)
  exact hflushes.of_ok hflush hwritable

/-- The same `LinuxFile` values are there. -/
def SameHolders (w v : Shared) : Prop :=
  v.handles = w.handles ∧ v.world.contexts.length = w.world.contexts.length

instance : IsPreorder Shared SameHolders where
  refl _ := ⟨rfl, rfl⟩
  trans _ _ _ h h' := ⟨h'.1.trans h.1, h'.2.trans h.2⟩

theorem SameHolders.linuxFiles (h : SameHolders w v) : v.linuxFiles = w.linuxFiles := by
  unfold Shared.linuxFiles
  rw [h.1, h.2]

end Shared

namespace World

/-- As many contexts as before. -/
def SameContexts (w v : World) : Prop := v.contexts.length = w.contexts.length

instance : IsPreorder World SameContexts where
  refl _ := rfl
  trans _ _ _ h h' := h'.trans h

theorem onFs_sameContexts {α : Type} (x : Fs α) : (onFs x).Respects SameContexts := .zoom fun _ _ ↦ rfl

theorem inContext_sameContexts (k : ℕ) (x : Ctx Unit) : (inContext k x).Respects SameContexts := by
  intro w
  unfold Exec.Holds inContext
  cases w.contexts[k]? with
  | none => exact refl_of SameContexts w
  | some c =>
    dsimp only
    change (Exec.zoom _ _ x).Holds w _ _
    rw [Exec.holds_zoom]
    exact Exec.holds_of_forall (fun _ _ _ ↦ List.length_set) (fun _ _ _ ↦ List.length_set)

theorem onFile_sameContexts (n : ℕ) {x : File → Exec Error World Unit} (h : ∀ f, (x f).Respects SameContexts) :
    (onFile n x).Respects SameContexts := by
  refine .bind .get fun w ↦ ?_
  cases w.files[n]? with
  | none => exact .pure _
  | some f => exact h f

theorem keepFile_sameContexts (f : File) : (keepFile f).Respects SameContexts := .modify fun _ ↦ rfl

end World

theorem Act.exec_sameContexts (depth : ℕ) (a : Act) : (a.exec depth).Respects World.SameContexts := by
  cases a with
  | openOpts path opts => exact .bind (World.onFs_sameContexts _) fun f ↦ World.keepFile_sameContexts f
  | openat k dirfd path flags mode => exact World.inContext_sameContexts k _
  | clone n => exact World.onFile_sameContexts n World.keepFile_sameContexts
  | tryClone n =>
    exact World.onFile_sameContexts n fun f ↦ .bind (World.onFs_sameContexts _) fun g ↦ World.keepFile_sameContexts g
  | drop n =>
    refine World.onFile_sameContexts n fun f ↦ .bind (.modify fun _ ↦ rfl) fun _ ↦ ?_
    exact .bind (.attempt (World.onFs_sameContexts _)) fun _ ↦ .pure _
  | dup k fd => exact World.inContext_sameContexts k _
  | dup2 k old new => exact World.inContext_sameContexts k _
  | close k fd => exact World.inContext_sameContexts k _
  | unlink parent name rmdir creds => exact World.onFs_sameContexts _
  | create parent name mode uid gid rdev creds => exact World.onFs_sameContexts _

/-- Without contexts and open files only a `LinuxFile` can make a call. -/
theorem Act.exec_alone {a : Act} {w : World} (ha : ¬a.byHandle = true) (hcontexts : w.contexts = [])
    (hfiles : w.files = []) : a.exec depth w = .ok () w := by
  have hcontext : ∀ k x, World.inContext k x w = .ok () w := by
    intro k x
    unfold World.inContext
    rw [hcontexts]
    rfl
  have hfile : ∀ n x, World.onFile n x w = .ok () w := by
    intro n x
    unfold World.onFile
    rw [Exec.bind_apply, Exec.get_apply]
    dsimp only
    rw [hfiles]
    rfl
  cases a with
  | openOpts path opts => exact absurd rfl ha
  | openat k dirfd path flags mode => exact hcontext k _
  | clone n => exact hfile n _
  | tryClone n => exact hfile n _
  | drop n => exact hfile n _
  | dup k fd => exact hcontext k _
  | dup2 k old new => exact hcontext k _
  | close k fd => exact hcontext k _
  | unlink parent name rmdir creds => exact absurd rfl ha
  | create parent name mode uid gid rdev creds => exact absurd rfl ha

namespace Shared

theorem onWorld_sameHolders {x : Exec Error World Unit} (h : x.Respects World.SameContexts) :
    (onWorld x).Respects SameHolders := by
  intro w
  unfold onWorld
  rw [Exec.holds_zoom]
  exact (h w.world).mono (fun _ _ hsame ↦ ⟨rfl, hsame⟩) (fun _ _ hsame ↦ ⟨rfl, hsame⟩)

theorem onFs_sameHolders (x : Fs Unit) : (onFs x).Respects SameHolders :=
  onWorld_sameHolders (World.onFs_sameContexts x)

theorem dropLinuxFile_sameHolders (order : FlushOrder) : (dropLinuxFile order).Respects SameHolders :=
  .bind .get fun _ ↦ .when fun _ ↦ .bind (.attempt (onFs_sameHolders _)) fun _ ↦ .pure _

theorem dropFile_sameHolders (f : File) : (dropFile f).Respects SameHolders :=
  .bind (.attempt (onFs_sameHolders _)) fun _ ↦ .pure _

/-- A `LinuxFile` is left, or the last holder went and `flush_all` has brought the state it went in to that of `v`. -/
def LeftFlushed (w : Shared) (order : FlushOrder) (v : Shared) : Prop :=
  v.linuxFiles = 0 → v.strongCount = 0 ∧ w.linuxFiles = 1 ∧ Inner.flushAll order w.world.fs = .ok () v.world.fs

/-- The `LinuxFile` dropped is not the last one, or it is the last holder and `flush_all` returns. -/
def PartsFlushed (w : Shared) (order : FlushOrder) : Prop :=
  w.linuxFiles = 1 → w.openFiles = 0 ∧ ∃ fs, Inner.flushAll order w.world.fs = .ok () fs

theorem linuxFiles_eq_zero : w.linuxFiles = 0 ↔ w.handles = 0 ∧ w.world.contexts = [] := by
  unfold Shared.linuxFiles
  rw [Nat.add_eq_zero_iff, List.length_eq_zero_iff]

theorem strongCount_eq_zero : w.strongCount = 0 ↔ w.linuxFiles = 0 ∧ w.openFiles = 0 := Nat.add_eq_zero_iff

/-- Whoever still has a `LinuxFile` has nothing to lose. -/
theorem LeftFlushed.of_held {order : FlushOrder} (h : ¬v.linuxFiles = 0) : w.LeftFlushed order v :=
  fun hnone ↦ absurd hnone h

theorem holds_of_sameHolders {x : Exec Error Shared Unit} (hx : x.Respects SameHolders) (h : ¬w.linuxFiles = 0) :
    x.Holds w (fun _ v ↦ ¬v.linuxFiles = 0) (fun _ v ↦ ¬v.linuxFiles = 0) := by
  refine (hx w).mono (fun _ v hv ↦ ?_) (fun _ v hv ↦ ?_)
  · rwa [hv.linuxFiles]
  · rwa [hv.linuxFiles]

theorem dropLinuxFile_last {order : FlushOrder} (hcount : w.strongCount = 1) {fs : Inner}
    (hflush : Inner.flushAll order w.world.fs = .ok () fs) :
    dropLinuxFile order w = .ok () { w with world := { w.world with fs := fs } } := by
  unfold dropLinuxFile
  rw [Exec.bind_apply, Exec.get_apply]
  unfold Exec.when
  dsimp only
  rw [if_pos hcount, Exec.bind_apply]
  unfold Exec.attempt onFs onWorld World.onFs Exec.zoom
  dsimp only
  rw [hflush]
  rfl

end Shared

namespace ShareAct

/-- The condition on a call: a `LinuxFile` that is dropped parts in order. -/
def Parts (w : Shared) : ShareAct → Prop
  | dropFs order => 0 < w.handles → w.PartsFlushed order
  | dropContext k order => k < w.world.contexts.length → w.PartsFlushed order
  | operate _ | act _ | cloneFs | newContext _ => True

theorem when_of_not {c : Prop} [Decidable c] (h : ¬c) (x : Exec Error Shared Unit) (w : Shared) :
    Exec.when c x w = .ok () w := by
  unfold Exec.when
  rw [if_neg h]
  rfl

theorem when_of_pos {c : Prop} [Decidable c] (h : c) (x : Exec Error Shared Unit) (w : Shared) :
    Exec.when c x w = x w := by
  unfold Exec.when
  rw [if_pos h]

theorem exec_dropContext_none {k : ℕ} (h : w.world.contexts[k]? = none) (order : FlushOrder) :
    exec depth (dropContext k order) w = .ok () w := by
  simp only [exec, Exec.bind_apply, Exec.get_apply, h]
  rfl

theorem exec_dropContext_some {k : ℕ} {c : Context} (h : w.world.contexts[k]? = some c) (order : FlushOrder) :
    exec depth (dropContext k order) w = dropFields k order c w := by
  simp only [exec, Exec.bind_apply, Exec.get_apply, h]

/-- Without a holder nothing happens. -/
theorem exec_gone (a : ShareAct) (hgone : w.strongCount = 0) : a.exec depth w = .ok () w := by
  obtain ⟨hlinux, hopen⟩ := strongCount_eq_zero.mp hgone
  obtain ⟨hhandles, hcontexts⟩ := linuxFiles_eq_zero.mp hlinux
  have hfiles : w.world.files = [] := List.length_eq_zero_iff.mp (Nat.add_eq_zero_iff.mp hopen).1
  have hno : ¬0 < w.handles := by omega
  cases a with
  | operate op => exact when_of_not (by omega) _ w
  | act a =>
    by_cases ha : a.byHandle = true
    · exact when_of_not (fun h ↦ hno (h ha)) _ w
    · have hact : onWorld (a.exec depth) w = .ok () w := by
        unfold onWorld Exec.zoom
        rw [Act.exec_alone ha hcontexts hfiles]
      exact (when_of_pos (fun h ↦ absurd h ha) _ w).trans hact
  | cloneFs => exact congrArg (Outcome.ok ()) (if_neg hno)
  | newContext creds => exact congrArg (Outcome.ok ()) (if_neg hno)
  | dropFs order => exact when_of_not hno _ w
  | dropContext k order =>
    apply exec_dropContext_none
    rw [hcontexts]
    rfl

theorem dropFs_leaves {order : FlushOrder} (hnone : ¬w.linuxFiles = 0) (hparts : (dropFs order).Parts w) :
    (exec depth (dropFs order)).Holds w (fun _ v ↦ w.LeftFlushed order v) (fun _ v ↦ w.LeftFlushed order v) := by
  have hexec : exec depth (dropFs order) w = Exec.when (0 < w.handles) (do
      dropLinuxFile order
      Exec.modify (fun w ↦ { w with handles := w.handles - 1 })) w := rfl
  by_cases hpos : 0 < w.handles
  · rw [when_of_pos hpos] at hexec
    unfold Exec.Holds
    rw [hexec]
    change Exec.Holds _ w _ _
    by_cases hlast : w.linuxFiles = 1
    · obtain ⟨hopen, fs, hflush⟩ := hparts hpos hlast
      have hcount : w.strongCount = 1 := by
        unfold strongCount
        omega
      rw [Exec.holds_bind_of_ok (dropLinuxFile_last hcount hflush), Exec.holds_modify]
      intro _
      refine ⟨strongCount_eq_zero.mpr ⟨?_, hopen⟩, hlast, hflush⟩
      unfold linuxFiles at hlast ⊢
      dsimp only
      omega
    · refine (dropLinuxFile_sameHolders order).next (refl_of SameHolders w) (fun _ v hv ↦ ?_) fun _ v hv ↦ ?_
      · rw [Exec.holds_modify]
        apply LeftFlushed.of_held
        have hsame := hv.linuxFiles
        have hhandles := hv.1
        unfold linuxFiles at hsame hlast ⊢
        dsimp only
        omega
      · apply LeftFlushed.of_held
        rwa [hv.linuxFiles]
  · rw [when_of_not hpos] at hexec
    rw [Exec.holds_iff_of_ok hexec]
    exact .of_held hnone

/-- The last holder is a context without descriptors. -/
theorem dropFields_last {k : ℕ} {order : FlushOrder} {c : Context} (hc : w.world.contexts[k]? = some c)
    (hlast : w.linuxFiles = 1) (hopen : w.openFiles = 0) {fs : Inner}
    (hflush : Inner.flushAll order w.world.fs = .ok () fs) :
    (dropFields k order c).Holds w (fun _ v ↦ w.LeftFlushed order v) (fun _ v ↦ w.LeftFlushed order v) := by
  have hk : k < w.world.contexts.length := (List.getElem?_eq_some_iff.mp hc).1
  have hcount : w.strongCount = 1 := by
    unfold strongCount
    omega
  have hone := hlast
  unfold linuxFiles at hone
  obtain ⟨d, hd⟩ := List.length_eq_one_iff.mp (show w.world.contexts.length = 1 by omega)
  have hkzero : k = 0 := by omega
  subst hkzero
  rw [hd] at hc
  obtain rfl : d = c := Option.some.inj hc
  unfold openFiles at hopen
  rw [hd, List.map_singleton, List.sum_singleton] at hopen
  have hfds : d.fds = [] := List.length_eq_zero_iff.mp (by omega)
  unfold dropFields
  rw [Exec.holds_bind_of_ok (dropLinuxFile_last hcount hflush), Exec.holds_bind, Exec.holds_modify, hfds]
  intro _
  refine ⟨strongCount_eq_zero.mpr ⟨linuxFiles_eq_zero.mpr ⟨?_, ?_⟩, ?_⟩, hlast, hflush⟩
  · dsimp only
    omega
  · dsimp only
    rw [hd]
    rfl
  · unfold openFiles
    dsimp only
    rw [hd]
    exact Nat.add_eq_zero_iff.mpr ⟨(Nat.add_eq_zero_iff.mp hopen).1, rfl⟩

theorem dropFields_held {k : ℕ} (hk : k < w.world.contexts.length) (hmore : 1 < w.linuxFiles) (order : FlushOrder)
    (c : Context) :
    (dropFields k order c).Holds w (fun _ v ↦ ¬v.linuxFiles = 0) (fun _ v ↦ ¬v.linuxFiles = 0) := by
  have hfiles : (Exec.forEach (fun e : ℤ × Fd ↦ dropFile e.2.file) c.fds).Respects SameHolders := by
    apply Exec.Respects.forEach
    intro e
    exact dropFile_sameHolders e.2.file
  unfold dropFields
  refine (dropLinuxFile_sameHolders order).next (refl_of SameHolders w) (fun _ v hv ↦ ?_) fun _ v hv ↦ ?_
  · obtain ⟨hhandles, hlength⟩ := hv
    have hremoved := List.length_eraseIdx_of_lt (hlength.symm ▸ hk : k < v.world.contexts.length)
    rw [Exec.holds_bind, Exec.holds_modify]
    apply holds_of_sameHolders hfiles
    unfold linuxFiles at hmore ⊢
    dsimp only
    omega
  · rw [hv.linuxFiles]
    omega

/-- The call drops a `LinuxFile`, which flushes in the given order. -/
def Drops (a : ShareAct) (order : FlushOrder) : Prop := a = dropFs order ∨ ∃ k, a = dropContext k order

/-- The call leaves a `LinuxFile`, or it dropped the last holder and flushed what there was. -/
def LeavesFlushed (a : ShareAct) (w v : Shared) : Prop :=
  v.linuxFiles = 0 → ∃ order, a.Drops order ∧ v.strongCount = 0 ∧ w.linuxFiles = 1 ∧
    Inner.flushAll order w.world.fs = .ok () v.world.fs

theorem LeavesFlushed.of_held {a : ShareAct} (h : ¬v.linuxFiles = 0) : a.LeavesFlushed w v :=
  fun hnone ↦ absurd hnone h

/-- One call. -/
theorem exec_leaves (depth : ℕ) {a : ShareAct} (hnone : ¬w.linuxFiles = 0) (hparts : a.Parts w) :
    (exec depth a).Holds w (fun _ v ↦ a.LeavesFlushed w v) (fun _ v ↦ a.LeavesFlushed w v) := by
  have hheld : ∀ {x : Exec Error Shared Unit},
      x.Holds w (fun _ v ↦ ¬v.linuxFiles = 0) (fun _ v ↦ ¬v.linuxFiles = 0) →
      x.Holds w (fun _ v ↦ a.LeavesFlushed w v) (fun _ v ↦ a.LeavesFlushed w v) :=
    fun h ↦ h.mono (fun _ _ hv ↦ .of_held hv) (fun _ _ hv ↦ .of_held hv)
  cases a with
  | operate op => exact hheld (holds_of_sameHolders (.bind .get fun _ ↦ .when fun _ ↦ onFs_sameHolders _) hnone)
  | act a =>
    exact hheld (holds_of_sameHolders
      (.bind .get fun _ ↦ .when fun _ ↦ onWorld_sameHolders (Act.exec_sameContexts depth a)) hnone)
  | cloneFs =>
    have hmore : ¬linuxFiles (if 0 < w.handles then { w with handles := w.handles + 1 } else w) = 0 := by
      split_ifs
      · unfold linuxFiles
        dsimp only
        omega
      · exact hnone
    exact LeavesFlushed.of_held hmore
  | newContext creds =>
    have hmoved : ¬linuxFiles (if 0 < w.handles then
        { world := { w.world with contexts := w.world.contexts ++ [Context.new w.world.fs creds] }
          handles := w.handles - 1 } else w) = 0 := by
      split_ifs
      · unfold linuxFiles
        dsimp only
        rw [List.length_append, List.length_singleton]
        omega
      · exact hnone
    exact LeavesFlushed.of_held hmoved
  | dropFs order =>
    exact (dropFs_leaves hnone hparts).mono (fun _ _ hv hgone ↦ ⟨order, .inl rfl, hv hgone⟩)
      (fun _ _ hv hgone ↦ ⟨order, .inl rfl, hv hgone⟩)
  | dropContext k order =>
    cases hc : w.world.contexts[k]? with
    | none =>
      rw [Exec.holds_iff_of_ok (exec_dropContext_none hc order)]
      exact .of_held hnone
    | some c =>
      have hk : k < w.world.contexts.length := (List.getElem?_eq_some_iff.mp hc).1
      unfold Exec.Holds
      rw [exec_dropContext_some hc order]
      by_cases hlast : w.linuxFiles = 1
      · obtain ⟨hopen, fs, hflush⟩ := hparts hk hlast
        exact (dropFields_last hc hlast hopen hflush).mono (fun _ _ hv hgone ↦ ⟨order, .inr ⟨k, rfl⟩, hv hgone⟩)
          (fun _ _ hv hgone ↦ ⟨order, .inr ⟨k, rfl⟩, hv hgone⟩)
      · exact hheld (dropFields_held hk (by omega) order c)

variable {calls : List (Shared × ShareAct)}

/-- Without a holder no call of a run changes anything. -/
theorem run_gone (hrun : Run depth w calls v) (hgone : w.strongCount = 0) :
    v = w ∧ ∀ call ∈ calls, call.1 = w := by
  refine Exec.Runs.invariant (I := (· = w)) (C := fun _ ↦ True) hrun rfl (fun _ _ ↦ trivial) ?_
  rintro u a rfl -
  rw [Exec.holds_iff_of_ok (exec_gone a hgone)]

/-- The run dropped the last `LinuxFile` and nobody else held the filesystem. `flush_all` ran on the state that all
calls before had made, and what it left is what there is at the end and at every call in between. -/
def LastDrop (calls : List (Shared × ShareAct)) (v : Shared) : Prop :=
  ∃ before u a order after, calls = before ++ (u, a) :: after ∧ (∀ call ∈ before, 0 < call.1.linuxFiles) ∧
    u.linuxFiles = 1 ∧ a.Drops order ∧ Inner.flushAll order u.world.fs = .ok () v.world.fs ∧
    v.strongCount = 0 ∧ ∀ call ∈ after, call.1 = v

/-- A run in which the last `LinuxFile` is only dropped when no file is open, and `flush_all` returns then, ends with a
`LinuxFile` left or with everything flushed by the drop of the last one. -/
theorem last_handle_flushes (hrun : Run depth w calls v) (hstart : 0 < w.linuxFiles)
    (hparts : ∀ call ∈ calls, call.2.Parts call.1) :
    0 < v.linuxFiles ∨ LastDrop calls v ∧ (v.world.fs.writable = true → NoneDirty v.world.fs) := by
  by_cases hgone : 0 < v.linuxFiles
  · exact .inl hgone
  obtain ⟨before, u, a, u', after, rfl, hbefore, hu, hends, hu', hafter⟩ :=
    hrun.exists_leaving (I := fun u ↦ 0 < u.linuxFiles) hstart hgone
  have hlast := (exec_leaves depth (Nat.ne_of_gt hu) (hparts (u, a) (by simp))).of_ends hends
  obtain ⟨order, hdrops, hnobody, hone, hflush⟩ := hlast (Nat.eq_zero_of_not_pos hu')
  obtain ⟨rfl, hsame⟩ := run_gone hafter hnobody
  exact .inr ⟨⟨before, u, a, order, after, rfl, hbefore, hone, hdrops, hflush, hnobody, hsame⟩,
    noneDirty_of_flushAll hflush⟩

/-- The test of `Parts`. -/
def parts (w : Shared) : ShareAct → Bool
  | dropFs order | dropContext _ order =>
    decide (w.openFiles = 0) && (Inner.flushAll order w.world.fs).okAnd fun _ _ ↦ true
  | operate _ | act _ | cloneFs | newContext _ => true

theorem Parts.of_test {a : ShareAct} (h : a.parts w = true) : a.Parts w := by
  have hparts : ∀ order, (decide (w.openFiles = 0) && (Inner.flushAll order w.world.fs).okAnd fun _ _ ↦ true) = true →
      w.PartsFlushed order := by
    intro order htest _
    rw [Bool.and_eq_true] at htest
    obtain ⟨_, fs, hflush, -⟩ := Outcome.exists_of_okAnd htest.2
    exact ⟨of_decide_eq_true htest.1, fs, hflush⟩
  cases a with
  | operate op => trivial
  | act a => trivial
  | cloneFs => trivial
  | newContext creds => trivial
  | dropFs order => exact fun _ ↦ hparts order h
  | dropContext k order => exact fun _ ↦ hparts order h

/-- Calls on the sample filesystem, which one `LinuxFile` holds. -/
def sampleShared (acts : List ShareAct) : Outcome Error Shared (List (Shared × ShareAct)) :=
  match sampleImage with
  | .ok _ first => Exec.play (exec 4) acts ⟨⟨first, [], []⟩, 1⟩
  | .err e first => .err e ⟨⟨first, [], []⟩, 1⟩
  | .panic => .panic

theorem sampleShared_runs {acts : List ShareAct} {test : List (Shared × ShareAct) → Shared → Bool}
    (h : (sampleShared acts).okAnd test = true) : ∃ first calls v, sampleImage = .ok () first ∧
      Run 4 ⟨⟨first, [], []⟩, 1⟩ calls v ∧ calls.map Prod.snd = acts ∧ test calls v = true := by
  obtain ⟨calls, v, hplay, htest⟩ := Outcome.exists_of_okAnd h
  unfold sampleShared at hplay
  cases himage : sampleImage with
  | ok _ first =>
    rw [himage] at hplay
    obtain ⟨hrun, hacts⟩ := Exec.runs_of_play hplay
    exact ⟨first, calls, v, rfl, hrun, hacts, htest⟩
  | err e first =>
    rw [himage] at hplay
    cases hplay
  | panic =>
    rw [himage] at hplay
    cases hplay

/-- Open a new file and write to it. -/
def openAndWrite : List ShareAct :=
  [act (.openOpts [0x2f, 0x61] { OpenOptions.fromLinuxFlags (oRdwr ||| oCreat) 0o644 with truncate := false }),
    operate (.writeData 2 0 [1])]

theorem last_handle_flushes_sample : ∃ first calls v, sampleImage = .ok () first ∧
    Run 4 ⟨⟨first, [], []⟩, 1⟩ calls v ∧
    calls.map Prod.snd = openAndWrite ++ [act (.drop 0), dropFs FlushOrder.inOrder] ∧ v.strongCount = 0 ∧
    LastDrop calls v ∧ NoneDirty v.world.fs := by
  have hplay : (sampleShared (openAndWrite ++ [act (.drop 0), dropFs FlushOrder.inOrder])).okAnd
      (fun calls v ↦ (calls.all fun call ↦ call.2.parts call.1) &&
        (decide (v.strongCount = 0) && v.world.fs.writable)) = true := by
    decide +kernel
  obtain ⟨first, calls, v, himage, hrun, hacts, htest⟩ := sampleShared_runs hplay
  rw [Bool.and_eq_true, Bool.and_eq_true] at htest
  obtain ⟨hparts, hgone, hwritable⟩ := htest
  have hgone := of_decide_eq_true hgone
  have hflushes := last_handle_flushes hrun Nat.one_pos fun call hcall ↦
    Parts.of_test (List.all_eq_true.mp hparts call hcall)
  have hnone := (strongCount_eq_zero.mp hgone).1
  obtain ⟨hlast, hclean⟩ := hflushes.resolve_left (by omega)
  exact ⟨first, calls, v, himage, hrun, hacts, hgone, hlast, hclean hwritable⟩

/-- The file is dropped after the last `LinuxFile`, and what was written is lost. -/
theorem last_file_does_not_flush : ∃ first calls v, sampleImage = .ok () first ∧
    Run 4 ⟨⟨first, [], []⟩, 1⟩ calls v ∧
    calls.map Prod.snd = openAndWrite ++ [dropFs FlushOrder.inOrder, act (.drop 0)] ∧ v.strongCount = 0 ∧
    ¬LastDrop calls v ∧ ¬NoneDirty v.world.fs := by
  have hplay : (sampleShared (openAndWrite ++ [dropFs FlushOrder.inOrder, act (.drop 0)])).okAnd
      (fun _ v ↦ decide (v.strongCount = 0) && (v.world.fs.writable && v.world.fs.dirtyInodes.contains 2)) = true := by
    decide +kernel
  obtain ⟨first, calls, v, himage, hrun, hacts, htest⟩ := sampleShared_runs hplay
  rw [Bool.and_eq_true, Bool.and_eq_true] at htest
  obtain ⟨hgone, hwritable, hdirty⟩ := htest
  have hwaits : ¬NoneDirty v.world.fs := by
    intro hnone
    unfold NoneDirty at hnone
    rw [hnone] at hdirty
    exact absurd hdirty (by decide)
  refine ⟨first, calls, v, himage, hrun, hacts, of_decide_eq_true hgone, ?_, hwaits⟩
  rintro ⟨before, u, a, order, after, -, -, -, -, hflush, -⟩
  exact hwaits (noneDirty_of_flushAll hflush hwritable)

end ShareAct

end LinuxFile
