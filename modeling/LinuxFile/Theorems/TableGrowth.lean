import LinuxFile.Spec.Inodes
import LinuxFile.Spec.Mount
import LinuxFile.Theorems.Sample

/-!
# The superblock after runs of allocations

Every call that grows the inode table may add an extent to the superblock, and the superblock has room
for sixteen of them. A run of inode and block allocations keeps every other field in the range of its
place on disk, so the superblock is read back as it was exactly as long as the table has at most
sixteen extents.
-/

set_option autoImplicit false

namespace LinuxFile

/-- One allocation of a run. -/
inductive AllocStep where
  | inode (mode : UInt16) (uid gid : UInt32)
  | blocks (want : ℕ)

namespace AllocStep

def exec : AllocStep → Fs Unit
  | inode mode uid gid => do
    let _ ← Inner.allocInode mode uid gid
    pure ()
  | blocks want => do
    let _ ← Inner.onAlloc (Allocator.allocate want)
    pure ()

end AllocStep

namespace Inner

variable {s t first : Inner} {live : KeyMap Inode} {calls : List (Inner × AllocStep)}

/-! ## Allocations that fail -/

/-- Everything but the image is as it was, and the image may have grown. -/
def Retained (s t : Inner) : Prop := ∃ img, Image.Grown s.image img ∧ t = { s with image := img }

theorem Retained.refl (s : Inner) : Retained s s := ⟨s.image, Image.Grown.refl _, rfl⟩

theorem allocate_fails (h : s.alloc.Ok) (want : ℕ) :
    (onAlloc (Allocator.allocate want)).Holds s (fun _ _ ↦ True) (fun _ t ↦ Retained s t) := by
  rw [onAlloc, Exec.holds_zoom]
  rcases Nat.eq_zero_or_pos want with rfl | hpos
  · exact Retained.refl s
  · refine (Allocator.allocate_spec ⟨s.alloc, s.image⟩ h hpos).mono (fun _ _ _ ↦ trivial) ?_
    rintro _ d ⟨-, halloc, hgrown⟩
    refine ⟨d.image, hgrown, ?_⟩
    rw [halloc]

/-- Where the length of an extent runs over, the program panics. -/
theorem appendTable_never_fails (extents : List Extent) (start add : ℕ) (s : Inner) :
    (appendTable extents start add).Holds s (fun _ _ ↦ True) (fun _ _ ↦ False) := by
  unfold appendTable
  cases extents.getLast? with
  | none => exact trivial
  | some last =>
    dsimp only
    split_ifs
    · rw [Exec.holds_bind]
      exact holds_addU32 fun _ ↦ trivial
    · exact trivial

theorem growInodeTable_fails (h : s.alloc.Ok) :
    growInodeTable.Holds s (fun _ _ ↦ True) (fun _ t ↦ Retained s t) := by
  unfold growInodeTable
  refine (allocate_fails h 2).bind (fun start t _ ↦ ?_) (fun _ _ ht ↦ ht)
  rw [Exec.holds_bind, Exec.holds_read]
  refine (appendTable_never_fails _ start 2 t).bind (fun extents t _ ↦ ?_) (fun _ _ he ↦ he.elim)
  rw [Exec.holds_modify]
  exact trivial

theorem allocInode_fails (h : s.alloc.Ok) (mode : UInt16) (uid gid : UInt32) :
    (allocInode mode uid gid).Holds s (fun _ _ ↦ True) (fun _ t ↦ Retained s t) := by
  have hinstall : ∀ ino u, (installInode ino mode uid gid).Holds u (fun _ _ ↦ True) (fun _ t ↦ Retained s t) :=
    fun ino u ↦ (installInode_spec mode uid gid).mono (fun _ _ _ ↦ trivial) (fun _ _ he ↦ he.elim)
  rw [allocInode_eq]
  unfold requireWrite
  rw [Exec.holds_bind, Exec.holds_bind, Exec.holds_read]
  split_ifs with hwritable
  swap
  · exact Retained.refl s
  rw [Exec.holds_pure]
  unfold takeInodeNumber
  rw [Exec.holds_bind, Exec.holds_bind, Exec.holds_read]
  cases s.freeInodes.getLast? with
  | some ino =>
    dsimp only
    rw [Exec.holds_bind, Exec.holds_modify, Exec.holds_pure]
    exact hinstall ino _
  | none =>
    dsimp only
    rw [Exec.holds_bind, Exec.holds_read]
    have hgrow : (Exec.when (inodeTableCapacity s.sb ≤ s.sb.nextInode) growInodeTable).Holds s (fun _ _ ↦ True)
        (fun _ t ↦ Retained s t) := by
      rw [Exec.holds_when]
      exact ⟨fun _ ↦ growInodeTable_fails h, fun _ ↦ trivial⟩
    refine hgrow.bind (fun _ g _ ↦ ?_) (fun _ _ ht ↦ ht)
    rw [Exec.holds_bind]
    refine holds_addU64 fun _ ↦ ?_
    rw [Exec.holds_bind, Exec.holds_modify, Exec.holds_pure]
    exact hinstall _ _

/-! ## Runs -/

/-- What holds after every allocation. -/
def TableOk (s : Inner) : Prop := ∃ live, s.Inv live [] ∧ s.sb.InRange

theorem TableOk.retained (h : s.TableOk) (ht : Retained s t) : t.TableOk := by
  obtain ⟨live, hinv, hrange⟩ := h
  obtain ⟨img, hgrown, rfl⟩ := ht
  have hquiet : CachedImage.Quiet s.disk ⟨s.cache, img⟩ := CachedImage.Step.of_grown hgrown
  exact ⟨live, hinv.quiet hquiet, hrange⟩

theorem allocStep_tableOk (h : s.TableOk) (step : AllocStep) :
    step.exec.Holds s (fun _ t ↦ t.TableOk) (fun _ t ↦ t.TableOk) := by
  obtain ⟨live, hinv, hrange⟩ := h
  have hfails : ∀ t, Retained s t → t.TableOk := fun _ ht ↦ TableOk.retained ⟨live, hinv, hrange⟩ ht
  cases step with
  | inode mode uid gid =>
    refine ((allocInode_spec hinv mode uid gid).and (allocInode_fails hinv.owned.alloc mode uid gid)).bind ?_
      (fun _ t he ↦ hfails t he.2)
    rintro ino t ⟨hnew, -⟩
    exact ⟨_, hnew.inv, hnew.inRange hrange⟩
  | blocks want =>
    rcases Nat.eq_zero_or_pos want with rfl | hpos
    · exact ⟨live, hinv, hrange⟩
    · refine Exec.Holds.bind (Exec.Holds.and (allocate_keeps (T := fun _ ↦ True) hinv hpos)
        (allocate_fails hinv.owned.alloc want)) ?_ (fun _ t he ↦ hfails t he.2)
      rintro start _ ⟨⟨_, -, rfl, hinv', -, alloc, img, rfl, -⟩, -⟩
      exact ⟨_, hinv'.forget, hrange⟩

theorem runs_tableOk {opts : CreateOptions} {env : Env} {uuid : Buf 16} {faults : List (Option ErrorKind)}
    {order : FlushOrder} (hcreate : create opts env uuid faults order = .ok () first)
    (hrun : Exec.Runs AllocStep.exec first calls s) : s.TableOk := by
  obtain ⟨live, hcreated⟩ := (create_spec opts env uuid faults order).of_ok hcreate
  have hfirst : first.TableOk := ⟨live, hcreated.inv, hcreated.inRange⟩
  exact (hrun.invariant (C := fun _ ↦ True) hfirst (fun _ _ ↦ trivial) fun _ step h _ ↦ allocStep_tableOk h step).1

end Inner

/-- The superblock is read back as it was, and places the same inodes. -/
def Superblock.Lossless (sb : Superblock) : Prop :=
  ∃ sb', Superblock.decode sb.encode = .ok sb' ∧ sb' = sb ∧
    inodeTableCapacity sb' = inodeTableCapacity sb ∧ ∀ ino, mapInodeSlot sb' ino = mapInodeSlot sb ino

theorem Superblock.lossless_iff_decode {sb : Superblock} :
    sb.Lossless ↔ Superblock.decode sb.encode = .ok sb := by
  constructor
  · rintro ⟨sb', hdecode, rfl, -⟩
    exact hdecode
  · intro hdecode
    exact ⟨sb, hdecode, rfl, rfl, fun _ ↦ rfl⟩

/-- Along every run of allocations, failing ones included, the superblock survives being written exactly while the
inode table has at most sixteen extents. -/
theorem superblock_lossless_iff {opts : CreateOptions} {env : Env} {uuid : Buf 16} {faults : List (Option ErrorKind)}
    {order : FlushOrder} {first s : Inner} {calls : List (Inner × AllocStep)}
    (hcreate : Inner.create opts env uuid faults order = .ok () first)
    (hrun : Exec.Runs AllocStep.exec first calls s) :
    s.sb.Lossless ↔ s.sb.inodeTableExtents.length ≤ Superblock.maxTableExtents := by
  obtain ⟨-, -, hrange⟩ := Inner.runs_tableOk hcreate hrun
  rw [Superblock.lossless_iff_decode, Superblock.decode_encode_iff _ hrange]

/-- Inode allocations with a block allocation after every thirty-two of them. -/
def scatteredSteps (n : ℕ) : List AllocStep :=
  (List.range n).map (fun k ↦ if k % 33 = 32 then .blocks 1 else .inode 0o100644 0 0)

/-- The run on the sample filesystem, and what the test says about its end. -/
def scatteredRun (n : ℕ) (test : Inner → Bool) : Bool :=
  sampleImage.okAnd fun _ first ↦ (Exec.play AllocStep.exec (scatteredSteps n) first).okAnd fun _ s ↦ test s

theorem scatteredRun_runs {n : ℕ} {test : Inner → Bool} (h : scatteredRun n test = true) :
    ∃ first calls s, sampleImage = .ok () first ∧ Exec.Runs AllocStep.exec first calls s ∧
      calls.map Prod.snd = scatteredSteps n ∧ test s = true := by
  obtain ⟨_, first, hfirst, hplay⟩ := Outcome.exists_of_okAnd h
  obtain ⟨calls, s, hcalls, htest⟩ := Outcome.exists_of_okAnd hplay
  obtain ⟨hrun, hsteps⟩ := Exec.runs_of_play hcalls
  exact ⟨first, calls, s, hfirst, hrun, hsteps, htest⟩

theorem superblock_lossless_short : ∃ first calls s, sampleImage = .ok () first ∧
    Exec.Runs AllocStep.exec first calls s ∧ calls.map Prod.snd = scatteredSteps 40 ∧ s.sb.Lossless := by
  have hshort : scatteredRun 40 (fun s ↦ decide (s.sb.inodeTableExtents.length ≤ Superblock.maxTableExtents)) = true := by
    decide +kernel
  obtain ⟨first, calls, s, himage, hrun, hsteps, htest⟩ := scatteredRun_runs hshort
  exact ⟨first, calls, s, himage, hrun, hsteps, (superblock_lossless_iff himage hrun).mpr (of_decide_eq_true htest)⟩

theorem superblock_loses_extents : ∃ first calls s, sampleImage = .ok () first ∧
    Exec.Runs AllocStep.exec first calls s ∧ calls.map Prod.snd = scatteredSteps 540 ∧ ¬s.sb.Lossless := by
  have hlong : scatteredRun 540 (fun s ↦ decide (Superblock.maxTableExtents < s.sb.inodeTableExtents.length)) = true := by
    decide +kernel
  obtain ⟨first, calls, s, himage, hrun, hsteps, htest⟩ := scatteredRun_runs hlong
  refine ⟨first, calls, s, himage, hrun, hsteps, fun hlossless ↦ ?_⟩
  obtain ⟨-, -, hrange⟩ := Inner.runs_tableOk himage hrun
  rw [Superblock.lossless_iff_decode, Superblock.decode_encode_iff _ hrange] at hlossless
  have := of_decide_eq_true htest
  omega

end LinuxFile
