import LinuxFile.Spec.TidyRuns
import LinuxFile.Theorems.Sample

/-!
# Every block has one owner

From a new filesystem on, the free map, the inode table, the stored allocator map and the inodes never share a
block, as long as nothing but the directory operations writes into a directory. A program that writes the
entries of a directory itself can name a slot of the table that was never filled. When the table grows, its new
blocks keep what a removed file had in them, so that file decides what inode is found there.
-/

namespace LinuxFile

open Ledger

namespace Inner

variable {s t first : Inner} {calls : List (Inner × Operation)}

/-- Every range of blocks with an owner: free, of the table, of the stored allocator map, or of an inode. -/
def ownedRanges (s : Inner) : List (ℕ × ℕ) :=
  s.alloc.free.entries ++ (tableRanges s.sb ++ (s.mapRanges ++ s.inodes.entries.flatMap fun e ↦ e.2.ranges))

theorem cover_flatMap (entries : List (ℕ × Inode)) (b : ℕ) :
    cover (entries.flatMap fun e ↦ e.2.ranges) b = (entries.map fun e ↦ cover e.2.ranges b).sum := by
  induction entries with
  | nil => rfl
  | cons e entries ih => rw [List.flatMap_cons, cover_append, ih, List.map_cons, List.sum_cons]

theorem cover_ownedRanges (s : Inner) (b : ℕ) : cover s.ownedRanges b = s.load s.inodes b := by
  have hinodes : cover (s.inodes.entries.flatMap fun e ↦ e.2.ranges) b =
      s.inodes.total (fun _ i ↦ cover i.ranges b) := cover_flatMap _ b
  unfold ownedRanges load
  rw [cover_append, cover_append, cover_append, hinodes]
  omega

/-- No two owners share a block, and all blocks with an owner are in the data area. -/
structure SingleOwner (s : Inner) : Prop where
  apart : s.ownedRanges.Pairwise Ledger.Apart
  inside : ∀ r ∈ s.ownedRanges, 0 < r.2 → s.alloc.firstData ≤ r.1 ∧ r.1 + r.2 ≤ s.alloc.totalBlocks

theorem Tidy.fits (h : s.Tidy) : Fits s.alloc.firstData s.alloc.totalBlocks s.ownedRanges := by
  intro b
  rw [cover_ownedRanges]
  have hfits := h.sound.inv.owned.fits b
  rw [cover_nil, Nat.add_zero] at hfits
  exact hfits

theorem Tidy.singleOwner (h : s.Tidy) : s.SingleOwner :=
  ⟨h.fits.pairwise, fun _ hr hpos ↦ h.fits.within hr hpos⟩

/-- What the allocator hands out belongs to nobody. -/
theorem Tidy.allocate (h : s.Tidy) {want start : ℕ} (hwant : 0 < want)
    (halloc : onAlloc (Allocator.allocate want) s = .ok start t) :
    ∀ r ∈ tableRanges s.sb ++ (s.mapRanges ++ s.inodes.entries.flatMap fun e ↦ e.2.ranges),
      Ledger.Apart (start, want) r := by
  have hspec : (onAlloc (Allocator.allocate want)).Holds s
      (fun start t ↦ Allocator.Took start want s.alloc t.alloc) (fun _ _ ↦ True) := by
    unfold onAlloc
    rw [Exec.holds_zoom]
    exact (Allocator.allocate_spec ⟨s.alloc, s.image⟩ h.sound.inv.owned.alloc hwant).mono
      (fun _ _ hd ↦ hd.2.1) (fun _ _ _ ↦ trivial)
  have htook := hspec.of_ok halloc
  intro r hr b ⟨hb, hbr⟩
  have hfits := h.fits b
  have hr' : span r.1 r.2 b ≤ cover (tableRanges s.sb ++ (s.mapRanges ++ s.inodes.entries.flatMap fun e ↦ e.2.ranges)) b :=
    span_le_cover hr b
  have hcover := htook.cover b
  have harea := t.alloc.area_le_one b
  rw [span_eq_one hb] at hcover
  rw [span_eq_one hbr] at hr'
  unfold ownedRanges at hfits
  rw [cover_append] at hfits
  change _ ≤ s.alloc.area b at hfits
  omega

/-- What an owner gives back is not free. -/
theorem SingleOwner.not_free (h : s.SingleOwner) : ∀ e ∈ s.alloc.free.entries,
    ∀ r ∈ tableRanges s.sb ++ (s.mapRanges ++ s.inodes.entries.flatMap fun e ↦ e.2.ranges), Ledger.Apart e r :=
  (List.pairwise_append.mp h.apart).2.2

/-- The calls of the run are regular, and the host fails none of them. -/
def Clean (calls : List (Inner × Operation)) : Prop :=
  ∀ call ∈ calls, call.2.Regular call.1 ∧ call.1.Unhurt call.2

/-- Over a run from a new filesystem in which no call writes into a directory, blocks have one owner, the allocator
hands out none that has another, and a block that can be given back is not free. -/
theorem blocks_have_one_owner {opts : CreateOptions} {env : Env} {uuid : Buf 16} {faults : List (Option ErrorKind)}
    {order : FlushOrder} (hcreate : create opts env uuid faults order = .ok () first)
    (hrun : Exec.Runs Operation.exec first calls s) (hcalls : Clean calls) :
    s.SingleOwner ∧
      (∀ want start t, 0 < want → onAlloc (Allocator.allocate want) s = .ok start t →
        ∀ r ∈ tableRanges s.sb ++ (s.mapRanges ++ s.inodes.entries.flatMap fun e ↦ e.2.ranges),
          Ledger.Apart (start, want) r) ∧
      ∀ e ∈ s.alloc.free.entries,
        ∀ r ∈ tableRanges s.sb ++ (s.mapRanges ++ s.inodes.entries.flatMap fun e ↦ e.2.ranges),
          Ledger.Apart e r := by
  have htidy := ((create_tidy hcreate).runs hrun hcalls).1
  exact ⟨htidy.singleOwner, fun want start t hwant halloc ↦ htidy.allocate hwant halloc, htidy.singleOwner.not_free⟩

/-! ## Concrete runs -/

/-- A file is written, copied to disk, cut and removed. -/
def writeAndRemove : List Operation :=
  [.createChild rootIno [0x61] (sIfreg ||| 0o644) 0 0 0 Creds.root, .writeData 2 200 [1, 2, 3],
    .flushAll FlushOrder.inOrder, .truncateData 2 100, .unlinkName rootIno [0x61] false Creds.root]

theorem write_and_remove_owned : ∃ first calls s, sampleImage = .ok () first ∧
    Exec.Runs Operation.exec first calls s ∧ calls.map Prod.snd = writeAndRemove ∧ Clean calls ∧ s.SingleOwner := by
  have hplay : (sampleCalls writeAndRemove).okAnd (fun calls _ ↦ calls.all fun call ↦
      call.2.regular call.1) = true := by
    decide +kernel
  obtain ⟨first, calls, s, himage, hrun, hops, hreturns, htest⟩ := sampleCalls_runs hplay
  have hcalls : Clean calls := by
    intro call hcall
    exact ⟨.of_test (List.all_eq_true.mp htest call hcall), .of_returns (hreturns call hcall)⟩
  exact ⟨first, calls, s, himage, hrun, hops, hcalls, (blocks_have_one_owner himage hrun hcalls).1⟩

/-- An inode with one data block, which is in the inode table. -/
def strayInode : Inode :=
  { Inode.new ⟨0, 0⟩ 33 (sIfreg ||| 0o644) 0 0 with
    dataKind := .extents
    size := 4096
    extents := [⟨0, 10, 1, 0, 0⟩] }

/-- Its slot, with a byte that no field uses and the checksum for it. -/
def straySlot : Buf inodeSize := (strayInode.encodeBody.putU8 250 1).putU32 252 672869640

/-- The root directory with an entry for the number 33. -/
def strayRoot : Bytes :=
  encodeDir [⟨rootIno, .directory, [0x2e]⟩, ⟨rootIno, .directory, [0x2e, 0x2e]⟩, ⟨33, .file, [0x61]⟩]

/-- A file leaves the slot in a block that the table then takes, the root directory is given an entry for it,
and the entry is looked up. -/
def nameUnusedSlot : List Operation :=
  [.createChild rootIno [0x61] (sIfreg ||| 0o644) 0 0 0 Creds.root,
    .writeData 2 256 (straySlot.slice 0 inodeSize), .unlinkName rootIno [0x61] false Creds.root] ++
    (List.range 31).map (fun n ↦ .createChild (n + 1) [0x64] (sIfdir ||| 0o755) 0 0 0 Creds.root) ++
    [.writeData rootIno 0 strayRoot, .walk ⟨rootIno, true, Creds.root⟩ 1 rootIno [slash, 0x61]]

/-- What the lookup brings into memory. -/
structure Stray (s : Inner) (i : Inode) : Prop where
  found : s.inodes.find? 33 = some i
  clean : s.dirtyInodes.contains 33 = false
  extents : (10, 1) ∈ i.ranges
  table : (10, 2) ∈ tableRanges s.sb
  slot : (s.disk.view 13).byte (256 + 250) = 1 ∧ i.encode.byte 250 = 0
  place : mapInodeSlot s.sb 33 = .ok (13, 256)

/-- The same as a test. -/
def stray (s : Inner) : Bool :=
  (s.inodes.find? 33).any (fun i ↦ i.ranges.contains (10, 1) && i.encode.byte 250 == 0) &&
    !s.dirtyInodes.contains 33 && (tableRanges s.sb).contains (10, 2) &&
    (s.disk.view 13).byte (256 + 250) == 1 &&
    match mapInodeSlot s.sb 33 with
    | .ok place => place == (13, 256)
    | .error _ => false

theorem Stray.of_test (h : s.stray = true) : ∃ i, s.Stray i := by
  unfold stray at h
  rw [Bool.and_eq_true, Bool.and_eq_true, Bool.and_eq_true, Bool.and_eq_true, Option.any_eq_true,
    Bool.not_eq_true', beq_iff_eq, List.contains_iff_mem] at h
  obtain ⟨⟨⟨⟨⟨i, hi, htest⟩, hclean⟩, htable⟩, hview⟩, hplace⟩ := h
  rw [Bool.and_eq_true, beq_iff_eq, List.contains_iff_mem] at htest
  refine ⟨i, hi, hclean, htest.1, htable, ⟨hview, htest.2⟩, ?_⟩
  cases hslot : mapInodeSlot s.sb 33 with
  | ok place =>
    rw [hslot] at hplace
    rw [beq_iff_eq.mp hplace]
  | error e =>
    rw [hslot] at hplace
    cases hplace

theorem stray_is_loaded : ∃ first calls s i, sampleImage = .ok () first ∧
    Exec.Runs Operation.exec first calls s ∧ calls.map Prod.snd = nameUnusedSlot ∧
    (∀ call ∈ calls, call.1.Unhurt call.2 ∧ ∀ k ∈ call.2.numbers, (call.1.inodes.find? k).isSome) ∧ s.Stray i := by
  have hplay : (sampleCalls nameUnusedSlot).okAnd (fun calls s ↦ (calls.all fun call ↦
      call.2.numbers.all fun k ↦ (call.1.inodes.find? k).isSome) && s.stray) = true := by
    decide +kernel
  obtain ⟨first, calls, s, himage, hrun, hops, hreturns, htest⟩ := sampleCalls_runs hplay
  rw [Bool.and_eq_true] at htest
  obtain ⟨i, hi⟩ := Stray.of_test htest.2
  refine ⟨first, calls, s, i, himage, hrun, hops, fun call hcall ↦ ⟨.of_returns (hreturns call hcall), ?_⟩, hi⟩
  exact List.all_eq_true.mp (List.all_eq_true.mp htest.1 call hcall)

/-- An inode is found whose data block is a block of the inode table. -/
theorem stray_inode_shares_table : ∃ first calls s, sampleImage = .ok () first ∧
    Exec.Runs Operation.exec first calls s ∧
    (∀ call ∈ calls, call.1.Unhurt call.2 ∧ ∀ k ∈ call.2.numbers, (call.1.inodes.find? k).isSome) ∧
    ¬s.SingleOwner := by
  obtain ⟨first, calls, s, i, himage, hrun, -, hcalls, hi⟩ := stray_is_loaded
  refine ⟨first, calls, s, himage, hrun, hcalls, fun h ↦ ?_⟩
  have hinodes : (10, 1) ∈ s.mapRanges ++ s.inodes.entries.flatMap fun e ↦ e.2.ranges := by
    apply List.mem_append_right
    exact List.mem_flatMap.mpr ⟨(33, i), KeyMap.find?_eq_some_iff.mp hi.found, hi.extents⟩
  have happend := List.pairwise_append.mp (List.pairwise_append.mp h.apart).2.1
  exact happend.2.2 _ hi.table _ hinodes 10 ⟨by decide, by decide⟩

end Inner

end LinuxFile
