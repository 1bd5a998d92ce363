import LinuxFile.Theorems.TableGrowth

/-!
# Slots keep their place

Between two calls that grow the inode table anyone may take blocks, and give back blocks that are not the
table's. The table stays contiguous, its blocks stay its own, and a number that has a slot keeps it.
-/

namespace LinuxFile

open Ledger

namespace Inner

/-- The table is numbered from zero on without gaps, and no block of it is free or in it twice. -/
structure TableOwned (s : Inner) : Prop where
  alloc : s.alloc.Ok
  contiguous : Contiguous 0 s.sb.inodeTableExtents
  fits : ∀ b, cover s.alloc.free.entries b + cover (tableRanges s.sb) b ≤ s.alloc.area b

/-- Whoever has a slot in `s` has the same in `t`. -/
def SlotsKept (s t : Inner) : Prop := ∀ ino slot, mapInodeSlot s.sb ino = .ok slot → mapInodeSlot t.sb ino = .ok slot

variable {s t : Inner}

theorem Inv.tableOwned {live : KeyMap Inode} {hand : List (ℕ × ℕ)} (h : s.Inv live hand) : s.TableOwned where
  alloc := h.owned.alloc
  contiguous := h.geometry.table
  fits := by
    intro b
    have hfits := h.owned.fits b
    unfold load at hfits
    omega

theorem TableOwned.table_le_one (h : s.TableOwned) (b : ℕ) : cover (tableRanges s.sb) b ≤ 1 := by
  have hfits := h.fits b
  have harea := s.alloc.area_le_one b
  omega

/-- Blocks that were taken belong to nobody the ledger knows. -/
theorem TableOwned.took (h : s.TableOwned) {d : AllocImage} {start want : ℕ} (hok : d.alloc.Ok)
    (htook : Allocator.Took start want s.alloc d.alloc) :
    TableOwned { s with alloc := d.alloc, image := d.image } ∧
      ∀ b, cover d.alloc.free.entries b + cover (tableRanges s.sb) b + span start want b ≤ d.alloc.area b := by
  have hfits : ∀ b, cover d.alloc.free.entries b + cover (tableRanges s.sb) b + span start want b ≤
      d.alloc.area b := by
    intro b
    have hcover := htook.cover b
    have hold := h.fits b
    omega
  refine ⟨⟨hok, h.contiguous, fun b ↦ ?_⟩, hfits⟩
  have hnew := hfits b
  change cover d.alloc.free.entries b + cover (tableRanges s.sb) b ≤ d.alloc.area b
  omega

theorem growInodeTable_keeps (h : s.TableOwned) :
    growInodeTable.Holds s (fun _ t ↦ t.TableOwned ∧ SlotsKept s t ∧
      inodeTableCapacity t.sb = inodeTableCapacity s.sb + 2 * inodesPerBlock)
      (fun _ t ↦ t.TableOwned ∧ t.sb = s.sb) := by
  unfold growInodeTable
  rw [Exec.holds_bind, onAlloc, Exec.holds_zoom]
  apply (Allocator.allocate_spec ⟨s.alloc, s.image⟩ h.alloc Nat.zero_lt_two).mono
  · rintro start d ⟨hok, htook, -, -⟩
    obtain ⟨-, hfits⟩ := h.took hok htook
    rw [Exec.holds_bind, Exec.holds_read]
    apply (appendTable_spec h.contiguous Nat.zero_lt_two (by decide)).bind _ (fun _ _ he ↦ he.elim)
    rintro extents _ ⟨rfl, hadd⟩
    rw [Exec.holds_modify]
    refine ⟨⟨hok, hadd.contiguous, fun b ↦ ?_⟩, fun ino slot hslot ↦ ?_, hadd.capacity⟩
    · have hcover := hadd.cover b
      have hnew := hfits b
      unfold tableRanges at hnew
      change cover d.alloc.free.entries b + cover (extents.map fun e ↦ (e.physical, e.length)) b ≤ d.alloc.area b
      omega
    · obtain ⟨phys, off⟩ := slot
      obtain ⟨hoff, -, hphys⟩ := slot_bounds hslot
      rw [hoff]
      exact mapInodeSlot_of_map (hadd.map _ _ hphys)
  · rintro e d ⟨-, hsame, -⟩
    refine ⟨⟨?_, h.contiguous, ?_⟩, rfl⟩
    · change d.alloc.Ok
      rw [hsame]
      exact h.alloc
    · change ∀ b, cover d.alloc.free.entries b + cover (tableRanges s.sb) b ≤ d.alloc.area b
      rw [hsame]
      exact h.fits

end Inner

/-- A call on the inode table or on blocks beside it. -/
inductive TableStep where
  | grow
  | allocate (want : ℕ)
  | free (start len : ℕ)

namespace TableStep

def exec : TableStep → Fs Unit
  | grow => Inner.growInodeTable
  | allocate want => do
    let _ ← Inner.onAlloc (Allocator.allocate want)
    pure ()
  | free start len => Inner.freeBlocks start len

/-- Only blocks of the data area are given back that are neither the table's nor free already. -/
def Beside (s : Inner) : TableStep → Prop
  | free start len => ∀ b, start ≤ b → b < start + len →
      0 < s.alloc.area b ∧ cover (tableRanges s.sb) b = 0 ∧ cover s.alloc.free.entries b = 0
  | _ => True

theorem step_keeps {s : Inner} (h : s.TableOwned) {step : TableStep} (hbeside : step.Beside s) :
    step.exec.Holds s (fun _ t ↦ t.TableOwned ∧ s.SlotsKept t) (fun _ t ↦ t.TableOwned ∧ s.SlotsKept t) := by
  have hsame : ∀ {t : Inner}, t.sb = s.sb → s.SlotsKept t := by
    intro t hsb ino slot hslot
    rw [hsb]
    exact hslot
  cases step with
  | grow =>
    apply (Inner.growInodeTable_keeps h).mono
    · exact fun _ t ht ↦ ⟨ht.1, ht.2.1⟩
    · exact fun _ t ht ↦ ⟨ht.1, hsame ht.2⟩
  | allocate want =>
    unfold exec
    rcases Nat.eq_zero_or_pos want with rfl | hpos
    · exact ⟨h, hsame rfl⟩
    · rw [Exec.holds_bind, Inner.onAlloc, Exec.holds_zoom]
      apply (Allocator.allocate_spec ⟨s.alloc, s.image⟩ h.alloc hpos).mono
      · rintro start d ⟨hok, htook, -, -⟩
        exact ⟨(h.took hok htook).1, hsame rfl⟩
      · rintro e d ⟨-, hd, -⟩
        refine ⟨⟨?_, h.contiguous, ?_⟩, hsame rfl⟩
        · change d.alloc.Ok
          rw [hd]
          exact h.alloc
        · change ∀ b, cover d.alloc.free.entries b + cover (tableRanges s.sb) b ≤ d.alloc.area b
          rw [hd]
          exact h.fits
  | free start len =>
    have hapart : ∀ b, cover s.alloc.free.entries b + cover (tableRanges s.sb) b + span start len b ≤
        s.alloc.area b := by
      intro b
      by_cases hin : start ≤ b ∧ b < start + len
      · obtain ⟨harea, htable, hfree⟩ := hbeside b hin.1 hin.2
        rw [htable, hfree, span_eq_one hin]
        exact harea
      · rw [span_eq_zero hin]
        exact h.fits b
    obtain ⟨hok, hfirst, htotal, hcover⟩ := Allocator.freeRange_spec h.alloc start len fun b ↦ by
      have := hapart b
      omega
    unfold exec Inner.freeBlocks
    rw [Exec.holds_modify]
    refine ⟨⟨hok, h.contiguous, fun b ↦ ?_⟩, hsame rfl⟩
    have harea : (s.alloc.freeRange start len).area b = s.alloc.area b := by
      unfold Allocator.area
      rw [hfirst, htotal]
    change cover (s.alloc.freeRange start len).free.entries b + cover (tableRanges s.sb) b ≤ _
    rw [hcover, harea]
    have := hapart b
    omega

/-- In every state of a run the table is contiguous and its extents apart, every number below the capacity has a slot
in a block of the table, different numbers have different bytes, and a slot that was there at the start still is. -/
theorem slots_stable {s t : Inner} {calls : List (Inner × TableStep)} (h : s.TableOwned)
    (hrun : Exec.Runs exec s calls t) (hbeside : ∀ call ∈ calls, call.2.Beside call.1) :
    Contiguous 0 t.sb.inodeTableExtents ∧ (tableRanges t.sb).Pairwise Apart ∧
    (∀ ino, ino < inodeTableCapacity t.sb → ∃ phys off, mapInodeSlot t.sb ino = .ok (phys, off) ∧
      off + inodeSize ≤ blockSize ∧ 0 < cover (tableRanges t.sb) phys) ∧
    (∀ j k phys phys' off off', j ≠ k → mapInodeSlot t.sb j = .ok (phys, off) →
      mapInodeSlot t.sb k = .ok (phys', off') → phys ≠ phys' ∨ off + inodeSize ≤ off' ∨ off' + inodeSize ≤ off) ∧
    ∀ ino slot, mapInodeSlot s.sb ino = .ok slot → mapInodeSlot t.sb ino = .ok slot := by
  have hinv := hrun.invariant (I := fun u ↦ u.TableOwned ∧ s.SlotsKept u) (C := fun call ↦ call.2.Beside call.1)
    ⟨h, fun ino slot hslot ↦ hslot⟩ hbeside fun u step hu hstep ↦ by
      apply (step_keeps hu.1 hstep).mono
      · exact fun _ v hv ↦ ⟨hv.1, fun ino slot hslot ↦ hv.2 ino slot (hu.2 ino slot hslot)⟩
      · exact fun _ v hv ↦ ⟨hv.1, fun ino slot hslot ↦ hv.2 ino slot (hu.2 ino slot hslot)⟩
  obtain ⟨ht, hkept⟩ := hinv.1
  refine ⟨ht.contiguous, ?_, fun ino hino ↦ ?_, fun j k phys phys' off off' hjk hj hk ↦ ?_, hkept⟩
  · have hfits : Fits t.alloc.firstData t.alloc.totalBlocks (tableRanges t.sb) := by
      intro b
      have := ht.fits b
      unfold Allocator.area at this
      omega
    exact hfits.pairwise
  · obtain ⟨phys, hslot⟩ := exists_slot ht.contiguous hino
    obtain ⟨-, hroom, hphys⟩ := slot_bounds hslot
    refine ⟨phys, _, hslot, hroom, ?_⟩
    obtain ⟨e, he, hmap⟩ := List.exists_of_findSome?_eq_some hphys
    obtain ⟨⟨hlow, hhigh⟩, heq⟩ := Extent.map_eq_some_iff.mp hmap
    have hmem : (e.physical, e.length) ∈ tableRanges t.sb := List.mem_map_of_mem he
    have hspan := span_le_cover hmem phys
    unfold Extent.logicalEnd at hhigh
    rw [span_eq_one (by dsimp only; omega)] at hspan
    omega
  · by_cases hphys : phys = phys'
    · subst hphys
      exact Or.inr (slot_apart ht.table_le_one hj hk hjk)
    · exact Or.inl hphys

/-- The table grows three times; between the second and the third time a block beside it is given back. -/
theorem slots_stable_sample : ∃ s calls t, sampleImage = .ok () s ∧ Exec.Runs exec s calls t ∧
    calls.map Prod.snd = [.grow, .allocate 1, .grow, .free 15 1, .grow] ∧
    Contiguous 0 t.sb.inodeTableExtents ∧ (tableRanges t.sb).Pairwise Apart := by
  have hplay : (sampleRun (Exec.play exec [.grow, .allocate 1, .grow, .free 15 1, .grow])).okAnd
      (fun calls _ ↦ calls.all fun call ↦ match call.2 with
        | .free start len => (List.range' start len).all fun b ↦ 0 < call.1.alloc.area b &&
            cover (tableRanges call.1.sb) b == 0 && cover call.1.alloc.free.entries b == 0
        | _ => true) = true := by
    decide +kernel
  obtain ⟨calls, t, hrun, htest⟩ := Outcome.exists_of_okAnd hplay
  unfold sampleRun at hrun
  cases himage : sampleImage with
  | ok _ s =>
    rw [himage] at hrun
    obtain ⟨hruns, hcalls⟩ := Exec.runs_of_play hrun
    have hbeside : ∀ call ∈ calls, call.2.Beside call.1 := by
      intro call hcall
      have hcheck := List.all_eq_true.mp htest call hcall
      cases hstep : call.2 with
      | free start len =>
        rw [hstep] at hcheck
        intro b hlow hhigh
        have hb := List.all_eq_true.mp hcheck b (List.mem_range'_1.mpr ⟨hlow, hhigh⟩)
        rw [Bool.and_eq_true, Bool.and_eq_true, decide_eq_true_eq, beq_iff_eq, beq_iff_eq] at hb
        exact ⟨hb.1.1, hb.1.2, hb.2⟩
      | _ => trivial
    unfold sampleImage at himage
    obtain ⟨live, hinv⟩ := Inner.inv_of_create himage
    have hstable := slots_stable hinv.tableOwned hruns hbeside
    exact ⟨s, calls, t, rfl, hruns, hcalls, hstable.1, hstable.2.1⟩
  | err e s =>
    rw [himage] at hrun
    cases hrun
  | panic =>
    rw [himage] at hrun
    cases hrun

end TableStep

end LinuxFile
