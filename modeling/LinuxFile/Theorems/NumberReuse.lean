import LinuxFile.Spec.Effects
import LinuxFile.Spec.Remounted
import LinuxFile.Theorems.Orphans

/-!
# Inode numbers after a mount

Whether a number is free is kept in memory as a list, and is read off the slots when an image is opened: a slot
that is zero, or whose mode is zero, or that does not decode, counts as free. `mknod` takes any mode, zero too, and
an inode with mode zero has a name and is in use, but its slot counts as free.
-/

namespace LinuxFile

open Ledger

namespace Inner

variable {s t m : Inner} {k : ℕ} {i : Inode} {img rest : Image} {writable : Bool} {cacheBlocks : ℕ} {sync : SyncMode}
  {env : Env}

/-- A directory entry names the number. -/
def Named (t : Inner) (k : ℕ) : Prop := ∃ dir entries, t.node.dir dir = some entries ∧ ∃ e ∈ entries, e.ino = k

/-- The free numbers are different, and none of them has a name or an inode. -/
structure FreshNumbers (t m : Inner) : Prop where
  nodup : m.freeInodes.Nodup
  unnamed : ∀ k ∈ m.freeInodes, ¬t.Named k
  unused : ∀ k ∈ m.freeInodes, t.node k = none

/-- Every inode that a mount's table can hold has a mode, and every name has an inode. -/
def Moded (t m : Inner) : Prop :=
  ∀ k, firstUserIno ≤ k → k < t.sb.nextInode → k < inodeTableCapacity m.sb →
    (∀ n, t.node k = some n → n.mode ≠ 0) ∧ (t.Named k → t.node k ≠ none)

theorem inUse_iff : t.inUse k = true ↔ ∃ n, t.node k = some n ∧ n.mode ≠ 0 := by
  unfold inUse
  rw [Option.any_eq_true]
  constructor
  · rintro ⟨i, hi, hmode⟩
    exact ⟨_, node_of_mem hi, bne_iff_ne.mp hmode⟩
  · rintro ⟨n, hn, hmode⟩
    obtain ⟨i, hi, rfl⟩ := mem_of_node hn
    exact ⟨i, hi, bne_iff_ne.mpr hmode⟩

/-- The numbers that are free after the mount. -/
theorem Flat.mem_freeInodes (h : t.Flat) (himage : Image.SameFile t.image img)
    (hanswered : ∀ base img', loadMount writable cacheBlocks sync env img = .ok base img' →
      ScanAnswered (scannedNumbers base.sb) base)
    (hopen : openImage writable cacheBlocks sync env img = .ok m rest) :
    k ∈ m.freeInodes ↔ firstUserIno ≤ k ∧ k < t.sb.nextInode ∧ k < inodeTableCapacity m.sb ∧
      ∀ n, t.node k = some n → n.mode = 0 := by
  obtain ⟨base, hm, -, hnext⟩ := h.reopened himage hopen
  have hm_next : m.sb.nextInode = t.sb.nextInode := by
    rw [hm.sb]
    exact hnext
  have hfree : (!t.inUse k) = true ↔ ∀ n, t.node k = some n → n.mode = 0 := by
    rw [Bool.not_eq_true', ← Bool.not_eq_true, inUse_iff]
    push Not
    exact Iff.rfl
  rw [h.freeInodes himage hanswered hopen, List.mem_filter, mem_scannedNumbers, Bool.and_eq_true, decide_eq_true_eq,
    hfree, hm_next]
  constructor
  · rintro ⟨⟨-, hlow, hcapacity⟩, hfirst, hmode⟩
    exact ⟨hfirst, hlow, hcapacity, hmode⟩
  · rintro ⟨hfirst, hlow, hcapacity, hmode⟩
    exact ⟨⟨by unfold firstUserIno at hfirst; omega, hlow, hcapacity⟩, hfirst, hmode⟩

/-- After flushing a reached filesystem and opening its image, the free numbers are fresh exactly if every inode has a
mode and every name has an inode. -/
theorem rebuilt_numbers_fresh_iff {order : FlushOrder} (hs : s.Reached) (hflush : flushAll order s = .ok () t)
    (hjournal : Journal.Inert t.image t.sb) (himage : Image.SameFile t.image img)
    (hanswered : ∀ base img', loadMount writable cacheBlocks sync env img = .ok base img' →
      ScanAnswered (scannedNumbers base.sb) base)
    (hopen : openImage writable cacheBlocks sync env img = .ok m rest) : FreshNumbers t m ↔ Moded t m := by
  have hflat := hs.tidy.flat hflush hjournal
  have hmem := fun k ↦ hflat.mem_freeInodes (k := k) himage hanswered hopen
  constructor
  · intro h k hfirst hlow hcapacity
    have hfree : (∀ n, t.node k = some n → n.mode = 0) → k ∈ m.freeInodes := fun hmode ↦
      (hmem k).mpr ⟨hfirst, hlow, hcapacity, hmode⟩
    refine ⟨fun n hn hmode ↦ ?_, fun hnamed hnone ↦ ?_⟩
    · have hk : k ∈ m.freeInodes := hfree fun n' hn' ↦ by
        rw [hn] at hn'
        cases hn'
        exact hmode
      rw [h.unused k hk] at hn
      cases hn
    · refine h.unnamed k (hfree fun n hn ↦ ?_) hnamed
      rw [hnone] at hn
      cases hn
  · intro h
    have hunused : ∀ k ∈ m.freeInodes, t.node k = none := by
      intro k hk
      obtain ⟨hfirst, hlow, hcapacity, hmode⟩ := (hmem k).mp hk
      rw [Option.eq_none_iff_forall_ne_some]
      intro n hn
      exact (h k hfirst hlow hcapacity).1 n hn (hmode n hn)
    refine ⟨?_, fun k hk hnamed ↦ ?_, hunused⟩
    · rw [hflat.freeInodes himage hanswered hopen]
      exact List.Nodup.filter _ List.nodup_range'
    · obtain ⟨hfirst, hlow, hcapacity, -⟩ := (hmem k).mp hk
      exact (h k hfirst hlow hcapacity).2 hnamed (hunused k hk)

/-! ## A host that answers -/

/-- The slot of a number that was given out is read when the host answers, whether it has an inode or not. -/
theorem Serves.readInodeRaw_returns {u : Inner} (hu : Serves t u) (h : t.Flat)
    (hmodes : ∀ i, t.inodes.find? k = some i → i.mode = 0 ∨ i.Savable) (hlen : t.image.len ≤ u.image.len)
    (ha : u.disk.Answering) (hk : k < t.sb.nextInode) :
    ∃ found v, readInodeRaw k u = .ok found v ∧ Served u v ∧ Looked u v := by
  have hsound := h.tidy.sound
  have hnone : u.Vacant k → ∃ found v, readInodeRaw k u = .ok found v ∧ Served u v ∧ Looked u v := by
    intro hvacant
    have hanswered := Inner.readInodeRaw_answered ha hu.ok hvacant fun _ _ hmap ↦ hu.slot_inside hsound hlen hmap
    obtain ⟨found, v, hrun, hserved, -, hlook⟩ := hanswered.exists_ok (readInodeRaw_vacant hu.ok hvacant)
    exact ⟨found, v, hrun, hserved, hlook⟩
  cases hi : t.inodes.find? k with
  | none => exact hnone (hu.vacant h hk hi)
  | some i =>
    have hclean : t.dirtyInodes.contains k = false := by
      rw [h.clean]
      rfl
    have hstored := hu.stored (hsound.inv.onDisk.stored k i hi hclean)
    rcases hmodes i hi with hmode | hsavable
    · refine hnone (Or.inr (Or.inr (hstored.slot.mono fun raw hraw ↦ Or.inr (Or.inl ?_))))
      rw [hraw, i.encode_mode, hmode]
      rfl
    · have hanswered := hu.readInodeRaw_answered hsound hlen ha hi hsavable hstored
      obtain ⟨found, v, hrun, hserved, -, hlook⟩ := hanswered.exists_ok (hu.readInodeRaw_rereads h hi hsavable hstored)
      exact ⟨found, v, hrun, hserved, hlook⟩

theorem Serves.scan_answered (h : t.Flat) (hmodes : ∀ k i, t.inodes.find? k = some i → i.mode = 0 ∨ i.Savable) :
    ∀ (items : List ℕ) {u : Inner}, Serves t u → t.image.len ≤ u.image.len → u.disk.Answering →
      (∀ k ∈ items, k < t.sb.nextInode) → ScanAnswered items u
  | [], _, _, _, _, _ => trivial
  | k :: items, u, hu, hlen, ha, hitems => by
    obtain ⟨found, v, hrun, hserved, hlook⟩ :=
      hu.readInodeRaw_returns h (hmodes k) hlen ha (hitems k List.mem_cons_self)
    refine ⟨Or.inl ⟨found, v, hrun⟩, fun w hends ↦ ?_⟩
    rw [hends.eq_of_ok hrun]
    exact scan_answered h hmodes items (hu.looked hlook) (hlen.trans_eq hserved.len.symm) hserved.answering
      fun k hk ↦ hitems k (List.mem_cons_of_mem _ hk)

/-- The sample host answers the whole scan. -/
theorem Reopens.answered {base : Inner} (hs : s.Tidy) (h : Reopens s t base m)
    (htable : t.sb.inodeTableExtents.length ≤ Superblock.maxTableExtents)
    (hmodes : ∀ k i, t.inodes.find? k = some i → i.mode = 0 ∨ i.Savable) :
    ∀ base img, loadMount true 8 .none sampleEnv t.image = .ok base img → ScanAnswered (scannedNumbers base.sb) base := by
  intro base' img' hload'
  have hflat := hs.flat h.flush h.journal
  obtain ⟨img, hload⟩ := h.load
  rw [hload] at hload'
  cases hload'
  obtain ⟨total, htotal, hprimary, -⟩ := hflat.recorded
  set sb : Superblock := { t.sb with totalBlocks := total }
  have hrange : sb.InRange := { hflat.tidy.inRange with totalBlocks := htotal }
  obtain ⟨-, hsame, hbase⟩ := (loadMount_reads hprimary hrange h.journal).of_ok hload
  have hsb : base.sb = sb.truncated := by rw [hbase]; rfl
  have hpristine : base.disk.Pristine := by
    rw [hbase]
    exact mounted_pristine (hsame.ok hflat.tidy.sound.inv.geometry.image) _ _
  have hserves : Serves t base := by
    apply hflat.serves_pristine hpristine hsame.block
    · rw [hsb]
      exact List.take_of_length_le htable
    all_goals
      rw [hbase]
      rfl
  have hanswering : base.disk.Answering :=
    ⟨h.faults, Or.inr hpristine.not_dirty, fun b hb ↦ absurd hb (hpristine.not_dirty b)⟩
  refine Serves.scan_answered hflat hmodes _ hserves hsame.len.ge hanswering fun k hk ↦ ?_
  rw [hsb] at hk
  exact (mem_scannedNumbers.mp hk).2.1

/-- A file is created with a mode of its own. -/
def createMode (mode : UInt16) : List Operation := [.createChild rootIno [0x61] mode 0 0 0 Creds.root]

/-- The superblock holds the whole table, every inode can be stored, and every entry names an inode. -/
def moded (t : Inner) : Bool :=
  decide (t.sb.inodeTableExtents.length ≤ Superblock.maxTableExtents) && t.inodes.entries.all fun e ↦
    decide e.2.Savable && ((t.node.dir e.1).getD []).all fun d ↦ (t.inodes.find? d.ino).isSome

theorem Moded.of_test (h : moded t = true) :
    t.sb.inodeTableExtents.length ≤ Superblock.maxTableExtents ∧ t.Savable ∧ Moded t m := by
  unfold moded at h
  rw [Bool.and_eq_true, decide_eq_true_eq] at h
  have hentry : ∀ k i, t.inodes.find? k = some i → i.Savable ∧
      ((t.node.dir k).getD []).all (fun d ↦ (t.inodes.find? d.ino).isSome) = true := by
    intro k i hi
    have htest := List.all_eq_true.mp h.2 _ (KeyMap.find?_eq_some_iff.mp hi)
    rwa [Bool.and_eq_true, decide_eq_true_eq] at htest
  refine ⟨h.1, fun k i hi ↦ (hentry k i hi).1, fun k _ _ _ ↦ ⟨fun n hn ↦ ?_, fun hnamed hnone ↦ ?_⟩⟩
  · obtain ⟨i, hi, rfl⟩ := mem_of_node hn
    exact (hentry k i hi).1.mode
  · obtain ⟨dir, entries, hdir, e, he, rfl⟩ := hnamed
    obtain ⟨n, hn, -⟩ := Nodes.entries_of_dir hdir
    obtain ⟨i, hi, -⟩ := mem_of_node hn
    have hall := (hentry dir i hi).2
    rw [hdir, Option.getD_some] at hall
    have hfound := List.all_eq_true.mp hall e he
    rw [node_eq_none.mp hnone] at hfound
    cases hfound

theorem rebuilt_numbers_fresh_sample : ∃ s t m rest, s.Reached ∧ flushAll FlushOrder.inOrder s = .ok () t ∧
    openImage true 8 .none sampleEnv t.image = .ok m rest ∧ FreshNumbers t m := by
  have hplay : (sampleCalls (createMode (sIfreg ||| 0o644))).okAnd (fun calls s ↦
      (calls.all fun call ↦ call.2.regular call.1) && reopenSample s moded) = true := by
    decide +kernel
  obtain ⟨-, -, s, -, -, -, hs, htest⟩ := sampleCalls_reached hplay
  obtain ⟨t, base, m, hreopens, hmoded⟩ := reopenSample_runs hs.tidy htest
  obtain ⟨rest, hopen⟩ := hreopens.opens
  obtain ⟨htable, hsavable, hmoded⟩ := Moded.of_test (m := m) hmoded
  refine ⟨s, t, m, rest, hs, hreopens.flush, hopen, ?_⟩
  exact (rebuilt_numbers_fresh_iff hs hreopens.flush hreopens.journal (refl_of Image.SameFile t.image)
    (hreopens.answered hs.tidy htable fun k i hi ↦ Or.inr (hsavable k i hi)) hopen).mpr hmoded

/-- The root directory names the inode 2, which has no mode, and the table has room for it. -/
def modeless (t : Inner) : Bool :=
  decide (t.sb.inodeTableExtents.length ≤ Superblock.maxTableExtents) &&
    (t.inodes.entries.all fun e ↦ decide (e.2.mode = 0 ∨ e.2.Savable)) && (t.inodes.find? 2).any (fun i ↦ i.mode == 0) &&
    ((t.node.dir rootIno).getD []).any (fun d ↦ d.ino == 2) && decide (2 < t.sb.nextInode) &&
    decide (2 < inodeTableCapacity t.sb.truncated)

/-- An inode created with mode 0 has a name, and its number is free after the image is opened again. -/
theorem modeless_number_reused : ∃ first calls s t m rest, sampleImage = .ok () first ∧
    Exec.Runs Operation.exec first calls s ∧ calls.map Prod.snd = createMode 0 ∧
    flushAll FlushOrder.inOrder s = .ok () t ∧ openImage true 8 .none sampleEnv t.image = .ok m rest ∧
    t.Named 2 ∧ 2 ∈ m.freeInodes := by
  have hplay : (sampleCalls (createMode 0)).okAnd (fun calls s ↦
      (calls.all fun call ↦ call.2.regular call.1) && reopenSample s modeless) = true := by
    decide +kernel
  obtain ⟨first, calls, s, himage, hrun, hops, hs, htest⟩ := sampleCalls_reached hplay
  obtain ⟨t, base, m, hreopens, hmodeless⟩ := reopenSample_runs hs.tidy htest
  obtain ⟨rest, hopen⟩ := hreopens.opens
  unfold modeless at hmodeless
  rw [Bool.and_eq_true, Bool.and_eq_true, Bool.and_eq_true, Bool.and_eq_true, Bool.and_eq_true,
    decide_eq_true_eq] at hmodeless
  obtain ⟨⟨⟨⟨⟨hroomy, hsavable⟩, hmode⟩, hnamed⟩, hnext⟩, hcapacity⟩ := hmodeless
  obtain ⟨i, hi, hzero⟩ := (Option.any_eq_true ..).mp hmode
  have hflat := hs.tidy.flat hreopens.flush hreopens.journal
  have hmodes : ∀ k i, t.inodes.find? k = some i → i.mode = 0 ∨ i.Savable := fun k i hi ↦
    of_decide_eq_true (List.all_eq_true.mp hsavable _ (KeyMap.find?_eq_some_iff.mp hi))
  obtain ⟨sb, hm, htable, -⟩ := hflat.reopened (refl_of Image.SameFile t.image) hopen
  have hroom : 2 < inodeTableCapacity m.sb := by
    have hsame : inodeTableCapacity m.sb = inodeTableCapacity t.sb.truncated := by
      rw [hm.sb]
      unfold inodeTableCapacity Superblock.truncated
      rw [← htable]
    rw [hsame]
    exact of_decide_eq_true hcapacity
  refine ⟨first, calls, s, t, m, rest, himage, hrun, hops, hreopens.flush, hopen, ?_, ?_⟩
  · obtain ⟨e, he, hino⟩ := List.any_eq_true.mp hnamed
    cases hdir : t.node.dir rootIno with
    | none =>
      rw [hdir] at he
      cases he
    | some entries =>
      rw [hdir] at he
      exact ⟨rootIno, entries, hdir, e, he, beq_iff_eq.mp hino⟩
  · refine (hflat.mem_freeInodes (refl_of Image.SameFile t.image) (hreopens.answered hs.tidy hroomy hmodes) hopen).mpr
      ⟨by decide, of_decide_eq_true hnext, hroom, fun n hn ↦ ?_⟩
    obtain ⟨j, hj, rfl⟩ := mem_of_node hn
    rw [hi] at hj
    cases hj
    exact beq_iff_eq.mp hzero

end Inner

end LinuxFile
