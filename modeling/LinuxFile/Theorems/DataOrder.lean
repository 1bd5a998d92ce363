import LinuxFile.Spec.Reach
import LinuxFile.Spec.Records
import LinuxFile.Theorems.Sample

/-!
# File data and the commit record

`flush_all` stores the held record in the block cache and commits the dirty inodes to the journal before it
writes back the cache. A data block of one of these inodes that still waits in the cache when the commit
record has been written reaches the image only after it. So the order that the journal promises is kept
exactly if nothing waits: the held record leaves no new blocks behind, and the cached blocks of the dirty
inodes are clean.
-/

set_option autoImplicit false

namespace LinuxFile

/-- A block of the file's data. -/
def Inode.DataBlock (i : Inode) (b : ℕ) : Prop :=
  ∃ e ∈ i.extents, e.physical ≤ b ∧ b < e.physical + e.physLen

namespace Inner

variable {s t : Inner}

/-- No data block of an inode of the transaction waits in the cache. -/
def DataWritten (s : Inner) (transaction : List ℕ) : Prop :=
  ∀ ino ∈ transaction, ∀ i, s.inodes.find? ino = some i → ∀ b, i.DataBlock b → ¬s.disk.DirtyAt b

/-- The inode after a held record of it that is all zeros has become a hole. -/
def heldHole (s : Inner) (ino : ℕ) (i : Inode) : Inode :=
  match s.recordCache with
  | none => i
  | some c =>
    if c.dirty = true ∧ c.ino = ino then
      punched (c.record * s.recordBlocks) (c.record * s.recordBlocks + s.recordBlocks) i
    else i

/-- The inodes `flush_all` commits: the dirty ones and the owner of a dirty record. -/
def Committing (s : Inner) (ino : ℕ) : Prop :=
  s.dirtyInodes.contains ino = true ∨ ∃ c, s.recordCache = some c ∧ c.dirty = true ∧ c.ino = ino

/-- Nothing has to be written before the commit record: a dirty record held in memory is all zeros, and the
blocks that the committed inodes keep are clean in the cache. -/
structure Settled (s : Inner) : Prop where
  record : ∀ c, s.recordCache = some c → c.dirty = true → c.data.all (· == 0) = true
  blocks : ∀ ino i, s.Committing ino → s.inodes.find? ino = some i → ∀ b, (s.heldHole ino i).DataBlock b →
    ¬s.disk.DirtyAt b

/-! ## A stored record waits in the cache -/

theorem insertDirty_dirty (b : ℕ) (data : Block) (d : CachedImage) :
    (BlockCache.insertDirty b data).Holds d (fun _ d' ↦ d'.DirtyAt b) (fun _ _ ↦ True) := by
  unfold BlockCache.insertDirty
  rw [Exec.holds_bind, Exec.holds_read, Exec.holds_bind]
  apply Exec.holds_of_forall ?_ (fun _ _ _ ↦ trivial)
  intro _ d' _
  rw [BlockCache.modifyCache, Exec.holds_modify]
  exact ⟨⟨data, true⟩, KeyMap.find?_insert_self _ _ _, rfl⟩

/-- The last of the blocks written is dirty. -/
theorem writePhysicalBytes_dirty (phys : ℕ) (data : Bytes) (s : Inner) :
    (writePhysicalBytes phys data).Holds s
      (fun _ t ↦ t.disk.DirtyAt (phys + (max (ceilBlocks data.length) 1 - 1))) (fun _ _ ↦ True) := by
  set n := max (ceilBlocks data.length) 1 with hn
  have hpos : 0 < n := lt_of_lt_of_le Nat.zero_lt_one (le_max_right _ _)
  have hlast : (List.range n).getLast? = some (n - 1) := by
    rw [List.getLast?_range, if_neg (by omega)]
  have hstep : ∀ a rest t, (a :: rest).getLast? = some (n - 1) ∨
      (a :: rest = [] ∧ t.disk.DirtyAt (phys + (n - 1))) →
      (onCache (BlockCache.insertDirty (phys + a) (dataBlock data a))).Holds t
        (fun _ u ↦ rest.getLast? = some (n - 1) ∨ (rest = [] ∧ u.disk.DirtyAt (phys + (n - 1))))
        (fun _ _ ↦ True) := by
    intro a rest t h
    rcases h with h | ⟨hnil, -⟩
    · unfold onCache
      rw [Exec.holds_zoom]
      apply (insertDirty_dirty (phys + a) (dataBlock data a) _).mono ?_ (fun _ _ _ ↦ trivial)
      intro _ d hd
      cases rest with
      | nil =>
        rw [List.getLast?_singleton, Option.some_inj] at h
        rw [h] at hd
        exact Or.inr ⟨rfl, hd⟩
      | cons b rest =>
        rw [List.getLast?_cons_cons] at h
        exact Or.inl h
    · cases hnil
  unfold writePhysicalBytes
  rw [← hn]
  apply (Exec.holds_forEach (E := fun _ _ ↦ True) (fun rest (t : Inner) ↦ rest.getLast? = some (n - 1) ∨
    (rest = [] ∧ t.disk.DirtyAt (phys + (n - 1)))) hstep (List.range n) (Or.inl hlast)).mono ?_
    (fun _ _ _ ↦ trivial)
  intro _ t ht
  rcases ht with ht | ht
  · cases ht
  · exact ht.2

/-- A data block of the inode, which is dirty itself, waits in the cache. -/
def Waits (s : Inner) (ino : ℕ) : Prop :=
  ∃ i b, s.inodes.find? ino = some i ∧ i.DataBlock b ∧ s.disk.DirtyAt b ∧ s.dirtyInodes.contains ino = true

/-- The blocks of an extent that has been added belong to the file. -/
theorem appendExtent_dataBlock (extents : List Extent) (ext : Extent) (s : Inner) {b : ℕ}
    (hlow : ext.physical ≤ b) (hhigh : b < ext.physical + ext.physLen) :
    (appendExtent extents ext).Holds s
      (fun new t ↦ t = s ∧ ∃ e ∈ new, e.physical ≤ b ∧ b < e.physical + e.physLen) (fun _ _ ↦ True) := by
  have hsorted : ∃ e ∈ sortByLogical (extents ++ [ext]), e.physical ≤ b ∧ b < e.physical + e.physLen := by
    refine ⟨ext, (sort_perm _).mem_iff.mpr ?_, hlow, hhigh⟩
    exact List.mem_append_right _ (List.mem_singleton_self ext)
  unfold appendExtent
  cases hlast : extents.getLast? with
  | none => exact ⟨rfl, hsorted⟩
  | some last =>
    dsimp only
    by_cases hcont : continues last ext = true
    · rw [if_pos hcont]
      unfold continues at hcont
      simp only [Bool.and_eq_true, beq_iff_eq] at hcont
      obtain ⟨⟨⟨⟨-, hphys⟩, -⟩, -⟩, hnext⟩ := hcont
      unfold Extent.physLen at hhigh hnext
      rw [hphys, ite_self] at hhigh
      rw [Exec.holds_bind]
      apply holds_addU32
      intro _
      by_cases hzero : last.physLength ≠ 0
      · rw [if_pos hzero, Exec.holds_bind]
        apply holds_addU32
        intro _
        refine ⟨rfl, _, List.mem_append_right _ (List.mem_singleton_self _), ?_, ?_⟩
        · dsimp only
          omega
        · unfold Extent.physLen
          dsimp only
          rw [if_pos hzero] at hnext
          rw [if_pos (by omega), hphys]
          omega
      · rw [if_neg hzero, Exec.holds_bind, Exec.holds_pure]
        refine ⟨rfl, _, List.mem_append_right _ (List.mem_singleton_self _), ?_, ?_⟩
        · dsimp only
          omega
        · unfold Extent.physLen
          dsimp only
          rw [if_neg hzero] at hnext ⊢
          omega
    · rw [if_neg hcont]
      exact ⟨rfl, hsorted⟩

theorem addExtent_waits {ino : ℕ} {i : Inode} (hi : s.inodes.find? ino = some i) {ext : Extent} {b : ℕ}
    (hlow : ext.physical ≤ b) (hhigh : b < ext.physical + ext.physLen) (hdirty : s.disk.DirtyAt b) :
    (addExtent ino ext).Holds s (fun _ t ↦ t.Waits ino) (fun _ _ ↦ True) := by
  unfold addExtent
  rw [Exec.holds_bind_of_ok (getInode_mem hi)]
  apply (appendExtent_dataBlock i.extents ext s hlow hhigh).bind ?_ (fun _ _ _ ↦ trivial)
  intro extents t ht
  rw [ht.1, Exec.holds_iff_of_ok (getInodeMut_mem hi _)]
  refine ⟨_, b, KeyMap.find?_insert_self _ _ _, ht.2, hdirty, ?_⟩
  unfold KeyMap.contains
  rw [KeyMap.find?_insert_self]
  rfl

/-- A change to the inode that leaves its extents alone. -/
theorem Waits.getInodeMut {ino : ℕ} (h : s.Waits ino) {change : Inode → Inode}
    (hchange : ∀ i : Inode, (change i).extents = i.extents) :
    (getInodeMut ino change).Holds s (fun _ t ↦ t.Waits ino) (fun _ _ ↦ True) := by
  obtain ⟨i, b, hi, hblock, hdirty, -⟩ := h
  rw [Exec.holds_iff_of_ok (getInodeMut_mem hi _)]
  refine ⟨_, b, KeyMap.find?_insert_self _ _ _, ?_, hdirty, ?_⟩
  · unfold Inode.DataBlock
    rw [hchange]
    exact hblock
  · unfold KeyMap.contains
    rw [KeyMap.find?_insert_self]
    rfl

/-- The part of `store_record` that both ways of storing share. -/
theorem storeBlocks_waits {ino : ℕ} {i : Inode} (hi : s.inodes.find? ino = some i) (phys : ℕ)
    (data : Bytes) (ext : Extent) {start stop : ℕ} (hlt : start < stop) (hphys : ext.physical = phys)
    (hlen : ext.physLen = max (ceilBlocks data.length) 1) :
    (do
      writePhysicalBytes phys data
      punchLogicalRange ino start stop
      addExtent ino ext : Fs Unit).Holds s (fun _ t ↦ t.Waits ino) (fun _ _ ↦ True) := by
  apply ((writePhysicalBytes_dirty phys data s).and (writePhysicalBytes_calm phys data s)).bind ?_
    (fun _ _ _ ↦ trivial)
  rintro _ t ⟨hdirty, hcalm⟩
  obtain ⟨j, hj, -⟩ := hcalm.inodes ino i hi
  rw [Exec.holds_bind_of_ok (punch_eq hj hlt)]
  have hpos : 0 < max (ceilBlocks data.length) 1 := lt_of_lt_of_le Nat.zero_lt_one (le_max_right _ _)
  apply addExtent_waits (KeyMap.find?_insert_self _ _ _) (b := phys + (max (ceilBlocks data.length) 1 - 1))
  · omega
  · omega
  · exact hdirty

/-- The blocks of a record that is not all zeros wait in the cache. -/
theorem storeRecord_waits {ino record : ℕ} {data : Bytes} (hpos : 0 < s.recordBlocks)
    (hdata : ¬data.all (· == 0) = true) :
    (storeRecord ino record data).Holds s (fun _ t ↦ t.Waits ino) (fun _ _ ↦ True) := by
  have sectors : ∀ t : Inner, t.Waits ino →
      (getInodeMut ino (fun i ↦ { i with blocks := sectorsOf i.extents })).Holds t
        (fun _ u ↦ u.Waits ino) (fun _ _ ↦ True) := fun t ht ↦ ht.getInodeMut fun _ ↦ rfl
  have flag : ∀ t : Inner, t.Waits ino →
      (getInodeMut ino (fun i ↦ { i with flags := i.flags ||| flagCompressed })).Holds t
        (fun _ u ↦ u.Waits ino) (fun _ _ ↦ True) := fun t ht ↦ ht.getInodeMut fun _ ↦ rfl
  unfold storeRecord
  rw [Exec.holds_bind, Exec.holds_read]
  dsimp only
  rw [if_neg hdata]
  apply ((getInode_calm ino s).and (getInode_found ino s)).bind ?_ (fun _ _ _ ↦ trivial)
  rintro inode t ⟨hcalm, hinode⟩
  rw [Exec.holds_bind, Exec.holds_read]
  split_ifs
  · apply (onAlloc_calm _ t).bind ?_ (fun _ _ _ ↦ trivial)
    intro phys u hu
    obtain ⟨j, hj, -⟩ := hu.inodes ino inode hinode
    have hstored := storeBlocks_waits hj phys data
      (Extent.withPhys (record * s.recordBlocks) phys (max (ceilBlocks data.length) 1)
        (max (ceilBlocks data.length) 1) 0)
      (Nat.lt_add_of_pos_right (n := record * s.recordBlocks) hpos) rfl (ite_self _)
    have hboth := hstored.bind (fun _ v hv ↦ sectors v hv) (fun _ _ h ↦ h)
    simpa only [bind_assoc] using hboth
  · apply (onAlloc_calm _ t).bind ?_ (fun _ _ _ ↦ trivial)
    intro phys u hu
    obtain ⟨j, hj, -⟩ := hu.inodes ino inode hinode
    set hdr : RecordHeader := {
      algo := (tryCompress t.env.lz4 (Compression.fromU8 inode.compression) data).1
      logicalBlocks := max (ceilBlocks data.length) 1
      payloadLen := (tryCompress t.env.lz4 (Compression.fromU8 inode.compression) data).2.length
      uncompressedLen := data.length
      crc := Crc.crc32 (tryCompress t.env.lz4 (Compression.fromU8 inode.compression) data).2 } with hhdr
    set payload := (tryCompress t.env.lz4 (Compression.fromU8 inode.compression) data).2
    have hblocks : hdr.physBlocks = max (ceilBlocks (recordImage hdr payload).length) 1 := by
      rw [recordImage_blocks, max_eq_left (physBlocks_pos hdr)]
    have hlen : (if hdr.physBlocks ≠ 0 then hdr.physBlocks else max (ceilBlocks data.length) 1) =
        max (ceilBlocks (recordImage hdr payload).length) 1 := by
      rw [if_pos (physBlocks_pos hdr).ne', hblocks]
    have hstored := storeBlocks_waits hj phys (recordImage hdr payload)
      (Extent.withPhys (record * s.recordBlocks) phys (max (ceilBlocks data.length) 1)
        hdr.physBlocks hdr.algo.asU8)
      (Nat.lt_add_of_pos_right (n := record * s.recordBlocks) hpos) rfl hlen
    have hflagged := hstored.bind (fun _ v hv ↦ flag v hv) (fun _ _ h ↦ h)
    have hall := hflagged.bind (fun _ v hv ↦ sectors v hv) (fun _ _ h ↦ h)
    simpa only [bind_assoc] using hall

/-! ## The commit -/

/-- Committing leaves cache and inodes alone. -/
theorem journalDirty_frame (dirty : List ℕ) : (journalDirty dirty).Respects
    (fun s t ↦ t.cache = s.cache ∧ t.inodes = s.inodes) := by
  have : IsPreorder Inner (fun s t : Inner ↦ t.cache = s.cache ∧ t.inodes = s.inodes) :=
    { refl := fun _ ↦ ⟨rfl, rfl⟩
      trans := fun _ _ _ hst htu ↦ ⟨htu.1.trans hst.1, htu.2.trans hst.2⟩ }
  have hjournal : ∀ {α : Type} (x : Exec Error JournalImage α), (onJournal x).Respects
      (fun s t ↦ t.cache = s.cache ∧ t.inodes = s.inodes) :=
    fun x ↦ Exec.Respects.zoom fun _ _ ↦ ⟨rfl, rfl⟩
  unfold journalDirty
  exact .bind (.read _) fun _ ↦ .when fun _ ↦ .bind (hjournal _) fun _ ↦ .bind (.read _) fun _ ↦ hjournal _

theorem dirtyAt_congr {d d' : CachedImage} (h : d'.cache = d.cache) (b : ℕ) : d'.DirtyAt b ↔ d.DirtyAt b := by
  unfold CachedImage.DirtyAt
  rw [h]

/-- What waits when the commit record has been written waits before. -/
theorem commitDirty_waits {order : FlushOrder} {dirty : List ℕ} {v : Inner}
    (h : commitDirty order s = .ok dirty v) : ∃ u, flushRecordCache s = .ok () u ∧
      (v.DataWritten dirty ↔ ∀ ino, ¬u.Waits ino) := by
  unfold commitDirty at h
  obtain ⟨_, u, hflush, h⟩ := Exec.bind_ok_iff.mp h
  rw [Exec.bind_apply, Exec.read_apply] at h
  obtain ⟨_, w, hjournal, h⟩ := Exec.bind_ok_iff.mp h
  cases h
  obtain ⟨hcache, hinodes⟩ := (journalDirty_frame _).of_ok hjournal
  have hmem : ∀ ino, ino ∈ order.inodes.arrange u.dirtyInodes.keys ↔ u.dirtyInodes.contains ino = true := by
    intro ino
    rw [IterOrder.mem_arrange, KeyMap.mem_keys_iff]
    rfl
  refine ⟨u, hflush, ?_⟩
  constructor
  · rintro hwritten ino ⟨i, b, hi, hblock, hdirty, hcontains⟩
    refine hwritten ino ((hmem ino).mpr hcontains) i ?_ b hblock ?_
    · rw [hinodes]
      exact hi
    · exact (dirtyAt_congr hcache b).mpr hdirty
  · intro hnone ino hino i hi b hblock hdirty
    rw [hinodes] at hi
    exact hnone ino ⟨i, b, hi, hblock, (dirtyAt_congr hcache b).mp hdirty, (hmem ino).mp hino⟩

theorem contains_insert (m : KeyMap Unit) (k ino : ℕ) :
    (m.insert k ()).contains ino = true ↔ m.contains ino = true ∨ k = ino := by
  unfold KeyMap.contains
  rw [KeyMap.find?_insert]
  by_cases hk : ino = k
  · simp [hk]
  · simp [hk, Ne.symm hk]

/-- Without a dirty record nothing is left to find out. -/
theorem settled_iff_of_clean (hclean : ∀ c, s.recordCache = some c → c.dirty = false) :
    s.Settled ↔ ∀ ino, ¬s.Waits ino := by
  have hhole : ∀ ino i, s.heldHole ino i = i := by
    intro ino i
    unfold heldHole
    cases hrecord : s.recordCache with
    | none => rfl
    | some c => simp [hclean c hrecord]
  have hcommitted : ∀ ino, s.Committing ino → s.dirtyInodes.contains ino = true := by
    rintro ino (hino | ⟨c, hc, hdirty, -⟩)
    · exact hino
    · rw [hclean c hc] at hdirty
      cases hdirty
  constructor
  · rintro hsettled ino ⟨i, b, hi, hblock, hdirty, hino⟩
    rw [← hhole ino i] at hblock
    exact hsettled.blocks ino i (Or.inl hino) hi b hblock hdirty
  · intro hnone
    refine ⟨fun c hc hdirty ↦ ?_, fun ino i hino hi b hblock hdirty ↦ ?_⟩
    · rw [hclean c hc] at hdirty
      cases hdirty
    · rw [hhole] at hblock
      exact hnone ino ⟨i, b, hi, hblock, hdirty, hcommitted ino hino⟩

/-- The state after a dirty record of zeros has become a hole. -/
def withHole (s : Inner) (c : RecordCache) (i : Inode) (alloc : Allocator) : Inner :=
  { s with
    recordCache := none
    alloc := alloc
    inodes := s.inodes.insert c.ino (s.heldHole c.ino i)
    dirtyInodes := s.dirtyInodes.insert c.ino () }

theorem settled_iff_of_hole {c : RecordCache} {i₀ : Inode} (hrecord : s.recordCache = some c)
    (hdirty : c.dirty = true) (hdata : c.data.all (· == 0) = true)
    (hi₀ : s.inodes.find? c.ino = some i₀) (alloc : Allocator) :
    s.Settled ↔ ∀ ino, ¬(s.withHole c i₀ alloc).Waits ino := by
  have hother : ∀ ino i, ino ≠ c.ino → s.heldHole ino i = i := by
    intro ino i hne
    unfold heldHole
    rw [hrecord]
    simp [Ne.symm hne]
  have hcommitted : ∀ ino, s.Committing ino ↔ (s.dirtyInodes.insert c.ino ()).contains ino = true := by
    intro ino
    rw [contains_insert]
    unfold Committing
    rw [hrecord]
    simp [hdirty]
  have hfind : ∀ ino j, (s.inodes.insert c.ino (s.heldHole c.ino i₀)).find? ino = some j ↔
      ∃ i, s.inodes.find? ino = some i ∧ s.heldHole ino i = j := by
    intro ino j
    rw [KeyMap.find?_insert]
    by_cases hino : ino = c.ino
    · rw [if_pos hino, hino, hi₀]
      simp
    · rw [if_neg hino]
      constructor
      · intro hj
        exact ⟨j, hj, hother ino j hino⟩
      · rintro ⟨i, hi, rfl⟩
        rw [hother ino i hino]
        exact hi
  constructor
  · rintro hsettled ino ⟨j, b, hj, hblock, hb, hino⟩
    obtain ⟨i, hi, rfl⟩ := (hfind ino j).mp hj
    exact hsettled.blocks ino i ((hcommitted ino).mpr hino) hi b hblock hb
  · intro hnone
    refine ⟨fun c' hc' _ ↦ ?_, fun ino i hino hi b hblock hb ↦ ?_⟩
    · rw [hrecord] at hc'
      cases hc'
      exact hdata
    · exact hnone ino ⟨s.heldHole ino i, b, (hfind ino _).mpr ⟨i, hi, rfl⟩, hblock, hb,
        (hcommitted ino).mp hino⟩

/-- Nothing waits after the held record has been flushed exactly if everything was settled before. -/
theorem flushRecordCache_waits_iff (hs : s.RecordsOk) {u : Inner} (h : flushRecordCache s = .ok () u) :
    (∀ ino, ¬u.Waits ino) ↔ s.Settled := by
  unfold flushRecordCache at h
  rw [Exec.bind_apply, Exec.read_apply] at h
  cases hrecord : s.recordCache with
  | none =>
    rw [hrecord] at h
    cases h
    rw [settled_iff_of_clean]
    intro c hc
    rw [hrecord] at hc
    cases hc
  | some c =>
    rw [hrecord] at h
    dsimp only at h
    rw [Exec.bind_apply, Exec.modify_apply] at h
    dsimp only at h
    by_cases hdirty : c.dirty = true
    · rw [if_pos hdirty] at h
      by_cases hdata : c.data.all (· == 0) = true
      · -- the record becomes a hole, whose blocks are not the file's any more
        obtain ⟨i₀, hi₀⟩ := hs.held c hrecord
        have hhole : s.heldHole c.ino i₀ = punched (c.record * s.recordBlocks)
            (c.record * s.recordBlocks + s.recordBlocks) i₀ := by
          unfold heldHole
          rw [hrecord]
          simp [hdirty]
        unfold storeRecord at h
        rw [Exec.bind_apply, Exec.read_apply] at h
        dsimp only at h
        rw [if_pos hdata, punch_eq (s := { s with recordCache := none }) hi₀
          (Nat.lt_add_of_pos_right hs.pos), ← hhole] at h
        cases h
        exact (settled_iff_of_hole hrecord hdirty hdata hi₀ _).symm
      · -- the last block of the record is dirty
        have hwaits := (storeRecord_waits (s := { s with recordCache := none }) hs.pos hdata).of_ok h
        constructor
        · intro hnone
          exact absurd hwaits (hnone c.ino)
        · intro hsettled
          exact absurd (hsettled.record c hrecord hdirty) hdata
    · rw [if_neg hdirty] at h
      cases h
      rw [settled_iff_of_clean]
      · exact Iff.rfl
      · intro c' hc'
        rw [hrecord] at hc'
        cases hc'
        simpa using hdirty

/-- In a reachable state, when `flush_all` has written the commit record, all data of the inodes in the
transaction has been written exactly if everything was settled before, whatever the order in which the
dirty inodes are met. -/
theorem data_before_commit_iff (hs : s.Reachable) {order : FlushOrder} {transaction : List ℕ} {v : Inner}
    (hcommit : commitDirty order s = .ok transaction v) : v.DataWritten transaction ↔ s.Settled := by
  obtain ⟨u, hflush, hwritten⟩ := commitDirty_waits hcommit
  rw [hwritten]
  exact flushRecordCache_waits_iff hs.recordsOk hflush

/-! ## Concrete runs -/

/-- The sample filesystem in ordered mode. -/
def orderedImage : FsOutcome Unit :=
  create { sampleOptions with sync := .ordered } sampleEnv (Buf.zero 16) [] FlushOrder.inOrder

/-- The calls, and then the first half of `flush_all`. -/
def orderedRun (ops : List Operation) : FsOutcome (Inner × List ℕ) :=
  match orderedImage with
  | .ok _ s =>
    (do
      let _ ← Exec.play Operation.exec ops
      let s ← Exec.get
      let transaction ← commitDirty FlushOrder.inOrder
      pure (s, transaction) : Fs (Inner × List ℕ)) s
  | .err e s => .err e s
  | .panic => .panic

theorem orderedRun_reachable {ops : List Operation} {test : Inner × List ℕ → Inner → Bool}
    (h : (orderedRun ops).okAnd test = true) : ∃ s transaction v, s.Reachable ∧
      commitDirty FlushOrder.inOrder s = .ok transaction v ∧ test (s, transaction) v = true := by
  obtain ⟨⟨s, transaction⟩, v, hrun, htest⟩ := Outcome.exists_of_okAnd h
  unfold orderedRun at hrun
  cases himage : orderedImage with
  | ok _ first =>
    rw [himage] at hrun
    obtain ⟨calls, t, hplay, hrun⟩ := Exec.bind_ok_iff.mp hrun
    rw [Exec.bind_apply, Exec.get_apply] at hrun
    obtain ⟨_, u, hcommit, hrun⟩ := Exec.bind_ok_iff.mp hrun
    cases hrun
    exact ⟨_, _, _, ⟨first, calls, .created himage, (Exec.runs_of_play hplay).1⟩, hcommit, htest⟩
  | err e first =>
    rw [himage] at hrun
    cases hrun
  | panic =>
    rw [himage] at hrun
    cases hrun

/-- A file with a block of data. -/
def writeFile : List Operation :=
  [.createChild rootIno [0x61] (sIfreg ||| 0o644) 0 0 0 Creds.root, .writeData 2 0 (List.replicate 200 0x78)]

/-- After its data has been written back, the file is committed in order. -/
theorem data_before_commit_flushed : ∃ s transaction v, s.Reachable ∧ s.syncMode = .ordered ∧
    commitDirty FlushOrder.inOrder s = .ok transaction v ∧ v.DataWritten transaction ∧ s.Settled := by
  have hrun : (orderedRun (writeFile ++ [.flushCache IterOrder.inOrder])).okAnd (fun r v ↦
      decide (r.1.syncMode = .ordered) && v.cache.map.entries.all fun e ↦ !e.2.dirty) = true := by
    decide +kernel
  obtain ⟨s, transaction, v, hs, hcommit, htest⟩ := orderedRun_reachable hrun
  rw [Bool.and_eq_true, decide_eq_true_eq, List.all_eq_true] at htest
  have hwritten : v.DataWritten transaction := by
    rintro ino - i - b - ⟨entry, hentry, hdirty⟩
    have hclean := htest.2 (b, entry) (KeyMap.find?_eq_some_iff.mp hentry)
    rw [hdirty] at hclean
    cases hclean
  exact ⟨s, transaction, v, hs, htest.1, hcommit, hwritten, (data_before_commit_iff hs hcommit).mp hwritten⟩

/-- The commit record of the file is written before its data. -/
theorem commit_before_data : ∃ s transaction v, s.Reachable ∧ s.syncMode = .ordered ∧
    commitDirty FlushOrder.inOrder s = .ok transaction v ∧ ¬v.DataWritten transaction := by
  have hrun : (orderedRun writeFile).okAnd (fun r v ↦ decide (r.1.syncMode = .ordered) &&
      r.2.any fun ino ↦ (v.inodes.find? ino).any fun i ↦ i.extents.any fun e ↦
        decide (0 < e.physLen) && (v.cache.map.find? e.physical).any fun entry ↦ entry.dirty) = true := by
    decide +kernel
  obtain ⟨s, transaction, v, hs, hcommit, htest⟩ := orderedRun_reachable hrun
  rw [Bool.and_eq_true, decide_eq_true_eq, List.any_eq_true] at htest
  obtain ⟨hsync, ino, hino, htest⟩ := htest
  obtain ⟨i, hi, htest⟩ := (Option.any_eq_true _ _).mp htest
  obtain ⟨e, he, htest⟩ := List.any_eq_true.mp htest
  rw [Bool.and_eq_true, decide_eq_true_eq] at htest
  obtain ⟨entry, hentry, hdirty⟩ := (Option.any_eq_true _ _).mp htest.2
  refine ⟨s, transaction, v, hs, hsync, hcommit, fun hwritten ↦ ?_⟩
  exact hwritten ino hino i hi e.physical ⟨e, he, le_refl _, Nat.lt_add_of_pos_right htest.1⟩
    ⟨entry, hentry, hdirty⟩

end Inner

end LinuxFile
