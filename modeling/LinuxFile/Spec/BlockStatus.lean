import LinuxFile.Spec.Lifetime

/-!
# What becomes of a block

A block is free, in use, or lies outside the data area. Freeing ranges that were in use makes exactly their blocks
free; an allocation takes blocks that were not in use.
-/

namespace LinuxFile

open Ledger

inductive BlockStatus where
  | outside | free | used
  deriving DecidableEq, Repr

namespace Allocator

/-- What the allocator says of a block. -/
def status (a : Allocator) (b : ℕ) : BlockStatus :=
  if 0 < cover a.free.entries b then .free
  else if a.firstData ≤ b ∧ b < a.totalBlocks then .used
  else .outside

variable {a a' : Allocator} {b : ℕ}

theorem area_eq_one_iff : a.area b = 1 ↔ a.firstData ≤ b ∧ b < a.totalBlocks := by
  unfold area span
  by_cases h : a.firstData ≤ b ∧ b < a.firstData + (a.totalBlocks - a.firstData)
  · rw [if_pos h]
    exact ⟨fun _ ↦ by omega, fun _ ↦ rfl⟩
  · rw [if_neg h]
    exact ⟨fun h₀ ↦ absurd h₀ (by decide), fun h₁ ↦ by omega⟩

theorem status_eq_used_iff : a.status b = .used ↔ cover a.free.entries b = 0 ∧ a.area b = 1 := by
  rw [area_eq_one_iff]
  unfold status
  split_ifs with hfree hin
  · simp only [false_iff]
    omega
  · simp only [true_iff]
    omega
  · simp only [false_iff]
    exact fun h ↦ hin h.2

/-- Freeing blocks that are in use. -/
theorem freeAll_status (ranges : List (ℕ × ℕ)) (h : a.Ok)
    (hapart : ∀ b, cover a.free.entries b + cover ranges b ≤ a.area b) (b : ℕ) :
    (ranges.foldl (fun a r ↦ a.freeRange r.1 r.2) a).status b =
      if 0 < cover ranges b then .free else a.status b := by
  obtain ⟨-, hfirst, htotal, hcover⟩ := freeAll_spec ranges h hapart
  unfold status
  rw [hfirst, htotal, hcover b]
  split_ifs <;> first | rfl | omega

/-- A block that is allocated was not in use, and is in use afterwards. -/
theorem Took.status {start want : ℕ} (htook : Took start want a a') (ha : a.Ok) (ha' : a'.Ok) (hwant : 0 < want) :
    a.status start ≠ .used ∧ a'.status start = .used := by
  have hspan : span start want start = 1 := span_eq_one ⟨le_rfl, by omega⟩
  have hcover := htook.cover start
  have hfits := ha.fits start
  have hfits' := ha'.fits start
  have harea := a.area_le_one start
  have harea' := a'.area_le_one start
  rw [Ne, status_eq_used_iff, status_eq_used_iff]
  omega

end Allocator

namespace Inner

variable {s t : Inner} {i : Inode} {ino k b : ℕ}

/-- The blocks of an inode in memory are in use. -/
theorem Sound.status_of_range (h : s.Sound) (hmem : s.inodes.find? k = some i) (hb : 0 < cover i.ranges b) :
    s.alloc.status b = .used := by
  have hload := h.inv.owned.fits b
  have harea := s.alloc.area_le_one b
  have hle : cover i.ranges b ≤ s.load s.inodes b := cover_le_load hmem b
  have hfree : cover s.alloc.free.entries b + cover i.ranges b ≤ s.load s.inodes b := by
    have hweight : cover i.ranges b ≤ s.inodes.total (fun _ i ↦ cover i.ranges b) :=
      KeyMap.weight_le_total (fun _ i ↦ cover i.ranges b) hmem
    unfold load
    omega
  rw [Allocator.status_eq_used_iff]
  omega

/-- Two inodes do not share a block. -/
theorem Sound.cover_other (h : s.Sound) {j : Inode} (hmem : s.inodes.find? ino = some i)
    (hother : s.inodes.find? k = some j) (hne : k ≠ ino) (hb : 0 < cover j.ranges b) : cover i.ranges b = 0 := by
  have hload := h.inv.owned.fits b
  have harea := s.alloc.area_le_one b
  have hboth : cover j.ranges b + cover i.ranges b ≤ s.inodes.total (fun _ i ↦ cover i.ranges b) :=
    KeyMap.two_weights_le_total (fun _ i ↦ cover i.ranges b) hother hmem hne
  unfold load at hload
  omega

/-! ## Calls that leave the allocator alone -/

/-- The allocator is as before. -/
def SameAlloc (s t : Inner) : Prop := t.alloc = s.alloc

instance : IsPreorder Inner SameAlloc where
  refl _ := rfl
  trans _ _ _ hst htu := Eq.trans htu hst

theorem onCache_sameAlloc {α : Type} (x : Exec Error CachedImage α) : (onCache x).Respects SameAlloc :=
  Exec.Respects.zoom fun _ _ ↦ rfl

theorem getInode_sameAlloc (ino : ℕ) : (getInode ino).Respects SameAlloc := by
  unfold getInode loadInode
  refine .bind (.read _) fun hit ↦ ?_
  cases hit with
  | some i => exact .pure i
  | none =>
    refine .bind ((readInodeRaw_onlyCache ino).mono fun s t h ↦ ?_) fun loaded ↦ .bind (.ofOption _ _) fun inode ↦
      .bind (.modify fun _ ↦ rfl) fun _ ↦ .pure _
    unfold OnlyCache at h
    unfold SameAlloc
    rw [h]

theorem getInodeMut_sameAlloc (ino : ℕ) (change : Inode → Inode) : (getInodeMut ino change).Respects SameAlloc :=
  .bind (getInode_sameAlloc ino) fun _ ↦ .bind (.modify fun _ ↦ rfl) fun _ ↦ .modify fun _ ↦ rfl

theorem addExtent_sameAlloc (ino : ℕ) (ext : Extent) : (addExtent ino ext).Respects SameAlloc :=
  .bind (getInode_sameAlloc ino) fun _ ↦ .bind (appendExtent_respects _ _) fun _ ↦ getInodeMut_sameAlloc _ _

/-! ## Storing a record -/

/-- Storing the record moves no block: it is all zeros and no extent of its file lies in its range. -/
def RecordIdle (s : Inner) (i : Inode) (record : ℕ) (data : Bytes) : Prop :=
  data.all (· == 0) = true ∧
    i.extents.flatMap (punchFree (record * s.recordBlocks) (record * s.recordBlocks + s.recordBlocks)) = []

/-- A block that belongs to no inode but `ino` is taken or given back. -/
def Moved (s : Inner) (ino : ℕ) (t : Inner) : Prop :=
  ∃ b, (∀ k j, k ≠ ino → s.inodes.find? k = some j → cover j.ranges b = 0) ∧ s.alloc.status b ≠ t.alloc.status b ∧
    (t.alloc.status b = .free ∨ t.alloc.status b = .used)

theorem punchFree_pos {start stop : ℕ} {e : Extent} (he : e.Wf i) {r : ℕ × ℕ} (hr : r ∈ punchFree start stop e) :
    0 < r.2 := by
  unfold punchFree at hr
  split_ifs at hr with hout hpacked
  · exact absurd hr List.not_mem_nil
  · rw [List.mem_singleton] at hr
    have hpos : e.physLength ≠ 0 := by
      have hcompress : e.compress ≠ 0 := by simpa [Extent.isCompressed] using hpacked
      exact (he.packed hcompress).1.ne'
    rw [hr]
    unfold Extent.physLen
    rw [if_pos hpos]
    omega
  · dsimp only at hr
    split_ifs at hr with hmid
    · rw [List.mem_singleton] at hr
      rw [hr]
      dsimp only
      omega
    · exact absurd hr List.not_mem_nil

/-- What is punched out belongs to the inode. -/
theorem cover_punchFree_le (hwf : i.Wf) {start stop : ℕ} (hlt : start < stop) (b : ℕ) :
    cover (i.extents.flatMap (punchFree start stop)) b ≤ cover i.ranges b := by
  have hcover := (punched_of_wf hwf hlt).cover b
  rw [cover_ranges]
  omega

/-- The data of a range is replaced by new blocks. -/
theorem replace_moves (h : s.Sound) (hmem : s.inodes.find? ino = some i) {start stop n : ℕ} (hlt : start < stop)
    (hn : 0 < n) (data : Bytes) {f : ℕ → Fs Unit} (hf : ∀ phys, (f phys).Respects SameAlloc) :
    (do
      let phys ← onAlloc (Allocator.allocate n)
      writePhysicalBytes phys data
      punchLogicalRange ino start stop
      f phys).Holds s (fun _ t ↦ Moved s ino t) (fun _ _ ↦ True) := by
  have hok := h.inv.owned.alloc
  rw [Exec.holds_bind, onAlloc, Exec.holds_zoom]
  refine (Allocator.allocate_spec ⟨s.alloc, s.image⟩ hok hn).mono ?_ (fun _ _ _ ↦ trivial)
  rintro phys d ⟨hok', htook, -, -⟩
  have hwrite : (writePhysicalBytes phys data).Respects OnlyCache := .forEach (fun _ ↦ onCache_onlyCache _) _
  refine (hwrite _).bind (fun _ u hu ↦ ?_) (fun _ _ _ ↦ trivial)
  have hmem' : u.inodes.find? ino = some i := by
    rw [hu]
    exact hmem
  have halloc : u.alloc = d.alloc := by rw [hu]
  rw [Exec.holds_bind_of_ok (punch_eq hmem' hlt)]
  refine (hf phys _).mono (fun _ t ht ↦ ?_) (fun _ _ _ ↦ trivial)
  have hstatus := Allocator.Took.status htook hok hok' hn
  have hunowned : ∀ k j, s.inodes.find? k = some j → cover j.ranges phys = 0 := by
    intro k j hj
    by_contra hpos
    exact hstatus.1 (h.status_of_range hj (Nat.pos_of_ne_zero hpos))
  have hapart : ∀ b, cover d.alloc.free.entries b + cover (i.extents.flatMap (punchFree start stop)) b ≤
      d.alloc.area b := by
    intro b
    have hfits := hok'.fits b
    have hle := cover_punchFree_le (h.wf hmem) hlt b
    by_cases hzero : cover i.ranges b = 0
    · omega
    · have hused := Allocator.status_eq_used_iff.mp (h.status_of_range hmem (Nat.pos_of_ne_zero hzero))
      have htaken := htook.cover b
      have harea := d.alloc.area_le_one b
      have hload := h.inv.owned.fits b
      have hone : cover i.ranges b ≤ s.load s.inodes b := cover_le_load hmem b
      dsimp only at htaken
      omega
  have htalloc : t.alloc = (i.extents.flatMap (punchFree start stop)).foldl
      (fun a r ↦ a.freeRange r.1 r.2) d.alloc := by
    rw [← halloc]
    exact ht
  have hafter : t.alloc.status phys = .used := by
    have hpunched := cover_punchFree_le (h.wf hmem) hlt phys
    rw [hunowned ino i hmem] at hpunched
    rw [htalloc, Allocator.freeAll_status _ hok' hapart, if_neg (by omega)]
    exact hstatus.2
  refine ⟨phys, fun k j _ hj ↦ hunowned k j hj, ?_, Or.inr hafter⟩
  rw [hafter]
  exact hstatus.1

/-- Storing a record moves blocks unless it is idle. -/
theorem storeRecord_moves (h : s.Sound) (hmem : s.inodes.find? ino = some i) (record : ℕ) (data : Bytes) :
    (storeRecord ino record data).Holds s
      (fun _ t ↦ (s.RecordIdle i record data → t.alloc = s.alloc) ∧ (¬s.RecordIdle i record data → Moved s ino t))
      (fun _ _ ↦ True) := by
  have hlt : record * s.recordBlocks < record * s.recordBlocks + s.recordBlocks := by
    have hpos := h.inv.geometry.records.1
    omega
  have hwf := h.wf hmem
  unfold storeRecord
  rw [Exec.holds_bind, Exec.holds_read]
  dsimp only
  by_cases hzero : data.all (· == 0) = true
  · rw [if_pos hzero, Exec.holds_iff_of_ok (punch_eq hmem hlt)]
    refine ⟨fun hidle ↦ ?_, fun hbusy ↦ ?_⟩
    · dsimp only
      rw [hidle.2]
      rfl
    · have hne : i.extents.flatMap (punchFree (record * s.recordBlocks)
          (record * s.recordBlocks + s.recordBlocks)) ≠ [] := fun hnil ↦ hbusy ⟨hzero, hnil⟩
      obtain ⟨r, hr⟩ := List.exists_mem_of_ne_nil _ hne
      obtain ⟨e, he, hre⟩ := List.mem_flatMap.mp hr
      have hpos : 0 < r.2 := punchFree_pos (hwf.extents e he) hre
      have hspan : span r.1 r.2 r.1 = 1 := span_eq_one ⟨le_rfl, by omega⟩
      have hfreed := span_le_cover hr r.1
      have hle := cover_punchFree_le hwf hlt r.1
      have hused := h.status_of_range hmem (b := r.1) (by omega)
      have hapart : ∀ b, cover s.alloc.free.entries b + cover (i.extents.flatMap (punchFree
          (record * s.recordBlocks) (record * s.recordBlocks + s.recordBlocks))) b ≤ s.alloc.area b := by
        intro b
        have hfits := h.inv.owned.fits b
        have hweight : cover i.ranges b ≤ s.inodes.total (fun _ i ↦ cover i.ranges b) :=
          KeyMap.weight_le_total (fun _ i ↦ cover i.ranges b) hmem
        have hb := cover_punchFree_le hwf hlt b
        unfold load at hfits
        omega
      have hafter := Allocator.freeAll_status _ h.inv.owned.alloc hapart r.1
      rw [if_pos (by omega)] at hafter
      refine ⟨r.1, fun k j hk hj ↦ ?_, ?_, Or.inl hafter⟩
      · exact h.cover_other hj hmem hk.symm (by omega)
      · dsimp only
        rw [hafter, hused]
        decide
  rw [if_neg hzero, Exec.holds_bind_of_ok (getInode_mem hmem), Exec.holds_bind, Exec.holds_read]
  have hbusy : ¬s.RecordIdle i record data := fun hidle ↦ hzero hidle.1
  have hgoal : ∀ t, Moved s ino t → (s.RecordIdle i record data → t.alloc = s.alloc) ∧
      (¬s.RecordIdle i record data → Moved s ino t) := fun t ht ↦ ⟨fun hidle ↦ absurd hidle hbusy, fun _ ↦ ht⟩
  by_cases hoff : (tryCompress s.env.lz4 (Compression.fromU8 i.compression) data).1.isOff = true
  · rw [if_pos hoff]
    refine (replace_moves h hmem hlt (by omega) data fun phys ↦ ?_).mono (fun _ t ht ↦ hgoal t ht) (fun _ _ he ↦ he)
    exact .bind (addExtent_sameAlloc _ _) fun _ ↦ getInodeMut_sameAlloc _ _
  · rw [if_neg hoff]
    refine (replace_moves h hmem hlt (physBlocks_pos _) _ fun phys ↦ ?_).mono (fun _ t ht ↦ hgoal t ht)
      (fun _ _ he ↦ he)
    exact .bind (addExtent_sameAlloc _ _) fun _ ↦ .bind (getInodeMut_sameAlloc _ _) fun _ ↦ getInodeMut_sameAlloc _ _

/-- The record in memory belongs to `ino`, or writing it back moves no block. -/
def OthersIdle (s : Inner) (ino : ℕ) : Prop :=
  ∀ c j, s.recordCache = some c → c.ino ≠ ino → c.dirty = true → s.inodes.find? c.ino = some j →
    s.RecordIdle j c.record c.data

/-- What writing back the held record of another file does to the blocks. -/
structure Unheld (s : Inner) (ino : ℕ) (i : Inode) (u : Inner) : Prop where
  sound : u.Sound
  writable : u.writable = s.writable
  record : u.recordCache = none
  mem : u.inodes.find? ino = some i
  idle : s.OthersIdle ino → u.alloc = s.alloc
  busy : ¬s.OthersIdle ino → ∃ b, cover i.ranges b = 0 ∧ s.alloc.status b ≠ u.alloc.status b

theorem flushRecordCache_unholds (h : s.Sound) (hmem : s.inodes.find? ino = some i)
    (hother : ∀ c, s.recordCache = some c → c.ino ≠ ino) :
    flushRecordCache.Holds s (fun _ u ↦ Unheld s ino i u) (fun e _ ↦ e.IsHost) := by
  have hquiet : (∀ c, s.recordCache = some c → c.dirty = false) → s.OthersIdle ino := by
    intro hclean c j hc _ hdirty _
    rw [hclean c hc] at hdirty
    cases hdirty
  unfold flushRecordCache
  rw [Exec.holds_bind, Exec.holds_read]
  cases hc : s.recordCache with
  | none =>
    have hidle := hquiet fun c hc' ↦ by
      rw [hc] at hc'
      cases hc'
    exact ⟨h, rfl, hc, hmem, fun _ ↦ rfl, fun hbusy ↦ absurd hidle hbusy⟩
  | some c =>
    dsimp only
    rw [Exec.holds_bind, Exec.holds_modify]
    cases hdirty : c.dirty with
    | false =>
      have hclean : ∀ c', s.recordCache = some c' → c'.dirty = false := by
        intro c' hc'
        rw [hc] at hc'
        cases hc'
        exact hdirty
      exact ⟨(h.forget hclean).1, rfl, rfl, hmem, fun _ ↦ rfl, fun hbusy ↦ absurd (hquiet hclean) hbusy⟩
    | true =>
      obtain ⟨j, hj, -, -⟩ := (h.held c hc).owner
      have hne := hother c hc
      have hrec := h.inv.numbered.record c hc
      have hinv := h.inv.hold none (fun _ hc ↦ by cases hc)
      have hlaid := (h.laid c.ino j hj).congr (t := { s with recordCache := none }) rfl rfl rfl
      have hs' : Sound { s with recordCache := none } :=
        ⟨hinv, fun k x hx ↦ (h.laid k x hx).congr rfl rfl rfl, h.inline, fun _ hc ↦ by cases hc⟩
      have hidle : s.OthersIdle ino ↔ s.RecordIdle j c.record c.data := by
        constructor
        · intro hall
          exact hall c j hc hne hdirty hj
        · intro hidle c' j' hc' _ _ hj'
          rw [hc] at hc'
          cases hc'
          rw [hj] at hj'
          cases hj'
          exact hidle
      refine ((storeRecord_stores (s := { s with recordCache := none }) hinv hj hlaid hrec.index_le
        hrec.length_le).and (storeRecord_moves hs' hj c.record c.data)).mono ?_ (fun _ _ he ↦ he.1)
      rintro _ u ⟨⟨j', hstored⟩, hsame, hmoved⟩
      refine ⟨hstored.sound hs' rfl, ?_, hstored.cache, ?_, fun h' ↦ hsame (hidle.mp h'), fun hbusy ↦ ?_⟩
      · rw [hstored.rewritten.shell.writable]
      · rw [hstored.rewritten.find_ne hne.symm]
        exact hmem
      · obtain ⟨b, hothers, hstatus, -⟩ := hmoved fun h' ↦ hbusy (hidle.mpr h')
        exact ⟨b, hothers ino i hne.symm hmem, hstatus⟩

/-! ## Dropping an inode -/

theorem cutKeep_zero_blank {e : Extent} (he : e.Wf i) (hraw : e.compress = 0) (b : ℕ) :
    cover (extentRanges (cutKeep 0 e)) b = 0 := by
  unfold cutKeep
  by_cases hend : e.logicalEnd ≤ 0
  · rw [if_pos hend, cover_extentRanges_single, he.physLen_eq hraw]
    have hlen : e.length = 0 := by
      unfold Extent.logicalEnd at hend
      omega
    rw [hlen, span_zero]
  · rw [if_neg hend, if_pos (Nat.zero_le _)]
    rfl

theorem demoteInline_frees (hnone : s.recordCache = none) (hmem : s.inodes.find? ino = some i) (hsize : i.size = 0)
    (now : Timespec) :
    (demoteInline ino 0 now).Holds s (fun _ t ↦ t.alloc = s.alloc ∨
      t.alloc = (extentRanges i.extents).foldl (fun a r ↦ a.freeRange r.1 r.2) s.alloc) (fun _ _ ↦ True) := by
  have hread : readData ino 0 0 s = .ok [] s := by
    unfold readData
    rw [Exec.bind_eq_of_ok (getInode_mem hmem), if_pos (by omega)]
    rfl
  have hflush : flushRecordCache s = .ok () s := by
    unfold flushRecordCache
    rw [Exec.bind_eq_of_ok (Exec.read_apply _ s), hnone]
    rfl
  unfold demoteInline
  rw [Exec.holds_bind_of_ok (getInode_mem hmem)]
  by_cases hfew : 0 ≤ inlineMax ∧ i.extents.length ≤ 1
  · rw [if_pos hfew, Exec.holds_bind_of_ok hread, Exec.holds_bind_of_ok hflush,
      Exec.holds_bind_of_ok (getInode_mem hmem), freeRanges, Exec.holds_bind, Exec.holds_modify]
    refine (getInodeMut_sameAlloc ino _ _).mono (fun _ t ht ↦ Or.inr ht) (fun _ _ _ ↦ trivial)
  · rw [if_neg hfew]
    exact Or.inl rfl

/-- Truncating a file to nothing gives back the blocks of its extents, if it has a size. -/
theorem truncateData_frees (h : s.Sound) (hwritable : s.writable = true) (hnone : s.recordCache = none)
    (hmem : s.inodes.find? ino = some i) :
    (truncateData ino 0).Holds s
      (fun _ t ↦ ∃ freed, t.alloc = freed.foldl (fun a r ↦ a.freeRange r.1 r.2) s.alloc ∧
        ∀ b, cover freed b = if i.size = 0 then 0 else cover (extentRanges i.extents) b)
      (fun _ _ ↦ True) := by
  have hwf := h.wf hmem
  have hflush : flushRecordCache s = .ok () s := by
    unfold flushRecordCache
    rw [Exec.bind_eq_of_ok (Exec.read_apply _ s), hnone]
    rfl
  unfold truncateData
  rw [Exec.holds_bind_of_ok (requireWrite_ok hwritable), if_neg (by omega), Exec.holds_bind_of_ok hflush,
    Exec.holds_bind_of_ok (getInode_mem hmem), Exec.holds_bind, Exec.holds_read]
  by_cases hsize : i.size = 0
  · rw [if_pos hsize.symm]
    exact ⟨[], rfl, fun b ↦ by rw [if_pos hsize, cover_nil]⟩
  rw [if_neg (Ne.symm hsize)]
  by_cases hkind : i.dataKind = .inline
  · rw [if_pos hkind]
    refine (getInodeMut_sameAlloc ino _ s).mono (fun _ t ht ↦ ⟨[], ht, fun b ↦ ?_⟩) (fun _ _ _ ↦ trivial)
    rw [if_neg hsize, hwf.inline hkind]
    rfl
  rw [if_neg hkind, if_pos (Nat.pos_of_ne_zero hsize)]
  by_cases huses : i.usesCompression = true
  · rw [if_pos huses, if_pos rfl, clearCompressed, freeRanges, Exec.holds_bind, Exec.holds_modify]
    refine (getInodeMut_sameAlloc ino _ _).mono (fun _ t ht ↦ ⟨_, ht, fun b ↦ ?_⟩) (fun _ _ _ ↦ trivial)
    rw [if_neg hsize]
  · rw [if_neg huses]
    rw [Bool.not_eq_true] at huses
    have hraw := raw_of_uncompressed hwf huses
    have hcut := cut_of_wf hwf hraw (ceilBlocks 0)
    have hblank : ∀ b, cover (extentRanges (i.extents.flatMap (cutKeep (ceilBlocks 0)))) b = 0 := by
      intro b
      by_contra hpos
      obtain ⟨r, hr, hin⟩ := exists_mem_of_cover_pos (Nat.pos_of_ne_zero hpos)
      obtain ⟨e', he', rfl⟩ := List.mem_map.mp hr
      obtain ⟨e, he, hkept⟩ := List.mem_flatMap.mp he'
      have hzero := cutKeep_zero_blank (hwf.extents e he) (hraw e he) b
      have hmem' : (e'.physical, e'.physLen) ∈ extentRanges (cutKeep 0 e) := List.mem_map.mpr ⟨e', hkept, rfl⟩
      have hle : span e'.physical e'.physLen b ≤ cover (extentRanges (cutKeep 0 e)) b := span_le_cover hmem' b
      have hone : span e'.physical e'.physLen b = 1 := span_eq_one hin
      omega
    unfold shrinkRaw freeRanges
    dsimp only
    rw [bind_assoc, Exec.holds_bind, Exec.holds_modify, Exec.holds_bind_of_ok (getInodeMut_mem (s := { s with
      alloc := (i.extents.flatMap (cutFree (ceilBlocks 0))).foldl (fun a r ↦ a.freeRange r.1 r.2) s.alloc }) hmem _)]
    refine Exec.Holds.mono (demoteInline_frees (i := ?j) ?_ ?_ ?_ _) ?_ (fun _ _ _ ↦ trivial)
    case j => exact Inode.touchMtime { i with
      extents := i.extents.flatMap (cutKeep (ceilBlocks 0)), size := 0,
      blocks := sectorsOf (i.extents.flatMap (cutKeep (ceilBlocks 0))) } s.env.now
    · exact hnone
    · exact KeyMap.find?_insert_self _ _ _
    · rfl
    rintro _ t (ht | ht)
    · refine ⟨_, ht, fun b ↦ ?_⟩
      have hcover := hcut.cover b
      rw [hblank b] at hcover
      rw [if_neg hsize]
      omega
    · refine ⟨i.extents.flatMap (cutFree (ceilBlocks 0)) ++
        extentRanges (i.extents.flatMap (cutKeep (ceilBlocks 0))), ?_, fun b ↦ ?_⟩
      · rw [List.foldl_append]
        exact ht
      · have hcover := hcut.cover b
        rw [if_neg hsize, cover_append]
        omega

theorem retireInode_frees (ino : ℕ) (old : Inode) (s : Inner) :
    (retireInode ino old).Holds s
      (fun _ t ↦ t.alloc = (retiredRanges old).foldl (fun a r ↦ a.freeRange r.1 r.2) s.alloc) (fun _ _ ↦ True) := by
  have hslot : (zeroSlot ino).Respects SameAlloc := by
    unfold zeroSlot
    exact .bind (.read _) fun sb ↦ .ite (.bind (.ofExcept _) fun slot ↦ onCache_sameAlloc _) (.pure _)
  have hnumber : (giveBackNumber ino).Respects SameAlloc :=
    .bind (.when fun _ ↦ .modify fun _ ↦ rfl) fun _ ↦ .modify fun _ ↦ rfl
  have hrest : (zeroSlot ino >>= fun _ ↦ giveBackNumber ino).Respects SameAlloc := .bind hslot fun _ ↦ hnumber
  unfold retireInode
  rw [Exec.holds_bind_of_ok (when_freeBlocks _ _ _ s), Exec.holds_bind_of_ok (when_freeBlocks _ _ _ _),
    Exec.holds_bind, Exec.holds_modify]
  dsimp only
  rw [← List.foldl_append]
  exact (hrest _).mono (fun _ t ht ↦ ht) (fun _ _ _ ↦ trivial)

end Inner

end LinuxFile
